import CallByNeed.Program.Parser

/-!
# The grammar of programs

The grammar of the language as it is written down, from the loosest to the tightest rung:

* a program is a sequence of statements, a statement binds a name or outputs an expression;
* an expression is a chain of disjunctions, alone or as the condition of a conditional;
* each family of operators has a rung of its own, a sequence of phrases of the next tighter rung
  with operators of the family between them;
* tighter than those are the operators before an operand, then calls, then what stands by itself.

`Derives n ts` says that the tokens `ts` can be derived from the nonterminal `n`. The grammar is
ambiguous: a function may be an operand, and then it is open how far its body reaches. `Reads` is
the same grammar with the tree that belongs to a derivation, made unambiguous: operators of one
family group to the left, conditionals to the right, and the body of a function is as long as the
tokens behind it allow.
-/

namespace CallByNeed

/-- The symbol for an operator between operands. -/
def BinaryOp.symbol : BinaryOp → Symbol
  | or => .or
  | and => .and
  | equal => .strictEqual
  | notEqual => .strictNotEqual
  | less => .less
  | lessOrEqual => .lessOrEqual
  | greater => .greater
  | greaterOrEqual => .greaterOrEqual
  | add => .plus
  | subtract => .minus
  | multiply => .asterisk
  | divide => .slash
  | modulo => .percent

/-- The symbol for an operator before an operand. -/
def UnaryOp.symbol : UnaryOp → Symbol
  | not => .not
  | negate => .minus

/-- The word that opens an output statement. -/
def Output.symbol : Output → Symbol
  | value => .consoleLog
  | expansion => .inspectExpanded

/-- The token for a constant. -/
def Constant.token : Constant → TokenKind
  | number x => .number x
  | string s => .string s
  | boolean true => .symbol .true_
  | boolean false => .symbol .false_

namespace Grammar

/-- What the rules of the grammar derive. The repeated part of a rule is a nonterminal of its
own. -/
inductive Nonterminal where
  | program
  | statement
  | expr
  /-- The rung of a family of operators. -/
  | chain (family : BinaryOp.Family)
  /-- The operators of a family, each with its right operand, after the first operand. -/
  | operations (family : BinaryOp.Family)
  | unary
  | call
  /-- The arguments of a call, after the callee. -/
  | arguments
  | primary
deriving DecidableEq, Repr

/-- The rung of the operands of a family of operators. -/
def operand : BinaryOp.Family → Nonterminal
  | .disjunction => .chain .conjunction
  | .conjunction => .chain .equality
  | .equality => .chain .relation
  | .relation => .chain .addition
  | .addition => .chain .multiplication
  | .multiplication => .unary

/-- The tokens before the body of a function with the parameter `x`. -/
inductive ArrowHead (x : String) : List TokenKind → Prop where
  | bare : ArrowHead x [.identifier x, .symbol .arrow]
  | grouped : ArrowHead x
      [.symbol .leftParen, .identifier x, .symbol .rightParen, .symbol .arrow]

/-- The tokens that can be derived from a nonterminal, one constructor for each rule. -/
inductive Derives : Nonterminal → List TokenKind → Prop where
  | noStatement : Derives .program []
  | statements {ts us : List TokenKind} :
      Derives .statement ts → Derives .program us → Derives .program (ts ++ us)
  | declaration (x : String) {ts : List TokenKind} :
      Derives .expr ts →
      Derives .statement
        (.symbol .let_ :: .identifier x :: .symbol .assign :: ts ++ [.symbol .semicolon])
  | output (o : Output) {ts : List TokenKind} :
      Derives .expr ts →
      Derives .statement
        (.symbol o.symbol :: .symbol .leftParen :: ts ++
          [.symbol .rightParen, .symbol .semicolon])
  | plain {ts : List TokenKind} : Derives (.chain .disjunction) ts → Derives .expr ts
  | conditional {ts us vs : List TokenKind} :
      Derives (.chain .disjunction) ts → Derives .expr us → Derives .expr vs →
      Derives .expr (ts ++ .symbol .question :: us ++ .symbol .colon :: vs)
  | chain {f : BinaryOp.Family} {ts us : List TokenKind} :
      Derives (operand f) ts → Derives (.operations f) us → Derives (.chain f) (ts ++ us)
  | noOperation (f : BinaryOp.Family) : Derives (.operations f) []
  | operation (op : BinaryOp) {ts us : List TokenKind} :
      Derives (operand op.family) ts → Derives (.operations op.family) us →
      Derives (.operations op.family) (.symbol op.symbol :: ts ++ us)
  | unary (op : UnaryOp) {ts : List TokenKind} :
      Derives .unary ts → Derives .unary (.symbol op.symbol :: ts)
  | applied {ts : List TokenKind} : Derives .call ts → Derives .unary ts
  | call {ts us : List TokenKind} :
      Derives .primary ts → Derives .arguments us → Derives .call (ts ++ us)
  | noArgument : Derives .arguments []
  | argument {ts us : List TokenKind} :
      Derives .expr ts → Derives .arguments us →
      Derives .arguments (.symbol .leftParen :: ts ++ .symbol .rightParen :: us)
  | literal (c : Constant) : Derives .primary [c.token]
  | arrow {x : String} {hs ts : List TokenKind} :
      ArrowHead x hs → Derives .expr ts → Derives .primary (hs ++ ts)
  | name (x : String) : Derives .primary [.identifier x]
  | group {ts : List TokenKind} :
      Derives .expr ts →
      Derives .primary (.symbol .leftParen :: ts ++ [.symbol .rightParen])

/-- Of the tokens `ts ++ after`, no more than `ts` make up an expression from the start on. -/
def Longest (ts after : List TokenKind) : Prop :=
  ∀ us, us <+: ts ++ after → Derives .expr us → us.length ≤ ts.length

/-- `Reads n e ts after`: the tokens `ts`, with `after` behind them, are a phrase of the
nonterminal `n`, and `e` is its tree.

The left operand of an operator is of the operator's own rung and the right one of the next tighter
rung, so that operators of one family group to the left; the branches of a conditional are
expressions but its condition is not, so that conditionals group to the right. The body of a
function is the longest that can be read. -/
inductive Reads : Nonterminal → Expr → List TokenKind → List TokenKind → Prop where
  | plain {e : Expr} {ts after : List TokenKind} :
      Reads (.chain .disjunction) e ts after → Reads .expr e ts after
  | conditional {c t e : Expr} {ts us vs after : List TokenKind} (p : Option Location) :
      Reads (.chain .disjunction) c ts
        (.symbol .question :: us ++ .symbol .colon :: vs ++ after) →
      Reads .expr t us (.symbol .colon :: vs ++ after) →
      Reads .expr e vs after →
      Reads .expr (.cond c t e p) (ts ++ .symbol .question :: us ++ .symbol .colon :: vs) after
  | single {f : BinaryOp.Family} {e : Expr} {ts after : List TokenKind} :
      Reads (operand f) e ts after → Reads (.chain f) e ts after
  | operation (op : BinaryOp) {l r : Expr} {ts us after : List TokenKind}
      (p : Option Location) :
      Reads (.chain op.family) l ts (.symbol op.symbol :: us ++ after) →
      Reads (operand op.family) r us after →
      Reads (.chain op.family) (.binary op l r p) (ts ++ .symbol op.symbol :: us) after
  | unary (op : UnaryOp) {e : Expr} {ts after : List TokenKind} (p : Option Location) :
      Reads .unary e ts after →
      Reads .unary (.unary op e p) (.symbol op.symbol :: ts) after
  | applied {e : Expr} {ts after : List TokenKind} :
      Reads .call e ts after → Reads .unary e ts after
  | callee {e : Expr} {ts after : List TokenKind} :
      Reads .primary e ts after → Reads .call e ts after
  | call {f a : Expr} {ts us after : List TokenKind} (p : Option Location) :
      Reads .call f ts (.symbol .leftParen :: us ++ .symbol .rightParen :: after) →
      Reads .expr a us (.symbol .rightParen :: after) →
      Reads .call (.call f a p)
        (ts ++ .symbol .leftParen :: us ++ [.symbol .rightParen]) after
  | literal (c : Constant) {after : List TokenKind} (p : Option Location) :
      Reads .primary (.literal c p) [c.token] after
  | arrow {x : String} {e : Expr} {hs ts after : List TokenKind} (p : Option Location) :
      ArrowHead x hs → Reads .expr e ts after → Longest ts after →
      Reads .primary (.arrow x e p) (hs ++ ts) after
  | name (x : String) {after : List TokenKind} (p : Option Location) :
      Reads .primary (.name x p) [.identifier x] after
  | group {e : Expr} {ts after : List TokenKind} (p : Option Location) :
      Reads .expr e ts (.symbol .rightParen :: after) →
      Reads .primary (.paren e p) (.symbol .leftParen :: ts ++ [.symbol .rightParen]) after

/-- The tokens of a list of statements, each expression read with what follows it. -/
inductive ReadsProgram : List Statement → List TokenKind → Prop where
  | nil : ReadsProgram [] []
  | declare (x : String) {e : Expr} {ts us : List TokenKind} {ss : List Statement}
      (p : Option Location) :
      Reads .expr e ts (.symbol .semicolon :: us) → ReadsProgram ss us →
      ReadsProgram (.declare x e p :: ss)
        (.symbol .let_ :: .identifier x :: .symbol .assign :: ts ++ .symbol .semicolon :: us)
  | output (o : Output) {e : Expr} {ts us : List TokenKind} {ss : List Statement}
      (p : Option Location) :
      Reads .expr e ts (.symbol .rightParen :: .symbol .semicolon :: us) → ReadsProgram ss us →
      ReadsProgram (.output o e p :: ss)
        (.symbol o.symbol :: .symbol .leftParen :: ts ++
          .symbol .rightParen :: .symbol .semicolon :: us)

end Grammar

end CallByNeed
