import CallByNeed.Program.Statement
import CallByNeed.Token

/-!
# Reading expressions token by token

An expression is read from left to right, one token at a time, without looking ahead. What has been
read so far is a `Reading`: either an operand is due, or one has just been completed.

What still waits for an operand falls into two kinds. A function, an operator or the last branch of
a conditional is complete as soon as its operand is: these form a *trail*, innermost first. An open
parenthesis, argument or first branch of a conditional waits for a token that closes it: these are
the *openings*, each with the trail it interrupted.

When an operator follows an operand, the part of the trail that binds at least as tightly is
completed first (`reduce`), which makes operators group to the left. A token that closes something
completes the whole trail.
-/

namespace CallByNeed

/-- What the reader was waiting for when it met a token it cannot use. -/
inductive Expectation where
  /-- The word that opens a statement. -/
  | statement
  /-- The name that a declaration binds. -/
  | declaredName
  /-- The sign between the name and the expression of a declaration. -/
  | assign
  /-- The end of a declaration. -/
  | declarationEnd
  /-- The parenthesis that opens an output statement. -/
  | outputOpen (output : Output)
  /-- The parenthesis that closes an output statement. -/
  | outputClose (output : Output)
  /-- The end of an output statement. -/
  | outputEnd
  /-- The sign between the branches of a conditional. -/
  | colon
  /-- The parenthesis that closes an argument. -/
  | callClose
  /-- The parenthesis that closes a group. -/
  | groupClose
  /-- An operand. -/
  | expression
deriving DecidableEq, Repr

/-- How an expectation is put in a message. -/
def Expectation.text : Expectation → String
  | statement => "Expected 'let', 'console.log' or 'inspect.expanded'"
  | declaredName => "Expected identifier after 'let'"
  | assign => "Expected '=' after variable name"
  | declarationEnd => "Expected ';' after variable declaration"
  | outputOpen o => "Expected '(' after '" ++ o.keyword ++ "'"
  | outputClose o => "Expected ')' after '" ++ o.keyword ++ "' argument"
  | outputEnd => "Expected ';' after statement"
  | colon => "Expected ':' in conditional expression"
  | callClose => "Expected ')' after function call argument"
  | groupClose => "Expected ')' after expression"
  | expression => "Expected expression"

/-- The operator between operands that a symbol stands for. -/
def Symbol.binaryOp? : Symbol → Option BinaryOp
  | .or => some .or
  | .and => some .and
  | strictEqual => some .equal
  | strictNotEqual => some .notEqual
  | less => some .less
  | lessOrEqual => some .lessOrEqual
  | greater => some .greater
  | greaterOrEqual => some .greaterOrEqual
  | plus => some .add
  | minus => some .subtract
  | asterisk => some .multiply
  | slash => some .divide
  | percent => some .modulo
  | _ => none

/-- The operator before an operand that a symbol stands for. -/
def Symbol.unaryOp? : Symbol → Option UnaryOp
  | .not => some .not
  | minus => some .negate
  | _ => none

/-- An expression that lacks its last operand. -/
inductive Trailing where
  /-- A function without its body. -/
  | arrow (parameter : String) (place : Option Location)
  /-- An operator without its operand. -/
  | unary (op : UnaryOp) (place : Option Location)
  /-- An operator without its right operand. -/
  | binary (op : BinaryOp) (left : Expr) (place : Option Location)
  /-- A conditional without its second branch. -/
  | alternate (condition consequent : Expr) (place : Option Location)
deriving DecidableEq, Repr

namespace Trailing

/-- The expression, given its last operand. -/
def complete (e : Expr) : Trailing → Expr
  | arrow x p => .arrow x e p
  | unary op p => .unary op e p
  | binary op l p => .binary op l e p
  | alternate c t p => .cond c t e p

/-- How tightly the expression will bind. -/
def precedence : Trailing → Nat
  | arrow _ _ | alternate _ _ _ => 0
  | unary _ _ => 7
  | binary op _ _ => op.precedence

end Trailing

/-- Completes the part of a trail that binds at least as tightly as `p`, starting with `e` as the
innermost operand. -/
def reduce (p : Nat) (e : Expr) : List Trailing → Expr × List Trailing
  | [] => (e, [])
  | t :: ts => if p ≤ t.precedence then reduce p (t.complete e) ts else (e, t :: ts)

/-- Completes a whole trail. -/
def completeAll (e : Expr) (trail : List Trailing) : Expr :=
  trail.foldl Trailing.complete e

/-- Everything binds at least as tightly as zero, so nothing of the trail is left. -/
theorem reduce_zero (e : Expr) (trail : List Trailing) :
    reduce 0 e trail = (completeAll e trail, []) := by
  induction trail generalizing e with
  | nil => rfl
  | cons t ts ih => simpa [reduce, completeAll] using ih (t.complete e)

/-- What is left of a trail binds less tightly than `p`, at least on the inside. -/
theorem lt_of_mem_head?_reduce {p : Nat} {e : Expr} {trail : List Trailing} {t : Trailing}
    (h : t ∈ (reduce p e trail).2.head?) : t.precedence < p := by
  induction trail generalizing e with
  | nil => simp [reduce] at h
  | cons s ts ih =>
    rw [reduce] at h
    split at h
    · exact ih h
    · next hp =>
      obtain rfl : s = t := by simpa using h
      exact Nat.lt_of_not_le hp

/-- Completing a part of a trail and then the rest is completing all of it. -/
theorem completeAll_reduce (p : Nat) (e : Expr) (trail : List Trailing) :
    completeAll (reduce p e trail).1 (reduce p e trail).2 = completeAll e trail := by
  induction trail generalizing e with
  | nil => rfl
  | cons t ts ih =>
    rw [reduce]
    split
    · exact ih (t.complete e)
    · rfl

/-- What waits for the token that closes it. -/
inductive Opening where
  /-- An expression in parentheses. -/
  | group (place : Option Location)
  /-- The argument of a call. -/
  | argument (callee : Expr) (place : Option Location)
  /-- The first branch of a conditional. -/
  | consequent (condition : Expr) (place : Option Location)
deriving DecidableEq, Repr

/-- The token that an opening waits for. -/
def Opening.expectation : Opening → Expectation
  | group _ => .groupClose
  | argument _ _ => .callClose
  | consequent _ _ => .colon

/-- An opening and the trail that it interrupted. -/
structure Level where
  /-- What was opened. -/
  opening : Opening
  /-- What waited for an operand when it was opened, innermost first. -/
  trail : List Trailing
deriving DecidableEq, Repr

/-- An expression that has been read in part: the trail of the innermost level, and the levels
around it. -/
inductive Reading where
  /-- An operand is due. -/
  | operand (trail : List Trailing) (outer : List Level)
  /-- The operand `e` has just been completed. -/
  | operator (e : Expr) (trail : List Trailing) (outer : List Level)
deriving DecidableEq, Repr

/-- What becomes of a reading when a token is met. -/
inductive Reading.Progress where
  /-- The token belongs to the expression. -/
  | next (reading : Reading)
  /-- The expression ended before the token. -/
  | done (e : Expr)
  /-- The token cannot stand here. -/
  | stuck (expectation : Expectation)
deriving DecidableEq, Repr

namespace Reading

/-- Nothing has been read yet. -/
def start : Reading :=
  operand [] []

/-- The parameter and the place of a function whose parameter list is `e`: a name, or a name in
parentheses. -/
def parameter? : Expr → Option (String × Option Location)
  | .name x p => some (x, p)
  | .paren (.name x _) p => some (x, p)
  | _ => none

/-- The reading after a token at which an operand is due. -/
def feedOperand (trail : List Trailing) (outer : List Level) (t : Token) : Progress :=
  let place := some t.location
  match t.kind with
  | .number x => .next (operator (.literal (.number x) place) trail outer)
  | .string s => .next (operator (.literal (.string s) place) trail outer)
  | .identifier x => .next (operator (.name x place) trail outer)
  | .symbol .true_ => .next (operator (.literal (.boolean true) place) trail outer)
  | .symbol .false_ => .next (operator (.literal (.boolean false) place) trail outer)
  | .symbol .leftParen => .next (operand [] (⟨.group place, trail⟩ :: outer))
  | .symbol s =>
    match s.unaryOp? with
    | some op => .next (operand (.unary op place :: trail) outer)
    | none => .stuck .expression
  | .eof => .stuck .expression

/-- What becomes of a completed operand if the token does not go on with it: the expression has
ended, unless something is still open. -/
def leave (e : Expr) (trail : List Trailing) : List Level → Progress
  | [] => .done (completeAll e trail)
  | level :: _ => .stuck level.opening.expectation

/-- The reading after a token that follows a completed operand. -/
def feedOperator (e : Expr) (trail : List Trailing) (outer : List Level) (t : Token) : Progress :=
  let place := some t.location
  match t.kind with
  | .symbol .leftParen => .next (operand [] (⟨.argument e place, trail⟩ :: outer))
  | .symbol .rightParen =>
    match outer with
    | ⟨.group p, ts⟩ :: outer => .next (operator (.paren (completeAll e trail) p) ts outer)
    | ⟨.argument f p, ts⟩ :: outer => .next (operator (.call f (completeAll e trail) p) ts outer)
    | outer => leave e trail outer
  | .symbol .question =>
    let (condition, ts) := reduce 1 e trail
    .next (operand [] (⟨.consequent condition place, ts⟩ :: outer))
  | .symbol .colon =>
    match outer with
    | ⟨.consequent c p, ts⟩ :: outer =>
      .next (operand (.alternate c (completeAll e trail) p :: ts) outer)
    | outer => leave e trail outer
  | .symbol .arrow =>
    match parameter? e with
    | some (x, p) => .next (operand (.arrow x p :: trail) outer)
    | none => leave e trail outer
  | .symbol s =>
    match s.binaryOp? with
    | some op =>
      let (left, ts) := reduce op.precedence e trail
      .next (operand (.binary op left place :: ts) outer)
    | none => leave e trail outer
  | _ => leave e trail outer

/-- What becomes of a reading when a token is met. -/
def feed (r : Reading) (t : Token) : Progress :=
  match r with
  | operand trail outer => feedOperand trail outer t
  | operator e trail outer => feedOperator e trail outer t

end Reading

end CallByNeed
