import CallByNeed.Location
import CallByNeed.Number

/-!
# Expressions

The expressions of the language: constants, names, one-parameter functions, calls, operators and
conditionals. Every expression knows the place it was read from, if it was read from a text, and
parentheses are part of the tree although they mean nothing.

How tightly an expression binds is a number from 0 to 9 (`Expr.precedence`); the printer and the
reader agree on it.
-/

namespace CallByNeed

/-- A number, a text or a truth value written in a program. -/
inductive Constant where
  /-- A number. -/
  | number (value : Float)
  /-- A text. -/
  | string (value : String)
  /-- A truth value. -/
  | boolean (value : Bool)
deriving DecidableEq, Repr

/-- Whether two constants are alike. Numbers are compared as numbers, so that the two zeros are
alike and what is not a number is like nothing. -/
def Constant.alike : Constant → Constant → Bool
  | number x, number y => x == y
  | string s, string t => s == t
  | boolean a, boolean b => a == b
  | _, _ => false

/-- The operators with one operand. -/
inductive UnaryOp where
  /-- Negation of a truth value. -/
  | not
  /-- Negation of a number. -/
  | negate
deriving DecidableEq, Repr

/-- How the operator is written. -/
def UnaryOp.text : UnaryOp → String
  | not => "!"
  | negate => "-"

/-- The operators with two operands. -/
inductive BinaryOp where
  | or
  | and
  | equal
  | notEqual
  | less
  | lessOrEqual
  | greater
  | greaterOrEqual
  | add
  | subtract
  | multiply
  | divide
  | modulo
deriving DecidableEq, Repr

namespace BinaryOp

/-- How the operator is written. -/
def text : BinaryOp → String
  | or => "||"
  | and => "&&"
  | equal => "==="
  | notEqual => "!=="
  | less => "<"
  | lessOrEqual => "<="
  | greater => ">"
  | greaterOrEqual => ">="
  | add => "+"
  | subtract => "-"
  | multiply => "*"
  | divide => "/"
  | modulo => "%"

/-- The families of operators, which bind equally tightly. -/
inductive Family where
  | disjunction
  | conjunction
  | equality
  | relation
  | addition
  | multiplication
deriving DecidableEq, Repr

/-- The family an operator belongs to. -/
def family : BinaryOp → Family
  | or => .disjunction
  | and => .conjunction
  | equal | notEqual => .equality
  | less | lessOrEqual | greater | greaterOrEqual => .relation
  | add | subtract => .addition
  | multiply | divide | modulo => .multiplication

/-- How tightly the operators of a family bind, from 1 to 6. -/
def Family.precedence : Family → Nat
  | disjunction => 1
  | conjunction => 2
  | equality => 3
  | relation => 4
  | addition => 5
  | multiplication => 6

/-- How tightly an operator binds, from 1 to 6. -/
def precedence (op : BinaryOp) : Nat :=
  op.family.precedence

end BinaryOp

/-- An expression, each node with the place it was read from. -/
inductive Expr where
  /-- A constant. -/
  | literal (value : Constant) (place : Option Location)
  /-- A name. -/
  | name (name : String) (place : Option Location)
  /-- An expression in parentheses. -/
  | paren (inner : Expr) (place : Option Location)
  /-- A function of one parameter. -/
  | arrow (parameter : String) (body : Expr) (place : Option Location)
  /-- A call of a function with one argument. -/
  | call (callee argument : Expr) (place : Option Location)
  /-- An operator before its operand. -/
  | unary (op : UnaryOp) (operand : Expr) (place : Option Location)
  /-- An operator between its operands. -/
  | binary (op : BinaryOp) (left right : Expr) (place : Option Location)
  /-- A choice between two expressions. -/
  | cond (condition consequent alternate : Expr) (place : Option Location)
deriving DecidableEq, Repr

namespace Expr

/-- The place an expression was read from. -/
def place : Expr → Option Location
  | literal _ p | name _ p | paren _ p | arrow _ _ p | call _ _ p | unary _ _ p | binary _ _ _ p
  | cond _ _ _ p => p

/-- How tightly an expression binds: 0 for functions and conditionals, which reach as far to the
right as they can, then the operators between operands, 7 for the operators before one, 8 for calls
and 9 for what stands by itself. Parentheses do not count. -/
def precedence : Expr → Nat
  | literal _ _ | name _ _ => 9
  | paren e _ => e.precedence
  | arrow _ _ _ | cond _ _ _ _ => 0
  | call _ _ _ => 8
  | unary _ _ _ => 7
  | binary op _ _ _ => op.precedence

/-- The direct parts of an expression, from left to right. -/
def children : Expr → List Expr
  | literal _ _ | name _ _ => []
  | paren e _ | arrow _ e _ | unary _ e _ => [e]
  | call f a _ => [f, a]
  | binary _ l r _ => [l, r]
  | cond c t e _ => [c, t, e]

/-- Whether two expressions are the same apart from the places they were read from. -/
def alike : Expr → Expr → Bool
  | literal c _, literal d _ => c.alike d
  | name x _, name y _ => x == y
  | paren e _, paren f _ => alike e f
  | arrow x e _, arrow y f _ => x == y && alike e f
  | call f a _, call g b _ => alike f g && alike a b
  | unary o e _, unary p f _ => o == p && alike e f
  | binary o l r _, binary p k s _ => o == p && alike l k && alike r s
  | cond c t e _, cond d u f _ => alike c d && alike t u && alike e f
  | _, _ => false

end Expr

end CallByNeed
