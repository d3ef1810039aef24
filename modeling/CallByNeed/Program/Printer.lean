import CallByNeed.Program.Expr

/-!
# Printing expressions

`Expr.render` writes an expression as a program has it. The parentheses of the tree are dropped, and
new ones are put only where the way the parts bind calls for them.
-/

namespace CallByNeed

/-- A text in double quotes, with backslashes before quotes and backslashes and for line feeds. -/
def quote (s : String) : String :=
  let escaped := s.toList.flatMap fun c =>
    if c = '\\' then ['\\', '\\']
    else if c = '"' then ['\\', '"']
    else if c = '\n' then ['\\', 'n']
    else [c]
  String.ofList ('"' :: escaped ++ ['"'])

/-- A constant as a program has it. -/
def Constant.render : Constant → String
  | number x => Number.display x
  | string s => quote s
  | boolean true => "true"
  | boolean false => "false"

/-- The text in parentheses, if they are wanted. -/
def parenthesize (wanted : Bool) (text : String) : String :=
  if wanted then "(" ++ text ++ ")" else text

/-- An expression as a program has it. The left operand of an operator is put in parentheses if it
binds less tightly than the operator, the right one also if it binds equally tightly. -/
def Expr.render : Expr → String
  | literal c _ => c.render
  | name x _ => x
  | paren e _ => e.render
  | arrow x e _ => x ++ " => " ++ e.render
  | call f a _ => parenthesize (f.precedence < 8) f.render ++ "(" ++ a.render ++ ")"
  | unary op e _ => op.text ++ parenthesize (e.precedence < 7) e.render
  | binary op l r _ =>
    parenthesize (l.precedence < op.precedence) l.render ++ " " ++ op.text ++ " " ++
      parenthesize (r.precedence ≤ op.precedence) r.render
  | cond c t e _ =>
    parenthesize (c.precedence ≤ 0) c.render ++ " ? " ++ t.render ++ " : " ++ e.render

end CallByNeed
