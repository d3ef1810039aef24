import CallByNeed.Evaluation.Operators

/-!
# Evaluation by need

`eval` evaluates an expression as far as its outermost form: a call and a conditional give a thunk,
and only what an operator, a callee or a condition needs is forced. How forcing works is a
parameter of `eval`, so that `eval` is a recursion on the expression alone.

`force` follows thunks until it meets an object. Each thunk on the way is evaluated by `step`, which
keeps the result, so that no thunk is evaluated to the end twice, and which marks the thunk while it
is evaluated, so that one that needs itself is found out. How thunks are followed does not depend on
that, so `step` is a parameter of `forceWith`.

Forcing is bounded in two ways: `depth` bounds how deeply forcings nest, and `fuel` bounds the
length of a chain of thunks together with that depth, which makes the definition total.
-/

namespace CallByNeed

/-- A failure by the rules of the language, at the place of the expression that failed. -/
structure EvalError where
  /-- What is wrong. -/
  cause : EvalCause
  /-- Where. -/
  place : Option Location
deriving DecidableEq, Repr

/-- Why evaluation stops without a result. -/
inductive Stop where
  /-- A rule of the language is broken. -/
  | error (error : EvalError)
  /-- A remainder does not exist. -/
  | domain
  /-- The kind of an absent value is asked for. -/
  | unnamed
  /-- Two absent values are compared. -/
  | incomparable
  /-- The result of a thunk was to be kept twice. -/
  | refilled
  /-- Forcings nest too deeply. -/
  | tooDeep
  /-- The fuel is used up. -/
  | outOfFuel
deriving DecidableEq, Repr

/-- A computation on a store, which stays as it was left when the computation stops. -/
abbrev Eval := EStateM Stop Store

/-- Stops with a failure of the language. -/
def fail {α : Type} (cause : EvalCause) (place : Option Location) : Eval α :=
  throw (.error ⟨cause, place⟩)

/-- Stops because operands were refused. -/
def refuse {α : Type} (refusal : Refusal) (place : Option Location) : Eval α :=
  match refusal with
  | .cause c => fail c place
  | .domain => throw .domain
  | .unnamed => throw .unnamed
  | .incomparable => throw .incomparable

/-- Makes an object. -/
def make (c : Content) : Eval Value :=
  modifyGet fun σ => let (o, σ) := σ.newObject c; (.object o, σ)

/-- Makes a thunk. -/
def suspend (e : Expr) (env : Env) : Eval Value :=
  modifyGet fun σ => σ.newThunk e env

/-- Makes an environment inside another one, in which one name is bound. -/
def enter (closure : Env) (x : String) (v : Value) : Eval Env :=
  modifyGet fun σ => let (f, σ) := σ.newFrame [(x, v)]; (closure.inner f, σ)

/-- Calls an object: what the function gives is a thunk for its body, inside of which the parameter
is a thunk for the argument. -/
def call (callee : Object) (a : Expr) (env : Env) (place : Option Location) : Eval Value :=
  match callee.content with
  | .function x body closure => do
    let argument ← suspend a env
    let inside ← enter closure x argument
    suspend body inside
  | c => refuse (.ofKind .notFunction c) place

/-- Applies an operator before its operand. -/
def operateUnary (op : UnaryOp) (operand : Object) (place : Option Location) : Eval Value :=
  match op.apply operand.content with
  | .ok c => make c
  | .error refusal => refuse refusal place

/-- Applies an operator to two objects. -/
def operate (op : BinaryOp) (l r : Object) (place : Option Location) : Eval Value := do
  modify fun σ => σ.note (.combined op l r)
  match op.combine l r with
  | .ok c => make c
  | .error refusal => refuse refusal place

/-- Applies an operator between operands. The right one is computed only if the left one does not
decide the result. -/
def operateLazily (op : BinaryOp) (left : Object) (right : Eval Object)
    (place : Option Location) : Eval Value :=
  match op.decisive? with
  | none => do operate op left (← right) place
  | some decisive =>
    match left.content with
    | .boolean b =>
      if b = decisive then pure (.object left)
      else do
        let right ← right
        match right.content with
        | .boolean _ => operate op left right place
        | c => refuse (.ofKind (.needsBooleans op) c) place
    | c => refuse (.ofKind (.needsBooleans op) c) place

/-- Makes a thunk for the branch that a condition chooses. -/
def choose (condition : Object) (t e : Expr) (env : Env) (place : Option Location) : Eval Value :=
  match condition.content with
  | .boolean b => suspend (if b then t else e) env
  | _ => fail .condition place

/-- Evaluates an expression as far as its outermost form. -/
def eval (force : Value → Eval Object) (env : Env) : Expr → Eval Value
  | .literal c place => pure (.object ⟨.literal place, .ofConstant c⟩)
  | .name x place => do
    match (← get).lookup env x with
    | some v => pure v
    | none => fail (.undefined x) place
  | .paren e _ => eval force env e
  | .arrow x e _ => make (.function x e env)
  | .call f a place => do call (← eval force env f >>= force) a env place
  | .unary op e place => do operateUnary op (← eval force env e >>= force) place
  | .binary op l r place => do
    operateLazily op (← eval force env l >>= force) (eval force env r >>= force) place
  | .cond c t e place => do choose (← eval force env c >>= force) t e env place

/-- Keeps the result of a thunk, which must not have one. -/
def fill (a : CellId) (v : Value) : Eval Unit := fun σ =>
  if (σ.cell a).memo.isSome then .error .refilled σ else .ok () (σ.setMemo a v)

/-- Gives the result of a thunk, which may be another thunk: the one that was kept, or else the one
that `eval` gives. If that fails, nothing is kept. -/
def step (eval : Env → Expr → Eval Value) (a : CellId) : Eval Value := fun σ =>
  match (σ.cell a).memo with
  | some v => .ok v σ
  | none =>
    let e := (σ.cell a).expr
    let env := (σ.cell a).env
    if (σ.cell a).busy then .error (.error ⟨.circular, e.place⟩) σ
    else
      match eval env e ((σ.setBusy a true).note (.began a)) with
      | .error stop σ => .error stop ((σ.setBusy a false).note (.abandoned a))
      | .ok v σ =>
        match fill a v ((σ.setBusy a false).note (.finished a)) with
        | .error stop σ => .error stop σ
        | .ok () σ => .ok v σ

/-- Follows thunks to an object. `step` gives the result of a thunk, given how to evaluate. -/
@[specialize]
def forceWith (step : (Env → Expr → Eval Value) → CellId → Eval Value) :
    Nat → Nat → Value → Eval Object
  | _, _, .object o => fun σ => .ok o σ
  | 0, _, .thunk _ => fun σ => .error .outOfFuel σ
  | _ + 1, 0, .thunk _ => fun σ => .error .tooDeep σ
  | fuel + 1, depth + 1, .thunk a => fun σ =>
    match step (eval (forceWith step fuel depth)) a σ with
    | .error stop σ => .error stop σ
    | .ok v σ => forceWith step fuel (depth + 1) v σ

/-- Follows thunks to an object, and keeps the results on the way. -/
def force : Nat → Nat → Value → Eval Object :=
  forceWith step

/-- How far evaluation may go. -/
structure Limits where
  /-- The bound on chains of thunks. -/
  fuel : Nat
  /-- The bound on the nesting of forcings. -/
  depth : Nat
deriving DecidableEq, Repr

namespace Limits

/-- Follows thunks to an object, within the limits. -/
def force (limits : Limits) : Value → Eval Object :=
  CallByNeed.force limits.fuel limits.depth

/-- Evaluates an expression as far as its outermost form, within the limits. -/
def eval (limits : Limits) (env : Env) (e : Expr) : Eval Value :=
  CallByNeed.eval limits.force env e

/-- How many nested calls a forcing stands for in the limit that a user gives. -/
def callsPerForcing : Nat := 3

/-- The deepest nesting of forcings, whatever the user asks for, so that evaluation stays within the
stack of its process. -/
def deepest : Nat := 8000

/-- The longest chain of thunks that is followed. -/
def longest : Nat := 0x4000000000000000

/-- The limits that allow the given number of nested calls. -/
def ofCalls (calls : Nat) : Limits :=
  let depth := calls / callsPerForcing
  ⟨longest, if depth < deepest then depth else deepest⟩

end Limits

end CallByNeed
