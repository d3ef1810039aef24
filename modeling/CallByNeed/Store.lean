import CallByNeed.Program.Expr

/-!
# Values and the store they live in

Evaluation is by need: what a name stands for is a *thunk*, an expression together with the
environment it is to be evaluated in, and the first time it is needed its result is kept. Thunks and
the frames of environments are numbered cells of a `Store`, so that all who share a thunk see the
result that one of them needed.

An evaluated value is an `Object`: besides its content it has an identity, by which functions are
compared.
-/

namespace CallByNeed

/-- The number of a frame in its store. -/
abbrev FrameId := Nat

/-- The number of a thunk's cell in its store. -/
abbrev CellId := Nat

/-- An environment: the frames in which a name is looked up, innermost first. There is at least
one. -/
structure Env where
  /-- The innermost frame. -/
  frame : FrameId
  /-- The frames around it, innermost first. -/
  outer : List FrameId
deriving DecidableEq, Repr, Inhabited

namespace Env

/-- The environment of the top level. -/
def global : Env :=
  ⟨0, []⟩

/-- All frames, innermost first. -/
def frames (env : Env) : List FrameId :=
  env.frame :: env.outer

/-- The environment with one more frame inside. -/
def inner (env : Env) (frame : FrameId) : Env :=
  ⟨frame, env.frames⟩

end Env

/-- Which object an object is. -/
inductive Identity where
  /-- The one object that a constant of a program stands for, however often it is evaluated. -/
  | literal (place : Option Location)
  /-- The object that was made as the `n`-th. -/
  | made (n : Nat)
  /-- The absence of a value, of which there is only one. -/
  | nothing
deriving DecidableEq, Repr

/-- What kind of value something is. -/
inductive Kind where
  | number
  | string
  | boolean
  | function
deriving DecidableEq, Repr

/-- How a kind of value is called. -/
def Kind.text : Kind → String
  | number => "number"
  | string => "string"
  | boolean => "boolean"
  | function => "function"

/-- What an evaluated value holds. -/
inductive Content where
  /-- A number. -/
  | number (value : Float)
  /-- A text. -/
  | string (value : String)
  /-- A truth value. -/
  | boolean (value : Bool)
  /-- A function and the environment it was written in. -/
  | function (parameter : String) (body : Expr) (closure : Env)
  /-- No value at all. No program writes it, but a name can be bound to it from outside, and it can
  be kept as the result of a thunk. -/
  | nothing
deriving DecidableEq, Repr

namespace Content

/-- What kind of value it is, if it is one. -/
def kind? : Content → Option Kind
  | number _ => some .number
  | string _ => some .string
  | boolean _ => some .boolean
  | function _ _ _ => some .function
  | nothing => none

/-- What a constant stands for. -/
def ofConstant : Constant → Content
  | .number x => number x
  | .string s => string s
  | .boolean b => boolean b

/-- The text that is output for a value, and that takes part in joining texts. -/
def display : Content → String
  | number x => Number.display x
  | string s => s
  | boolean true => "true"
  | boolean false => "false"
  | function _ _ _ => "[Function]"
  | nothing => "None"

end Content

/-- An evaluated value. -/
structure Object where
  /-- Which object it is. -/
  identity : Identity
  /-- What it holds. -/
  content : Content
deriving DecidableEq, Repr

/-- The absence of a value. -/
def Object.nothing : Object :=
  ⟨.nothing, .nothing⟩

/-- A value: an object, or a thunk that stands for one. -/
inductive Value where
  /-- An evaluated value. -/
  | object (object : Object)
  /-- A thunk, by its cell. -/
  | thunk (cell : CellId)
deriving DecidableEq, Repr

namespace Value

/-- The absence of a value. -/
def nothing : Value :=
  object .nothing

/-- The value, unless it is absent. -/
def present? : Value → Option Value
  | object ⟨_, .nothing⟩ => none
  | v => some v

end Value

/-- The names bound in one frame, each once. -/
abbrev Frame := List (String × Value)

namespace Frame

/-- Binds a name, instead of what it was bound to before. -/
def bind (f : Frame) (x : String) (v : Value) : Frame :=
  (x, v) :: f.filter fun b => b.1 != x

/-- The names bound in the frame. -/
def names (f : Frame) : List String :=
  f.map Prod.fst

end Frame

/-- A thunk: an expression, the environment to evaluate it in, and what became of it. -/
structure Cell where
  /-- The expression. -/
  expr : Expr
  /-- The environment to evaluate it in. -/
  env : Env
  /-- The result, which may be another thunk, once there is one. -/
  memo : Option Value
  /-- Whether the expression is being evaluated. -/
  busy : Bool
deriving DecidableEq, Repr

instance : Inhabited Cell :=
  ⟨⟨.literal (.boolean false) none, default, none, false⟩⟩

/-- Something evaluation did that is worth counting. -/
inductive Event where
  /-- An operator was applied to two objects. -/
  | combined (op : BinaryOp) (left right : Object)
  /-- The evaluation of a thunk's expression began. -/
  | began (cell : CellId)
  /-- The evaluation of a thunk's expression stopped without a result. -/
  | abandoned (cell : CellId)
  /-- The evaluation of a thunk's expression gave a result. -/
  | finished (cell : CellId)
  /-- The result of a thunk was kept. -/
  | filled (cell : CellId)
deriving DecidableEq, Repr

/-- All frames and thunks there are. -/
structure Store where
  /-- The frames, by number. The first one is that of the top level. -/
  frames : Array Frame
  /-- The thunks, by number. -/
  cells : Array Cell
  /-- How many objects were made. -/
  made : Nat
  /-- What evaluation did, the last first. -/
  log : List Event
deriving DecidableEq, Repr, Inhabited

namespace Store

/-- A store with an empty top level and nothing else. -/
def empty : Store :=
  ⟨#[[]], #[], 0, []⟩

/-- The frame with the given number. -/
def frame (σ : Store) (f : FrameId) : Frame :=
  σ.frames.getD f []

/-- The thunk with the given number. -/
def cell (σ : Store) (a : CellId) : Cell :=
  σ.cells.getD a default

/-- What a name is bound to in an environment: the binding of the innermost frame that has one. -/
def binding? (σ : Store) (env : Env) (x : String) : Option Value :=
  env.frames.findSome? fun f => (σ.frame f).lookup x

/-- What a name stands for in an environment. A name that is bound to nothing stands for nothing,
even if a frame further out binds it too. -/
def lookup (σ : Store) (env : Env) (x : String) : Option Value :=
  (σ.binding? env x).bind Value.present?

/-- Whether a name stands for anything in an environment. -/
def contains (σ : Store) (env : Env) (x : String) : Bool :=
  (σ.lookup env x).isSome

/-- Binds a name in the innermost frame of an environment. -/
def bind (σ : Store) (env : Env) (x : String) (v : Value) : Store :=
  { σ with frames := σ.frames.modify env.frame fun f => Frame.bind f x v }

/-- Adds a frame. -/
def newFrame (σ : Store) (f : Frame) : FrameId × Store :=
  (σ.frames.size, { σ with frames := σ.frames.push f })

/-- Adds a thunk for an expression in an environment. -/
def newThunk (σ : Store) (e : Expr) (env : Env) : Value × Store :=
  (.thunk σ.cells.size, { σ with cells := σ.cells.push ⟨e, env, none, false⟩ })

/-- Adds an object with the given content. -/
def newObject (σ : Store) (c : Content) : Object × Store :=
  (⟨.made σ.made, c⟩, { σ with made := σ.made + 1 })

/-- Notes whether a thunk is being evaluated. -/
def setBusy (σ : Store) (a : CellId) (busy : Bool) : Store :=
  { σ with cells := σ.cells.modify a fun c => { c with busy := busy } }

/-- Keeps the result of a thunk. -/
def setMemo (σ : Store) (a : CellId) (v : Value) : Store :=
  { σ with
    cells := σ.cells.modify a fun c => { c with memo := some v }
    log := .filled a :: σ.log }

/-- Notes an event. -/
def note (σ : Store) (e : Event) : Store :=
  { σ with log := e :: σ.log }

/-- The number of bindings in all frames. -/
def bindingCount (σ : Store) : Nat :=
  σ.frames.foldl (fun n f => n + f.length) 0

end Store

end CallByNeed
