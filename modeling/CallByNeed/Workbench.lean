import CallByNeed.Inspection
import CallByNeed.Session

/-!
# The workbench

A workbench has named places for environments and values, and instructions that work on them one
step at a time: to make and bind things, to evaluate, step and force, and to look at the result. It
shows the parts of evaluation that a program only shows together.
-/

namespace CallByNeed

/-- What a place of the workbench holds. -/
inductive Slot where
  /-- An environment. -/
  | env (env : Env)
  /-- A value. -/
  | value (value : Value)
deriving DecidableEq, Repr

/-- The state of a workbench. -/
structure Workbench where
  /-- All frames and thunks. -/
  store : Store
  /-- How many texts were read. -/
  texts : Nat
  /-- How far evaluation may go. -/
  limits : Limits
  /-- The named places. -/
  slots : List (String × Slot)
deriving DecidableEq, Repr

/-- An instruction to the workbench. Environments and values are given by the names of their places,
and `into` is the place for the result. -/
inductive Instruction where
  /-- Makes an environment, inside another one or by itself. -/
  | newEnv (into : String) (parent : Option String)
  /-- Binds a name to a value. -/
  | bind (env name value : String)
  /-- Looks up a name. -/
  | lookup (env name : String) (into : Option String)
  /-- Asks whether a name is bound. -/
  | contains (env name : String)
  /-- Describes an environment. -/
  | inspectEnv (env : String)
  /-- Makes an object. -/
  | literal (into : String) (constant : Constant)
  /-- Makes a thunk for an expression. -/
  | thunk (into env source : String)
  /-- Evaluates an expression as far as its outermost form. -/
  | eval (into env source : String)
  /-- Gives the result of a thunk. -/
  | step (value : String) (into : Option String)
  /-- Follows thunks to an object. -/
  | force (value : String) (into : Option String)
  /-- Keeps a value as the result of a thunk. -/
  | memoize (thunk value : String)
  /-- Describes a value. -/
  | state (value : String)
  /-- Asks whether two values are one and the same. -/
  | same (left right : String)
  /-- Asks whether two values are the same or hold the same. -/
  | equal (left right : String)
  /-- Asks whether an expression mentions bound names. -/
  | references (env source : String) (params : List String)
  /-- Expands an expression. -/
  | expand (env source : String) (params expanding : List String)
  /-- Runs a program. -/
  | run (env source : String)
deriving DecidableEq, Repr

/-- What a value looks like from outside. -/
structure Description where
  /-- The value. -/
  value : Value
  /-- What kind of value it is. -/
  kind : String
  /-- The value under inspection. -/
  text : String
deriving DecidableEq, Repr

/-- What an instruction gives. -/
inductive Response where
  /-- Nothing. -/
  | nothing
  /-- Sorted names. -/
  | names (names : List String)
  /-- A value. -/
  | value (value : Value)
  /-- A truth value. -/
  | flag (flag : Bool)
  /-- A text. -/
  | text (text : String)
  /-- The description of a value. -/
  | state (description : Description)
  /-- What a program gave. -/
  | answer (answer : Answer)
  /-- The instruction failed. -/
  | failed (failure : Failure)
deriving DecidableEq, Repr

namespace Workbench

/-- An empty workbench. -/
def start (limits : Limits) : Workbench :=
  ⟨.empty, 0, limits, []⟩

/-- Puts something at a place. -/
def put (w : Workbench) (place : String) (slot : Slot) : Workbench :=
  { w with slots := (place, slot) :: w.slots }

/-- Goes on with the environment at a place. -/
def withEnv (w : Workbench) (place : String) (go : Env → Response × Workbench) :
    Response × Workbench :=
  match w.slots.lookup place with
  | some (.env env) => go env
  | _ => (.failed (.fault (.noPlace place)), w)

/-- Goes on with the value at a place. -/
def withValue (w : Workbench) (place : String) (go : Value → Response × Workbench) :
    Response × Workbench :=
  match w.slots.lookup place with
  | some (.value v) => go v
  | _ => (.failed (.fault (.noPlace place)), w)

/-- Goes on with the thunk at a place, which is needed for the given operation. -/
def withThunk (w : Workbench) (place operation : String) (go : CellId → Response × Workbench) :
    Response × Workbench :=
  w.withValue place fun
    | .thunk a => go a
    | .object o => (.failed (.fault (.lacks o.content.label operation)), w)

/-- Reads the first expression of a text and goes on with it. -/
def withExpr (w : Workbench) (source : String)
    (go : Expr → Workbench → Response × Workbench) : Response × Workbench :=
  let next := { w with texts := w.texts + 1 }
  match parseExpr w.texts source with
  | .error e => (.failed (.ofRead (some source) e), next)
  | .ok e => go e next

/-- Evaluates something and puts the value at a place, if one is given. -/
def yield (w : Workbench) (into : Option String) (work : Eval Value) : Response × Workbench :=
  match work w.store with
  | .error stop σ => (.failed (.ofStop none stop), { w with store := σ })
  | .ok v σ =>
    let w := { w with store := σ }
    (.value v, (into.map fun place => w.put place (.value v)).getD w)

/-- Describes a value. -/
def describe (w : Workbench) (v : Value) : Response :=
  match v.inspect w.store, v.kindText? with
  | some text, some kind => .state ⟨v, kind, text⟩
  | some _, none => .failed (.fault .unnamed)
  | none, _ => .failed .tooDeep

/-- Makes an environment, inside another one if that is given. -/
def addEnv (w : Workbench) (into : String) (parent : Option Env) : Response × Workbench :=
  let (f, σ) := w.store.newFrame []
  let env := (parent.map fun p => p.inner f).getD ⟨f, []⟩
  (.nothing, { w with store := σ }.put into (.env env))

/-- Carries out an instruction. -/
def perform (w : Workbench) : Instruction → Response × Workbench
  | .newEnv into none => w.addEnv into none
  | .newEnv into (some parent) => w.withEnv parent fun env => w.addEnv into (some env)
  | .bind env x place =>
    w.withEnv env fun env => w.withValue place fun v =>
      let w := { w with store := w.store.bind env x v }
      (.names (w.store.sortedNames env.frame), w)
  | .lookup env x into =>
    w.withEnv env fun env => w.yield into (pure ((w.store.lookup env x).getD .nothing))
  | .contains env x => w.withEnv env fun env => (.flag (w.store.contains env x), w)
  | .inspectEnv env => w.withEnv env fun env => (.text (w.store.inspectEnv env), w)
  | .literal into c => w.yield (some into) (make (.ofConstant c))
  | .thunk into env source =>
    w.withEnv env fun env => w.withExpr source fun e w => w.yield (some into) (suspend e env)
  | .eval into env source =>
    w.withEnv env fun env => w.withExpr source fun e w =>
      w.yield (some into) (w.limits.eval env e)
  | .step place into =>
    w.withThunk place "step" fun a => w.yield into (step (CallByNeed.eval w.limits.force) a)
  | .force place into =>
    w.withValue place fun v => w.yield into (w.limits.force v >>= fun o => pure (.object o))
  | .memoize thunk place =>
    w.withThunk thunk "memoize" fun a => w.withValue place fun v =>
      match fill a v w.store with
      | .error stop σ => (.failed (.ofStop none stop), { w with store := σ })
      | .ok () σ => (.nothing, { w with store := σ })
  | .state place => w.withValue place fun v => (w.describe v, w)
  | .same a b => w.withValue a fun v => w.withValue b fun v' => (.flag (v.same v'), w)
  | .equal a b => w.withValue a fun v => w.withValue b fun v' => (.flag (v.equal v'), w)
  | .references env source params =>
    w.withEnv env fun env => w.withExpr source fun e w =>
      (.flag (e.references w.store env params), w)
  | .expand env source params expanding =>
    w.withEnv env fun env => w.withExpr source fun e w =>
      (.text (e.expand w.store env expanding params).render, w)
  | .run env source =>
    w.withEnv env fun env =>
      let (answer, σ) := runText w.limits env w.texts source w.store
      (.answer answer, { w with store := σ, texts := w.texts + 1 })

/-- Carries out instructions in order. -/
def performAll (w : Workbench) : List Instruction → List (Response × Store)
  | [] => []
  | i :: is =>
    let (response, w) := w.perform i
    (response, w.store) :: w.performAll is

end Workbench

end CallByNeed
