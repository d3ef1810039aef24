import CallByNeed.Evaluation
import CallByNeed.Expansion
import CallByNeed.Program.Statement

/-!
# Running programs

The statements of a program are executed one after the other in one environment. The first that
fails ends the run; what was output and bound before stays. As for `eval`, how forcing works is a
parameter.
-/

namespace CallByNeed

/-- Executes a statement and gives the object that it outputs, if any. -/
def Statement.execute (force : Value → Eval Object) (env : Env) :
    Statement → Eval (Option Object)
  | declare x e place => do
    if (← get).contains env x then fail (.taken x) place
    else
      let v ← suspend e env
      modify fun σ => σ.bind env x v
      pure none
  | output .value e _ => do
    let o ← eval force env e >>= force
    pure (some o)
  | output .expansion e _ =>
    modifyGet fun σ =>
      let text := (e.expand σ env [] []).render
      let (o, σ) := σ.newObject (.string text)
      (some o, σ)

/-- What a run leaves behind. -/
structure Outcome where
  /-- What was output, in order. -/
  outputs : List Object
  /-- Why the run ended early, if it did. -/
  stop : Option Stop
  /-- The store at the end. -/
  store : Store
deriving DecidableEq, Repr

/-- Executes statements in order until one fails. -/
def execute (force : Value → Eval Object) (env : Env) : List Statement → Store → Outcome
  | [], σ => ⟨[], none, σ⟩
  | s :: ss, σ =>
    match s.execute force env σ with
    | .error stop σ => ⟨[], some stop, σ⟩
    | .ok o σ =>
      let rest := execute force env ss σ
      { rest with outputs := o.toList ++ rest.outputs }

end CallByNeed
