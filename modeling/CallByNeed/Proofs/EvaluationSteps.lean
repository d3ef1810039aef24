import CallByNeed.Execution
import CallByNeed.Proofs.OperatorResults
import CallByNeed.Store.Lemmas
import Mathlib.Tactic.Common

/-!
# What evaluation does

One equation for each thing that evaluation can do with what an expression needs, and with a thunk:
what it gives or why it stops, and the store that it leaves. Proofs about evaluation use these
equations and do not look into the definitions.
-/

namespace CallByNeed

/-! ## Computations -/

section

variable {α β : Type} {x : Eval α} {σ σ' : Store} {a : α} {stop : Stop}

/-- What a computation gives is what the next one goes on with. -/
theorem bind_of_ok (h : x σ = .ok a σ') (f : α → Eval β) : (x >>= f) σ = f a σ' := by
  change EStateM.bind x f σ = f a σ'
  rw [EStateM.bind, h]

/-- Nothing follows a computation that stops. -/
theorem bind_of_error (h : x σ = .error stop σ') (f : α → Eval β) :
    (x >>= f) σ = .error stop σ' := by
  change EStateM.bind x f σ = .error stop σ'
  rw [EStateM.bind, h]

/-- The store that a computation leaves, whether it gives a result or stops. -/
def leftBy (x : Eval α) (σ : Store) : Store :=
  match x σ with
  | .ok _ σ' | .error _ σ' => σ'

/-- A computation that gives a result leaves the store that comes with it. -/
theorem leftBy_of_ok (h : x σ = .ok a σ') : leftBy x σ = σ' := by
  unfold leftBy
  rw [h]

/-- A computation that stops leaves the store it has come to. -/
theorem leftBy_of_error (h : x σ = .error stop σ') : leftBy x σ = σ' := by
  unfold leftBy
  rw [h]

/-- Refused operands stop the computation and change nothing. -/
theorem refuse_eq (refusal : Refusal) (place : Option Location) (σ : Store) :
    (refuse refusal place : Eval α) σ = .error (refusal.stop place) σ := by
  cases refusal <;> rfl

end

/-! ## What an expression needs -/

/-- The part of an expression that is needed first to evaluate it. -/
def Expr.needed? : Expr → Option Expr
  | literal _ _ | name _ _ | paren _ _ | arrow _ _ _ => none
  | call e _ _ | unary _ e _ | binary _ e _ _ | cond e _ _ _ => some e

/-- The parts of an expression that are evaluated in the environment of the expression, if they are
evaluated. The body of a function is not. -/
def Expr.parts : Expr → List Expr
  | literal _ _ | name _ _ | arrow _ _ _ => []
  | paren e _ | unary _ e _ => [e]
  | call f a _ => [f, a]
  | binary _ l r _ => [l, r]
  | cond c t e _ => [c, t, e]

/-- What is needed first is such a part. -/
theorem Expr.mem_parts_of_needed {e d : Expr} (h : e.needed? = some d) : d ∈ e.parts := by
  cases e <;> cases h <;> exact List.mem_cons_self

/-- The left operand leaves the result to the right one. -/
def BinaryOp.Asks (op : BinaryOp) (left : Object) : Prop :=
  ∀ decisive, op.decisive? = some decisive → left.content = .boolean (!decisive)

/-- The left operand leaves the result to the right one, decides it, or is no truth value although
it has to be one. -/
theorem BinaryOp.asks_or (op : BinaryOp) (left : Object) :
    op.Asks left ∨ (∃ decisive, op.decisive? = some decisive ∧ left.content = .boolean decisive) ∨
      op.decisive?.isSome ∧ left.content.kind? ≠ some .boolean := by
  unfold Asks
  cases op.decisive? with
  | none => exact .inl nofun
  | some decisive =>
    cases left.content with
    | boolean b =>
      by_cases hb : b = decisive
      · exact .inr (.inl ⟨decisive, rfl, by rw [hb]⟩)
      · refine .inl fun d hd => ?_
        rw [Bool.eq_not_of_ne hb, Option.some.inj hd]
    | number _ | string _ | function _ _ _ | nothing => exact .inr (.inr ⟨rfl, nofun⟩)

section

variable {op : BinaryOp} {o l r : Object} {c : Content} {refusal : Refusal}

/-- A name gives what it stands for. -/
theorem eval_name (force : Value → Eval Object) (env : Env) (x : String) (place : Option Location)
    (σ : Store) :
    eval force env (.name x place) σ =
      match σ.lookup env x with
      | some v => .ok v σ
      | none => .error (.error ⟨.undefined x, place⟩) σ := by
  rw [eval, bind_of_ok (rfl : (get : Eval Store) σ = .ok σ σ)]
  cases σ.lookup env x <;> rfl

/-- The store after a frame for a parameter was added inside an environment, and a thunk in it. -/
def Store.extendFrame (σ : Store) (closure : Env) (x : String) (a : CellId) (body : Expr) : Store :=
  ((σ.newFrame [(x, .thunk a)]).2.newThunk body (closure.inner σ.frames.size)).2

/-- A function is called by adding a thunk for the argument, a frame for the parameter, and in it a
thunk for the body. -/
theorem call_function {x : String} {body : Expr} {closure : Env}
    (ho : o.content = .function x body closure) (a : Expr) (env : Env) (place : Option Location)
    (σ : Store) :
    call o a env place σ = .ok (.thunk (σ.cells.size + 1))
      ((σ.newThunk a env).2.extendFrame closure x σ.cells.size body) := by
  have hsize : (σ.newThunk a env).2.cells.size = σ.cells.size + 1 := by simp
  rw [call, ho, ← hsize]
  rfl

/-- Nothing but a function can be called. -/
theorem call_of_ne (ho : ∀ x body closure, o.content ≠ .function x body closure) (a : Expr)
    (env : Env) (place : Option Location) :
    call o a env place = refuse (.ofKind .notFunction o.content) place := by
  unfold call
  split
  · next hc => exact absurd hc (ho _ _ _)
  · rfl

/-- An operator that gives a value makes an object of it, and the log tells of its operands. -/
theorem operate_of_ok (h : op.combine l r = .ok c) (place : Option Location) (σ : Store) :
    operate op l r place σ = make c (σ.note (.combined op l r)) := by
  rw [operate, h]
  rfl

/-- The log tells of operands that are refused, too. -/
theorem operate_of_error (h : op.combine l r = .error refusal) (place : Option Location)
    (σ : Store) :
    operate op l r place σ = refuse refusal place (σ.note (.combined op l r)) := by
  rw [operate, h]
  rfl

/-- If the left operand leaves the result to the right one, then the right one is found, and must be
a truth value if the left one is. -/
theorem operateLazily_of_asks (h : op.Asks l) (right : Eval Object) (place : Option Location) :
    operateLazily op l right place = right >>= fun r =>
      if op.decisive?.isSome → r.content.kind? = some .boolean then operate op l r place
      else refuse (.ofKind (.needsBooleans op) r.content) place := by
  unfold operateLazily
  cases hop : op.decisive? with
  | none => simp
  | some decisive =>
    have hne : (!decisive) ≠ decisive := by simp
    simp only [h decisive hop, if_neg hne]
    congr 1
    funext r
    cases r.content <;> simp [Content.kind?]

/-- An operator that is decided by its left operand gives it. -/
theorem operateLazily_of_decided {decisive : Bool} (hop : op.decisive? = some decisive)
    (hl : l.content = .boolean decisive) (right : Eval Object) (place : Option Location) :
    operateLazily op l right place = pure (.object l) := by
  simp only [operateLazily, hop, hl, if_true]

/-- An operator that could be decided by its left operand takes truth values. -/
theorem operateLazily_of_kind_ne (hop : op.decisive?.isSome)
    (hl : l.content.kind? ≠ some .boolean) (right : Eval Object) (place : Option Location) :
    operateLazily op l right place = refuse (.ofKind (.needsBooleans op) l.content) place := by
  obtain ⟨decisive, hop⟩ := Option.isSome_iff_exists.1 hop
  simp only [operateLazily, hop]
  generalize l.content = c at hl
  cases c with
  | boolean b => exact absurd rfl hl
  | number _ | string _ | function _ _ _ | nothing => rfl

/-- A condition that is no truth value is refused. -/
theorem choose_of_ne (ho : ∀ b, o.content ≠ .boolean b) (t e : Expr) (env : Env)
    (place : Option Location) : choose o t e env place = refuse (.cause .condition) place := by
  unfold choose
  split
  · next hc => exact absurd hc (ho _)
  · rfl

end

/-! ## Thunks -/

namespace Store

/-- The store in which a thunk is marked. -/
def marked (σ : Store) (a : CellId) : Store :=
  (σ.setBusy a true).note (.began a)

/-- The store in which a thunk is no longer marked, because its evaluation failed. -/
def released (σ : Store) (a : CellId) : Store :=
  (σ.setBusy a false).note (.abandoned a)

/-- The store in which a thunk is no longer marked, because it has got its result. -/
def settled (σ : Store) (a : CellId) (v : Value) : Store :=
  ((σ.setBusy a false).note (.finished a)).setMemo a v

end Store

section

variable {eval : Env → Expr → Eval Value} {σ σ' : Store} {a : CellId} {v : Value}

/-- A thunk that has a result gives it. -/
theorem step_of_memo (hmemo : (σ.cell a).memo = some v) : step eval a σ = .ok v σ := by
  rw [step, hmemo]

/-- A thunk that is marked needs itself. -/
theorem step_of_busy (hmemo : (σ.cell a).memo = none) (hbusy : (σ.cell a).busy = true) :
    step eval a σ = .error (.error ⟨.circular, (σ.cell a).expr.place⟩) σ := by
  rw [step, hmemo]
  exact if_pos hbusy

/-- A thunk whose expression fails gets no result. -/
theorem step_of_error (hmemo : (σ.cell a).memo = none) (hbusy : (σ.cell a).busy = false)
    {stop : Stop} (h : eval (σ.cell a).env (σ.cell a).expr (σ.marked a) = .error stop σ') :
    step eval a σ = .error stop (σ'.released a) := by
  rw [Store.marked] at h
  rw [step, hmemo]
  dsimp only
  rw [hbusy, if_neg Bool.false_ne_true, h]
  rfl

/-- If the expression of a thunk has a result, that is kept. -/
theorem step_of_eval_ok (hmemo : (σ.cell a).memo = none) (hbusy : (σ.cell a).busy = false)
    (h : eval (σ.cell a).env (σ.cell a).expr (σ.marked a) = .ok v σ') :
    step eval a σ =
      (fill a v >>= fun _ => pure v : Eval Value) ((σ'.setBusy a false).note (.finished a)) := by
  rw [Store.marked] at h
  rw [step, hmemo]
  dsimp only
  rw [hbusy, if_neg Bool.false_ne_true, h]
  dsimp only
  cases hfill : fill a v ((σ'.setBusy a false).note (.finished a)) with
  | error stop σ'' => rw [bind_of_error hfill]
  | ok u σ'' =>
    rw [bind_of_ok hfill]
    rfl

/-- A thunk that has got no result meanwhile is settled with the one that its expression gives. -/
theorem step_of_eval_ok_of_none (hmemo : (σ.cell a).memo = none) (hbusy : (σ.cell a).busy = false)
    (h : eval (σ.cell a).env (σ.cell a).expr (σ.marked a) = .ok v σ')
    (hmemo' : (σ'.cell a).memo = none) : step eval a σ = .ok v (σ'.settled a v) := by
  have hnone : ¬(((σ'.setBusy a false).note (.finished a)).cell a).memo.isSome = true := by
    rw [Store.cell_note, Store.cell_setBusy]
    split <;> simp [hmemo']
  have hfill : fill a v ((σ'.setBusy a false).note (.finished a)) = .ok () (σ'.settled a v) :=
    if_neg hnone
  rw [step_of_eval_ok hmemo hbusy h, bind_of_ok hfill]
  rfl

/-- A thunk that has got a result meanwhile cannot get another one. -/
theorem step_of_eval_ok_of_some (hmemo : (σ.cell a).memo = none) (hbusy : (σ.cell a).busy = false)
    (h : eval (σ.cell a).env (σ.cell a).expr (σ.marked a) = .ok v σ')
    (hmemo' : (σ'.cell a).memo.isSome) :
    step eval a σ = .error .refilled ((σ'.setBusy a false).note (.finished a)) := by
  have hsome : (((σ'.setBusy a false).note (.finished a)).cell a).memo.isSome = true := by
    rw [Store.cell_note, Store.cell_setBusy]
    split <;> exact hmemo'
  have hfill : fill a v ((σ'.setBusy a false).note (.finished a)) =
    .error .refilled ((σ'.setBusy a false).note (.finished a)) := if_pos hsome
  rw [step_of_eval_ok hmemo hbusy h, bind_of_error hfill]

end

/-- A thunk is followed step by step. -/
theorem forceWith_thunk (step : (Env → Expr → Eval Value) → CellId → Eval Value)
    (fuel depth : Nat) (a : CellId) :
    forceWith step (fuel + 1) (depth + 1) (.thunk a) =
      (step (eval (forceWith step fuel depth)) a >>= forceWith step fuel (depth + 1)) := by
  funext σ
  rw [forceWith]
  dsimp only
  cases h : step (eval (forceWith step fuel depth)) a σ with
  | error stop σ' => rw [bind_of_error h]
  | ok v σ' => rw [bind_of_ok h]

/-! ## Statements -/

/-- Declaring a name makes a thunk. -/
theorem Statement.execute_declare (force : Value → Eval Object) (env : Env) (x : String)
    (e : Expr) (place : Option Location) (σ : Store) :
    (declare x e place).execute force env σ =
      if σ.contains env x then .error (.error ⟨.taken x, place⟩) σ
      else .ok none ((σ.newThunk e env).2.bind env x (.thunk σ.cells.size)) := by
  have hget : (get : Eval Store) σ = .ok σ σ := rfl
  rw [Statement.execute, bind_of_ok hget]
  by_cases h : σ.contains env x = true
  · rw [if_pos h, if_pos h]
    rfl
  · rw [if_neg h, if_neg h]
    rfl

end CallByNeed
