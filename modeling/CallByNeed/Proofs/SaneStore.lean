import CallByNeed.Proofs.ForceSimulation
import CallByNeed.Proofs.StoreGrowth

/-!
# Sane stores

`Store.Rooted` is about the environments of a store, `Store.Ok` about its marks and results. A sane
store is one of which both hold, and evaluation leaves sane stores (`LawfulEval`).

What following a thunk does is said here in terms of three stores: the one in which the thunk is
marked, and the one in which it is released after it failed, or settled with its result.
-/

namespace CallByNeed

/-- Environments end at the top level, and marks, results and log fit together. -/
structure Store.Sane (σ : Store) : Prop where
  rooted : σ.Rooted
  ok : σ.Ok fun _ => True

/-- What evaluation may change in a store, by both accounts. -/
structure Store.Evolves (σ σ' : Store) : Prop where
  unfolds : σ.Unfolds σ'
  extension : σ.Extends σ'

namespace Store

section

variable {σ σ' σ'' : Store} {a : CellId}

/-- A store evolves into itself. -/
theorem Evolves.refl (σ : Store) : σ.Evolves σ :=
  ⟨.refl σ, .refl σ⟩

/-- A store evolves step by step. -/
theorem Evolves.trans (h : σ.Evolves σ') (h' : σ'.Evolves σ'') : σ.Evolves σ'' :=
  ⟨h.unfolds.trans h'.unfolds, h.extension.trans h'.extension⟩

/-- Making an object is something that evaluation may do. -/
theorem evolves_newObject (σ : Store) (c : Content) : σ.Evolves (σ.newObject c).2 :=
  ⟨σ.unfolds_newObject c, extends_newObject c⟩

/-- Noting an event is something that evaluation may do. -/
theorem evolves_note (σ : Store) (e : Event) : σ.Evolves (σ.note e) :=
  ⟨σ.unfolds_note e, extends_note e⟩

/-- Making a thunk is something that evaluation may do. -/
theorem evolves_newThunk (e : Expr) {env : Env} (henv : σ.HasEnv env) :
    σ.Evolves (σ.newThunk e env).2 :=
  ⟨unfolds_newThunk e henv, extends_newThunk e env⟩

/-- Entering a function is something that evaluation may do. -/
theorem evolves_extendFrame (h : σ.Rooted) (closure : Env) (x : String) (a : CellId)
    (body : Expr) : σ.Evolves (σ.extendFrame closure x a body) :=
  ⟨unfolds_extendFrame x a body h closure,
    (extends_newFrame [(x, .thunk a)]).trans (extends_newThunk body _)⟩

/-- A store stays sane when an object is made. -/
theorem Sane.newObject (h : σ.Sane) (c : Content) : (σ.newObject c).2.Sane :=
  ⟨h.rooted.newObject c, h.ok.newObject c⟩

/-- A store stays sane when an operator is applied. -/
theorem Sane.noteCombined (h : σ.Sane) (op : BinaryOp) (l r : Object) :
    (σ.note (.combined op l r)).Sane :=
  ⟨h.rooted.note _, h.ok.noteCombined op l r⟩

/-- A store stays sane when a thunk is made in one of its environments. -/
theorem Sane.newThunk (h : σ.Sane) (e : Expr) {env : Env} (henv : σ.HasEnv env) :
    (σ.newThunk e env).2.Sane :=
  ⟨h.rooted.newThunk e henv, h.ok.newThunk trivial env⟩

/-- A store stays sane when a function is entered whose closure is one of its environments. -/
theorem Sane.extendFrame (h : σ.Sane) {closure : Env} (hclosure : σ.HasEnv closure) (x : String)
    (ha : a < σ.cells.size) (body : Expr) : (σ.extendFrame closure x a body).Sane := by
  refine ⟨h.rooted.extendFrame x a body hclosure ha, Ok.newThunk (h.ok.newFrame ?_) trivial _⟩
  intro b hb
  rw [List.mem_singleton.1 hb]
  exact ha

/-- Marking a thunk leaves all that is there as it is. -/
theorem unfolds_marked (σ : Store) (a : CellId) : σ.Unfolds (σ.marked a) :=
  σ.unfolds_setBusy a true _

/-- Releasing a thunk leaves all that is there as it is. -/
theorem unfolds_released (σ : Store) (a : CellId) : σ.Unfolds (σ.released a) :=
  σ.unfolds_setBusy a false _

/-- Settling a thunk that has no result leaves all else as it is. -/
theorem unfolds_settled (hmemo : (σ.cell a).memo = none) (v : Value) :
    σ.Unfolds (σ.settled a v) := by
  refine (σ.unfolds_setBusy a false (.finished a)).trans (unfolds_setMemo ?_ v)
  rw [cell_note, memo_setBusy, hmemo]

/-- A store stays sane when a thunk is marked that has no result and is not marked. -/
theorem Sane.marked (h : σ.Sane) (ha : a < σ.cells.size) (hmemo : (σ.cell a).memo = none)
    (hbusy : (σ.cell a).busy = false) : (σ.marked a).Sane :=
  ⟨h.rooted.setBusy a true _, h.ok.marked ha hmemo hbusy⟩

/-- A store stays sane when a marked thunk without a result is released. -/
theorem Sane.released (h : σ.Sane) (ha : a < σ.cells.size) (hmemo : (σ.cell a).memo = none)
    (hbusy : (σ.cell a).busy = true) : (σ.released a).Sane :=
  ⟨h.rooted.setBusy a false _, h.ok.released ha hmemo hbusy⟩

/-- A store stays sane when a marked thunk gets a value of the store as its result. -/
theorem Sane.settled (h : σ.Sane) (ha : a < σ.cells.size) (hmemo : (σ.cell a).memo = none)
    (hbusy : (σ.cell a).busy = true) {v : Value} (hv : v.In σ) : (σ.settled a v).Sane := by
  have hnone : (((σ.setBusy a false).note (.finished a)).cell a).memo = none := by
    rw [cell_note, memo_setBusy, hmemo]
  have hv' := hv.mono (σ.unfolds_setBusy a false (.finished a)).toPersists
  refine ⟨(h.rooted.setBusy a false _).setMemo hnone hv', h.ok.settled ha hmemo hbusy ?_⟩
  rcases v with ⟨_, c⟩ | b
  · cases c with
    | nothing => exact fun _ => trivial
    | _ => trivial
  · exact hv

/-- A thunk that has a result is not marked. -/
theorem Sane.not_busy (h : σ.Sane) {v : Value} (hmemo : (σ.cell a).memo = some v) :
    (σ.cell a).busy = false := by
  by_contra hbusy
  -- the log would have it both in progress and finished
  rw [Bool.not_eq_false, h.ok.busy] at hbusy
  exact h.ok.log.not_filled_of_inProgress hbusy ((h.ok.filled a).1 (by rw [hmemo]; rfl))

/-! ### Names -/

/-- A name is looked for in the innermost frame first. -/
theorem binding?_inner (σ : Store) (env : Env) (f : FrameId) (x : String) :
    σ.binding? (env.inner f) x = ((σ.frame f).lookup x).or (σ.binding? env x) := by
  simp only [binding?, Env.frames, Env.inner, List.findSome?_cons]
  cases (σ.frame f).lookup x <;> rfl

/-- At the top level a name is looked for in one frame. -/
theorem binding?_global (σ : Store) (x : String) :
    σ.binding? .global x = (σ.frame 0).lookup x := by
  simp only [binding?, Env.frames, Env.global, List.findSome?_cons, List.findSome?_nil]
  cases (σ.frame 0).lookup x <;> rfl

/-- The innermost frame is searched first, and it binds one parameter. -/
theorem lookup_inner {f : FrameId} {x : String} (hframe : σ.frame f = [(x, .thunk a)]) (env : Env)
    (y : String) :
    σ.lookup (env.inner f) y = if y == x then some (.thunk a) else σ.lookup env y := by
  rw [Store.lookup, binding?_inner, hframe, List.lookup_cons, List.lookup_nil]
  cases y == x <;> rfl

/-- In a rooted store a name stands for what it is bound to. -/
theorem Rooted.lookup_eq (h : σ.Rooted) (env : Env) (y : String) :
    σ.lookup env y = σ.binding? env y := by
  cases hy : σ.binding? env y with
  | none => rw [Store.lookup, hy]; rfl
  | some v =>
    obtain ⟨i, -, hi⟩ := List.exists_of_findSome?_eq_some hy
    obtain ⟨l₁, l₂, hf, -⟩ := List.lookup_eq_some_iff.1 hi
    obtain ⟨a, -, rfl⟩ := h.frame i (y, v) (hf ▸ by simp)
    rw [Store.lookup, hy]
    rfl

/-- What holds of the top level and goes from an environment to each inside of it, holds of every
environment. -/
theorem Rooted.env_induction (h : σ.Rooted) {motive : Env → Prop} (global : motive .global)
    (inner : ∀ outer f, σ.HasEnv outer → 0 < f → f < σ.frames.size → motive outer →
      motive (outer.inner f)) {env : Env} (henv : σ.HasEnv env) : motive env := by
  -- a frame is added after the one outside of it, and so has the greater number
  induction hf : env.frame using Nat.strong_induction_on generalizing env with
  | _ f ih =>
  rcases h.chain env henv with rfl | ⟨outer, houter, hlt, heq⟩
  · exact global
  · have hpos : 0 < env.frame := Nat.zero_lt_of_lt hlt
    rw [heq]
    exact inner outer env.frame houter hpos (h.lt env henv) (ih outer.frame (hf ▸ hlt) houter rfl)

/-- Names stand for the same as evaluation goes on. -/
theorem Unfolds.lookup (h : σ.Unfolds σ') (hσ : σ.Rooted) {env : Env} (henv : σ.HasEnv env)
    (x : String) : σ'.lookup env x = σ.lookup env x := by
  have hbinding : σ'.binding? env x = σ.binding? env x := by
    refine hσ.env_induction (motive := fun env => σ'.binding? env x = σ.binding? env x) ?_ ?_ henv
    · rw [binding?_global, binding?_global, h.top]
    · intro outer f _ hpos hlt ih
      rw [binding?_inner, binding?_inner, h.frame f hpos hlt, ih]
  rw [Store.lookup, Store.lookup, hbinding]

/-- What a name stands for, it stands for from then on, even if other names are declared. -/
theorem Persists.lookup (h : σ.Persists σ') (hσ : σ.Rooted) {env : Env} (henv : σ.HasEnv env)
    {x : String} {v : Value} (hx : σ.lookup env x = some v) : σ'.lookup env x = some v := by
  have hbinding : ∀ w, σ.binding? env x = some w → σ'.binding? env x = some w := by
    refine hσ.env_induction
      (motive := fun env => ∀ w, σ.binding? env x = some w → σ'.binding? env x = some w) ?_ ?_ henv
    · intro w hw
      rw [binding?_global] at hw ⊢
      exact h.binding x w hw
    · intro outer f _ hpos hlt ih w hw
      rw [binding?_inner] at hw ⊢
      rw [h.frame f hpos hlt]
      cases hf : (σ.frame f).lookup x with
      | some u => rwa [hf] at hw
      | none =>
        rw [hf] at hw
        exact ih w hw
  obtain ⟨w, hw, hv⟩ := Option.bind_eq_some_iff.1 hx
  exact Option.bind_eq_some_iff.2 ⟨w, hbinding w hw, hv⟩

end

end Store

/-! ## Following a thunk -/

/-- Evaluation that leaves sane stores. -/
structure LawfulEval (eval : Env → Expr → Eval Value) : Prop where
  keeps : (Upkeep.ok fun _ => True).Evals eval
  grown : Upkeep.rooted.Evals eval

/-- Evaluation leaves sane stores, within any limits. -/
theorem lawfulEval_force (fuel depth : ℕ) : LawfulEval (eval (force fuel depth)) :=
  ⟨evals_ok fuel depth, Limits.evals_rooted ⟨fuel, depth⟩⟩

section

variable {eval : Env → Expr → Eval Value} {σ σ' : Store} {a : CellId} {v : Value}

/-- An expression that gives a value leaves a sane store, to which the value belongs. -/
theorem LawfulEval.ok (h : LawfulEval eval) (hσ : σ.Sane) {env : Env} (henv : σ.HasEnv env)
    {e : Expr} (hrun : eval env e σ = .ok v σ') : σ'.Sane ∧ σ.Evolves σ' ∧ v.In σ' := by
  obtain ⟨hok, hext, -⟩ := (h.keeps hσ.ok trivial).ok hrun
  obtain ⟨hrooted, hunfolds, hv⟩ := (h.grown hσ.rooted henv).ok hrun
  exact ⟨⟨hrooted, hok⟩, ⟨hunfolds, hext⟩, hv⟩

/-- An expression that fails leaves a sane store. -/
theorem LawfulEval.error (h : LawfulEval eval) (hσ : σ.Sane) {env : Env} (henv : σ.HasEnv env)
    {e : Expr} {stop : Stop} (hrun : eval env e σ = .error stop σ') : σ'.Sane ∧ σ.Evolves σ' := by
  obtain ⟨hext, hok, -⟩ := (h.keeps hσ.ok trivial).error hrun
  obtain ⟨hunfolds, hrooted⟩ := (h.grown hσ.rooted henv).error hrun
  exact ⟨⟨hrooted, hok⟩, ⟨hunfolds, hext⟩⟩

/-- A thunk without a result gets the one that its expression gives. -/
theorem step_of_ok (heval : LawfulEval eval) (hσ : σ.Sane) (ha : a < σ.cells.size)
    (hmemo : (σ.cell a).memo = none) (hbusy : (σ.cell a).busy = false)
    (h : eval (σ.cell a).env (σ.cell a).expr (σ.marked a) = .ok v σ') :
    step eval a σ = .ok v (σ'.settled a v) := by
  have hevolves := (heval.keeps (hσ.ok.marked ha hmemo hbusy) trivial).ok h
  exact step_of_eval_ok_of_none hmemo hbusy h (hevolves.2.1.marked ha hmemo).2.1

/-- A thunk that gets a result leaves a sane store. -/
theorem LawfulEval.step_ok (heval : LawfulEval eval) (hσ : σ.Sane) (ha : a < σ.cells.size)
    (h : step eval a σ = .ok v σ') : σ'.Sane ∧ σ.Evolves σ' := by
  have hok := (Upkeep.memoizes_ok _).follows (Upkeep.lawful_ok fun _ _ _ _ => trivial) heval.keeps
  have hrooted := Upkeep.memoizes_rooted.follows Upkeep.lawful_rooted heval.grown
  obtain ⟨hok, hext, -⟩ := (hok hσ.ok ha).ok h
  obtain ⟨hrooted, hunfolds, -⟩ := (hrooted hσ.rooted ha).ok h
  exact ⟨⟨hrooted, hok⟩, ⟨hunfolds, hext⟩⟩

end

end CallByNeed
