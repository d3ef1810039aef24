import CallByNeed.Proofs.SaneStore

/-!
# The moments of an evaluation

Evaluation is a function from a store to a store, and what happens in between is not part of its
result. `Passes` tells it: a `Work` that is done in a store passes through a number of moments, each
of which has a store and the values that the evaluator holds in its hands. There is a moment
before and after every piece of work, and one after each change to the store.

That no change is left out can be seen from the age of stores (`Store.age`), to which each change
adds one: there is a moment for every age from the beginning to the end (`exists_passes_of_age`).
-/

namespace CallByNeed

/-- What the evaluator can be busy with. -/
inductive Work where
  /-- Evaluate an expression as far as its outermost form. -/
  | eval (env : Env) (e : Expr)
  /-- Evaluate an expression and follow thunks from there to an object. -/
  | value (env : Env) (e : Expr)
  /-- Follow thunks to an object. -/
  | force (v : Value)
  /-- Give the result of a thunk. -/
  | step (a : CellId)

/-- Does the work within the limits. -/
def Work.run (limits : Limits) : Work → Eval Value
  | eval env e => CallByNeed.eval limits.force env e
  | value env e => do return .object (← CallByNeed.eval limits.force env e >>= limits.force)
  | force v => do return .object (← limits.force v)
  | step a => CallByNeed.step (CallByNeed.eval limits.force) a

/-- What the evaluator is given for the work. -/
def Work.hand : Work → List Value
  | eval _ _ | value _ _ => []
  | force v => [v]
  | step a => [.thunk a]

/-- A moment of an evaluation. -/
structure Moment where
  /-- The store as it is. -/
  store : Store
  /-- The values that the evaluator holds, in the store or not. -/
  hand : List Value

namespace Moment

/-- The moment at which the evaluator holds one value more. -/
def holding (m : Moment) (v : Value) : Moment :=
  { m with hand := v :: m.hand }

/-- There is an object at a moment: the evaluator holds it, a thunk has it as its result, or a frame
binds it to a name. -/
def Has (m : Moment) (o : Object) : Prop :=
  .object o ∈ m.hand ∨ (∃ a, (m.store.cell a).memo = some (.object o)) ∨
    ∃ i x, (x, .object o) ∈ m.store.frame i

end Moment

/-- The moments of a work that is done within limits, from a store on. -/
inductive Passes : Limits → Work → Store → Moment → Prop where
  /-- Nothing was done yet. -/
  | start (limits : Limits) (w : Work) (σ : Store) : Passes limits w σ ⟨σ, w.hand⟩
  /-- The work is done. -/
  | done {limits : Limits} {w : Work} {σ σ' : Store} {v : Value} :
      w.run limits σ = .ok v σ' → Passes limits w σ ⟨σ', [v]⟩
  /-- The work has failed. -/
  | failed {limits : Limits} {w : Work} {σ σ' : Store} {stop : Stop} :
      w.run limits σ = .error stop σ' → Passes limits w σ ⟨σ', []⟩
  /-- The expression in parentheses is evaluated. -/
  | paren {limits : Limits} {env : Env} {e : Expr} {place : Option Location} {σ : Store}
      {m : Moment} :
      Passes limits (.eval env e) σ m → Passes limits (.eval env (.paren e place)) σ m
  /-- The value of the callee, the condition or the first operand is found. -/
  | needed {limits : Limits} {env : Env} {e d : Expr} {σ : Store} {m : Moment} :
      e.needed? = some d → Passes limits (.value env d) σ m → Passes limits (.eval env e) σ m
  /-- The value of the right operand is found, while the left one is held. -/
  | right {limits : Limits} {env : Env} {op : BinaryOp} {l r : Expr} {place : Option Location}
      {σ σ₁ : Store} {left : Object} {m : Moment} :
      (Work.value env l).run limits σ = .ok (.object left) σ₁ → op.Asks left →
      Passes limits (.value env r) σ₁ m →
      Passes limits (.eval env (.binary op l r place)) σ (m.holding (.object left))
  /-- The operator is applied to its operands. -/
  | combined {limits : Limits} {env : Env} {op : BinaryOp} {l r : Expr} {place : Option Location}
      {σ σ₁ σ₂ : Store} {left right : Object} :
      (Work.value env l).run limits σ = .ok (.object left) σ₁ → op.Asks left →
      (Work.value env r).run limits σ₁ = .ok (.object right) σ₂ →
      (op.decisive?.isSome → right.content.kind? = some .boolean) →
      Passes limits (.eval env (.binary op l r place)) σ
        ⟨σ₂.note (.combined op left right), [.object left, .object right]⟩
  /-- A function is called, and there is a thunk for the argument. -/
  | argument {limits : Limits} {env : Env} {f a : Expr} {place : Option Location} {σ σ₁ : Store}
      {callee : Object} {x : String} {body : Expr} {closure : Env} :
      (Work.value env f).run limits σ = .ok (.object callee) σ₁ →
      callee.content = .function x body closure →
      Passes limits (.eval env (.call f a place)) σ
        ⟨(σ₁.newThunk a env).2, [.object callee, .thunk σ₁.cells.size]⟩
  /-- A function is called, and there is a frame that binds its parameter. -/
  | entered {limits : Limits} {env : Env} {f a : Expr} {place : Option Location} {σ σ₁ : Store}
      {callee : Object} {x : String} {body : Expr} {closure : Env} :
      (Work.value env f).run limits σ = .ok (.object callee) σ₁ →
      callee.content = .function x body closure →
      Passes limits (.eval env (.call f a place)) σ
        ⟨((σ₁.newThunk a env).2.newFrame [(x, .thunk σ₁.cells.size)]).2, [.object callee]⟩
  /-- The expression whose value is to be found is evaluated. -/
  | outermost {limits : Limits} {env : Env} {e : Expr} {σ : Store} {m : Moment} :
      Passes limits (.eval env e) σ m → Passes limits (.value env e) σ m
  /-- Thunks are followed from what the expression gave. -/
  | onward {limits : Limits} {env : Env} {e : Expr} {σ σ₁ : Store} {v : Value} {m : Moment} :
      (Work.eval env e).run limits σ = .ok v σ₁ → Passes limits (.force v) σ₁ m →
      Passes limits (.value env e) σ m
  /-- The thunk that is followed is evaluated, one forcing deeper. -/
  | deeper {fuel depth : ℕ} {a : CellId} {σ : Store} {m : Moment} :
      Passes ⟨fuel, depth⟩ (.step a) σ m → Passes ⟨fuel + 1, depth + 1⟩ (.force (.thunk a)) σ m
  /-- The result of the thunk is followed. -/
  | further {fuel depth : ℕ} {a : CellId} {σ σ₁ : Store} {v : Value} {m : Moment} :
      (Work.step a).run ⟨fuel, depth⟩ σ = .ok v σ₁ → Passes ⟨fuel, depth + 1⟩ (.force v) σ₁ m →
      Passes ⟨fuel + 1, depth + 1⟩ (.force (.thunk a)) σ m
  /-- The expression of a thunk is evaluated, while the thunk is marked. -/
  | marked {limits : Limits} {a : CellId} {σ : Store} {m : Moment} :
      (σ.cell a).memo = none → (σ.cell a).busy = false →
      Passes limits (.eval (σ.cell a).env (σ.cell a).expr) (σ.marked a) m →
      Passes limits (.step a) σ m
  /-- The thunk is no longer marked, and its result is about to be kept. -/
  | unmarked {limits : Limits} {a : CellId} {σ σ₁ : Store} {v : Value} :
      (σ.cell a).memo = none → (σ.cell a).busy = false →
      (Work.eval (σ.cell a).env (σ.cell a).expr).run limits (σ.marked a) = .ok v σ₁ →
      Passes limits (.step a) σ ⟨(σ₁.setBusy a false).note (.finished a), [v]⟩

/-! ## No change is left out -/

namespace Store

/-- How much was done to a store. That a thunk is marked, or no longer marked, counts by the event
that is noted with it. -/
def age (σ : Store) : ℕ :=
  σ.frames.size + σ.cells.size + σ.made + σ.log.length

variable (σ : Store)

theorem age_newThunk (e : Expr) (env : Env) : (σ.newThunk e env).2.age = σ.age + 1 := by
  simp only [age, newThunk, Array.size_push]
  omega

theorem age_newFrame (f : Frame) : (σ.newFrame f).2.age = σ.age + 1 := by
  simp only [age, newFrame, Array.size_push]
  omega

theorem age_newObject (c : Content) : (σ.newObject c).2.age = σ.age + 1 := by
  simp only [age, newObject]
  omega

theorem age_note (e : Event) : (σ.note e).age = σ.age + 1 := by
  simp only [age, note, List.length_cons]
  omega

theorem age_setBusy (a : CellId) (busy : Bool) : (σ.setBusy a busy).age = σ.age := by
  simp only [age, size_cells_setBusy]
  rfl

theorem age_setMemo (a : CellId) (v : Value) : (σ.setMemo a v).age = σ.age + 1 := by
  simp only [age, setMemo, Array.size_modify, List.length_cons]
  omega

theorem age_unmark (a : CellId) (e : Event) : ((σ.setBusy a false).note e).age = σ.age + 1 := by
  rw [age_note, age_setBusy]

end Store

section

variable {α β : Type}

/-- What is left after two computations is what the second one leaves. -/
theorem leftBy_bind_of_ok {x : Eval α} {σ σ' : Store} {a : α} (h : x σ = .ok a σ')
    (f : α → Eval β) : leftBy (x >>= f) σ = leftBy (f a) σ' := by
  unfold leftBy
  rw [bind_of_ok h]

/-- What is left after a computation has stopped is what that one leaves. -/
theorem leftBy_bind_of_error {x : Eval α} {σ σ' : Store} {stop : Stop} (h : x σ = .error stop σ')
    (f : α → Eval β) : leftBy (x >>= f) σ = σ' :=
  leftBy_of_error (bind_of_error h f)

/-- Refusing operands changes nothing. -/
theorem leftBy_refuse (refusal : Refusal) (place : Option Location) (σ : Store) :
    leftBy (refuse refusal place : Eval α) σ = σ :=
  leftBy_of_error (refuse_eq refusal place σ)

end

/-! ### What is done last -/

/-- An operator before its operand changes a store at most once. -/
theorem age_operateUnary_le (op : UnaryOp) (o : Object) (place : Option Location) (σ : Store) :
    (leftBy (operateUnary op o place) σ).age ≤ σ.age + 1 := by
  unfold operateUnary
  cases op.apply o.content with
  | ok c => exact (σ.age_newObject c).le
  | error refusal =>
    rw [leftBy_refuse]
    exact Nat.le_succ _

/-- After the operands are noted, an object is made or none. -/
theorem age_operate_le (op : BinaryOp) (l r : Object) (place : Option Location) (σ : Store) :
    (leftBy (operate op l r place) σ).age ≤ (σ.note (.combined op l r)).age + 1 := by
  have hnote : (modify fun σ => σ.note (.combined op l r) : Eval Unit) σ =
      .ok () (σ.note (.combined op l r)) := rfl
  rw [operate, leftBy_bind_of_ok hnote]
  cases op.combine l r with
  | ok c => exact ((σ.note (.combined op l r)).age_newObject c).le
  | error refusal =>
    rw [leftBy_refuse]
    exact Nat.le_succ _

/-- The choice of a branch changes a store at most once. -/
theorem age_choose_le (o : Object) (t e : Expr) (env : Env) (place : Option Location) (σ : Store) :
    (leftBy (choose o t e env place) σ).age ≤ σ.age + 1 := by
  unfold choose
  cases o.content with
  | boolean b => exact (σ.age_newThunk _ env).le
  | number _ | string _ | function _ _ _ | nothing => exact Nat.le_succ _

/-- A result is kept or none. -/
theorem age_fill_le (a : CellId) (v : Value) (σ : Store) :
    (leftBy (fill a v >>= fun _ => pure v : Eval Value) σ).age ≤ σ.age + 1 := by
  by_cases hfilled : (σ.cell a).memo.isSome
  · have hfill : fill a v σ = .error .refilled σ := if_pos hfilled
    rw [leftBy_bind_of_error hfill]
    exact Nat.le_succ _
  · have hfill : fill a v σ = .ok () (σ.setMemo a v) := if_neg hfilled
    rw [leftBy_bind_of_ok hfill]
    exact (σ.age_setMemo a v).le

/-! ### Operands on the right -/

section

variable {op : BinaryOp} {left : Object}

/-- If the left operand decides the result, or is refused, then nothing is done. -/
theorem leftBy_operateLazily_of_not_asks (h : ¬op.Asks left) (right : Eval Object)
    (place : Option Location) (σ : Store) : leftBy (operateLazily op left right place) σ = σ := by
  rcases op.asks_or left with hasks | ⟨decisive, hop, hdecisive⟩ | ⟨hop, hkind⟩
  · exact absurd hasks h
  · rw [operateLazily_of_decided hop hdecisive]
    rfl
  · rw [operateLazily_of_kind_ne hop hkind]
    exact leftBy_refuse _ place σ

end

/-! ### Moments of every age -/

/-- There is a moment of the work for every age from that of the first store to that of the
second. -/
def Work.Covers (limits : Limits) (w : Work) (σ τ : Store) : Prop :=
  ∀ n, σ.age ≤ n → n ≤ τ.age → ∃ m, Passes limits w σ m ∧ m.store.age = n

namespace Work

/-- The work passes through a moment of every age until it ends. -/
abbrev Dense (limits : Limits) (w : Work) (σ : Store) : Prop :=
  w.Covers limits σ (leftBy (w.run limits) σ)

section

variable {limits limits' : Limits} {w w' : Work} {σ σ' τ τ' : Store}

/-- There is a moment before the work. -/
theorem covers_start (limits : Limits) (w : Work) (σ : Store) : w.Covers limits σ σ :=
  fun _ hn hn' => ⟨⟨σ, w.hand⟩, .start limits w σ, Nat.le_antisymm hn hn'⟩

/-- One more moment covers one more change. -/
theorem Covers.next (h : w.Covers limits σ τ) {m : Moment} (hm : Passes limits w σ m)
    (hage : m.store.age ≤ τ.age + 1) : w.Covers limits σ m.store := by
  intro n hn hn'
  rcases Nat.lt_or_ge τ.age n with hlt | hle
  · exact ⟨m, hm, Nat.le_antisymm (hage.trans hlt) hn'⟩
  · exact h n hn hle

/-- The moments of a part are moments of the whole. -/
theorem Covers.part (h : w.Covers limits σ τ) (hage : σ'.age ≤ τ.age + 1)
    (hpart : ∀ m, Passes limits' w' σ' m → ∃ m', Passes limits w σ m' ∧ m'.store = m.store)
    (h' : w'.Covers limits' σ' τ') : w.Covers limits σ τ' := by
  intro n hn hn'
  rcases Nat.lt_or_ge τ.age n with hlt | hle
  · obtain ⟨m, hm, hmage⟩ := h' n (hage.trans hlt) hn'
    obtain ⟨m', hm', hstore⟩ := hpart m hm
    exact ⟨m', hm', hstore ▸ hmage⟩
  · exact h n hn hle

/-- When the work ends, there may have been one more change. -/
theorem Covers.finish (h : w.Covers limits σ τ)
    (hage : (leftBy (w.run limits) σ).age ≤ τ.age + 1) : w.Dense limits σ := by
  unfold Dense
  cases hrun : w.run limits σ with
  | ok v σ' =>
    rw [leftBy_of_ok hrun] at hage ⊢
    exact h.next (.done hrun) hage
  | error stop σ' =>
    rw [leftBy_of_error hrun] at hage ⊢
    exact h.next (.failed hrun) hage

/-- Work that changes at most one thing is dense. -/
theorem dense_of_age_le (hage : (leftBy (w.run limits) σ).age ≤ σ.age + 1) : w.Dense limits σ :=
  (covers_start limits w σ).finish hage

/-- The work is dense if what it does first is a part that is, and what it does then is covered. -/
theorem Dense.first (h' : w'.Dense limits' σ') (hage : σ'.age ≤ σ.age + 1)
    (hpart : ∀ m, Passes limits' w' σ' m → ∃ m', Passes limits w σ m' ∧ m'.store = m.store)
    (hok : ∀ v σ₁, w'.run limits' σ' = .ok v σ₁ → w.Covers limits σ σ₁ → w.Dense limits σ)
    (herror : ∀ stop σ₁, w'.run limits' σ' = .error stop σ₁ →
      (leftBy (w.run limits) σ).age ≤ σ₁.age + 1) :
    w.Dense limits σ := by
  have hcovers := (covers_start limits w σ).part hage hpart h'
  cases hrun : w'.run limits' σ' with
  | ok v σ₁ =>
    rw [leftBy_of_ok hrun] at hcovers
    exact hok v σ₁ hrun hcovers
  | error stop σ₁ =>
    rw [leftBy_of_error hrun] at hcovers
    exact hcovers.finish (herror stop σ₁ hrun)

end

section

variable {limits : Limits} {env : Env} {σ : Store}

/-- The value of an expression is found in two pieces of work. -/
theorem run_value (limits : Limits) (env : Env) (e : Expr) :
    (value env e).run limits = (eval env e).run limits >>= fun v => (force v).run limits := by
  change (CallByNeed.eval limits.force env e >>= limits.force) >>= _ = _
  rw [bind_assoc]
  rfl

/-- A thunk is followed in two pieces of work. -/
theorem run_force_thunk (fuel depth : ℕ) (a : CellId) :
    (force (.thunk a)).run ⟨fuel + 1, depth + 1⟩ =
      (step a).run ⟨fuel, depth⟩ >>= fun v => (force v).run ⟨fuel, depth + 1⟩ := by
  change forceWith CallByNeed.step (fuel + 1) (depth + 1) (.thunk a) >>= _ = _
  rw [forceWith_thunk, bind_assoc]
  rfl

/-- An object is found if the value is, and the stores that are left are the same. -/
theorem found_of_run_value {e : Expr} {v : Value} {σ' : Store}
    (h : (value env e).run limits σ = .ok v σ') :
    ∃ o, v = .object o ∧
      (CallByNeed.eval limits.force env e >>= limits.force) σ = .ok o σ' := by
  cases hrun : (CallByNeed.eval limits.force env e >>= limits.force) σ with
  | error stop σ₁ =>
    rw [show (value env e).run limits σ = .error stop σ₁ from bind_of_error hrun _] at h
    cases h
  | ok o σ₁ =>
    rw [show (value env e).run limits σ = .ok (.object o) σ₁ from bind_of_ok hrun _] at h
    cases h
    exact ⟨o, rfl, rfl⟩

/-- Where the value is missed, it is missed by evaluation or forcing. -/
theorem missed_of_run_value {e : Expr} {stop : Stop} {σ' : Store}
    (h : (value env e).run limits σ = .error stop σ') :
    (CallByNeed.eval limits.force env e >>= limits.force) σ = .error stop σ' := by
  cases hrun : (CallByNeed.eval limits.force env e >>= limits.force) σ with
  | error stop' σ₁ =>
    rw [show (value env e).run limits σ = .error stop' σ₁ from bind_of_error hrun _] at h
    cases h
    rfl
  | ok o σ₁ =>
    rw [show (value env e).run limits σ = .ok (.object o) σ₁ from bind_of_ok hrun _] at h
    cases h

/-- Finding a value is dense if evaluation and forcing are. -/
theorem dense_value (hforce : ∀ v σ, (force v).Dense limits σ) {e : Expr}
    (heval : (eval env e).Dense limits σ) : (value env e).Dense limits σ := by
  refine heval.first (Nat.le_succ _) (fun m hm => ⟨m, .outermost hm, rfl⟩) ?_ ?_
  · intro v σ₁ hrun hcovers
    refine hcovers.part (Nat.le_succ _) (fun m hm => ⟨m, .onward hrun hm, rfl⟩) ?_
    rw [run_value, leftBy_bind_of_ok hrun]
    exact hforce v σ₁
  · intro stop σ₁ hrun
    rw [run_value, leftBy_bind_of_error hrun]
    exact Nat.le_succ _

/-- Evaluation is dense if the value that is needed first is found densely, and what is done with
it is covered. -/
theorem dense_of_needed {e d : Expr} {f : Object → Eval Value} (hd : e.needed? = some d)
    (hsame : (eval env e).run limits =
      (CallByNeed.eval limits.force env d >>= limits.force) >>= f)
    (hvalue : (value env d).Dense limits σ)
    (hrest : ∀ o σ₁, (value env d).run limits σ = .ok (.object o) σ₁ →
      (eval env e).Covers limits σ σ₁ → leftBy ((eval env e).run limits) σ = leftBy (f o) σ₁ →
      (eval env e).Dense limits σ) :
    (eval env e).Dense limits σ := by
  refine hvalue.first (Nat.le_succ _) (fun m hm => ⟨m, .needed hd hm, rfl⟩) ?_ ?_
  · intro v σ₁ hrun hcovers
    obtain ⟨o, rfl, hfound⟩ := found_of_run_value hrun
    exact hrest o σ₁ hrun hcovers (by rw [hsame, leftBy_bind_of_ok hfound])
  · intro stop σ₁ hrun
    rw [hsame, leftBy_bind_of_error (missed_of_run_value hrun)]
    exact Nat.le_succ _

/-- A call makes a thunk, a frame and another thunk. -/
theorem Covers.call {f a : Expr} {place : Option Location} {callee : Object} {σ₁ : Store}
    (hrun : (value env f).run limits σ = .ok (.object callee) σ₁)
    (h : (eval env (.call f a place)).Covers limits σ σ₁)
    (hleft : leftBy ((eval env (.call f a place)).run limits) σ =
      leftBy (CallByNeed.call callee a env place) σ₁) :
    (eval env (.call f a place)).Dense limits σ := by
  cases hcallee : callee.content with
  | function x body closure =>
    have hargument := h.next (.argument hrun hcallee) (σ₁.age_newThunk a env).le
    have hentered := hargument.next (.entered hrun hcallee) (Store.age_newFrame _ _).le
    refine hentered.finish ?_
    rw [hleft, CallByNeed.call, hcallee]
    exact (Store.age_newThunk _ body _).le
  | number _ | string _ | boolean _ | nothing =>
    refine h.finish ?_
    rw [hleft, CallByNeed.call, hcallee]
    exact (congrArg Store.age (leftBy_refuse _ place σ₁)).trans_le (Nat.le_succ _)

/-- An operator is applied after the right operand is found, if it is asked for. -/
theorem Covers.binary {op : BinaryOp} {l r : Expr} {place : Option Location} {left : Object}
    {σ₁ : Store} (hrun : (value env l).run limits σ = .ok (.object left) σ₁)
    (h : (eval env (.binary op l r place)).Covers limits σ σ₁)
    (hleft : leftBy ((eval env (.binary op l r place)).run limits) σ =
      leftBy (operateLazily op left (CallByNeed.eval limits.force env r >>= limits.force) place) σ₁)
    (hvalue : (value env r).Dense limits σ₁) :
    (eval env (.binary op l r place)).Dense limits σ := by
  by_cases hasks : op.Asks left
  · rw [operateLazily_of_asks hasks] at hleft
    have hright := h.part (Nat.le_succ _)
      (fun m hm => ⟨m.holding (.object left), .right hrun hasks hm, rfl⟩) hvalue
    cases hrun' : (value env r).run limits σ₁ with
    | error stop σ₂ =>
      rw [leftBy_of_error hrun'] at hright
      refine hright.finish ?_
      rw [hleft, leftBy_bind_of_error (missed_of_run_value hrun')]
      exact Nat.le_succ _
    | ok v σ₂ =>
      obtain ⟨right, rfl, hfound⟩ := found_of_run_value hrun'
      rw [leftBy_of_ok hrun'] at hright
      rw [leftBy_bind_of_ok hfound] at hleft
      -- a logical operator refuses a right operand that is no boolean before it combines anything
      by_cases hkind : op.decisive?.isSome → right.content.kind? = some .boolean
      · rw [if_pos hkind] at hleft
        have hnoted := hright.next (.combined hrun hasks hrun' hkind) (Store.age_note _ _).le
        refine hnoted.finish ?_
        rw [hleft]
        exact age_operate_le op left right place σ₂
      · rw [if_neg hkind, leftBy_refuse] at hleft
        refine hright.finish ?_
        rw [hleft]
        exact Nat.le_succ _
  · refine h.finish ?_
    rw [hleft, leftBy_operateLazily_of_not_asks hasks]
    exact Nat.le_succ _

/-- Evaluation is dense if forcing is. -/
theorem dense_eval (hforce : ∀ v σ, (force v).Dense limits σ) (e : Expr) :
    (eval env e).Dense limits σ := by
  induction e generalizing σ with
  | literal c place => exact dense_of_age_le (Nat.le_succ _)
  | name x place =>
    refine dense_of_age_le ?_
    have hstays : leftBy ((eval env (.name x place)).run limits) σ = σ := by
      rw [run, CallByNeed.eval]
      have hget : (get : Eval Store) σ = .ok σ σ := rfl
      rw [leftBy_bind_of_ok hget]
      cases σ.lookup env x <;> rfl
    rw [hstays]
    exact Nat.le_succ _
  | arrow x e place _ => exact dense_of_age_le (σ.age_newObject (.function x e env)).le
  | paren e place ih =>
    exact (covers_start limits _ σ).part (Nat.le_succ _) (fun m hm => ⟨m, .paren hm, rfl⟩) ih
  | call f a place ihf _ =>
    exact dense_of_needed rfl rfl (dense_value hforce ihf) fun o σ₁ hrun h hleft =>
      h.call hrun hleft
  | unary op e place ih =>
    refine dense_of_needed rfl rfl (dense_value hforce ih) fun o σ₁ _ h hleft => h.finish ?_
    rw [hleft]
    exact age_operateUnary_le op o place σ₁
  | binary op l r place ihl ihr =>
    exact dense_of_needed rfl rfl (dense_value hforce ihl) fun o σ₁ hrun h hleft =>
      h.binary hrun hleft (dense_value hforce ihr)
  | cond c t e place ihc _ _ =>
    refine dense_of_needed rfl rfl (dense_value hforce ihc) fun o σ₁ _ h hleft => h.finish ?_
    rw [hleft]
    exact age_choose_le o t e env place σ₁

/-- Giving the result of a thunk is dense if evaluation is. -/
theorem dense_step (heval : ∀ env e σ, (eval env e).Dense limits σ) (a : CellId) :
    (step a).Dense limits σ := by
  cases hmemo : (σ.cell a).memo with
  | some v =>
    refine dense_of_age_le ?_
    rw [run, leftBy_of_ok (step_of_memo hmemo)]
    exact Nat.le_succ _
  | none =>
    cases hbusy : (σ.cell a).busy with
    | true =>
      refine dense_of_age_le ?_
      rw [run, leftBy_of_error (step_of_busy hmemo hbusy)]
      exact Nat.le_succ _
    | false =>
      have hmark : (σ.marked a).age ≤ σ.age + 1 := by
        rw [Store.marked, Store.age_note, Store.age_setBusy]
      refine (heval _ _ (σ.marked a)).first hmark
        (fun m hm => ⟨m, .marked hmemo hbusy hm, rfl⟩) ?_ ?_
      · intro v σ₁ hrun hcovers
        have hunmarked := hcovers.next (.unmarked hmemo hbusy hrun) (σ₁.age_unmark a _).le
        refine hunmarked.finish ?_
        rw [leftBy, run, step_of_eval_ok hmemo hbusy hrun]
        exact age_fill_le a v _
      · intro stop σ₁ hrun
        rw [run, leftBy_of_error (step_of_error hmemo hbusy hrun)]
        exact (σ₁.age_unmark a _).le

end

/-- Forcing is dense. -/
theorem dense_force (fuel depth : ℕ) (v : Value) (σ : Store) :
    (force v).Dense ⟨fuel, depth⟩ σ := by
  -- a thunk is followed with less fuel, and its expression is evaluated with less of both
  induction fuel generalizing depth v σ with
  | zero => cases v <;> exact dense_of_age_le (Nat.le_succ _)
  | succ fuel ih =>
    cases v with
    | object o => exact dense_of_age_le (Nat.le_succ _)
    | thunk a =>
      cases depth with
      | zero => exact dense_of_age_le (Nat.le_succ _)
      | succ depth =>
        refine (dense_step (fun env e σ => dense_eval (ih depth) e) a).first (Nat.le_succ _)
          (fun m hm => ⟨m, .deeper hm, rfl⟩) ?_ ?_
        · intro v σ₁ hrun hcovers
          refine hcovers.part (Nat.le_succ _) (fun m hm => ⟨m, .further hrun hm, rfl⟩) ?_
          rw [run_force_thunk, leftBy_bind_of_ok hrun]
          exact ih (depth + 1) v σ₁
        · intro stop σ₁ hrun
          rw [run_force_thunk, leftBy_bind_of_error hrun]
          exact Nat.le_succ _

/-- All work is dense. -/
theorem dense (limits : Limits) (w : Work) (σ : Store) : w.Dense limits σ := by
  have hforce : ∀ v σ, (force v).Dense limits σ := dense_force limits.fuel limits.depth
  cases w with
  | eval env e => exact dense_eval hforce e
  | value env e => exact dense_value hforce (dense_eval hforce e)
  | force v => exact hforce v σ
  | step a => exact dense_step (fun _ e _ => dense_eval hforce e) a

end Work

/-- Between the store that a work is given and the one that it leaves there is a moment for each
change. -/
theorem exists_passes_of_age (limits : Limits) (w : Work) {σ : Store} {n : ℕ} (hn : σ.age ≤ n)
    (hn' : n ≤ (leftBy (w.run limits) σ).age) : ∃ m, Passes limits w σ m ∧ m.store.age = n :=
  w.dense limits σ n hn hn'

end CallByNeed
