import CallByNeed.Proofs.EvaluationSteps

/-!
# Rules of evaluation

A property of evaluation is proved from what it says about single steps. There is one walk through
expressions, `EvalRules.eval`: if a property has a rule for each form of expression, then it holds
of all evaluations.

Many properties are of one kind. Something is kept up: stores are in order, whatever is done to
them is of some sort, and values and expressions are of some sort too (`Upkeep`). For these it is
enough to say what single changes to a store keep up (`Upkeep.Lawful`, `Upkeep.Memoizes`), which
gives the rules, and beyond them what following thunks keeps up (`Upkeep.Lawful.forces`).
-/

namespace CallByNeed

/-! ## Outcomes -/

section

variable {α β : Type} {Q Q' : α → Store → Prop} {R : β → Store → Prop} {S S' : Stop → Store → Prop}
  {x : Eval α} {σ σ' : Store}

/-- The computation gives a result, and leaves a store, of which `Q` holds, or it stops for a
reason, and leaves a store, of which `S` holds. -/
def Ends (Q : α → Store → Prop) (S : Stop → Store → Prop) (x : Eval α) (σ : Store) : Prop :=
  match x σ with
  | .ok a σ' => Q a σ'
  | .error stop σ' => S stop σ'

/-- A computation that gives a result ends with it. -/
theorem ends_of_ok {a : α} (hx : x σ = .ok a σ') (h : Q a σ') : Ends Q S x σ := by
  unfold Ends
  rwa [hx]

/-- A computation that stops ends with the reason. -/
theorem ends_of_error {stop : Stop} (hx : x σ = .error stop σ') (h : S stop σ') : Ends Q S x σ := by
  unfold Ends
  rwa [hx]

/-- What is known of the result that a computation has given. -/
theorem Ends.ok (h : Ends Q S x σ) {a : α} (hx : x σ = .ok a σ') : Q a σ' := by
  unfold Ends at h
  rwa [hx] at h

/-- What is known of the reason for which a computation has stopped. -/
theorem Ends.error (h : Ends Q S x σ) {stop : Stop} (hx : x σ = .error stop σ') : S stop σ' := by
  unfold Ends at h
  rwa [hx] at h

/-- What holds at the end may be weakened. -/
theorem Ends.imp (h : Ends Q S x σ) (hQ : ∀ a σ', Q a σ' → Q' a σ')
    (hS : ∀ stop σ', S stop σ' → S' stop σ') : Ends Q' S' x σ := by
  cases hx : x σ with
  | ok a σ' => exact ends_of_ok hx (hQ a σ' (h.ok hx))
  | error stop σ' => exact ends_of_error hx (hS stop σ' (h.error hx))

/-- Computations one after the other end as the second one does, if there is a second one. -/
theorem Ends.bind {f : α → Eval β} (h : Ends Q S x σ)
    (hf : ∀ a σ', Q a σ' → Ends R S (f a) σ') : Ends R S (x >>= f) σ := by
  cases hx : x σ with
  | error stop σ' => exact ends_of_error (bind_of_error hx f) (h.error hx)
  | ok a σ' =>
    have hfa := hf a σ' (h.ok hx)
    unfold Ends at hfa ⊢
    rwa [bind_of_ok hx]

/-- What holds of the store in both cases holds of the one that is left. -/
theorem Ends.leftBy {P : Store → Prop} (h : Ends Q S x σ) (hQ : ∀ a σ', Q a σ' → P σ')
    (hS : ∀ stop σ', S stop σ' → P σ') : P (leftBy x σ) := by
  cases hx : x σ with
  | ok a σ' => exact leftBy_of_ok hx ▸ hQ a σ' (h.ok hx)
  | error stop σ' => exact leftBy_of_error hx ▸ hS stop σ' (h.error hx)

end

/-! ## Expressions -/

/-- A property of evaluation, with a rule for everything that evaluation can do. -/
structure EvalRules where
  /-- The expression may be evaluated in the environment. -/
  Fits : Store → Env → Expr → Prop
  /-- The expression gives the value, on the way from the first store to the second. -/
  Gives : Env → Expr → Store → Value → Store → Prop
  /-- The expression has the object as its value, on the way from the first store to the second. -/
  Means : Env → Expr → Store → Object → Store → Prop
  /-- Evaluation stops for the reason, on the way from the first store to the second. -/
  Stops : Store → Stop → Store → Prop
  /-- The expression in parentheses may be evaluated. -/
  inner {σ : Store} {env : Env} {e : Expr} {p : Option Location} : Fits σ env (.paren e p) →
    Fits σ env e
  /-- What is needed first may be evaluated. -/
  needed {σ : Store} {env : Env} {e d : Expr} : Fits σ env e → e.needed? = some d → Fits σ env d
  /-- The right operand may be evaluated after the left one. -/
  right {σ σ₁ : Store} {env : Env} {op : BinaryOp} {l r : Expr} {p : Option Location} {o : Object} :
    Fits σ env (.binary op l r p) → Means env l σ o σ₁ → Fits σ₁ env r
  /-- What stops after a part was evaluated stops the whole. -/
  onward {σ σ₁ σ₂ : Store} {env : Env} {e : Expr} {o : Object} {stop : Stop} : Means env e σ o σ₁ →
    Stops σ₁ stop σ₂ → Stops σ stop σ₂
  literal {σ : Store} {env : Env} {c : Constant} {p : Option Location} :
    Fits σ env (.literal c p) →
    Gives env (.literal c p) σ (.object ⟨.literal p, .ofConstant c⟩) σ
  name {σ : Store} {env : Env} {x : String} {p : Option Location} {v : Value} :
    Fits σ env (.name x p) → σ.lookup env x = some v → Gives env (.name x p) σ v σ
  undefined {σ : Store} {env : Env} {x : String} {p : Option Location} : Fits σ env (.name x p) →
    σ.lookup env x = none → Stops σ (.error ⟨.undefined x, p⟩) σ
  paren {σ σ' : Store} {env : Env} {e : Expr} {p : Option Location} {v : Value} :
    Gives env e σ v σ' → Gives env (.paren e p) σ v σ'
  arrow {σ : Store} {env : Env} {x : String} {e : Expr} {p : Option Location} :
    Fits σ env (.arrow x e p) →
    Gives env (.arrow x e p) σ (.object ⟨.made σ.made, .function x e env⟩)
      (σ.newObject (.function x e env)).2
  call {σ σ₁ : Store} {env closure : Env} {f a body : Expr} {p : Option Location} {o : Object}
    {x : String} : Fits σ env (.call f a p) → Means env f σ o σ₁ →
    o.content = .function x body closure →
    Gives env (.call f a p) σ (.thunk (σ₁.cells.size + 1))
      ((σ₁.newThunk a env).2.extendFrame closure x σ₁.cells.size body)
  unary {σ σ₁ : Store} {env : Env} {op : UnaryOp} {e : Expr} {p : Option Location} {o : Object}
    {c : Content} : Fits σ env (.unary op e p) → Means env e σ o σ₁ → op.apply o.content = .ok c →
    Gives env (.unary op e p) σ (.object ⟨.made σ₁.made, c⟩) (σ₁.newObject c).2
  decided {σ σ₁ : Store} {env : Env} {op : BinaryOp} {l r : Expr} {p : Option Location}
    {o : Object} {decisive : Bool} : Fits σ env (.binary op l r p) → Means env l σ o σ₁ →
    op.decisive? = some decisive → o.content = .boolean decisive →
    Gives env (.binary op l r p) σ (.object o) σ₁
  binary {σ σ₁ σ₂ : Store} {env : Env} {op : BinaryOp} {l r : Expr} {p : Option Location}
    {o o' : Object} {c : Content} : Fits σ env (.binary op l r p) → Means env l σ o σ₁ →
    op.Asks o → Means env r σ₁ o' σ₂ → op.combine o o' = .ok c →
    Gives env (.binary op l r p) σ (.object ⟨.made σ₂.made, c⟩)
      ((σ₂.note (.combined op o o')).newObject c).2
  cond {σ σ₁ : Store} {env : Env} {c t e : Expr} {p : Option Location} {o : Object} {b : Bool} :
    Fits σ env (.cond c t e p) → Means env c σ o σ₁ → o.content = .boolean b →
    Gives env (.cond c t e p) σ (.thunk σ₁.cells.size)
      (σ₁.newThunk (if b then t else e) env).2
  /-- What is needed first is refused. -/
  refused {σ σ₁ : Store} {env : Env} {e d : Expr} {o : Object} {refusal : Refusal} :
    Fits σ env e → e.needed? = some d → Means env d σ o σ₁ → refusal.Concerns [o.content] →
    Stops σ (refusal.stop e.place) σ₁
  /-- The right operand is refused. -/
  refusedRight {σ σ₁ σ₂ : Store} {env : Env} {op : BinaryOp} {l r : Expr} {p : Option Location}
    {o o' : Object} {refusal : Refusal} : Fits σ env (.binary op l r p) → Means env l σ o σ₁ →
    Means env r σ₁ o' σ₂ → refusal.Concerns [o'.content] → Stops σ (refusal.stop p) σ₂
  /-- The operands were combined in vain. -/
  refusedBoth {σ σ₁ σ₂ : Store} {env : Env} {op : BinaryOp} {l r : Expr} {p : Option Location}
    {o o' : Object} {refusal : Refusal} : Fits σ env (.binary op l r p) → Means env l σ o σ₁ →
    Means env r σ₁ o' σ₂ → op.combine o o' = .error refusal →
    Stops σ (refusal.stop p) (σ₂.note (.combined op o o'))

section

variable {R : EvalRules} {env : Env} {σ σ₁ : Store} {o : Object} {p : Option Location}

/-- The operands of an operator lead to its result, or are refused. -/
theorem EvalRules.ends_operate {σ₂ : Store} {op : BinaryOp} {l r : Expr} {o' : Object}
    (h : R.Fits σ env (.binary op l r p)) (ho : R.Means env l σ o σ₁) (hasks : op.Asks o)
    (ho' : R.Means env r σ₁ o' σ₂) :
    Ends (R.Gives env (.binary op l r p) σ) (R.Stops σ) (operate op o o' p) σ₂ := by
  cases hc : op.combine o o' with
  | ok c => exact ends_of_ok (operate_of_ok hc p σ₂) (R.binary h ho hasks ho' hc)
  | error refusal =>
    exact ends_of_error ((operate_of_error hc p σ₂).trans (refuse_eq ..))
      (R.refusedBoth h ho ho' hc)

/-- The left operand leads to the result of an operator, if need be with the right one. -/
theorem EvalRules.ends_operateLazily {op : BinaryOp} {l r : Expr} {right : Eval Object}
    (h : R.Fits σ env (.binary op l r p)) (ho : R.Means env l σ o σ₁)
    (hright : Ends (R.Means env r σ₁) (R.Stops σ₁) right σ₁) :
    Ends (R.Gives env (.binary op l r p) σ) (R.Stops σ) (operateLazily op o right p) σ₁ := by
  have hbooleans := Refusal.concerns_ofKind (.needsBooleans op) fun _ => trivial
  rcases op.asks_or o with hasks | ⟨decisive, hop, hdecisive⟩ | ⟨hop, hkind⟩
  · rw [operateLazily_of_asks hasks]
    refine (hright.imp (fun _ _ h => h) fun _ _ hstop => R.onward ho hstop).bind fun o' σ₂ ho' => ?_
    split
    · exact ends_operate h ho hasks ho'
    · exact ends_of_error (refuse_eq ..) (R.refusedRight h ho ho' (hbooleans _))
  · rw [operateLazily_of_decided hop hdecisive]
    exact ends_of_ok rfl (R.decided h ho hop hdecisive)
  · rw [operateLazily_of_kind_ne hop hkind]
    exact ends_of_error (refuse_eq ..) (R.refused h rfl ho (hbooleans _))

/-- A callee leads to the result of a call, or is refused. -/
theorem EvalRules.ends_call {f a : Expr} (h : R.Fits σ env (.call f a p))
    (ho : R.Means env f σ o σ₁) :
    Ends (R.Gives env (.call f a p) σ) (R.Stops σ) (CallByNeed.call o a env p) σ₁ := by
  cases hc : o.content with
  | function x body closure =>
    exact ends_of_ok (call_function hc a env p σ₁) (R.call h ho hc)
  | number _ | string _ | boolean _ | nothing =>
    have hne : ∀ x body closure, o.content ≠ .function x body closure := by simp [hc]
    rw [call_of_ne hne]
    exact ends_of_error (refuse_eq ..)
      (R.refused h rfl ho (Refusal.concerns_ofKind .notFunction (fun _ => trivial) _))

/-- An operand leads to the result of an operator, or is refused. -/
theorem EvalRules.ends_operateUnary {op : UnaryOp} {e : Expr} (h : R.Fits σ env (.unary op e p))
    (ho : R.Means env e σ o σ₁) :
    Ends (R.Gives env (.unary op e p) σ) (R.Stops σ) (operateUnary op o p) σ₁ := by
  unfold operateUnary
  cases hc : op.apply o.content with
  | ok c => exact ends_of_ok rfl (R.unary h ho hc)
  | error refusal =>
    exact ends_of_error (refuse_eq ..) (R.refused h rfl ho (UnaryOp.concerns_of_apply hc))

/-- A condition leads to a branch, or is refused. -/
theorem EvalRules.ends_choose {c t e : Expr} (h : R.Fits σ env (.cond c t e p))
    (ho : R.Means env c σ o σ₁) :
    Ends (R.Gives env (.cond c t e p) σ) (R.Stops σ) (choose o t e env p) σ₁ := by
  cases hc : o.content with
  | boolean b =>
    unfold choose
    rw [hc]
    exact ends_of_ok rfl (R.cond h ho hc)
  | number _ | string _ | function _ _ _ | nothing =>
    have hcondition : (Refusal.cause .condition).Concerns [o.content] := trivial
    rw [choose_of_ne (by simp [hc])]
    exact ends_of_error (refuse_eq ..) (R.refused h rfl ho hcondition)

end

/-- What has rules holds of every evaluation, if it goes on to hold of what an expression gives when
that is forced. -/
theorem EvalRules.eval (R : EvalRules) {force : Value → Eval Object}
    (hforce : ∀ {env e σ v σ'}, R.Fits σ env e → R.Gives env e σ v σ' →
      Ends (R.Means env e σ) (R.Stops σ) (force v) σ')
    {env : Env} {e : Expr} {σ : Store} (h : R.Fits σ env e) :
    Ends (R.Gives env e σ) (R.Stops σ) (CallByNeed.eval force env e) σ := by
  -- what is needed is first evaluated and then forced
  have need : ∀ {e : Expr} {σ : Store}, R.Fits σ env e →
      Ends (R.Gives env e σ) (R.Stops σ) (CallByNeed.eval force env e) σ →
      Ends (R.Means env e σ) (R.Stops σ) (CallByNeed.eval force env e >>= force) σ :=
    fun h he => he.bind fun v σ' hv => hforce h hv
  induction e generalizing σ with
  | literal c p => exact ends_of_ok rfl (R.literal h)
  | name x p =>
    cases hx : σ.lookup env x with
    | some v => exact ends_of_ok (by rw [eval_name, hx]) (R.name h hx)
    | none => exact ends_of_error (by rw [eval_name, hx]) (R.undefined h hx)
  | paren e p ih => exact (ih (R.inner h)).imp (fun v σ' hv => R.paren hv) fun _ _ hs => hs
  | arrow x e p => exact ends_of_ok rfl (R.arrow h)
  | call f a p ihf =>
    have hf := R.needed h rfl
    exact (need hf (ihf hf)).bind fun o σ₁ ho => ends_call h ho
  | unary op e p ih =>
    have he := R.needed h rfl
    exact (need he (ih he)).bind fun o σ₁ ho => ends_operateUnary h ho
  | binary op l r p ihl ihr =>
    have hl := R.needed h rfl
    refine (need hl (ihl hl)).bind fun o σ₁ ho => ?_
    have hr := R.right h ho
    exact ends_operateLazily h ho (need hr (ihr hr))
  | cond c t e p ihc =>
    have hc := R.needed h rfl
    exact (need hc (ihc hc)).bind fun o σ₁ ho => ends_choose h ho

/-! ## What is kept up -/

/-- Something that evaluation is to keep up. -/
structure Upkeep where
  /-- The stores that are in order. -/
  Inv : Store → Prop
  /-- How a store may change. -/
  Grows : Store → Store → Prop
  /-- The expressions that may be evaluated in an environment of a store. -/
  Fits : Store → Env → Expr → Prop
  /-- The values that a store may have. -/
  Has : Store → Value → Prop
  /-- How evaluation may stop. -/
  Stops : Store → Stop → Prop

namespace Upkeep

variable {α β : Type} {U : Upkeep} {Q : Store → α → Prop} {R : Store → β → Prop} {σ σ' : Store}

/-- The computation leaves a store in order, and a result as `Q` says, or it stops as it may. In
both cases the store has changed as it may. -/
def Keeps (U : Upkeep) (Q : Store → α → Prop) (x : Eval α) (σ : Store) : Prop :=
  Ends (fun a σ' => U.Inv σ' ∧ U.Grows σ σ' ∧ Q σ' a)
    (fun stop σ' => U.Grows σ σ' ∧ U.Stops σ' stop) x σ

/-- Evaluation keeps it up. -/
def Evals (U : Upkeep) (eval : Env → Expr → Eval Value) : Prop :=
  ∀ ⦃env e σ⦄, U.Inv σ → U.Fits σ env e → U.Keeps U.Has (eval env e) σ

/-- Following one thunk keeps it up. -/
def Follows (U : Upkeep) (step : CellId → Eval Value) : Prop :=
  ∀ ⦃a σ⦄, U.Inv σ → U.Has σ (.thunk a) → U.Keeps U.Has (step a) σ

/-- Following thunks to an object keeps it up. -/
def Forces (U : Upkeep) (force : Value → Eval Object) : Prop :=
  ∀ ⦃v σ⦄, U.Inv σ → U.Has σ v → U.Keeps (fun σ' o => U.Has σ' (.object o)) (force v) σ

/-- What the single changes to a store keep up, other than those of a thunk that is followed. -/
structure Lawful (U : Upkeep) : Prop where
  refl (σ : Store) : U.Grows σ σ
  trans {σ σ' σ'' : Store} : U.Grows σ σ' → U.Grows σ' σ'' → U.Grows σ σ''
  fits_mono {σ σ' : Store} {env : Env} {e : Expr} : U.Grows σ σ' → U.Fits σ env e → U.Fits σ' env e
  has_mono {σ σ' : Store} {v : Value} : U.Grows σ σ' → U.Has σ v → U.Has σ' v
  /-- What may be evaluated consists of such expressions. -/
  part {σ : Store} {env : Env} {e d : Expr} : U.Fits σ env e → d ∈ e.parts → U.Fits σ env d
  literal (σ : Store) (p : Option Location) (c : Constant) :
    U.Has σ (.object ⟨.literal p, .ofConstant c⟩)
  lookup {σ : Store} {env : Env} {x : String} {p : Option Location} {v : Value} : U.Inv σ →
    U.Fits σ env (.name x p) → σ.lookup env x = some v → U.Has σ v
  undefined {σ : Store} {env : Env} {x : String} {p : Option Location} : U.Inv σ →
    U.Fits σ env (.name x p) → σ.lookup env x = none → U.Stops σ (.error ⟨.undefined x, p⟩)
  object {σ : Store} (c : Content) : U.Inv σ →
    U.Inv (σ.newObject c).2 ∧ U.Grows σ (σ.newObject c).2
  constant (σ : Store) (c : Constant) :
    U.Has (σ.newObject (.ofConstant c)).2 (.object ⟨.made σ.made, .ofConstant c⟩)
  function {σ : Store} {env : Env} {x : String} {e : Expr} {p : Option Location} : U.Inv σ →
    U.Fits σ env (.arrow x e p) →
    U.Has (σ.newObject (.function x e env)).2 (.object ⟨.made σ.made, .function x e env⟩)
  thunk {σ : Store} {env : Env} {e : Expr} : U.Inv σ → U.Fits σ env e →
    U.Inv (σ.newThunk e env).2 ∧ U.Grows σ (σ.newThunk e env).2 ∧
      U.Has (σ.newThunk e env).2 (.thunk σ.cells.size)
  body {σ : Store} {i : Identity} {x : String} {body : Expr} {closure : Env} {a : CellId} :
    U.Inv σ → U.Has σ (.object ⟨i, .function x body closure⟩) → U.Has σ (.thunk a) →
    U.Inv (σ.extendFrame closure x a body) ∧ U.Grows σ (σ.extendFrame closure x a body) ∧
      U.Has (σ.extendFrame closure x a body) (.thunk σ.cells.size)
  combined {σ : Store} {op : BinaryOp} {l r : Object} : U.Inv σ → op.combine l r ≠ .error .domain →
    U.Inv (σ.note (.combined op l r)) ∧ U.Grows σ (σ.note (.combined op l r))
  /-- A remainder that does not exist stops evaluation after it was noted. -/
  domain {σ : Store} {op : BinaryOp} {l r : Object} : U.Inv σ → op.combine l r = .error .domain →
    U.Grows σ (σ.note (.combined op l r)) ∧ U.Stops (σ.note (.combined op l r)) .domain
  refused {σ : Store} {env : Env} {e : Expr} {refusal : Refusal} (os : List Object) : U.Inv σ →
    U.Fits σ env e → (∀ o ∈ os, U.Has σ (.object o)) → refusal.Concerns (os.map Object.content) →
    U.Stops σ (refusal.stop e.place)
  tooDeep {σ : Store} : U.Inv σ → U.Stops σ .tooDeep
  outOfFuel {σ : Store} : U.Inv σ → U.Stops σ .outOfFuel

/-- The thunk is about to be evaluated. -/
structure Ready (U : Upkeep) (σ : Store) (a : CellId) : Prop where
  inv : U.Inv σ
  has : U.Has σ (.thunk a)
  memo : (σ.cell a).memo = none
  busy : (σ.cell a).busy = false

/-- What the changes to a thunk that is followed keep up. -/
structure Memoizes (U : Upkeep) : Prop where
  memo {σ : Store} {a : CellId} {v : Value} : U.Inv σ → U.Has σ (.thunk a) →
    (σ.cell a).memo = some v → U.Has σ v
  busy {σ : Store} {a : CellId} : U.Inv σ → U.Has σ (.thunk a) →
    U.Stops σ (.error ⟨.circular, (σ.cell a).expr.place⟩)
  mark {σ : Store} {a : CellId} : U.Ready σ a →
    U.Inv (σ.marked a) ∧ U.Fits (σ.marked a) (σ.cell a).env (σ.cell a).expr
  release {σ σ' : Store} {a : CellId} {stop : Stop} : U.Ready σ a → U.Grows (σ.marked a) σ' →
    U.Stops σ' stop → U.Grows σ (σ'.released a) ∧ U.Stops (σ'.released a) stop
  settle {σ σ' : Store} {a : CellId} {v : Value} : U.Ready σ a → U.Grows (σ.marked a) σ' →
    U.Inv σ' → U.Has σ' v → (σ'.cell a).memo = none →
    U.Inv (σ'.settled a v) ∧ U.Grows σ (σ'.settled a v) ∧ U.Has (σ'.settled a v) v
  /-- A thunk that has got a result meanwhile is not settled again. -/
  refill {σ σ' : Store} {a : CellId} : U.Ready σ a → U.Grows (σ.marked a) σ' → U.Inv σ' →
    (σ'.cell a).memo.isSome → U.Grows σ ((σ'.setBusy a false).note (.finished a)) ∧
      U.Stops ((σ'.setBusy a false).note (.finished a)) .refilled

/-! ### Computations -/

/-- A computation that only gives a result keeps up all that holds already. -/
theorem Lawful.pure (hU : U.Lawful) (hσ : U.Inv σ) {a : α} (ha : Q σ a) :
    U.Keeps Q (pure a) σ :=
  ends_of_ok rfl ⟨hσ, hU.refl σ, ha⟩

/-- Computations one after the other keep up what both keep up. -/
theorem Lawful.bind (hU : U.Lawful) {x : Eval α} {f : α → Eval β} (hx : U.Keeps Q x σ)
    (hf : ∀ a σ', U.Inv σ' → U.Grows σ σ' → Q σ' a → U.Keeps R (f a) σ') :
    U.Keeps R (x >>= f) σ := by
  refine Ends.bind hx fun a σ' h => ?_
  obtain ⟨hσ', hgrows, ha⟩ := h
  exact (hf a σ' hσ' hgrows ha).imp
    (fun b σ'' h => ⟨h.1, hU.trans hgrows h.2.1, h.2.2⟩)
    fun stop σ'' h => ⟨hU.trans hgrows h.1, h.2⟩

/-- The store that is left has changed as it may. -/
theorem Keeps.grows {x : Eval α} (h : U.Keeps Q x σ) : U.Grows σ (leftBy x σ) :=
  Ends.leftBy h (fun _ _ h => h.2.1) fun _ _ h => h.1

/-! ### Evaluation -/

/-- What the single changes keep up has rules. -/
def Lawful.rules (hU : U.Lawful) : EvalRules where
  Fits σ env e := U.Inv σ ∧ U.Fits σ env e
  Gives _ _ σ v σ' := U.Inv σ' ∧ U.Grows σ σ' ∧ U.Has σ' v
  Means _ _ σ o σ' := U.Inv σ' ∧ U.Grows σ σ' ∧ U.Has σ' (.object o)
  Stops σ stop σ' := U.Grows σ σ' ∧ U.Stops σ' stop
  inner h := ⟨h.1, hU.part h.2 List.mem_cons_self⟩
  needed h hd := ⟨h.1, hU.part h.2 (Expr.mem_parts_of_needed hd)⟩
  right h ho := ⟨ho.1, hU.fits_mono ho.2.1 (hU.part h.2 (by simp [Expr.parts]))⟩
  onward ho h := ⟨hU.trans ho.2.1 h.1, h.2⟩
  literal {σ _ c p} h := ⟨h.1, hU.refl σ, hU.literal σ p c⟩
  name {σ _ _ _ _} h hx := ⟨h.1, hU.refl σ, hU.lookup h.1 h.2 hx⟩
  undefined {σ _ _ _} h hx := ⟨hU.refl σ, hU.undefined h.1 h.2 hx⟩
  paren h := h
  arrow h := by
    obtain ⟨hinv, hgrows⟩ := hU.object _ h.1
    exact ⟨hinv, hgrows, hU.function h.1 h.2⟩
  call {_ _ _ _ _ a body _ o x} h ho hc := by
    obtain ⟨hσ₁, hgrows, ho⟩ := ho
    -- a thunk for the argument comes first
    have ha := hU.part (d := a) h.2 (by simp [Expr.parts])
    obtain ⟨hσ₂, hgrows', harg⟩ := hU.thunk hσ₁ (hU.fits_mono hgrows ha)
    have ho' := hU.has_mono hgrows' ho
    rw [show o = ⟨o.identity, o.content⟩ from rfl, hc] at ho'
    obtain ⟨hσ₃, hgrows'', hbody⟩ := hU.body hσ₂ ho' harg
    rw [Store.size_cells_newThunk] at hbody
    exact ⟨hσ₃, hU.trans hgrows (hU.trans hgrows' hgrows''), hbody⟩
  unary h ho hc := by
    obtain ⟨c, rfl⟩ := UnaryOp.constant_of_apply hc
    obtain ⟨hσ₁, hgrows, ho⟩ := ho
    obtain ⟨hinv, hgrows'⟩ := hU.object (.ofConstant c) hσ₁
    exact ⟨hinv, hU.trans hgrows hgrows', hU.constant _ c⟩
  decided h ho _ _ := ho
  binary h ho _ ho' hc := by
    obtain ⟨c, rfl⟩ := BinaryOp.constant_of_combine hc
    obtain ⟨hσ₂, hgrows, -⟩ := ho'
    obtain ⟨hnoted, hnote⟩ := hU.combined hσ₂ (by rw [hc]; exact nofun)
    obtain ⟨hinv, hgrows'⟩ := hU.object (.ofConstant c) hnoted
    exact ⟨hinv, hU.trans (hU.trans ho.2.1 hgrows) (hU.trans hnote hgrows'), hU.constant _ c⟩
  cond {_ _ _ _ t e _ _ b} h ho _ := by
    obtain ⟨hσ₁, hgrows, -⟩ := ho
    have hbranch := hU.part (d := if b then t else e) h.2 (by cases b <;> simp [Expr.parts])
    obtain ⟨hinv, hgrows', hthunk⟩ := hU.thunk hσ₁ (hU.fits_mono hgrows hbranch)
    exact ⟨hinv, hU.trans hgrows hgrows', hthunk⟩
  refused {_ _ _ _ _ o _} h _ ho hrefusal := by
    refine ⟨ho.2.1, hU.refused [o] ho.1 (hU.fits_mono ho.2.1 h.2) ?_ hrefusal⟩
    simpa using ho.2.2
  refusedRight {_ _ _ _ _ _ _ _ _ o' _} h ho ho' hrefusal := by
    have hgrows := hU.trans ho.2.1 ho'.2.1
    refine ⟨hgrows, hU.refused [o'] ho'.1 (hU.fits_mono hgrows h.2) ?_ hrefusal⟩
    simpa using ho'.2.2
  refusedBoth {_ _ _ _ op l r _ o o' refusal} h ho ho' hc := by
    have hgrows := hU.trans ho.2.1 ho'.2.1
    rcases BinaryOp.concerns_of_combine hc with hrefusal | ⟨-, rfl⟩
    · have hne : op.combine o o' ≠ .error .domain := by
        rw [hc]
        rintro ⟨⟩
        exact hrefusal
      obtain ⟨hnoted, hnote⟩ := hU.combined ho'.1 hne
      have hgrows' := hU.trans hgrows hnote
      refine ⟨hgrows', hU.refused [o, o'] hnoted (hU.fits_mono hgrows' h.2) ?_ hrefusal⟩
      simpa using ⟨hU.has_mono (hU.trans ho'.2.1 hnote) ho.2.2, hU.has_mono hnote ho'.2.2⟩
    · obtain ⟨hnote, hstop⟩ := hU.domain ho'.1 hc
      exact ⟨hU.trans hgrows hnote, hstop⟩

section

variable {env : Env} {o : Object} {p : Option Location}

/-- A call keeps up what the single changes do. -/
theorem Lawful.call (hU : U.Lawful) (hσ : U.Inv σ) (ho : U.Has σ (.object o)) {f a : Expr}
    (h : U.Fits σ env (.call f a p)) : U.Keeps U.Has (call o a env p) σ :=
  EvalRules.ends_call (R := hU.rules) ⟨hσ, h⟩ ⟨hσ, hU.refl σ, ho⟩

/-- An operator before its operand keeps up what the single changes do. -/
theorem Lawful.operateUnary (hU : U.Lawful) (hσ : U.Inv σ) (ho : U.Has σ (.object o)) {op : UnaryOp}
    {e : Expr} (h : U.Fits σ env (.unary op e p)) : U.Keeps U.Has (operateUnary op o p) σ :=
  EvalRules.ends_operateUnary (R := hU.rules) ⟨hσ, h⟩ ⟨hσ, hU.refl σ, ho⟩

/-- An operator between operands keeps up what the single changes do, if the right operand does. -/
theorem Lawful.operateLazily (hU : U.Lawful) (hσ : U.Inv σ) (ho : U.Has σ (.object o))
    {op : BinaryOp} {l r : Expr} (h : U.Fits σ env (.binary op l r p)) {right : Eval Object}
    (hright : U.Keeps (fun σ' o => U.Has σ' (.object o)) right σ) :
    U.Keeps U.Has (operateLazily op o right p) σ :=
  EvalRules.ends_operateLazily (R := hU.rules) ⟨hσ, h⟩ ⟨hσ, hU.refl σ, ho⟩ hright

/-- The choice of a branch keeps up what the single changes do. -/
theorem Lawful.choose (hU : U.Lawful) (hσ : U.Inv σ) (ho : U.Has σ (.object o)) {c t e : Expr}
    (h : U.Fits σ env (.cond c t e p)) : U.Keeps U.Has (choose o t e env p) σ :=
  EvalRules.ends_choose (R := hU.rules) ⟨hσ, h⟩ ⟨hσ, hU.refl σ, ho⟩

end

/-- Evaluation keeps up what the single changes do, if forcing does. -/
theorem Lawful.evals (hU : U.Lawful) {force : Value → Eval Object} (hforce : U.Forces force) :
    U.Evals (eval force) := by
  intro env e σ hσ he
  refine hU.rules.eval (fun {env e σ v σ'} _ hv => ?_) ⟨hσ, he⟩
  obtain ⟨hσ', hgrows, hv⟩ := hv
  exact (hforce hσ' hv).imp (fun o σ'' h => ⟨h.1, hU.trans hgrows h.2.1, h.2.2⟩)
    fun stop σ'' h => ⟨hU.trans hgrows h.1, h.2⟩

/-- Following a thunk keeps up what the changes to it do, if evaluation does. -/
theorem Memoizes.follows (hM : U.Memoizes) (hU : U.Lawful) {eval : Env → Expr → Eval Value}
    (heval : U.Evals eval) : U.Follows (step eval) := by
  intro a σ hσ ha
  cases hmemo : (σ.cell a).memo with
  | some v => exact ends_of_ok (step_of_memo hmemo) ⟨hσ, hU.refl σ, hM.memo hσ ha hmemo⟩
  | none =>
    cases hbusy : (σ.cell a).busy with
    | true => exact ends_of_error (step_of_busy hmemo hbusy) ⟨hU.refl σ, hM.busy hσ ha⟩
    | false =>
      have hready : U.Ready σ a := ⟨hσ, ha, hmemo, hbusy⟩
      obtain ⟨hmarked, hexpr⟩ := hM.mark hready
      have hkeeps := heval hmarked hexpr
      cases hx : eval (σ.cell a).env (σ.cell a).expr (σ.marked a) with
      | error stop σ' =>
        obtain ⟨hgrows, hstop⟩ := hkeeps.error hx
        exact ends_of_error (step_of_error hmemo hbusy hx) (hM.release hready hgrows hstop)
      | ok v σ' =>
        obtain ⟨hσ', hgrows, hv⟩ := hkeeps.ok hx
        cases hmemo' : (σ'.cell a).memo with
        | none =>
          exact ends_of_ok (step_of_eval_ok_of_none hmemo hbusy hx hmemo')
            (hM.settle hready hgrows hσ' hv hmemo')
        | some w =>
          -- the laws do not exclude that the thunk was settled meanwhile, and then the step stops
          have hsome : (σ'.cell a).memo.isSome := by rw [hmemo']; rfl
          exact ends_of_error (step_of_eval_ok_of_some hmemo hbusy hx hsome)
            (hM.refill hready hgrows hσ' hsome)

/-- Following thunks keeps up what the single changes do, if following one does. -/
theorem Lawful.forces_forceWith (hU : U.Lawful)
    {step : (Env → Expr → Eval Value) → CellId → Eval Value}
    (hstep : ∀ {eval}, U.Evals eval → U.Follows (step eval)) (fuel depth : Nat) :
    U.Forces (forceWith step fuel depth) := by
  -- by induction on the fuel alone: it goes down with every thunk, whatever the depth does
  induction fuel generalizing depth with
  | zero =>
    rintro (o | a) σ hσ hv
    · exact hU.pure hσ hv
    · exact ends_of_error rfl ⟨hU.refl σ, hU.outOfFuel hσ⟩
  | succ fuel ih =>
    rintro (o | a) σ hσ hv
    · exact hU.pure hσ hv
    cases depth with
    | zero => exact ends_of_error rfl ⟨hU.refl σ, hU.tooDeep hσ⟩
    | succ depth =>
      rw [forceWith_thunk]
      exact hU.bind (hstep (hU.evals (ih depth)) hσ hv) fun v σ' hσ' _ hv => ih (depth + 1) hσ' hv

/-- Forcing keeps up what the single changes do, within any limits. -/
theorem Lawful.forces (hU : U.Lawful) (hM : U.Memoizes) (fuel depth : Nat) :
    U.Forces (force fuel depth) :=
  hU.forces_forceWith (hM.follows hU) fuel depth

/-- Outputting keeps up what the single changes do, if forcing does. -/
theorem Lawful.output (hU : U.Lawful) {force : Value → Eval Object} (hforce : U.Forces force)
    (hσ : U.Inv σ) {env : Env} {e : Expr} (he : U.Fits σ env e) (o : Output)
    (place : Option Location) :
    U.Keeps (fun _ _ => True) ((Statement.output o e place).execute force env) σ := by
  cases o with
  | value =>
    have hvalue := hU.bind (hU.evals hforce hσ he) fun v σ' hσ' _ hv => hforce hσ' hv
    exact hU.bind hvalue fun o σ' hσ' _ _ => hU.pure hσ' trivial
  | expansion =>
    obtain ⟨hinv, hgrows⟩ := hU.object (.string (e.expand σ env [] []).render) hσ
    exact ends_of_ok rfl ⟨hinv, hgrows, trivial⟩

end Upkeep

end CallByNeed
