import CallByNeed.Proofs.Denotation
import Mathlib.Data.List.Infix
import Mathlib.Order.Filter.AtTopBot.Basic

/-!
# Evaluation with a store simulates evaluation without one

`Sim` relates a computation on a store to what it gives without a store: both give results that mean
the same, or both stop for the same reason. There may be excuses (`Excuses`), which differ between
the uses of this relation: a reason to stop that only one side knows, or the comparison of two
functions, which the log tells about.

The other side is a family of results, and what it gives is what almost all members give. In one use
all members are the same; in another one they are the results with wider and wider bounds.

Evaluation is simulated if forcing is (`sim_eval`).
-/

namespace CallByNeed

open Filter

/-! ## The log grows -/

/-- No event is forgotten. -/
def Upkeep.log : Upkeep where
  Inv _ := True
  Grows σ σ' := σ.log <:+ σ'.log
  Fits _ _ _ := True
  Has _ _ := True
  Stops _ _ := True

/-- The changes that evaluation makes forget no event. -/
theorem Upkeep.lawful_log : Upkeep.log.Lawful where
  refl _ := List.suffix_rfl
  trans := List.IsSuffix.trans
  fits_mono _ _ := trivial
  has_mono _ _ := trivial
  part _ _ := trivial
  literal _ _ _ := trivial
  lookup _ _ _ := trivial
  undefined _ _ _ := trivial
  object _ _ := ⟨trivial, List.suffix_rfl⟩
  constant _ _ := trivial
  function _ _ := trivial
  thunk _ _ := ⟨trivial, List.suffix_rfl, trivial⟩
  body _ _ _ := ⟨trivial, List.suffix_rfl, trivial⟩
  combined _ _ := ⟨trivial, List.suffix_cons _ _⟩
  domain _ _ := ⟨List.suffix_cons _ _, trivial⟩
  refused _ _ _ _ _ := trivial
  tooDeep _ := trivial
  outOfFuel _ := trivial

/-- Marking, releasing and settling a thunk forget no event. -/
theorem Upkeep.memoizes_log : Upkeep.log.Memoizes where
  memo _ _ _ := trivial
  busy _ _ := trivial
  mark _ := ⟨trivial, trivial⟩
  release _ hgrows _ :=
    ⟨((List.suffix_cons _ _).trans hgrows).trans (List.suffix_cons _ _), trivial⟩
  settle {σ σ' a v} _ hgrows _ _ _ := by
    have hlog : (σ'.settled a v).log = .filled a :: .finished a :: σ'.log := rfl
    refine ⟨trivial, ((List.suffix_cons _ _).trans hgrows).trans ?_, trivial⟩
    exact hlog ▸ (List.suffix_cons _ _).trans (List.suffix_cons _ _)
  refill _ hgrows _ _ :=
    ⟨((List.suffix_cons _ _).trans hgrows).trans (List.suffix_cons _ _), trivial⟩

/-- A computation forgets no event, whether it stops or not. -/
def LogGrows {α : Type} (x : Eval α) : Prop :=
  ∀ σ, Upkeep.log.Keeps (fun _ _ => True) x σ

/-- An operator forgets no event. -/
theorem logGrows_operate (op : BinaryOp) (l r : Object) (place : Option Location) :
    LogGrows (operate op l r place) := by
  intro σ
  have hlog : σ.log <:+ (σ.note (.combined op l r)).log := List.suffix_cons _ _
  cases hc : op.combine l r with
  | ok c => exact ends_of_ok (operate_of_ok hc place σ) ⟨trivial, hlog, trivial⟩
  | error refusal =>
    exact ends_of_error ((operate_of_error hc place σ).trans (refuse_eq ..)) ⟨hlog, trivial⟩

/-- Evaluation forgets no event, if forcing does not. -/
theorem logGrows_eval {force : Value → Eval Object} (hforce : ∀ v, LogGrows (force v)) (env : Env)
    (e : Expr) : LogGrows (eval force env e) :=
  fun _ => Upkeep.lawful_log.evals (fun v σ _ _ => hforce v σ) trivial trivial

/-- Evaluating and forcing an expression forgets no event, if forcing does not. -/
theorem logGrows_value {force : Value → Eval Object} (hforce : ∀ v, LogGrows (force v)) (env : Env)
    (e : Expr) : LogGrows (eval force env e >>= force) :=
  fun σ => Upkeep.lawful_log.bind (logGrows_eval hforce env e σ) fun v σ' _ _ _ => hforce v σ'

/-! ## The relation -/

/-- What excuses a computation from giving what is expected. -/
structure Excuses where
  /-- The reasons for which the computation may stop. -/
  stop : Stop → Prop
  /-- The events after which nothing is expected. -/
  log : List Event → Prop
  /-- The halts after which nothing is expected. -/
  halt : Halt → Prop
  /-- What is excused by the log stays so. -/
  log_mono : ∀ {log₁ log₂ : List Event}, log₁ <:+ log₂ → log log₁ → log log₂
  /-- The comparison of two functions is excused. -/
  compared : halt .compared ∨ ∀ (op : BinaryOp) (l r : Object) (events : List Event),
    op.identifies = true → l.content.isFunction = true → r.content.isFunction = true →
    log (.combined op l r :: events)

/-- A computation on a store gives what almost all of a family of results say: a result for which
`R` holds, and with it a sound store; or the same reason to stop. -/
def Sim {α β : Type} (E : Excuses) (G : Globals) (R : Store → α → β → Prop) (x : Eval α)
    (σ : Store) (r : ℕ → Except Halt β) : Prop :=
  (∀ᶠ m in atTop, ∃ h, r m = .error h ∧ E.halt h) ∨
  match x σ with
  | .ok a σ' =>
    E.log σ'.log ∨ Sound G σ' ∧ σ.Extends σ' ∧ ∃ b, R σ' a b ∧ ∀ᶠ m in atTop, r m = .ok b
  | .error stop σ' => E.log σ'.log ∨ E.stop stop ∨ ∀ᶠ m in atTop, r m = .error (.stop stop)

section

variable {α β γ δ : Type} {E : Excuses} {G : Globals} {R : Store → α → β → Prop}
  {S : Store → γ → δ → Prop} {σ : Store}

/-- A computation that gives a result for which `R` holds gives what is expected. -/
theorem sim_ok {x : Eval α} {a : α} {b : β} {σ' : Store} (hx : x σ = .ok a σ') (hσ' : Sound G σ')
    (hext : σ.Extends σ') (hR : R σ' a b) : Sim E G R x σ fun _ => .ok b := by
  refine .inr ?_
  rw [hx]
  exact .inr ⟨hσ', hext, b, hR, .of_forall fun _ => rfl⟩

/-- A computation that stops gives what is expected, if that is to stop for the same reason. -/
theorem sim_stop (E : Excuses) (G : Globals) (R : Store → α → β → Prop) {x : Eval α} {stop : Stop}
    {σ' : Store} (hx : x σ = .error stop σ') : Sim E G R x σ fun _ => .error (.stop stop) := by
  refine .inr ?_
  rw [hx]
  exact .inr (.inr (.of_forall fun _ => rfl))

/-- A refusal is expected where it is refused. -/
theorem sim_refuse (refusal : Refusal) (place : Option Location) :
    Sim E G R (refuse refusal place : Eval α) σ fun _ => .error (.stop (refusal.stop place)) := by
  cases refusal <;> exact sim_stop E G R rfl

/-- Computations are simulated one after the other. Should the first one be excused by the log, so
is the second one, because the log grows. -/
theorem Sim.bind {x : Eval α} {f : α → Eval γ} {r : ℕ → Except Halt β}
    {g : ℕ → β → Except Halt δ} (hx : Sim E G R x σ r) (hlog : ∀ a, LogGrows (f a))
    (hf : ∀ a b σ', Sound G σ' → σ.Extends σ' → R σ' a b → Sim E G S (f a) σ' fun m => g m b) :
    Sim E G S (x >>= f) σ fun m => r m >>= g m := by
  rcases hx with hhalt | hx
  · refine .inl ?_
    filter_upwards [hhalt] with m hm
    obtain ⟨h, hr, hh⟩ := hm
    rw [hr]
    exact ⟨h, rfl, hh⟩
  cases h : x σ with
  | error stop σ' =>
    rw [h] at hx
    refine .inr ?_
    rw [bind_of_error h]
    refine hx.imp_right (Or.imp_right fun hr => ?_)
    filter_upwards [hr] with m hm
    rw [hm]
    rfl
  | ok a σ' =>
    rw [h] at hx
    rcases hx with hevents | ⟨hσ', hext, b, hR, hr⟩
    · -- the log excuses the first computation, and it only grows
      refine .inr ?_
      rw [bind_of_ok h]
      cases h' : f a σ' with
      | ok c σ'' => exact .inl (E.log_mono ((hlog a σ').ok h').2.1 hevents)
      | error stop σ'' => exact .inl (E.log_mono ((hlog a σ').error h').1 hevents)
    · -- both families settle, so almost all members of the first one hand on the same result
      rcases hf a b σ' hσ' hext hR with hhalt | hfa
      · refine .inl ?_
        filter_upwards [hr, hhalt] with m hm hh
        rw [hm]
        exact hh
      · refine .inr ?_
        rw [bind_of_ok h]
        cases h' : f a σ' with
        | ok c σ'' =>
          rw [h'] at hfa
          refine hfa.imp_right ?_
          rintro ⟨hσ'', hext', d, hS, hg⟩
          refine ⟨hσ'', hext.trans hext', d, hS, ?_⟩
          filter_upwards [hr, hg] with m hm hgm
          rw [hm]
          exact hgm
        | error stop σ'' =>
          rw [h'] at hfa
          refine hfa.imp_right (Or.imp_right fun hg => ?_)
          filter_upwards [hr, hg] with m hm hgm
          rw [hm]
          exact hgm

end

/-! ## What evaluation is made of -/

section

variable {E : Excuses} {G : Globals} {σ : Store}

/-- An object is like the value that it means, apart from environments. -/
theorem Object.Means.alike {o : Object} {d : Datum} (h : o.Means σ d) :
    o.content.Alike d.content := by
  cases h with
  | plain => exact .same _
  | closure => exact .function _ _ _ _

/-- What has no body at all is not a function. -/
theorem isFunction_eq_false {c : Content} (h : c.Ok fun _ => False) : c.isFunction = false := by
  cases c with
  | function => exact h.elim
  | _ => rfl

/-- An object that is no function is made as expected. -/
theorem sim_make (hσ : Sound G σ) {c : Content} (hc : c.isFunction = false) :
    Sim E G Value.Means (make c) σ fun _ => .ok (.kept (.plain c)) :=
  sim_ok rfl (hσ.newObject c) (Store.extends_newObject c) (.object (.plain _ hc))

/-- A new thunk stands for its expression. -/
theorem suspends_newThunk (e : Expr) {env : Env} {s : Scope} (hs : Denotes σ env s) :
    Suspends (σ.newThunk e env).2 σ.cells.size e s := by
  refine ⟨by simp, ?_, ?_⟩
  · rw [Store.cell_newThunk_self]
  · rw [Store.cell_newThunk_self]
    exact hs.mono (Store.extends_newThunk e env).grows

/-- A thunk is made where an expression in its scope is expected. -/
theorem sim_suspend (hσ : Sound G σ) (e : Expr) {env : Env} {s : Scope} (hs : Denotes σ env s) :
    Sim E G Value.Means (suspend e env) σ fun _ => .ok (.due e s) :=
  sim_ok rfl (hσ.newThunk e env) (Store.extends_newThunk e env) (.thunk (suspends_newThunk e hs))

/-- A new frame with a parameter is the scope inside of which the parameter stands for its
argument. -/
theorem denotes_newFrame (hσ : Sound G σ) {a : CellId} {e : Expr} {s outer : Scope} {env : Env}
    (ha : Suspends σ a e s) (houter : Denotes σ env outer) (x : String) :
    Denotes (σ.newFrame [(x, .thunk a)]).2 (env.inner σ.frames.size) (.inner x e s outer) := by
  have hgrows := (Store.extends_newFrame (σ := σ) [(x, .thunk a)]).grows
  obtain ⟨hlt, rfl, henv⟩ := ha.mono hgrows
  exact .inner hσ.nonempty (by simp [Store.newFrame]) (Store.frame_newFrame_self σ _) hlt henv
    (houter.mono hgrows)

/-- A call gives what is expected of a call by name. -/
theorem sim_call (hσ : Sound G σ) {o : Object} {d : Datum} (ho : o.Means σ d) (a : Expr)
    {env : Env} {s : Scope} (hs : Denotes σ env s) (place : Option Location) :
    Sim E G Value.Means (call o a env place) σ fun _ => d.call a s place := by
  cases ho with
  | @plain i c hc =>
    have hcall : call ⟨i, c⟩ a env place = refuse (.ofKind .notFunction c) place := by
      cases c with
      | function => cases hc
      | _ => rfl
    rw [hcall]
    exact sim_refuse _ place
  | @closure i x body closure outer houter =>
    -- the argument, the frame with the parameter, and the body are added to the store in turn
    have hext₁ := Store.extends_newThunk (σ := σ) a env
    have hargument := suspends_newThunk a hs
    have hσ₁ := hσ.newThunk a env
    have hinside := denotes_newFrame hσ₁ hargument (houter.mono hext₁.grows) x
    have hext₂ := Store.extends_newFrame (σ := (σ.newThunk a env).2) [(x, .thunk σ.cells.size)]
    have hσ₂ := hσ₁.newFrame (f := [(x, .thunk σ.cells.size)]) fun b hb => by
      rw [List.mem_singleton.1 hb]
      exact hargument.lt
    exact sim_ok rfl (hσ₂.newThunk body _)
      ((hext₁.trans hext₂).trans (Store.extends_newThunk body _))
      (.thunk (suspends_newThunk body hinside))

/-- An operator before its operand gives what is expected. -/
theorem sim_operateUnary (hσ : Sound G σ) {o : Object} {d : Datum} (ho : o.Means σ d)
    (op : UnaryOp) (place : Option Location) :
    Sim E G Value.Means (operateUnary op o place) σ fun _ => d.operateUnary op place := by
  unfold operateUnary Datum.operateUnary
  rw [UnaryOp.apply_congr ho.alike.similar op]
  cases h : op.apply d.content with
  | error refusal => exact sim_refuse refusal place
  | ok c => exact sim_make hσ (isFunction_eq_false (UnaryOp.ok_of_apply h))

/-- An operator gives the same for what the operands mean. If it tells two functions apart, the log
says so. -/
theorem sim_operate (hσ : Sound G σ) {l r : Object} {d d' : Datum} (hl : l.Means σ d)
    (hr : r.Means σ d') (op : BinaryOp) (place : Option Location) :
    Sim E G Value.Means (operate op l r place) σ fun _ => d.operate op d' place := by
  by_cases hfunctions : (op.identifies && l.content.isFunction && r.content.isFunction) = true
  · -- two functions are compared, which is excused by the halt or by the log
    have hcompared : d.operate op d' place = .error .compared := by
      rw [Datum.operate, ← hl.alike.similar.isFunction_eq, ← hr.alike.similar.isFunction_eq,
        if_pos hfunctions]
    rw [hcompared]
    rcases E.compared with hhalt | hlog
    · exact .inl (.of_forall fun _ => ⟨_, rfl, hhalt⟩)
    · rw [Bool.and_eq_true, Bool.and_eq_true] at hfunctions
      have hevents := hlog op l r σ.log hfunctions.1.1 hfunctions.1.2 hfunctions.2
      refine .inr ?_
      cases h : op.combine l r with
      | ok c =>
        rw [operate_of_ok h]
        exact .inl hevents
      | error refusal =>
        rw [operate_of_error h]
        cases refusal <;> exact .inl hevents
  · -- otherwise the operator sees the contents only, and these are alike
    rw [Bool.not_eq_true] at hfunctions
    have hcombine : op.combine l r = op.combine ⟨.nothing, d.content⟩ ⟨.nothing, d'.content⟩ := by
      refine BinaryOp.combine_congr hl.alike.similar hr.alike.similar fun hop hfl hfr => ?_
      rw [hop, hfl, hfr] at hfunctions
      cases hfunctions
    rw [Datum.operate, ← hl.alike.similar.isFunction_eq, ← hr.alike.similar.isFunction_eq,
      hfunctions, if_neg Bool.false_ne_true, ← hcombine]
    cases h : op.combine l r with
    | ok c =>
      have hc := isFunction_eq_false (BinaryOp.ok_of_combine h)
      exact sim_ok (operate_of_ok h place σ) ((hσ.noteCombined op l r).newObject c)
        ((Store.extends_note _).trans (Store.extends_newObject c)) (.object (.plain _ hc))
    | error refusal =>
      have hoperate := operate_of_error h place σ
      cases refusal <;> exact sim_stop E G _ hoperate

/-- An operator between operands gives what is expected, if the right operand does. -/
theorem sim_operateLazily (hσ : Sound G σ) {o : Object} {d : Datum} (ho : o.Means σ d)
    {right : Eval Object} {r : ℕ → Except Halt Datum} (hright : Sim E G Object.Means right σ r)
    (op : BinaryOp) (place : Option Location) :
    Sim E G Value.Means (operateLazily op o right place) σ fun m =>
      d.operateLazily op (r m) place := by
  unfold operateLazily Datum.operateLazily
  cases op.decisive? with
  | none =>
    refine hright.bind (fun o' => logGrows_operate op o o' place) fun o' d' σ' hσ' hext ho' => ?_
    exact sim_operate hσ' (ho.mono hext.grows) ho' op place
  | some decisive =>
    cases ho with
    | closure => exact sim_refuse (.cause (.needsBooleans op .function)) place
    | @plain i c hc =>
      cases c with
      | boolean b =>
        dsimp only [Datum.content]
        split
        · exact sim_ok rfl hσ (.refl σ) (.object (.plain i hc))
        · refine hright.bind (fun o' => ?_) fun o' d' σ' hσ' hext ho' => ?_
          · split
            · exact logGrows_operate op _ o' place
            · exact fun _ => ends_of_error (refuse_eq ..) ⟨List.suffix_rfl, trivial⟩
          · -- the right operand has to be a truth value too
            cases ho' with
            | closure => exact sim_refuse (.cause (.needsBooleans op .function)) place
            | @plain j c hc' =>
              cases c with
              | boolean b' => exact sim_operate hσ' (.plain i hc) (.plain j hc') op place
              | _ => exact sim_refuse _ place
      | _ => exact sim_refuse _ place

/-- A conditional chooses the branch that is expected. -/
theorem sim_choose (hσ : Sound G σ) {o : Object} {d : Datum} (ho : o.Means σ d) (t e : Expr)
    {env : Env} {s : Scope} (hs : Denotes σ env s) (place : Option Location) :
    Sim E G Value.Means (choose o t e env place) σ fun _ => d.choose t e s place := by
  cases ho with
  | closure => exact sim_stop E G _ rfl
  | @plain i c hc =>
    cases c with
    | boolean b => exact sim_suspend hσ _ hs
    | _ => exact sim_stop E G _ rfl

/-- Evaluation is simulated, if forcing is. How forcing is simulated may depend on the store, but
only on what evaluation leaves as it is. -/
theorem sim_eval {force : Value → Eval Object} {resolve : ℕ → Promise → Except Halt Datum}
    {J : Store → Prop} (hJ : ∀ σ σ', J σ → σ.Extends σ' → J σ') (hlog : ∀ v, LogGrows (force v))
    (hforce : ∀ v p σ, Sound G σ → J σ → v.Means σ p →
      Sim E G Object.Means (force v) σ fun m => resolve m p)
    {env : Env} {s : Scope} (hσ : Sound G σ) (hJσ : J σ) (hs : Denotes σ env s) (e : Expr) :
    Sim E G Value.Means (eval force env e) σ fun m => meaning (resolve m) G s e := by
  -- an operand is first evaluated and then forced
  have hneed : ∀ e σ, J σ →
      Sim E G Value.Means (eval force env e) σ (fun m => meaning (resolve m) G s e) →
      Sim E G Object.Means (eval force env e >>= force) σ
        fun m => meaning (resolve m) G s e >>= resolve m := by
    intro e σ hJσ h
    exact h.bind hlog fun v p σ' hσ' hext hv => hforce v p σ' hσ' (hJ σ σ' hJσ hext) hv
  have hfits : ∀ σ e, Upkeep.log.Fits σ env e := fun _ _ => trivial
  induction e generalizing σ with
  | literal c place => exact sim_ok rfl hσ (.refl σ) (.object (.plain _ (by cases c <;> rfl)))
  | name x place =>
    have hx := hσ.lookup hs x
    have heval := eval_name force env x place σ
    unfold meaning
    cases hfind : s.find? G x with
    | none =>
      rw [hfind] at hx
      rw [show σ.lookup env x = none from hx] at heval
      exact sim_stop E G _ heval
    | some found =>
      rw [hfind] at hx
      obtain ⟨a, ha, hsuspends⟩ := hx
      rw [ha] at heval
      exact sim_ok heval hσ (.refl σ) (.thunk hsuspends)
  | paren e _ ih => exact ih hσ hJσ hs
  | arrow x e _ =>
    have hext := Store.extends_newObject (σ := σ) (.function x e env)
    exact sim_ok rfl (hσ.newObject (.function x e env)) hext
      (.object (.closure _ x e (hs.mono hext.grows)))
  | call f a place ihf =>
    have hgrows : ∀ o, LogGrows (call o a env place) := fun _ σ =>
      Upkeep.lawful_log.call trivial trivial (hfits σ (.call f a place))
    refine (hneed f σ hJσ (ihf hσ hJσ hs)).bind hgrows ?_
    intro o d σ' hσ' hext ho
    exact sim_call hσ' ho a (hs.mono hext.grows) place
  | unary op e place ih =>
    have hgrows : ∀ o, LogGrows (operateUnary op o place) := fun _ σ =>
      Upkeep.lawful_log.operateUnary trivial trivial (hfits σ (.unary op e place))
    refine (hneed e σ hJσ (ih hσ hJσ hs)).bind hgrows ?_
    intro o d σ' hσ' _ ho
    exact sim_operateUnary hσ' ho op place
  | binary op l r place ihl ihr =>
    have hgrows : ∀ o, LogGrows (operateLazily op o (eval force env r >>= force) place) :=
      fun _ σ => Upkeep.lawful_log.operateLazily trivial trivial (hfits σ (.binary op l r place))
        (logGrows_value hlog env r σ)
    refine (hneed l σ hJσ (ihl hσ hJσ hs)).bind hgrows ?_
    intro o d σ' hσ' hext ho
    -- the right operand is evaluated in the store that the left one leaves
    have hJσ' := hJ σ σ' hJσ hext
    exact sim_operateLazily hσ' ho (hneed r σ' hJσ' (ihr hσ' hJσ' (hs.mono hext.grows))) op place
  | cond c t e place ihc =>
    have hgrows : ∀ o, LogGrows (choose o t e env place) := fun _ σ =>
      Upkeep.lawful_log.choose trivial trivial (hfits σ (.cond c t e place))
    refine (hneed c σ hJσ (ihc hσ hJσ hs)).bind hgrows ?_
    intro o d σ' hσ' hext ho
    exact sim_choose hσ' ho t e (hs.mono hext.grows) place

/-- Evaluating and forcing an expression is simulated, if forcing is. -/
theorem sim_value {force : Value → Eval Object} {resolve : ℕ → Promise → Except Halt Datum}
    {J : Store → Prop} (hJ : ∀ σ σ', J σ → σ.Extends σ' → J σ') (hlog : ∀ v, LogGrows (force v))
    (hforce : ∀ v p σ, Sound G σ → J σ → v.Means σ p →
      Sim E G Object.Means (force v) σ fun m => resolve m p)
    {env : Env} {s : Scope} (hσ : Sound G σ) (hJσ : J σ) (hs : Denotes σ env s) (e : Expr) :
    Sim E G Object.Means (eval force env e >>= force) σ
      fun m => meaning (resolve m) G s e >>= resolve m :=
  (sim_eval hJ hlog hforce hσ hJσ hs e).bind hlog fun v p σ' hσ' hext hv =>
    hforce v p σ' hσ' (hJ σ σ' hJσ hext) hv

end

end CallByNeed
