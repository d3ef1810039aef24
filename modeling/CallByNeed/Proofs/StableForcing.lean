import CallByNeed.Proofs.ExtraWork
import CallByNeed.Proofs.FloatOrder

/-!
# Forcing is stable

Forcing a value leaves a chain of results in the store, from the value to the object that was found
(`follows_of_force`). Nothing that happens later breaks the chain (`Store.Later.persists`), and as
long as it is there, forcing does nothing but follow it (`Store.Follows.force_object`). So the same
object is found again and again, and the store stays as it is.

Forcing that fails leaves no such chain, but it leaves the store ahead of what it was. There the
same failure comes about again, as long as nothing is declared (`Surpasses.force_error`).

A name that is forced by way of another one ends at the same object. This is shown by comparing two
runs: one that forces just the one name, and one that has forced the other name before
(`exists_force_through`, `exists_force_same`).
-/

namespace CallByNeed

open Filter

/-! ## What can happen to a store -/

namespace Store

/-- What can happen to a store without a declaration. -/
inductive Observed : Store → Store → Prop where
  /-- An expression was evaluated, or its evaluation failed. -/
  | eval {σ : Store} {env : Env} (limits : Limits) (e : Expr) : σ.HasEnv env →
      Observed σ (leftBy (limits.eval env e) σ)
  /-- A value was forced, or forcing it failed. -/
  | force {σ : Store} {v : Value} (limits : Limits) : v.In σ →
      Observed σ (leftBy (limits.force v) σ)
  /-- An output statement was executed, or failed. -/
  | output {σ : Store} (limits : Limits) (o : Output) (e : Expr) (place : Option Location) :
      Observed σ (leftBy ((Statement.output o e place).execute limits.force .global) σ)
  /-- A statement failed, which may be a declaration. -/
  | failed {σ σ' : Store} {s : Statement} {stop : Stop} (limits : Limits) :
      s.execute limits.force .global σ = .error stop σ' → Observed σ σ'

/-- What can happen to a store, between statements or while a thunk is evaluated. -/
inductive Changed : Store → Store → Prop where
  | observed {σ σ' : Store} : σ.Observed σ' → Changed σ σ'
  /-- A name was declared, unless it was taken. -/
  | declared {σ : Store} (limits : Limits) (x : String) (e : Expr) (place : Option Location) :
      Changed σ (leftBy ((Statement.declare x e place).execute limits.force .global) σ)
  /-- The evaluation of a thunk has begun. -/
  | begun {σ : Store} (a : CellId) : Changed σ (σ.marked a)
  /-- The evaluation of a thunk has failed. -/
  | abandoned {σ : Store} (a : CellId) : Changed σ (σ.released a)
  /-- The evaluation of a thunk has given a result. -/
  | finished {σ : Store} {a : CellId} {v : Value} : (σ.cell a).memo = none → v.In σ →
      Changed σ (σ.settled a v)

/-- A store was reached later than another one. -/
def Later : Store → Store → Prop :=
  Relation.ReflTransGen Changed

/-- A store was reached later than another one, and nothing was declared in between. -/
def Meanwhile : Store → Store → Prop :=
  Relation.ReflTransGen Observed

section

variable {σ σ' τ : Store}

/-- A statement keeps what is in the store, whether it succeeds or fails. -/
theorem Rooted.persists_execute (h : σ.Rooted) (limits : Limits) (s : Statement) :
    σ.Persists (leftBy (s.execute limits.force .global) σ) := by
  rcases s with ⟨x, e, place⟩ | ⟨o, e, place⟩
  · cases hx : σ.contains .global x with
    | true =>
      rw [leftBy_of_error (execute_declare_taken _ hx e place)]
      exact .refl σ
    | false =>
      rw [leftBy_of_ok (execute_declare_new _ hx e place)]
      exact h.persists_declare hx e
  · exact (limits.output_rooted h o e place).rooted.2.toPersists

/-- What is observed in between keeps environments rooted and all that is in the store. -/
theorem Observed.grow (h : σ.Observed σ') (hσ : σ.Rooted) : σ'.Rooted ∧ σ.Persists σ' := by
  cases h with
  | eval limits e henv =>
    obtain ⟨hrooted, hunfolds⟩ := (limits.evals_rooted hσ henv).rooted
    exact ⟨hrooted, hunfolds.toPersists⟩
  | force limits hv =>
    obtain ⟨hrooted, hunfolds⟩ := (limits.forces_rooted hσ hv).rooted
    exact ⟨hrooted, hunfolds.toPersists⟩
  | output limits o e place => exact ⟨hσ.execute limits _, hσ.persists_execute limits _⟩
  | failed limits hs =>
    rw [← leftBy_of_error hs]
    exact ⟨hσ.execute limits _, hσ.persists_execute limits _⟩

/-- Any change keeps environments rooted and all that is in the store. -/
theorem Changed.grow (h : σ.Changed σ') (hσ : σ.Rooted) : σ'.Rooted ∧ σ.Persists σ' := by
  cases h with
  | observed h => exact h.grow hσ
  | declared limits x e place => exact ⟨hσ.execute limits _, hσ.persists_execute limits _⟩
  | begun a => exact ⟨hσ.setBusy a true _, (σ.unfolds_marked a).toPersists⟩
  | abandoned a => exact ⟨hσ.setBusy a false _, (σ.unfolds_released a).toPersists⟩
  | @finished a v hmemo hv =>
    have hunmarked := σ.unfolds_setBusy a false (.finished a)
    have hnone : (((σ.setBusy a false).note (.finished a)).cell a).memo = none := by
      rw [cell_note, memo_setBusy, hmemo]
    exact ⟨(hσ.setBusy a false _).setMemo hnone (hv.mono hunmarked.toPersists),
      (unfolds_settled hmemo v).toPersists⟩

/-- Whatever happens, all that is in a store is kept. -/
theorem Later.persists (h : σ.Later τ) (hσ : σ.Rooted) : σ.Persists τ := by
  have hgrow : τ.Rooted ∧ σ.Persists τ := by
    induction h with
    | refl => exact ⟨hσ, .refl σ⟩
    | tail _ hstep ih =>
      obtain ⟨hrooted, hpersists⟩ := hstep.grow ih.1
      exact ⟨hrooted, ih.2.trans hpersists⟩
  exact hgrow.2

/-! ## Chains of results -/

/-- The results of `n` thunks lead from one value to another. -/
inductive Follows (σ : Store) : ℕ → Value → Value → Prop where
  | refl (v : Value) : Follows σ 0 v v
  | step {a : CellId} {v w : Value} {n : ℕ} : (σ.cell a).memo = some v → Follows σ n v w →
      Follows σ (n + 1) (.thunk a) w

variable {n m : ℕ} {u v w : Value} {o o' : Object}

/-- A chain of results stays while the store keeps its results. -/
theorem Follows.mono (h : σ.Persists τ) (hv : σ.Follows n v w) : τ.Follows n v w := by
  induction hv with
  | refl v => exact .refl v
  | step hmemo _ ih => exact .step (h.memo _ _ hmemo) ih

/-- Chains of results can be joined. -/
theorem Follows.trans (h : σ.Follows n u v) (h' : σ.Follows m v w) : σ.Follows (n + m) u w := by
  induction h with
  | refl v => rwa [Nat.zero_add]
  | step hmemo _ ih =>
    rw [Nat.add_right_comm]
    exact .step hmemo (ih h')

/-- A chain of results ends at one object only. -/
theorem Follows.object_unique (h : σ.Follows n v (.object o)) (h' : σ.Follows m v (.object o')) :
    o = o' := by
  induction n generalizing m v with
  | zero =>
    cases h
    cases h'
    rfl
  | succ n ih =>
    cases h with
    | step hmemo hrest =>
      cases h' with
      | step hmemo' hrest' =>
        cases hmemo.symm.trans hmemo'
        exact ih hrest hrest'

/-- Forcing follows results that are there, one unit of fuel for each. -/
theorem Follows.force_eq (h : σ.Follows n v w) (fuel : ℕ) {depth : ℕ} (hdepth : 0 < depth) :
    CallByNeed.force (n + fuel) depth v σ = CallByNeed.force fuel depth w σ := by
  obtain ⟨depth, rfl⟩ := Nat.exists_eq_add_of_le' hdepth
  induction h with
  | refl v => rw [Nat.zero_add]
  | step hmemo _ ih =>
    rw [Nat.add_right_comm, CallByNeed.force, forceWith_thunk, bind_of_ok (step_of_memo hmemo)]
    exact ih

/-- If there is a chain of results already, forcing finds its end and changes nothing. -/
theorem Follows.force_object (h : σ.Follows n v (.object o)) {fuel depth : ℕ} (hfuel : n ≤ fuel)
    (hdepth : n = 0 ∨ 0 < depth) : CallByNeed.force fuel depth v σ = .ok o σ := by
  have hobject : ∀ fuel depth, CallByNeed.force fuel depth (.object o) σ = .ok o σ := by
    intro fuel depth
    cases fuel <;> rfl
  obtain ⟨rest, rfl⟩ := Nat.exists_eq_add_of_le hfuel
  rcases hdepth with rfl | hdepth
  · cases h
    exact hobject _ depth
  · rw [h.force_eq rest hdepth]
    exact hobject rest depth

end

end Store

section

variable {L : Ledger} {σ σ' : Store} {fuel depth : ℕ} {v : Value} {o : Object}

/-- Forcing leaves all that is in the store as it is. -/
theorem unfolds_of_force (hσ : σ.Rooted) (hv : v.In σ) (h : force fuel depth v σ = .ok o σ') :
    σ.Unfolds σ' := by
  rw [← leftBy_of_ok h]
  exact (Limits.forces_rooted ⟨fuel, depth⟩ hσ hv).rooted.2

/-- Forcing leaves a chain of results from the value to the object, no longer than the fuel. -/
theorem follows_of_force (hL : L.Audited σ) (hv : v.In σ)
    (h : force fuel depth v σ = .ok o σ') :
    ∃ n ≤ fuel, (n = 0 ∨ 0 < depth) ∧ σ'.Follows n v (.object o) := by
  induction fuel generalizing v L σ with
  | zero =>
    cases v with
    | object => cases h; exact ⟨0, le_rfl, .inl rfl, .refl _⟩
    | thunk a => cases h
  | succ fuel ih =>
    cases v with
    | object => cases h; exact ⟨0, Nat.zero_le _, .inl rfl, .refl _⟩
    | thunk a =>
      cases depth with
      | zero => cases h
      | succ depth =>
        rw [force, forceWith_thunk] at h
        have hstep := Limits.audits_step ⟨fuel, depth⟩ ⟨L, hL⟩ hv
        cases hrun : step (eval (force fuel depth)) a σ with
        | error stop σ₁ => cases (bind_of_error hrun _).symm.trans h
        | ok w σ₁ =>
          have hrest : force fuel (depth + 1) w σ₁ = .ok o σ' := (bind_of_ok hrun _).symm.trans h
          -- the result of this thunk is kept, and stays while the result is forced
          obtain ⟨L₁, hL₁, -, hmemo⟩ := hstep.ok hrun L hL
          have hw := hL₁.audited.sane.rooted.memo a w hmemo
          have hkept := (unfolds_of_force hL₁.audited.sane.rooted hw hrest).memo a w hmemo
          obtain ⟨n, hn, -, hfollows⟩ := ih hL₁.audited hw hrest
          exact ⟨n + 1, Nat.succ_le_succ hn, .inr depth.succ_pos, .step hkept hfollows⟩

end

/-! ## Comparing an object with itself -/

/-- The content is NaN, which is a number by its kind only. -/
def Content.IsNaN (c : Content) : Prop :=
  ∃ x, c = .number x ∧ Binary64.shape x = .nan

/-- Everything but NaN equals itself. -/
theorem BinaryOp.areEqual_self {o : Object} (h : o.content ≠ .nothing) :
    ∃ b, areEqual o o = .ok b ∧ (b = true ↔ ¬o.content.IsNaN) := by
  obtain ⟨i, c⟩ := o
  have hplain : ∀ c : Content, (∀ x, c ≠ .number x) → (true = true ↔ ¬c.IsNaN) := by
    intro c hc
    refine ⟨?_, fun _ => rfl⟩
    rintro - ⟨x, hx, -⟩
    exact hc x hx
  cases c with
  | nothing => exact absurd rfl h
  | number x =>
    refine ⟨x == x, rfl, Binary64.beq_self_iff.trans (not_congr ⟨fun hx => ⟨x, rfl, hx⟩, ?_⟩)⟩
    rintro ⟨y, hy, hnan⟩
    cases hy
    exact hnan
  | string s => exact ⟨true, congrArg _ (beq_self_eq_true s), hplain _ nofun⟩
  | boolean b => exact ⟨true, congrArg _ (beq_self_eq_true b), hplain _ nofun⟩
  | function x body env => exact ⟨true, congrArg _ (beq_self_eq_true i), hplain _ nofun⟩

/-- Names are compared by what they are forced to. `x === y` gives a truth value, which is true
exactly if `c` is not NaN. -/
def Limits.Compares (limits : Limits) (env : Env) (x y : String) (c : Content) (σ : Store) :
    Prop :=
  ∀ p q r, ∃ n b τ, limits.eval env (.binary .equal (.name x p) (.name y q) r) σ =
    .ok (.object ⟨.made n, .boolean b⟩) τ ∧ (b = true ↔ ¬c.IsNaN)

/-- Two names that are forced to the same object, one after the other, are compared as that object
is with itself. -/
theorem Limits.compares_of_force {limits : Limits} {env : Env} {x y : String} {u v : Value}
    {w : Object} {σ σ₁ σ₂ : Store} (hw : w.content ≠ .nothing)
    (hx : σ.lookup env x = some v) (hv : limits.force v σ = .ok w σ₁)
    (hy : σ₁.lookup env y = some u) (hu : limits.force u σ₁ = .ok w σ₂) :
    limits.Compares env x y w.content σ := by
  intro p q r
  obtain ⟨b, hequal, hb⟩ := BinaryOp.areEqual_self hw
  have hcombine : BinaryOp.combine .equal w w = .ok (.boolean b) := by
    show (BinaryOp.areEqual w w).map Content.boolean = _
    rw [hequal]
    rfl
  have hneed : ∀ {x : String} {v : Value} {τ τ' : Store} (p : Option Location),
      τ.lookup env x = some v → limits.force v τ = .ok w τ' →
      (CallByNeed.eval limits.force env (.name x p) >>= limits.force) τ = .ok w τ' := by
    intro x v τ τ' p hx hv
    have hname : CallByNeed.eval limits.force env (.name x p) τ = .ok v τ := by rw [eval_name, hx]
    rw [bind_of_ok hname, hv]
  refine ⟨σ₂.made, b, ((σ₂.note (.combined .equal w w)).newObject (.boolean b)).2, ?_, hb⟩
  rw [Limits.eval, CallByNeed.eval, bind_of_ok (hneed p hx hv)]
  show (_ >>= fun o => operate .equal w o r : Eval Value) σ₁ = _
  rw [bind_of_ok (hneed q hy hu), operate_of_ok hcombine]
  rfl

section

variable {σ : Store} {known : List CellId}

/-- No expression gives an object that is absent. -/
theorem Evaluates.present (hσ : σ.Rooted) {env : Env} {e : Expr} {v : Value} {items : List Item}
    (h : Evaluates σ known env e v items) {o : Object} (hv : v = .object o) :
    o.content ≠ .nothing := by
  -- what operators give satisfies any restriction, and nothing does so only if it is none
  have hmade : ∀ {c : Content}, c.Ok (fun _ => False) → c ≠ .nothing := by
    rintro _ hc rfl
    exact hc (.literal (.boolean true) none)
  induction h with
  | literal c p =>
    cases hv
    cases c <;> nofun
  | name p hx =>
    obtain ⟨a, -, rfl⟩ := hσ.lookup hx
    cases hv
  | paren p _ ih => exact ih hv
  | arrow x e p => cases hv; nofun
  | call p => cases hv
  | unary p _ _ hc => cases hv; exact hmade (UnaryOp.ok_of_apply hc)
  | binary p _ _ _ _ _ hc => cases hv; exact hmade (BinaryOp.ok_of_combine hc)
  | decided p _ _ _ ho =>
    cases hv
    rw [ho]
    nofun
  | cond p => cases hv

/-- A result that is an object is never the absent one. -/
theorem Certified.present {own : Item → Option CellId} (h : Certified σ own known) (hσ : σ.Rooted)
    {a : CellId} (ha : a ∈ known) {o : Object} (hmemo : (σ.cell a).memo = some (.object o)) :
    o.content ≠ .nothing := by
  induction h with
  | nil => cases ha
  | cons _ _ _ hmemo' heval _ _ ih =>
    rcases List.mem_cons.1 ha with rfl | ha
    · exact heval.present hσ (Option.some.inj (hmemo'.symm.trans hmemo))
    · exact ih ha

/-- No thunk leads to an object that is absent. -/
theorem Ledger.Audited.present {L : Ledger} (hL : L.Audited σ) {n : ℕ} {a : CellId} {o : Object}
    (h : σ.Follows n (.thunk a) (.object o)) : o.content ≠ .nothing := by
  induction n generalizing a with
  | zero => cases h
  | succ n ih =>
    cases h with
    | @step _ v _ _ hmemo hrest =>
      cases v with
      | thunk b => exact ih hrest
      | object =>
        cases hrest
        exact hL.certified.present hL.sane.rooted (hL.covers a _ hmemo) hmemo

end

/-! ## A run that has forced more -/

section

variable {α : Type} {P Q : Pairing} {σ σ' τ τ' : Store} {a b : CellId} {fuel depth : ℕ}

/-- The run ahead accounts for all that it has done. -/
theorem Surpasses.accounted (h : Surpasses P σ τ) : Accounted σ := by
  obtain ⟨G, L, h⟩ := h
  exact ⟨G, L, h.audited, h.declares⟩

/-- A value of a store is in order. -/
theorem Value.In.ok {v : Value} (h : v.In σ) : v.Ok (fun _ => True) σ := by
  rcases v with ⟨_, c⟩ | a
  · cases c with
    | nothing => exact fun _ => trivial
    | _ => trivial
  · exact h

/-- What keeps up the store leaves the thunks marked that were marked. -/
theorem Upkeep.Keeps.busy_leftBy {W : Expr → Prop} {R : Store → α → Prop} {x : Eval α}
    (h : (Upkeep.ok W).Keeps R x σ) (a : CellId) : ((leftBy x σ).cell a).busy = (σ.cell a).busy :=
  h.grows.busy a

/-- What the run ahead evaluates or outputs alone, or tries in vain, leaves it ahead. -/
theorem Surpasses.observed (h : Surpasses P σ τ) (hobserved : σ.Observed σ') :
    Surpasses P σ' τ := by
  cases hobserved with
  | @eval env limits e henv =>
    obtain ⟨G, L, h⟩ := h
    obtain ⟨L', hL⟩ := (limits.audits_eval ⟨L, h.audited⟩ henv e).leftBy h.audited
    have hfits : (Upkeep.ok fun _ => True).Fits σ env e := trivial
    have hkeeps := evals_ok limits.fuel limits.depth h.audited.sane.ok hfits
    exact ⟨G, L', h.continue hL hkeeps.busy_leftBy⟩
  | @force v limits hv =>
    obtain ⟨G, L, h⟩ := h
    obtain ⟨L', hL⟩ := (audits_force limits.fuel limits.depth ⟨L, h.audited⟩ hv).leftBy h.audited
    have hkeeps := limits.forces_ok (fun _ _ _ _ => trivial) h.audited.sane.ok hv.ok
    exact ⟨G, L', h.continue hL hkeeps.busy_leftBy⟩
  | output limits o e place => exact h.output limits.fuel limits.depth o e place
  | failed limits hs => exact h.of_error limits.fuel limits.depth hs

/-- Whatever the run ahead observes alone, it stays ahead. -/
theorem Surpasses.meanwhile (h : Surpasses P σ τ) (hmeanwhile : σ.Meanwhile σ') :
    Surpasses P σ' τ := by
  induction hmeanwhile with
  | refl => exact h
  | tail _ hstep ih => exact ih.observed hstep

/-- In every store that a session can come to, everything is accounted for. -/
theorem Store.Reachable.accounted (h : σ.Reachable) : Accounted σ := by
  induction h with
  | empty => exact accounted_empty
  | @execute σ limits s _ ih =>
    cases hs : s.execute limits.force .global σ with
    | ok r σ' =>
      rw [leftBy_of_ok hs]
      exact ih.of_ok limits.fuel limits.depth hs
    | error stop σ' =>
      rw [leftBy_of_error hs]
      exact (ih.surpasses.observed (.failed limits hs)).accounted
  | eval limits e _ henv ih => exact (ih.surpasses.observed (.eval limits e henv)).accounted
  | force limits _ hv ih => exact (ih.surpasses.observed (.force limits hv)).accounted
  | @begin σ a _ ha hmemo hbusy ih =>
    -- a mark is no result: nothing new is to be explained
    obtain ⟨G, L, hL, hG⟩ := ih
    have hmark := hL.grow (σ.unfolds_marked a) (hL.sane.marked ha hmemo hbusy)
      fun b v hv => by rwa [Store.memo_marked] at hv
    exact ⟨G, L, hmark.audited, hG.mono hmark.unfolds⟩
  | step limits _ ha ih =>
    obtain ⟨G, L, hL, hG⟩ := ih
    obtain ⟨L', hL'⟩ := (limits.audits_step ⟨L, hL⟩ ha).leftBy hL
    exact ⟨G, L', hL'.audited, hG.mono hL'.unfolds⟩

/-- If forcing fails in the run behind, it fails in the run ahead for the same reason. -/
theorem Surpasses.force_error (h : Surpasses P σ τ) (hab : P.cell a b) {stop : Stop}
    (hy : force fuel depth (.thunk b) τ = .error stop τ') (hstop : ¬stop.IsLimit) :
    ∃ σ', force fuel depth (.thunk a) σ = .error stop σ' := by
  obtain ⟨G, L, h⟩ := h
  have htrack := (pace_sameLimits L).track_force fuel depth h.leads (.thunk hab)
  obtain ⟨-, σ', hx, -, -⟩ := htrack.ahead_error hy hstop
  exact ⟨σ', hx⟩

/-- If forcing gives an object in the run behind, it gives one in the run ahead. -/
theorem Surpasses.force_ok (h : Surpasses P σ τ) (hab : P.cell a b) {o : Object}
    (hy : force fuel depth (.thunk b) τ = .ok o τ') :
    ∃ Q o' σ', force fuel depth (.thunk a) σ = .ok o' σ' ∧ P.Grows Q ∧ Trails NoHole Q σ' τ' := by
  obtain ⟨G, L, h⟩ := h
  have htrack := (pace_sameLimits L).track_force fuel depth h.leads (.thunk hab)
  obtain ⟨Q, o', σ', hx, hP, hQ, -⟩ := htrack.ahead_ok hy
  exact ⟨Q, o', σ', hx, hP, hQ.toTrails⟩

/-- If forcing gives an object in the run ahead, it gives one in the run behind, within bounds that
are wide enough. -/
theorem Surpasses.exists_force (h : Surpasses P σ τ) (hab : P.cell a b) {o : Object}
    (hx : force fuel depth (.thunk a) σ = .ok o σ') :
    ∃ Q fuel' depth' o' τ', force fuel' depth' (.thunk b) τ = .ok o' τ' ∧ P.Grows Q ∧
      Trails NoHole Q σ' τ' := by
  obtain ⟨G, L, h⟩ := h
  have htrack := (pace_eventual L).track_force fuel depth h.leads (.thunk hab)
  obtain ⟨Q, o', τ', hy, hP, hQ, -⟩ := htrack.behind_ok hx
  obtain ⟨l, hl⟩ := hy.exists
  exact ⟨Q, l.1, l.2, o', τ', hl, hP, hQ.toTrails⟩

/-! ### Chains of results in both runs -/

variable {H : Expr → Expr → Prop} {n m : ℕ} {v v' w w' : Value} {o : Object}

/-- A chain of results of the run behind is one of the run ahead. -/
theorem Trails.follows_ahead (h : Trails H Q σ τ) (hvw : Q.Values H v w)
    (hw : τ.Follows n w w') : ∃ v', σ.Follows n v v' ∧ Q.Values H v' w' := by
  induction hw generalizing v with
  | refl w => exact ⟨v, .refl v, hvw⟩
  | step hmemo' _ ih =>
    cases hvw with
    | thunk hab =>
      obtain ⟨u, hmemo, hu⟩ := h.memo hab _ hmemo'
      obtain ⟨v', hfollows, hv'⟩ := ih hu
      exact ⟨v', .step hmemo hfollows, hv'⟩

/-- A chain of results of the run ahead is one of the run behind, if there the first thunk has led
to an object. -/
theorem Trails.follows_behind (h : Trails H Q σ τ) (hvw : Q.Values H v w)
    (hv : σ.Follows n v v') (hend : τ.Follows m w (.object o)) :
    ∃ w', τ.Follows n w w' ∧ Q.Values H v' w' := by
  induction hv generalizing w m with
  | refl v => exact ⟨w, .refl w, hvw⟩
  | step hmemo _ ih =>
    cases hvw with
    | thunk hab =>
      cases hend with
      | step hmemo' hrest =>
        -- the results of the two thunks correspond, because there is one in both stores
        obtain ⟨u, hmemo'', hu⟩ := h.memo hab _ hmemo'
        cases hmemo.symm.trans hmemo''
        obtain ⟨w', hfollows, hw'⟩ := ih hu hrest
        exact ⟨w', .step hmemo' hfollows, hw'⟩

/-- A thunk that corresponds to itself corresponds to no other one. -/
theorem Trails.eq_ahead (h : Trails H Q σ τ) (ha : Q.cell a a) (hv : Q.Values H v (.thunk a)) :
    v = .thunk a := by
  cases hv with
  | thunk hab => rw [(h.cell_iff hab ha).2 rfl]

/-- A thunk that is paired with itself corresponds to nothing else. -/
theorem Trails.eq_behind (h : Trails H Q σ τ) (ha : Q.cell a a) (hv : Q.Values H (.thunk a) v) :
    v = .thunk a := by
  cases hv with
  | thunk hab => rw [(h.cell_iff hab ha).1 rfl]

end

/-! ## Names that lead to others -/

/-- A value leads to another one: forcing it, within some limits, comes to the other one by way of
results. -/
def Value.LeadsTo (σ : Store) (u v : Value) : Prop :=
  ∃ (limits : Limits) (n : ℕ), (leftBy (limits.force u) σ).Follows n u v

section

variable {σ σ' : Store} {a b : CellId} {w : Object} {limits : Limits}

/-- A thunk that leads to one that can be forced can be forced as well, by way of it. -/
theorem exists_force_through (hσ : Accounted σ) (ha : a < σ.cells.size) (hb : b < σ.cells.size)
    (hleads : Value.LeadsTo σ (.thunk b) (.thunk a))
    (hforce : limits.force (.thunk a) σ = .ok w σ') :
    ∃ fuel depth n o τ, force fuel depth (.thunk b) σ = .ok o τ ∧
      τ.Follows n (.thunk b) (.thunk a) := by
  obtain ⟨limits₁, n, hfollows⟩ := hleads
  have hbIn : Value.In σ (.thunk b) := hb
  have hdepth : 0 < limits.depth := by
    by_contra hzero
    have hspent : ∃ stop, limits.force (.thunk a) σ = .error stop σ ∧ stop.IsLimit :=
      isLimit_of_spent (.inr (Nat.eq_zero_of_not_pos hzero)) a σ
    obtain ⟨stop, hstop, -⟩ := hspent
    cases hforce.symm.trans hstop
  have hahead := hσ.surpasses.observed (.force limits₁ hbIn)
  have hsize := (Store.Observed.force limits₁ hbIn).grow hσ.rooted
  generalize leftBy (limits₁.force (.thunk b)) σ = ρ at hfollows hahead hsize
  -- where the one thunk leads to the other, that can be forced, and so the first can be, too
  obtain ⟨-, o, ρ', hrun, -, -⟩ := hahead.force_ok ⟨rfl, ha⟩ hforce
  rw [← hfollows.force_eq limits.fuel hdepth] at hrun
  have hkept := unfolds_of_force hsize.1 (hbIn.mono hsize.2) hrun
  -- a run that has not gone there yet can do the same, if its bounds are wide enough
  obtain ⟨Q, fuel, depth, o', τ, hback, hgrows, htrails⟩ := hahead.exists_force ⟨rfl, hb⟩ hrun
  obtain ⟨G, L, hL, -⟩ := hσ
  obtain ⟨m, -, -, hend⟩ := follows_of_force hL hbIn hback
  obtain ⟨v, hchain, hv⟩ := htrails.follows_behind (.thunk (hgrows.cell b b ⟨rfl, hb⟩))
    (hfollows.mono hkept.toPersists) hend
  rw [htrails.eq_behind (hgrows.cell a a ⟨rfl, ha⟩) hv] at hchain
  exact ⟨fuel, depth, n, o', τ, hback, hchain⟩

/-- After a thunk was forced, one that leads to it is forced to the same object. -/
theorem exists_force_same (hσ : Accounted σ) (ha : a < σ.cells.size) (hb : b < σ.cells.size)
    (hleads : Value.LeadsTo σ (.thunk b) (.thunk a))
    (hforce : limits.force (.thunk a) σ = .ok w σ') :
    ∃ fuel depth σ'', force fuel depth (.thunk b) σ' = .ok w σ'' := by
  obtain ⟨fuel, depth, n, o, τ, hrun, hfollows⟩ := exists_force_through hσ ha hb hleads hforce
  have haIn : Value.In σ (.thunk a) := ha
  have hunfolds := unfolds_of_force hσ.rooted haIn hforce
  have hahead := hσ.surpasses.observed (.force limits haIn)
  rw [leftBy_of_ok hforce] at hahead
  -- the run that has forced the one thunk goes by way of it, as the other run does
  obtain ⟨Q, o', σ'', hrun', hgrows, htrails⟩ := hahead.force_ok ⟨rfl, hb⟩ hrun
  obtain ⟨v, hchain, hv⟩ := htrails.follows_ahead (.thunk (hgrows.cell b b ⟨rfl, hb⟩)) hfollows
  rw [htrails.eq_ahead (hgrows.cell a a ⟨rfl, ha⟩) hv] at hchain
  -- so two chains go from the other thunk to an object, one of them by way of this one
  obtain ⟨G, L, hL, -⟩ := hσ
  obtain ⟨G', L', hL', -⟩ := hahead.accounted
  have hbIn : Value.In σ' (.thunk b) := hb.trans_le hunfolds.size
  obtain ⟨k, -, -, hfound⟩ := follows_of_force hL haIn hforce
  obtain ⟨m, -, -, hend⟩ := follows_of_force hL' hbIn hrun'
  have hkept := (unfolds_of_force hL'.sane.rooted hbIn hrun').toPersists
  rw [(hchain.trans (hfound.mono hkept)).object_unique hend]
  exact ⟨fuel, depth, σ'', hrun'⟩

/-- A name is compared with one that leads to it as its object is with itself. -/
theorem exists_compares {env : Env} {x y : String} (hσ : Accounted σ) (henv : σ.HasEnv env)
    (hx : σ.lookup env x = some (.thunk a)) (hy : σ.lookup env y = some (.thunk b))
    (ha : a < σ.cells.size) (hb : b < σ.cells.size)
    (hleads : Value.LeadsTo σ (.thunk b) (.thunk a))
    (hforce : limits.force (.thunk a) σ = .ok w σ') (hw : w.content ≠ .nothing) :
    ∃ bound, ∀ limits' : Limits, bound ≤ limits'.fuel → bound ≤ limits'.depth →
      limits'.Compares env x y w.content σ := by
  obtain ⟨fuel, depth, σ'', hsame⟩ := exists_force_same hσ ha hb hleads hforce
  have hy' := (unfolds_of_force hσ.rooted (v := .thunk a) ha hforce).lookup hσ.rooted henv y
  -- the bounds have to do for both names
  refine ⟨max (max limits.fuel limits.depth) (max fuel depth), fun limits' hfuel hdepth => ?_⟩
  obtain ⟨⟨hfuel₁, -⟩, hfuel₂, -⟩ := max_le_iff.1 hfuel |>.imp max_le_iff.1 max_le_iff.1
  obtain ⟨⟨-, hdepth₁⟩, -, hdepth₂⟩ := max_le_iff.1 hdepth |>.imp max_le_iff.1 max_le_iff.1
  exact Limits.compares_of_force hw hx ((within_force hfuel₁ hdepth₁ _).of_ok hforce)
    (hy'.trans hy) ((within_force hfuel₂ hdepth₂ _).of_ok hsame)

end

/-- In every store that a session can come to, forcing is stable.

If a value is forced to an object, then it is forced to the identical object in the store that this
leaves and in every store that is reached later, and this does not change the store at all. So a
name that is forced to an object equals itself exactly if that is not NaN, before and after; and it
equals every name that leads to it on the same condition, within limits that are wide enough.

If forcing a value fails for another reason than limits, it fails for the same reason, with the same
message and at the same place, whenever it is tried again before something is declared, while the
same thunks are being evaluated. -/
theorem forcing_is_stable {σ : Store} (hσ : σ.Reachable) {v : Value} (hv : v.In σ)
    (limits : Limits) :
    (∀ w σ', limits.force v σ = .ok w σ' →
      (∀ τ, σ'.Later τ → ∀ limits' : Limits, limits.fuel ≤ limits'.fuel →
        limits.depth ≤ limits'.depth → limits'.force v τ = .ok w τ) ∧
      ∀ env x, σ.HasEnv env → σ.lookup env x = some v →
        (∀ τ, τ = σ ∨ σ'.Later τ → limits.Compares env x x w.content τ) ∧
        ∀ y u, σ.lookup env y = some u → u.LeadsTo σ v →
          ∃ bound, ∀ limits' : Limits, bound ≤ limits'.fuel → bound ≤ limits'.depth →
            limits'.Compares env x y w.content σ) ∧
    ∀ stop σ', limits.force v σ = .error stop σ' → ¬stop.IsLimit →
      ∀ τ, σ'.Meanwhile τ → ∀ limits' : Limits, limits.fuel ≤ limits'.fuel →
        limits.depth ≤ limits'.depth → ∃ τ', limits'.force v τ = .error stop τ' := by
  have hrooted := hσ.rooted
  have haccounted := hσ.accounted
  have hahead := haccounted.surpasses.observed (.force limits hv)
  refine ⟨fun w σ' hforce => ?_, fun stop σ' hforce hstop τ hτ limits' hfuel hdepth => ?_⟩
  · rw [leftBy_of_ok hforce] at hahead
    have hunfolds := unfolds_of_force hrooted hv hforce
    obtain ⟨G, L, hL, -⟩ := haccounted
    obtain ⟨G', L', hL', -⟩ := hahead.accounted
    obtain ⟨n, hn, hpos, hfollows⟩ := follows_of_force hL hv hforce
    have hagain : ∀ τ, σ'.Later τ → ∀ limits' : Limits, limits.fuel ≤ limits'.fuel →
        limits.depth ≤ limits'.depth → limits'.force v τ = .ok w τ := by
      intro τ hτ limits' hfuel hdepth
      exact (hfollows.mono (hτ.persists hL'.sane.rooted)).force_object (hn.trans hfuel)
        (hpos.imp_right fun hpos => hpos.trans_le hdepth)
    refine ⟨hagain, fun env x henv hx => ?_⟩
    obtain ⟨a, ha, rfl⟩ := hrooted.lookup hx
    have hw : w.content ≠ .nothing := hL'.present hfollows
    have hx' : σ'.lookup env x = some (.thunk a) := (hunfolds.lookup hrooted henv x).trans hx
    refine ⟨fun τ hτ => ?_, fun y u hy hleads => ?_⟩
    · rcases hτ with rfl | hτ
      · exact Limits.compares_of_force hw hx hforce hx' (hagain σ' .refl limits le_rfl le_rfl)
      · have hforce' := hagain τ hτ limits le_rfl le_rfl
        have hx'' := (hτ.persists hL'.sane.rooted).lookup hL'.sane.rooted
          (henv.mono hunfolds.toPersists) hx'
        exact Limits.compares_of_force hw hx'' hforce' hx'' hforce'
    · obtain ⟨b, hb, rfl⟩ := hrooted.lookup hy
      exact exists_compares hσ.accounted henv hx hy ha hb hleads hforce hw
  · rw [leftBy_of_error hforce] at hahead
    cases v with
    | object o =>
      have hobject : limits.force (.object o) σ = .ok o σ :=
        (Store.Follows.refl _).force_object (Nat.zero_le _) (.inl rfl)
      cases hobject.symm.trans hforce
    | thunk a =>
      -- the store is ahead of what it was, and within wider limits the first attempt is the same
      have hwide := (within_force hfuel hdepth (.thunk a)).of_error hforce hstop
      exact (hahead.meanwhile hτ).force_error ⟨rfl, hv⟩ hwide hstop

/-- Here `g` stands for the function `f`, and `e` fails. The function is forced, `e` is output in
vain, and `h` is declared: the function is still the same. It equals itself and `g`, and `e` fails
again as it did before. -/
theorem forcing_is_stable_function :
    let f := Expr.name "f" none
    let limits : Limits := ⟨9, 9⟩
    let run (s : Statement) := leftBy (s.execute limits.force .global)
    let σ := run (.declare "e" (.name "missing" none) none) (run (.declare "g" f none)
      (run (.declare "f" (.arrow "x" (.name "x" none) none) none) .empty))
    let w : Object := ⟨.made 0, .function "x" (.name "x" none) .global⟩
    let σ' := leftBy (limits.force (.thunk 0)) σ
    let output := Statement.output .value (.name "e" none) none
    let τ := run (.declare "h" f none) (run output σ')
    let stop := Stop.error ⟨.undefined "missing", none⟩
    (σ.Reachable ∧ limits.force (.thunk 0) σ = .ok w σ' ∧ σ'.Later τ ∧
      limits.force (.thunk 0) τ = .ok w τ) ∧
    (σ.lookup .global "f" = some (.thunk 0) ∧ limits.Compares .global "f" "f" w.content σ ∧
      limits.Compares .global "f" "f" w.content τ) ∧
    (σ.lookup .global "g" = some (.thunk 1) ∧ Value.LeadsTo σ (.thunk 1) (.thunk 0) ∧
      ∃ bound, ∀ limits' : Limits, bound ≤ limits'.fuel → bound ≤ limits'.depth →
        limits'.Compares .global "f" "g" w.content σ) ∧
    limits.force (.thunk 2) σ = .error stop (leftBy (limits.force (.thunk 2)) σ) ∧
      ∃ τ', limits.force (.thunk 2) (run output (leftBy (limits.force (.thunk 2)) σ)) =
        .error stop τ' := by
  intro f limits run σ w σ' output τ stop
  have hσ : σ.Reachable := .execute limits _ (.execute limits _ (.execute limits _ .empty))
  have hzero : Value.In σ (.thunk 0) := show 0 < σ.cells.size by decide +kernel
  have htwo : Value.In σ (.thunk 2) := show 2 < σ.cells.size by decide +kernel
  -- forcing is evaluated in the store as it is written out, not in the program that leads to it
  have hstore : σ = ⟨#[[("e", .thunk 2), ("g", .thunk 1), ("f", .thunk 0)]],
      #[⟨.arrow "x" (.name "x" none) none, .global, none, false⟩, ⟨f, .global, none, false⟩,
        ⟨.name "missing" none, .global, none, false⟩], 0, []⟩ := by decide +kernel
  have hforce : limits.force (.thunk 0) σ = .ok w (leftBy (limits.force (.thunk 0)) σ) := by
    rw [hstore]
    rfl
  have hfails : limits.force (.thunk 2) σ = .error stop (leftBy (limits.force (.thunk 2)) σ) := by
    rw [hstore]
    rfl
  have hlater : σ'.Later τ :=
    .tail (.tail .refl (.observed (.output limits .value _ none))) (.declared limits "h" f none)
  have hstop : ¬(Stop.error ⟨.undefined "missing", none⟩).IsLimit := by rintro (h | h) <;> cases h
  have hf : σ.lookup .global "f" = some (.thunk 0) := by decide +kernel
  have hg : σ.lookup .global "g" = some (.thunk 1) := by decide +kernel
  have hmemo : ((leftBy (limits.force (.thunk 1)) σ).cell 1).memo = some (.thunk 0) := by
    decide +kernel
  have hleads : Value.LeadsTo σ (.thunk 1) (.thunk 0) := ⟨limits, 1, .step hmemo (.refl _)⟩
  obtain ⟨hagain, hcompares⟩ := (forcing_is_stable hσ hzero limits).1 w σ' hforce
  obtain ⟨hself, halias⟩ := hcompares .global "f" σ.hasEnv_global hf
  have hfailsAgain := (forcing_is_stable hσ htwo limits).2 stop _ hfails hstop
    (run output _) (.tail .refl (.output limits .value _ none)) limits le_rfl le_rfl
  exact ⟨⟨hσ, hforce, hlater, hagain τ hlater limits le_rfl le_rfl⟩,
    ⟨hf, hself σ (.inl rfl), hself τ (.inr hlater)⟩, ⟨hg, hleads, halias "g" _ hg hleads⟩, hfails,
    hfailsAgain⟩

-- two thunks that need each other: the failure of the first is at its own place, but at the place
-- of the second one if that is being evaluated, so that it matters which thunks are marked
example (p q : Option Location) :
    let σ : Store := ⟨#[[("u", .thunk 1), ("v", .thunk 0)]],
      #[⟨.unary .not (.name "u" none) p, .global, none, false⟩,
        ⟨.unary .not (.name "v" none) q, .global, none, false⟩], 0, []⟩
    (∃ σ', Limits.force ⟨9, 9⟩ (.thunk 0) σ = .error (.error ⟨.circular, p⟩) σ') ∧
      ∃ σ', Limits.force ⟨9, 9⟩ (.thunk 0) (σ.marked 1) = .error (.error ⟨.circular, q⟩) σ' :=
  ⟨⟨_, rfl⟩, _, rfl⟩

end CallByNeed
