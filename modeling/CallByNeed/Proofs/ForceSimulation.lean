import CallByNeed.Proofs.EvalSimulation

/-!
# Forcing by need and forcing by name

`forceWith byNameStep` forces a thunk by evaluating its expression anew each time: nothing is kept
and nothing is marked. Within the same bounds it gives exactly what `resolve` gives
(`sim_forceByName`).

Forcing by need keeps results, which are those that evaluation by name finds, and it gives up when a
thunk needs itself. The two directions are proved apart.

* What forcing by need gives, evaluation by name finds within wide enough bounds
  (`sim_force_eventually`).
* What evaluation by name finds within some bounds, forcing by need gives within the same bounds
  (`sim_force`). The point is that no marked thunk is met: each of them stands for an expression
  that evaluation by name cannot resolve within the bounds that are left (`Unresolved`). For the
  thunk that is being evaluated this holds if the bounds are chosen as tight as they can be.
-/

namespace CallByNeed

open Filter

/-! ## Wider bounds -/

/-- The second computation gives what the first one gives, unless that reaches its bounds. -/
def Within {α : Type} (x y : Eval α) : Prop :=
  ∀ σ, x σ = y σ ∨ ∃ stop σ', x σ = .error stop σ' ∧ stop.IsLimit

section

variable {α β : Type}

/-- A computation gives what it gives. -/
theorem Within.refl (x : Eval α) : Within x x :=
  fun _ => .inl rfl

/-- A result within narrow bounds is one within wide bounds. -/
theorem Within.of_ok {x y : Eval α} (h : Within x y) {a : α} {σ σ' : Store}
    (hx : x σ = .ok a σ') : y σ = .ok a σ' := by
  rcases h σ with heq | ⟨stop, σ'', hstop, -⟩
  · exact heq.symm.trans hx
  · cases hx.symm.trans hstop

/-- A failure within narrow bounds is one within wide bounds, unless the bounds are its reason. -/
theorem Within.of_error {x y : Eval α} (h : Within x y) {stop : Stop} {σ σ' : Store}
    (hx : x σ = .error stop σ') (hstop : ¬stop.IsLimit) : y σ = .error stop σ' := by
  rcases h σ with heq | ⟨stop', σ'', hx', hlimit⟩
  · exact heq.symm.trans hx
  · cases hx.symm.trans hx'
    exact absurd hlimit hstop

/-- Bounds may be widened in both of two steps. -/
theorem Within.bind {x y : Eval α} {f g : α → Eval β} (h : Within x y)
    (hf : ∀ a, Within (f a) (g a)) : Within (x >>= f) (y >>= g) := by
  intro σ
  rcases h σ with hx | ⟨stop, σ', hx, hstop⟩
  · cases hy : y σ with
    | error stop σ' =>
      rw [hy] at hx
      exact .inl (by rw [bind_of_error hx, bind_of_error hy])
    | ok a σ' =>
      rw [hy] at hx
      rw [bind_of_ok hx, bind_of_ok hy]
      exact hf a σ'
  · exact .inr ⟨stop, σ', bind_of_error hx f, hstop⟩

/-- Wider bounds for the right operand keep what an operator gives. -/
theorem within_operateLazily {right right' : Eval Object} (h : Within right right')
    (op : BinaryOp) (left : Object) (place : Option Location) :
    Within (operateLazily op left right place) (operateLazily op left right' place) := by
  unfold operateLazily
  cases op.decisive? with
  | none => exact h.bind fun _ => .refl _
  | some decisive =>
    cases left.content with
    | boolean b =>
      dsimp only
      split
      · exact .refl _
      · exact h.bind fun _ => .refl _
    | _ => exact .refl _

/-- Wider bounds for forcing keep what evaluation gives. -/
theorem within_eval {force force' : Value → Eval Object} (h : ∀ v, Within (force v) (force' v))
    (env : Env) (e : Expr) : Within (eval force env e) (eval force' env e) := by
  induction e with
  | literal c place => exact .refl _
  | name x place => exact .refl _
  | paren e _ ih => exact ih
  | arrow x e _ => exact .refl _
  | call f a place ihf => exact (ihf.bind h).bind fun _ => .refl _
  | unary op e place ih => exact (ih.bind h).bind fun _ => .refl _
  | binary op l r place ihl ihr =>
    exact (ihl.bind h).bind fun o => within_operateLazily (ihr.bind h) op o place
  | cond c t e place ihc => exact (ihc.bind h).bind fun _ => .refl _

/-- Wider bounds for evaluation keep what following a thunk gives. -/
theorem within_step {eval eval' : Env → Expr → Eval Value}
    (h : ∀ env e, Within (eval env e) (eval' env e)) (a : CellId) :
    Within (step eval a) (step eval' a) := by
  intro σ
  unfold step
  cases (σ.cell a).memo with
  | some v => exact .inl rfl
  | none =>
    dsimp only
    split
    · exact .inl rfl
    · rcases h (σ.cell a).env (σ.cell a).expr (σ.marked a) with
        heq | ⟨stop, σ', heq, hstop⟩
      · exact .inl (by rw [← Store.marked, heq])
      · exact .inr ⟨stop, σ'.released a, by rw [← Store.marked, heq]; rfl, hstop⟩

/-- Within wider bounds forcing gives the same. -/
theorem within_force {fuel fuel' depth depth' : ℕ} (hfuel : fuel ≤ fuel') (hdepth : depth ≤ depth')
    (v : Value) : Within (force fuel depth v) (force fuel' depth' v) := by
  unfold force
  induction fuel generalizing fuel' depth depth' v with
  | zero =>
    cases v with
    | object o => intro σ; exact .inl (by rw [forceWith, forceWith])
    | thunk a => exact fun σ => .inr ⟨.outOfFuel, σ, rfl, .inr rfl⟩
  | succ fuel ih =>
    cases v with
    | object o => intro σ; exact .inl (by rw [forceWith, forceWith])
    | thunk a =>
      cases depth with
      | zero => exact fun σ => .inr ⟨.tooDeep, σ, rfl, .inl rfl⟩
      | succ depth =>
        obtain ⟨fuel', rfl⟩ := Nat.exists_eq_add_of_le' (Nat.lt_of_lt_of_le fuel.succ_pos hfuel)
        obtain ⟨depth', rfl⟩ := Nat.exists_eq_add_of_le' (Nat.lt_of_lt_of_le depth.succ_pos hdepth)
        have hfuel := Nat.le_of_succ_le_succ hfuel
        -- fuel is spent on every thunk, depth only on those that are forced for another one
        rw [forceWith_thunk, forceWith_thunk]
        refine (within_step (within_eval fun v => ?_) a).bind fun v => ih hfuel hdepth v
        exact ih hfuel (Nat.le_of_succ_le_succ hdepth) v

/-- Within wider bounds a thunk gives the same. -/
theorem within_step_force {fuel fuel' depth depth' : ℕ} (hfuel : fuel ≤ fuel')
    (hdepth : depth ≤ depth') (a : CellId) :
    Within (step (eval (force fuel depth)) a) (step (eval (force fuel' depth')) a) :=
  within_step (within_eval fun v => within_force hfuel hdepth v) a

/-- Forcing a thunk takes one more level than following it and forcing what it gives. -/
theorem within_thunk {fuel fuel' depth depth' : ℕ} (hfuel : fuel < fuel') (hdepth : depth < depth')
    (a : CellId) :
    Within (step (eval (force fuel depth)) a >>= force fuel depth)
      (force fuel' depth' (.thunk a)) := by
  obtain ⟨fuel', rfl⟩ := Nat.exists_eq_add_of_le' (Nat.zero_lt_of_lt hfuel)
  obtain ⟨depth', rfl⟩ := Nat.exists_eq_add_of_le' (Nat.zero_lt_of_lt hdepth)
  have hfuel := Nat.le_of_lt_succ hfuel
  have hdepth := Nat.le_of_lt_succ hdepth
  have hthunk : force (fuel' + 1) (depth' + 1) (.thunk a) =
      step (eval (force fuel' depth')) a >>= force fuel' (depth' + 1) := by
    unfold force
    rw [forceWith_thunk]
  rw [hthunk]
  exact (within_step_force hfuel hdepth a).bind fun v =>
    within_force hfuel (hdepth.trans (Nat.le_succ depth')) v

end

/-! ## By name -/

/-- Gives the result of a thunk by evaluating its expression, whatever happened before. -/
def byNameStep (eval : Env → Expr → Eval Value) (a : CellId) : Eval Value := fun σ =>
  eval (σ.cell a).env (σ.cell a).expr σ

/-- Whether an event is the comparison of two functions. -/
def Event.comparesFunctions : Event → Bool
  | combined op l r => op.identifies && l.content.isFunction && r.content.isFunction
  | _ => false

/-- Two functions were compared. -/
def ComparesFunctions (log : List Event) : Prop :=
  ∃ event ∈ log, event.comparesFunctions = true

instance : DecidablePred ComparesFunctions :=
  fun log => inferInstanceAs (Decidable (∃ event ∈ log, event.comparesFunctions = true))

/-- Functions that were compared stay in the log. -/
theorem ComparesFunctions.mono {log log' : List Event} (h : log <:+ log')
    (hlog : ComparesFunctions log) : ComparesFunctions log' := by
  obtain ⟨event, hmem, hfunctions⟩ := hlog
  exact ⟨event, h.subset hmem, hfunctions⟩

/-- Nothing is excused but the comparison of functions. -/
def Excuses.comparison : Excuses where
  stop _ := False
  log := ComparesFunctions
  halt _ := False
  log_mono := .mono
  compared := .inr fun op l r _ hop hl hr =>
    ⟨.combined op l r, List.mem_cons_self, by simp [Event.comparesFunctions, hop, hl, hr]⟩

/-- Forcing by name forgets no event. -/
theorem logGrows_forceByName (fuel depth : ℕ) (v : Value) :
    LogGrows (forceWith byNameStep fuel depth v) := by
  have hstep : ∀ {eval}, Upkeep.log.Evals eval → Upkeep.log.Follows (byNameStep eval) :=
    fun heval _ _ hσ _ => heval hσ trivial
  exact fun _ => Upkeep.lawful_log.forces_forceWith hstep fuel depth trivial trivial

/-- Evaluating a thunk anew gives what its expression means, if forcing is resolving. -/
theorem sim_byNameStep {E : Excuses} {G : Globals} {fuel depth : ℕ}
    (hforce : ∀ v p σ, Sound G σ → v.Means σ p →
      Sim E G Object.Means (forceWith byNameStep fuel depth v) σ fun _ => resolve G fuel depth p)
    {a : CellId} {e : Expr} {s : Scope} {σ : Store} (hσ : Sound G σ) (ha : Suspends σ a e s) :
    Sim E G Value.Means (byNameStep (eval (forceWith byNameStep fuel depth)) a) σ
      fun _ => meaning (resolve G fuel depth) G s e := by
  have heval := sim_eval (J := fun _ => True) (fun _ _ _ _ => trivial)
    (logGrows_forceByName fuel depth) (fun v p σ hσ _ hv => hforce v p σ hσ hv) hσ trivial ha.env e
  unfold Sim byNameStep
  rw [ha.expr]
  exact heval

/-- Forcing by name is resolving, within the same bounds and without further excuses. -/
theorem sim_forceByName (E : Excuses) {G : Globals} (fuel depth : ℕ) {v : Value} {p : Promise}
    {σ : Store} (hσ : Sound G σ) (hv : v.Means σ p) :
    Sim E G Object.Means (forceWith byNameStep fuel depth v) σ
      fun _ => resolve G fuel depth p := by
  induction fuel generalizing depth v p σ with
  | zero =>
    cases hv with
    | object ho =>
      rw [resolve]
      exact sim_ok (by rw [forceWith]) hσ (.refl σ) ho
    | thunk hs => exact sim_stop _ G _ rfl
  | succ fuel ih =>
    cases hv with
    | object ho =>
      rw [resolve]
      exact sim_ok (by rw [forceWith]) hσ (.refl σ) ho
    | @thunk a e s hs =>
      cases depth with
      | zero => exact sim_stop _ G _ rfl
      | succ depth =>
        -- both sides evaluate the expression once and go on with what that gives
        rw [forceWith_thunk, resolve]
        have hstep := sim_byNameStep (fun v p σ hσ hv => ih depth hσ hv) hσ hs
        exact hstep.bind (logGrows_forceByName fuel (depth + 1)) fun v p σ' hσ' _ hv =>
          ih (depth + 1) hσ' hv

/-! ## By need -/

namespace Sound

variable {G : Globals} {σ : Store} {a : CellId}

/-- Marking a thunk keeps a store sound. -/
theorem begin (h : Sound G σ) (ha : a < σ.cells.size) (hmemo : (σ.cell a).memo = none)
    (hbusy : (σ.cell a).busy = false) : Sound G (σ.marked a) :=
  h.of_grows (h.ok.marked ha hmemo hbusy) (σ.grows_setBusy a true _) rfl fun b v hv => by
    rw [Store.memo_marked] at hv
    exact .inl hv

/-- Keeping a result keeps a store sound, if evaluation by name finds that result. -/
theorem finish (h : Sound G σ) {e : Expr} {s : Scope} {p : Promise} {n : ℕ} {v : Value}
    (ha : Suspends σ a e s) (hp : meaning (resolve G n n) G s e = .ok p) (hv : v.Means σ p)
    (hok : (σ.settled a v).Ok fun _ => True) : Sound G (σ.settled a v) := by
  refine h.of_grows hok ((σ.grows_setBusy a false _).trans (Store.grows_setMemo _ a v)) rfl ?_
  intro b w hw
  rw [Store.memo_settled ha.lt] at hw
  split at hw
  · next hab =>
    cases hab
    cases hw
    exact .inr ⟨e, s, p, n, ha, hp, hv⟩
  · exact .inl hw

end Sound

section

variable {E : Excuses} {G : Globals} {σ : Store} {a : CellId} {e : Expr} {s : Scope}

/-- A thunk whose result was kept gives what evaluation by name finds. -/
theorem meaning_of_memo (hσ : Sound G σ) (ha : Suspends σ a e s) {v : Value}
    (hmemo : (σ.cell a).memo = some v) :
    ∃ p n, meaning (resolve G n n) G s e = .ok p ∧ v.Means σ p := by
  obtain ⟨e', s', p, n, ha', hp, hv⟩ := hσ.memo a v hmemo
  obtain ⟨rfl, rfl⟩ := ha'.unique ha
  exact ⟨p, n, hp, hv⟩

/-- A thunk without a result is simulated, if its expression is, and if what is kept then is what
evaluation by name finds. -/
theorem sim_step_fresh {eval : Env → Expr → Eval Value}
    (hkeeps : (Upkeep.ok fun _ => True).Evals eval) (hσ : Sound G σ) (ha : Suspends σ a e s)
    (hmemo : (σ.cell a).memo = none) (hbusy : (σ.cell a).busy = false)
    {r : ℕ → Except Halt Promise}
    (hfound : ∀ p, (∀ᶠ m in atTop, r m = .ok p) → ∃ n, meaning (resolve G n n) G s e = .ok p)
    (heval : Sim E G Value.Means (eval (σ.cell a).env e) (σ.marked a) r) :
    Sim E G Value.Means (step eval a) σ r := by
  have hafter := (Upkeep.memoizes_ok _).follows (Upkeep.lawful_ok fun _ _ _ _ => trivial) hkeeps
    hσ.ok ha.lt
  have hmarked : (Upkeep.ok fun _ => True).Keeps _ (eval (σ.cell a).env e) (σ.marked a) :=
    hkeeps (hσ.ok.marked ha.lt hmemo hbusy) trivial
  refine heval.imp_right fun heval => ?_
  cases h : eval (σ.cell a).env e (σ.marked a) with
  | error stop σ' =>
    have hstep := step_of_error hmemo hbusy (ha.expr.symm ▸ h)
    rw [h] at heval
    rw [hstep]
    exact heval.imp_left (E.log_mono (List.suffix_cons _ _))
  | ok v σ' =>
    -- the result is kept after the mark is taken away, so that the store is sound again
    have hnone := ((hmarked.ok h).2.1.marked ha.lt hmemo).2.1
    have hstep := step_of_eval_ok_of_none hmemo hbusy (ha.expr.symm ▸ h) hnone
    obtain ⟨hok, hext, -⟩ := hafter.ok hstep
    rw [h] at heval
    rw [hstep]
    rcases heval with hlog | ⟨hσ', hext', p, hv, hr⟩
    · exact .inl (E.log_mono ((List.suffix_cons _ _).trans (List.suffix_cons _ _)) hlog)
    · obtain ⟨n, hn⟩ := hfound p hr
      have hgrows : σ.Grows σ' := (σ.grows_setBusy a true _).trans hext'.grows
      have hgrows' := (σ'.grows_setBusy a false (.finished a)).trans (Store.grows_setMemo _ a v)
      exact .inr ⟨hσ'.finish (ha.mono hgrows) hn hv hok, hext, p, hv.mono hgrows', hr⟩

end

/-! ### What is found by need is found by name -/

/-- Whatever stops by itself is expected. -/
def Excuses.endless : Excuses where
  stop s := s.IsLimit ∨ s.IsCircular
  log := ComparesFunctions
  halt _ := False
  log_mono := .mono
  compared := Excuses.comparison.compared

/-- Results that mean something stay as the bounds get wider. -/
theorem below_vague {G : Globals} {fuel fuel' depth depth' : ℕ} (hfuel : fuel ≤ fuel')
    (hdepth : depth ≤ depth') (p : Promise) :
    Below Halt.Vague (resolve G fuel depth p) (resolve G fuel' depth' p) :=
  below_resolve (fun _ => .inl rfl) (fun _ h => h) hfuel hdepth p

/-- Wider bounds keep what an expression gives by name, unless nothing was known of it. -/
theorem below_vague_meaning {G : Globals} {fuel fuel' depth depth' : ℕ} (hfuel : fuel ≤ fuel')
    (hdepth : depth ≤ depth') (s : Scope) (e : Expr) :
    Below Halt.Vague (meaning (resolve G fuel depth) G s e)
      (meaning (resolve G fuel' depth') G s e) :=
  below_meaning (fun _ => .inl rfl) (below_vague hfuel hdepth) s e

/-- An expression is resolved within wide bounds, if what it means is. -/
theorem eventually_resolve {G : Globals} {s : Scope} {e : Expr} {r : Except Halt Datum}
    (hr : ¬∃ h, r = .error h ∧ h.Vague)
    (h : ∀ᶠ m in atTop, (meaning (resolve G m m) G s e >>= resolve G m m) = r) :
    ∀ᶠ m in atTop, resolve G m m (.due e s) = r := by
  obtain ⟨n, rfl⟩ := h.exists
  -- depth is used up by the expression only, fuel also by what it means
  have hnext : resolve G (n + 1) (n + 1) (.due e s) =
      (meaning (resolve G n n) G s e >>= resolve G n n) := by
    rw [resolve]
    have hbelow : Below Halt.Vague (meaning (resolve G n n) G s e >>= resolve G n n)
        (meaning (resolve G n n) G s e >>= resolve G n (n + 1)) :=
      (Below.refl _).bind fun p => below_vague le_rfl n.le_succ p
    exact hbelow.eq_of_not hr
  filter_upwards [eventually_ge_atTop (n + 1)] with m hm
  rw [← hnext] at hr ⊢
  exact (below_vague hm hm _).eq_of_not hr

/-- If nothing is excused but bounds, circles and comparisons, a family of results may be replaced
by another one that settles on the same results. -/
theorem Sim.of_eventually {α β : Type} {G : Globals} {R : Store → α → β → Prop} {x : Eval α}
    {σ : Store} {r r' : ℕ → Except Halt β} (h : Sim .endless G R x σ r)
    (hr : ∀ q, (¬∃ h, q = .error h ∧ h.Vague) → (∀ᶠ m in atTop, r m = q) →
      ∀ᶠ m in atTop, r' m = q) :
    Sim .endless G R x σ r' := by
  rcases h with h | h
  · obtain ⟨m, halt, -, hfalse⟩ := h.exists
    exact hfalse.elim
  refine .inr ?_
  cases hx : x σ with
  | ok a σ' =>
    rw [hx] at h
    refine h.imp_right ?_
    rintro ⟨hσ', hext, b, hR, hb⟩
    exact ⟨hσ', hext, b, hR, hr _ (by rintro ⟨h, hh, -⟩; cases hh) hb⟩
  | error stop σ' =>
    rw [hx] at h
    rcases h with h | h | h
    · exact .inl h
    · exact .inr (.inl h)
    · -- a stop at the bounds is excused, and any other one is settled
      by_cases hstop : stop.IsLimit
      · exact .inr (.inl (.inl hstop))
      · refine .inr (.inr (hr _ ?_ h))
        rintro ⟨halt, hhalt, hvague⟩
        cases hhalt
        exact hstop hvague

/-- Evaluation by need keeps up the store. -/
theorem evals_ok (fuel depth : ℕ) : (Upkeep.ok fun _ => True).Evals (eval (force fuel depth)) :=
  (Upkeep.lawful_ok fun _ _ _ _ => trivial).evals
    (Limits.forces_ok (fun _ _ _ _ => trivial) ⟨fuel, depth⟩)

/-- Forcing by need forgets no event. -/
theorem logGrows_force (fuel depth : ℕ) (v : Value) : LogGrows (force fuel depth v) :=
  fun _ => Upkeep.lawful_log.forces Upkeep.memoizes_log fuel depth trivial trivial

section

variable {G : Globals} {σ : Store}

/-- What following one thunk by need gives is found by name within wide enough bounds, if what
forcing gives is. -/
theorem sim_step_eventually {fuel depth : ℕ}
    (hforce : ∀ v p σ, Sound G σ → v.Means σ p →
      Sim .endless G Object.Means (force fuel depth v) σ fun m => resolve G m m p)
    {a : CellId} {e : Expr} {s : Scope} (hσ : Sound G σ) (ha : Suspends σ a e s) :
    Sim .endless G Value.Means (step (eval (force fuel depth)) a) σ
      fun m => meaning (resolve G m m) G s e := by
  cases hmemo : (σ.cell a).memo with
  | some v =>
    -- what was kept was found within some bounds, and so it is within all wider ones
    obtain ⟨p, n, hp, hv⟩ := meaning_of_memo hσ ha hmemo
    refine .inr ?_
    rw [step, hmemo]
    refine .inr ⟨hσ, .refl σ, p, hv, ?_⟩
    filter_upwards [eventually_ge_atTop n] with m hm
    exact (below_vague_meaning hm hm s e).of_ok hp
  | none =>
    by_cases hbusy : (σ.cell a).busy = true
    · -- a thunk that needs itself is excused
      refine .inr ?_
      rw [step, hmemo]
      dsimp only
      rw [if_pos hbusy]
      exact .inr (.inl (.inr rfl))
    rw [Bool.not_eq_true] at hbusy
    refine sim_step_fresh (evals_ok fuel depth) hσ ha hmemo hbusy (fun p hp => hp.exists) ?_
    exact sim_eval (J := fun _ => True) (fun _ _ _ _ => trivial) (logGrows_force fuel depth)
      (fun v p σ hσ _ hv => hforce v p σ hσ hv) (hσ.begin ha.lt hmemo hbusy) trivial
      (ha.env.mono (σ.grows_setBusy a true _)) e

/-- What forcing by need gives is found by evaluation by name within wide enough bounds. -/
theorem sim_force_eventually (fuel depth : ℕ) {v : Value} {p : Promise} (hσ : Sound G σ)
    (hv : v.Means σ p) :
    Sim .endless G Object.Means (force fuel depth v) σ fun m => resolve G m m p := by
  induction fuel generalizing depth v p σ with
  | zero =>
    cases hv with
    | object ho =>
      simp only [resolve]
      exact sim_ok (by rw [force, forceWith]) hσ (.refl σ) ho
    | thunk hs => exact .inr (.inr (.inl (.inl (.inr rfl))))
  | succ fuel ih =>
    cases hv with
    | object ho =>
      simp only [resolve]
      exact sim_ok (by rw [force, forceWith]) hσ (.refl σ) ho
    | @thunk a e s hs =>
      cases depth with
      | zero => exact .inr (.inr (.inl (.inl (.inl rfl))))
      | succ depth =>
        have hstep := sim_step_eventually (fun v p σ hσ hv => ih depth hσ hv) hσ hs
        have hforce := hstep.bind (logGrows_force fuel (depth + 1)) fun v p σ' hσ' _ hv =>
          ih (depth + 1) hσ' hv
        -- what the expression means settles, and with it what the expression is resolved to
        rw [force, forceWith_thunk]
        exact hforce.of_eventually fun q hq => eventually_resolve hq

end

/-! ### What is found by name is found by need -/

/-- Nothing is expected where evaluation by name reaches its bounds or compares functions. -/
def Excuses.vague : Excuses where
  stop _ := False
  log _ := False
  halt := Halt.Vague
  log_mono _ h := h
  compared := .inl trivial

/-- No marked thunk stands for something that evaluation by name resolves within the bounds. -/
def Unresolved (G : Globals) (fuel depth : ℕ) (σ : Store) : Prop :=
  ∀ a, (σ.cell a).busy = true →
    ∃ e s, Suspends σ a e s ∧ ∃ h, resolve G fuel depth (.due e s) = .error h ∧ h.Vague

section

variable {G : Globals} {σ σ' : Store} {a : CellId} {e : Expr} {s : Scope}

/-- What is marked stays unresolved while the store is extended. -/
theorem Unresolved.extend {fuel depth : ℕ} (h : Unresolved G fuel depth σ)
    (hext : σ.Extends σ') : Unresolved G fuel depth σ' := by
  intro a ha
  rw [hext.busy] at ha
  obtain ⟨e, s, hs, hvague⟩ := h a ha
  exact ⟨e, s, hs.mono hext.grows, hvague⟩

/-- What is not resolved within some bounds is not resolved within tighter ones. -/
theorem Unresolved.tighten {fuel fuel' depth depth' : ℕ} (h : Unresolved G fuel' depth' σ)
    (hfuel : fuel ≤ fuel') (hdepth : depth ≤ depth') : Unresolved G fuel depth σ := by
  intro a ha
  obtain ⟨e, s, hs, halt, hhalt, hvague⟩ := h a ha
  refine ⟨e, s, hs, ?_⟩
  rcases below_vague hfuel hdepth (.due e s) with heq | hvague'
  · exact ⟨halt, heq.trans hhalt, hvague⟩
  · exact hvague'

/-- Marking a thunk that is not resolved either keeps it so that no marked thunk is. -/
theorem Unresolved.mark {fuel depth : ℕ} (h : Unresolved G fuel depth σ) (ha : Suspends σ a e s)
    (hvague : ∃ h, resolve G fuel depth (.due e s) = .error h ∧ h.Vague) :
    Unresolved G fuel depth (σ.marked a) := by
  have hgrows := σ.grows_setBusy a true (.began a)
  intro b hb
  by_cases hab : a = b
  · exact hab ▸ ⟨e, s, ha.mono hgrows, hvague⟩
  · rw [Store.busy_marked ha.lt, if_neg hab] at hb
    obtain ⟨e', s', hs', hvague'⟩ := h b hb
    exact ⟨e', s', hs'.mono hgrows, hvague'⟩

/-- If an expression means something within some bounds, then it does so within the tightest such
bounds, and within those it cannot be resolved if it needs itself. -/
theorem exists_tight {fuel depth : ℕ}
    (hr : ¬∃ h, meaning (resolve G fuel depth) G s e = .error h ∧ h.Vague) :
    ∃ n d, n ≤ fuel ∧ d ≤ depth ∧
      (¬∃ h, meaning (resolve G n d) G s e = .error h ∧ h.Vague) ∧
      ∃ h, resolve G n d (.due e s) = .error h ∧ h.Vague := by
  classical
  -- tightest means that the sum of both bounds is the least one
  have hex : ∃ t n d, n + d = t ∧ n ≤ fuel ∧ d ≤ depth ∧
      ¬∃ h, meaning (resolve G n d) G s e = .error h ∧ h.Vague :=
    ⟨_, fuel, depth, rfl, le_rfl, le_rfl, hr⟩
  obtain ⟨n, d, hsum, hn, hd, hsettled⟩ := Nat.find_spec hex
  refine ⟨n, d, hn, hd, hsettled, ?_⟩
  cases n with
  | zero => exact ⟨.stop .outOfFuel, by rw [resolve], .inr rfl⟩
  | succ n =>
    cases d with
    | zero => exact ⟨.stop .tooDeep, by rw [resolve], .inl rfl⟩
    | succ d =>
      -- resolving it takes its meaning within smaller bounds, which is not settled
      have hsmaller := Nat.find_min hex (m := n + d) (by omega)
      have hvague : ∃ h, meaning (resolve G n d) G s e = .error h ∧ h.Vague := by
        by_contra hcontra
        exact hsmaller ⟨n, d, rfl, by omega, by omega, hcontra⟩
      obtain ⟨halt, hhalt, hvague⟩ := hvague
      refine ⟨halt, ?_, hvague⟩
      rw [resolve, hhalt]
      rfl

/-- A computation that gives something settled gives the same within wider bounds. -/
theorem Sim.widen {α β : Type} {R : Store → α → β → Prop} {x y : Eval α} {r : Except Halt β}
    (h : Sim .vague G R x σ fun _ => r) (hr : ¬∃ h, r = .error h ∧ h.Vague) (hxy : Within x y) :
    Sim .vague G R y σ fun _ => r := by
  rcases hxy σ with heq | ⟨stop, σ', hx, hstop⟩
  · unfold Sim at h ⊢
    rwa [← heq]
  · -- had the computation reached its bounds, so had evaluation by name
    rcases h with h | h
    · exact absurd h.exists.choose_spec hr
    · rw [hx] at h
      rcases h with h | h | h
      · exact h.elim
      · exact h.elim
      · obtain ⟨_, hstopped⟩ := h.exists
        exact absurd ⟨_, hstopped, hstop⟩ hr

/-- What an expression means within some bounds is what following its thunk by need gives within the
same bounds, if no marked thunk can be resolved within them, and if forcing does so within these and
all tighter bounds. -/
theorem sim_step {fuel depth : ℕ}
    (hforce : ∀ n ≤ fuel, ∀ d v p σ, Sound G σ → Unresolved G n d σ → v.Means σ p →
      Sim .vague G Object.Means (force n d v) σ fun _ => resolve G n d p)
    (hσ : Sound G σ) (hmarked : Unresolved G fuel depth σ) (ha : Suspends σ a e s)
    (hbusy : (σ.cell a).busy = false) :
    Sim .vague G Value.Means (step (eval (force fuel depth)) a) σ
      fun _ => meaning (resolve G fuel depth) G s e := by
  by_cases hr : ∃ h, meaning (resolve G fuel depth) G s e = .error h ∧ h.Vague
  · exact .inl (.of_forall fun _ => hr)
  cases hmemo : (σ.cell a).memo with
  | some v =>
    -- the result that was kept is the one that is found now
    obtain ⟨p, n, hp, hv⟩ := meaning_of_memo hσ ha hmemo
    have hsame : meaning (resolve G fuel depth) G s e = .ok p := by
      rw [← (below_vague_meaning (le_max_left fuel n) (le_max_left depth n) s e).eq_of_not hr]
      exact (below_vague_meaning (le_max_right fuel n) (le_max_right depth n) s e).of_ok hp
    rw [hsame]
    exact sim_ok (by rw [step, hmemo]) hσ (.refl σ) hv
  | none =>
    -- the thunk may be marked only if it cannot be resolved, so it is evaluated within the tightest
    -- bounds first; within wider ones it gives the same
    obtain ⟨n, d, hn, hd, hsettled, hvague⟩ := exists_tight hr
    have hsame := (below_vague_meaning hn hd s e).eq_of_not hsettled
    refine sim_step_fresh (evals_ok fuel depth) hσ ha hmemo hbusy ?_ ?_
    · intro p hp
      obtain ⟨-, hp⟩ := hp.exists
      refine ⟨max fuel depth, ?_⟩
      exact (below_vague_meaning (le_max_left _ _) (le_max_right _ _) s e).of_ok hp
    · rw [hsame]
      have heval := sim_eval (J := Unresolved G n d) (fun _ _ h hext => h.extend hext)
        (logGrows_force n d) (hforce n hn d) (hσ.begin ha.lt hmemo hbusy)
        ((hmarked.tighten hn hd).mark ha hvague) (ha.env.mono (σ.grows_setBusy a true _)) e
      exact heval.widen hsettled (within_eval (within_force hn hd) _ e)

/-- What evaluation by name finds within some bounds is what forcing by need gives within the same
bounds, if no marked thunk can be resolved within them. -/
theorem sim_force (fuel depth : ℕ) {v : Value} {p : Promise} (hσ : Sound G σ)
    (hmarked : Unresolved G fuel depth σ) (hv : v.Means σ p) :
    Sim .vague G Object.Means (force fuel depth v) σ fun _ => resolve G fuel depth p := by
  -- the tightest bounds may be much smaller than the given ones, hence the strong induction
  induction fuel using Nat.strong_induction_on generalizing depth v p σ with
  | _ fuel ih =>
  cases hv with
  | object ho =>
    rw [resolve]
    exact sim_ok (by rw [force, forceWith]) hσ (.refl σ) ho
  | @thunk a e s hs =>
    cases fuel with
    | zero => exact sim_stop _ G _ rfl
    | succ fuel =>
      cases depth with
      | zero => exact sim_stop _ G _ rfl
      | succ depth =>
        by_cases hbusy : (σ.cell a).busy = true
        · -- a marked thunk is not resolved, so nothing is expected of it
          obtain ⟨e', s', hs', hvague⟩ := hmarked a hbusy
          obtain ⟨rfl, rfl⟩ := hs'.unique hs
          exact .inl (.of_forall fun _ => hvague)
        rw [Bool.not_eq_true] at hbusy
        have hstep := sim_step
          (fun n hn d v p σ hσ hmarked hv => ih n (Nat.lt_succ_of_le hn) d hσ hmarked hv) hσ
          (hmarked.tighten fuel.le_succ depth.le_succ) hs hbusy
        rw [force, forceWith_thunk, resolve]
        refine hstep.bind (logGrows_force fuel (depth + 1)) fun v p σ' hσ' hext hv => ?_
        exact ih fuel fuel.lt_succ_self (depth + 1) hσ'
          ((hmarked.extend hext).tighten fuel.le_succ le_rfl) hv

end

end CallByNeed
