import CallByNeed.Proofs.ForceSimulation
import CallByNeed.Proofs.GlobalExpansion

/-!
# Evaluation by need agrees with evaluation by name

The reference is the same evaluator in which thunks keep no results and are never marked
(`Limits.forceByName`). A program is run by both in a fresh environment. If the reference run ends,
and no two functions were compared in it, then the run by need ends in the same way and outputs the
same, even within the same limits; and if the run by need ends, otherwise than because a thunk needs
itself, then so does the reference run within wide enough limits (`need_agrees_with_name`).

Both runs are compared with what evaluation without a store gives for each statement: a run
*realizes* such a result (`Realizes`), and two runs that realize the same results agree.
-/

namespace CallByNeed

open Filter

/-- Follows thunks to an object by evaluating them anew each time, within the limits. -/
def Limits.forceByName (limits : Limits) : Value → Eval Object :=
  forceWith byNameStep limits.fuel limits.depth

namespace Outcome

/-- The run did not end because its limits were reached. -/
def Ended (o : Outcome) : Prop :=
  o.stop ≠ some .tooDeep ∧ o.stop ≠ some .outOfFuel

instance : DecidablePred Ended :=
  fun o => inferInstanceAs (Decidable (o.stop ≠ some .tooDeep ∧ o.stop ≠ some .outOfFuel))

/-- Two runs ended in the same way and output the same: numbers, texts and truth values that are
equal, and functions that have the same parameter and the same body. -/
structure Agrees (o o' : Outcome) : Prop where
  /-- Both ran to the end, or stopped for the same reason at the same place. -/
  stop : o.stop = o'.stop
  /-- The outputs are the same, environments of functions apart. -/
  outputs : List.Forall₂ (fun x y => x.content.Alike y.content) o.outputs o'.outputs

end Outcome

/-! ## Statements -/

section

variable {force : Value → Eval Object} {env : Env} {s : Statement} {σ σ' : Store}

/-- After a statement that succeeds the others are executed. -/
theorem execute_cons_of_ok {o : Option Object} (h : s.execute force env σ = .ok o σ')
    (ss : List Statement) :
    execute force env (s :: ss) σ =
      { execute force env ss σ' with
        outputs := o.toList ++ (execute force env ss σ').outputs } := by
  rw [execute, h]

/-- A statement that fails is the last one. -/
theorem execute_cons_of_error {stop : Stop} (h : s.execute force env σ = .error stop σ')
    (ss : List Statement) : execute force env (s :: ss) σ = ⟨[], some stop, σ'⟩ := by
  rw [execute, h]

/-- What has a value is output. -/
theorem execute_value_of_ok {e : Expr} {o : Object}
    (h : (eval force env e >>= force) σ = .ok o σ') (place : Option Location) :
    (Statement.output .value e place).execute force env σ = .ok (some o) σ' := by
  rw [Statement.execute, bind_of_ok h]
  rfl

/-- What has no value makes the statement fail for the same reason. -/
theorem execute_value_of_error {e : Expr} {stop : Stop}
    (h : (eval force env e >>= force) σ = .error stop σ') (place : Option Location) :
    (Statement.output .value e place).execute force env σ = .error stop σ' := by
  rw [Statement.execute, bind_of_error h]

/-- A statement forgets no event, if forcing does not. -/
theorem logGrows_execute (hlog : ∀ v, LogGrows (force v)) (env : Env) (s : Statement) :
    LogGrows (s.execute force env) := by
  intro σ
  rcases s with ⟨x, e, place⟩ | ⟨o, e, place⟩
  · have hrun := Statement.execute_declare force env x e place σ
    by_cases hx : σ.contains env x = true
    · rw [if_pos hx] at hrun
      exact ends_of_error hrun ⟨List.suffix_rfl, trivial⟩
    · rw [if_neg hx] at hrun
      exact ends_of_ok hrun ⟨trivial, List.suffix_rfl, trivial⟩
  · have hfits : Upkeep.log.Fits σ env e := trivial
    exact Upkeep.lawful_log.output (fun v σ _ _ => hlog v σ) trivial hfits o place

/-- A program forgets no event. -/
theorem log_execute (hlog : ∀ v, LogGrows (force v)) (env : Env) (ss : List Statement)
    (σ : Store) : σ.log <:+ (execute force env ss σ).store.log := by
  induction ss generalizing σ with
  | nil => exact List.suffix_rfl
  | cons s ss ih =>
    have hs := logGrows_execute hlog env s σ
    cases h : s.execute force env σ with
    | error stop σ' =>
      rw [execute_cons_of_error h]
      exact (hs.error h).1
    | ok o σ' =>
      rw [execute_cons_of_ok h]
      exact (hs.ok h).2.1.trans (ih σ')

end

/-! ## Runs that realize a result -/

/-- A computation gives what a result without a store says. -/
def Realizes (G : Globals) (x : Eval Object) (σ : Store) (r : Except Halt Datum) : Prop :=
  match x σ with
  | .ok o σ' => Sound G σ' ∧ σ.Extends σ' ∧ ∃ d, r = .ok d ∧ o.Means σ' d
  | .error stop _ => r = .error (.stop stop)

/-- The events at the end of a computation. -/
def logAfter (x : Eval Object) (σ : Store) : List Event :=
  match x σ with
  | .ok _ σ' | .error _ σ' => σ'.log

/-- The computation does not stop for such a reason. -/
def StopsNot (P : Stop → Prop) (x : Eval Object) (σ : Store) : Prop :=
  ∀ stop σ', x σ = .error stop σ' → ¬P stop

section

variable {G : Globals} {x : Eval Object} {σ : Store} {r : Except Halt Datum}

/-- What a computation leaves when it gives a result is sound. -/
theorem Realizes.sound {o : Object} {σ' : Store} (h : Realizes G x σ r) (hx : x σ = .ok o σ') :
    Sound G σ' := by
  unfold Realizes at h
  rw [hx] at h
  exact h.1

/-- A computation stops only for the reason that the result gives. -/
theorem Realizes.eq_error {stop : Stop} {σ' : Store} (h : Realizes G x σ r)
    (hx : x σ = .error stop σ') : r = .error (.stop stop) := by
  unfold Realizes at h
  rwa [hx] at h

/-- A result that is realized by a computation that ends is settled. -/
theorem Realizes.settled (h : Realizes G x σ r) (hend : StopsNot Stop.IsLimit x σ) :
    ¬∃ h, r = .error h ∧ h.Vague := by
  rintro ⟨halt, hr, hvague⟩
  unfold Realizes at h
  cases hx : x σ with
  | ok o σ' =>
    rw [hx] at h
    obtain ⟨-, -, d, hd, -⟩ := h
    cases hd.symm.trans hr
  | error stop σ' =>
    rw [hx] at h
    cases h.symm.trans hr
    exact hend stop σ' hx hvague

/-- A run by name realizes the result within the same bounds, if no functions were compared. -/
theorem realizes_of_comparison (h : Sim .comparison G Object.Means x σ fun _ => r)
    (hlog : ¬ComparesFunctions (logAfter x σ)) : Realizes G x σ r := by
  unfold logAfter at hlog
  unfold Realizes
  rcases h with h | h
  · obtain ⟨_, _, _, hfalse⟩ := h.exists
    exact hfalse.elim
  cases hx : x σ with
  | ok o σ' =>
    rw [hx] at h hlog
    obtain ⟨hσ', hext, d, ho, hr⟩ := h.resolve_left hlog
    obtain ⟨_, hr⟩ := hr.exists
    exact ⟨hσ', hext, d, hr, ho⟩
  | error stop σ' =>
    rw [hx] at h hlog
    obtain ⟨_, hr⟩ := ((h.resolve_left hlog).resolve_left id).exists
    exact hr

/-- A settled result that is not excused is realized. -/
theorem realizes_of_vague (h : Sim .vague G Object.Means x σ fun _ => r)
    (hr : ¬∃ h, r = .error h ∧ h.Vague) : Realizes G x σ r := by
  unfold Realizes
  rcases h with h | h
  · -- the result would be vague, but it is settled
    obtain ⟨_, hvague⟩ := h.exists
    exact absurd hvague hr
  cases hx : x σ with
  | ok o σ' =>
    rw [hx] at h
    obtain ⟨hσ', hext, d, ho, hd⟩ := h.resolve_left id
    obtain ⟨_, hd⟩ := hd.exists
    exact ⟨hσ', hext, d, hd, ho⟩
  | error stop σ' =>
    rw [hx] at h
    obtain ⟨_, hstop⟩ := ((h.resolve_left id).resolve_left id).exists
    exact hstop

/-- A run by need that ends by itself realizes the result on which evaluation by name settles. -/
theorem realizes_of_endless {q : ℕ → Except Halt Datum}
    (h : Sim .endless G Object.Means x σ q) (hlog : ¬ComparesFunctions (logAfter x σ))
    (hend : StopsNot Stop.IsLimit x σ) (hcircle : StopsNot Stop.IsCircular x σ) :
    ∃ r, Realizes G x σ r ∧ ∀ᶠ m in atTop, q m = r := by
  unfold logAfter at hlog
  unfold Realizes
  rcases h with h | h
  · obtain ⟨_, _, _, hfalse⟩ := h.exists
    exact hfalse.elim
  cases hx : x σ with
  | ok o σ' =>
    rw [hx] at h hlog
    obtain ⟨hσ', hext, d, ho, hr⟩ := h.resolve_left hlog
    exact ⟨.ok d, ⟨hσ', hext, d, rfl, ho⟩, hr⟩
  | error stop σ' =>
    rw [hx] at h hlog
    refine ⟨.error (.stop stop), rfl, (h.resolve_left hlog).resolve_left ?_⟩
    rintro (hlimit | hcircular)
    · exact hend stop σ' hx hlimit
    · exact hcircle stop σ' hx hcircular

/-- Two computations that realize the same result both give it, with sound stores, or both stop for
the same reason. -/
theorem Realizes.agree {y : Eval Object} {σ' : Store} (hx : Realizes G x σ r)
    (hy : Realizes G y σ' r) :
    (∃ o o' σ₁ σ₁', x σ = .ok o σ₁ ∧ y σ' = .ok o' σ₁' ∧ Sound G σ₁ ∧ Sound G σ₁' ∧
      σ.Extends σ₁ ∧ σ'.Extends σ₁' ∧ o.content.Alike o'.content) ∨
    ∃ stop σ₁ σ₁', x σ = .error stop σ₁ ∧ y σ' = .error stop σ₁' := by
  unfold Realizes at hx hy
  cases h : x σ with
  | ok o σ₁ =>
    rw [h] at hx
    obtain ⟨hσ₁, hext, d, rfl, ho⟩ := hx
    cases h' : y σ' with
    | ok o' σ₁' =>
      rw [h'] at hy
      obtain ⟨hσ₁', hext', d', hd', ho'⟩ := hy
      cases hd'
      exact .inl ⟨o, o', σ₁, σ₁', rfl, rfl, hσ₁, hσ₁', hext, hext', ho.alike.trans ho'.alike.symm⟩
    | error stop σ₁' =>
      rw [h'] at hy
      cases hy
  | error stop σ₁ =>
    rw [h] at hx
    subst hx
    cases h' : y σ' with
    | ok o' σ₁' =>
      rw [h'] at hy
      obtain ⟨-, -, d, hd, -⟩ := hy
      cases hd
    | error stop' σ₁' =>
      rw [h'] at hy
      cases hy
      exact .inr ⟨stop, σ₁, σ₁', rfl, rfl⟩

end

/-! ## Values of expressions at the top level -/

section

variable {G : Globals} {σ : Store}

/-- What an expression gives at the top level without a store. -/
def valueOf (G : Globals) (fuel depth : ℕ) (e : Expr) : Except Halt Datum :=
  meaning (resolve G fuel depth) G .top e >>= resolve G fuel depth

/-- Wider bounds keep the value that an expression has by name. -/
theorem below_valueOf {fuel fuel' depth depth' : ℕ} (hfuel : fuel ≤ fuel')
    (hdepth : depth ≤ depth') (e : Expr) :
    Below Halt.Vague (valueOf G fuel depth e) (valueOf G fuel' depth' e) :=
  (below_vague_meaning hfuel hdepth .top e).bind (below_vague hfuel hdepth)

/-- Evaluation by name knows no marks, so it does not stop for them. -/
theorem noCircle_valueOf (fuel depth : ℕ) (e : Expr) : NoCircle (valueOf G fuel depth e) :=
  (noCircle_meaning (noCircle_resolve G fuel depth) G .top e).bind (noCircle_resolve G fuel depth)

/-- By name, an expression gives its value within the same bounds. -/
theorem sim_value_byName (E : Excuses) (limits : Limits) (hσ : Sound G σ) (e : Expr) :
    Sim E G Object.Means (eval limits.forceByName .global e >>= limits.forceByName) σ
      fun _ => valueOf G limits.fuel limits.depth e :=
  sim_value (J := fun _ => True) (fun _ _ _ _ => trivial)
    (logGrows_forceByName limits.fuel limits.depth)
    (fun _ _ _ hσ _ hv => sim_forceByName E limits.fuel limits.depth hσ hv) hσ trivial .top e

/-- By need, an expression gives its value within the same bounds, if nothing is being evaluated. -/
theorem sim_value_byNeed (limits : Limits) (hσ : Sound G σ)
    (hidle : ∀ a, (σ.cell a).busy = false) (e : Expr) :
    Sim .vague G Object.Means (eval limits.force .global e >>= limits.force) σ
      fun _ => valueOf G limits.fuel limits.depth e := by
  have hmarked : Unresolved G limits.fuel limits.depth σ := fun a ha =>
    absurd ((hidle a).symm.trans ha) Bool.false_ne_true
  exact sim_value (fun _ _ h hext => h.extend hext) (logGrows_force limits.fuel limits.depth)
    (fun _ _ _ hσ h hv => sim_force limits.fuel limits.depth hσ h hv) hσ hmarked .top e

/-- By need, an expression gives its value within wide bounds. -/
theorem sim_value_eventually (limits : Limits) (hσ : Sound G σ) (e : Expr) :
    Sim .endless G Object.Means (eval limits.force .global e >>= limits.force) σ
      fun m => valueOf G m m e :=
  sim_value (J := fun _ => True) (fun _ _ _ _ => trivial) (logGrows_force limits.fuel limits.depth)
    (fun _ _ _ hσ _ hv => sim_force_eventually limits.fuel limits.depth hσ hv) hσ trivial .top e

end

/-! ## Programs -/

section

variable {force force' : Value → Eval Object} {s : Statement} {ss : List Statement}
  {σ σ' σ₁ σ₁' : Store}

/-- A statement after which both runs agree may come first. -/
theorem Outcome.Agrees.cons {o o' : Option Object} (hs : s.execute force .global σ = .ok o σ₁)
    (hs' : s.execute force' .global σ' = .ok o' σ₁')
    (ho : List.Forall₂ (fun x y => x.content.Alike y.content) o.toList o'.toList)
    (h : (execute force .global ss σ₁).Agrees (execute force' .global ss σ₁')) :
    (execute force .global (s :: ss) σ).Agrees (execute force' .global (s :: ss) σ') := by
  rw [execute_cons_of_ok hs, execute_cons_of_ok hs']
  exact ⟨h.stop, List.rel_append ho h.outputs⟩

/-- Both runs may end with the same statement. -/
theorem Outcome.agrees_of_error {stop : Stop} (hs : s.execute force .global σ = .error stop σ₁)
    (hs' : s.execute force' .global σ' = .error stop σ₁') :
    (execute force .global (s :: ss) σ).Agrees (execute force' .global (s :: ss) σ') := by
  rw [execute_cons_of_error hs, execute_cons_of_error hs']
  exact ⟨rfl, .nil⟩

/-- What a statement stops for is what the run stops for. -/
theorem stopsNot_of_stop {P : Stop → Prop} {e : Expr} {place : Option Location}
    (h : ∀ stop, (execute force .global (.output .value e place :: ss) σ).stop = some stop →
      ¬P stop) : StopsNot P (eval force .global e >>= force) σ := by
  intro stop σ' hstop
  refine h stop ?_
  rw [execute_cons_of_error (execute_value_of_error hstop place)]

/-- The events of a statement are events of the run. -/
theorem not_comparesFunctions_logAfter (hlog : ∀ v, LogGrows (force v)) {e : Expr}
    {place : Option Location}
    (h : ¬ComparesFunctions
      (execute force .global (.output .value e place :: ss) σ).store.log) :
    ¬ComparesFunctions (logAfter (eval force .global e >>= force) σ) := by
  refine fun hcompares => h (hcompares.mono ?_)
  unfold logAfter
  cases hx : (eval force .global e >>= force) σ with
  | ok o σ' =>
    rw [execute_cons_of_ok (execute_value_of_ok hx place)]
    exact log_execute hlog .global ss σ'
  | error stop σ' =>
    rw [execute_cons_of_error (execute_value_of_error hx place)]

/-- A run that has ended has not reached its limits. -/
theorem Outcome.Ended.not_isLimit {o : Outcome} (h : o.Ended) (stop : Stop)
    (hstop : o.stop = some stop) : ¬stop.IsLimit := by
  rintro (rfl | rfl)
  · exact h.1 hstop
  · exact h.2 hstop

end

section

variable {G : Globals} {σ σ' : Store}

/-- A name that is declared cannot be declared again. -/
theorem execute_declare_of_some {x : String} {e' : Expr} (hσ : Sound G σ)
    (hx : G.lookup x = some e') (force : Value → Eval Object) (e : Expr)
    (place : Option Location) :
    (Statement.declare x e place).execute force .global σ =
      .error (.error ⟨.taken x, place⟩) σ := by
  rw [Statement.execute_declare, hσ.contains_global, hx]
  rfl

/-- A new name stands for its expression from then on, and nothing new is being evaluated. -/
theorem execute_declare_of_none {x : String} (hσ : Sound G σ) (hx : G.lookup x = none)
    (force : Value → Eval Object) (e : Expr) (place : Option Location) :
    ∃ σ₁, (Statement.declare x e place).execute force .global σ = .ok none σ₁ ∧
      Sound ((x, e) :: G) σ₁ ∧ ∀ a, (σ₁.cell a).busy = (σ.cell a).busy := by
  rw [Statement.execute_declare, hσ.contains_global, hx]
  exact ⟨_, rfl, hσ.declare hx e, (Store.extends_newThunk e .global).busy⟩

/-- An expansion is output as a text. -/
theorem execute_expansion (force : Value → Eval Object) (e : Expr) (place : Option Location)
    (σ : Store) :
    (Statement.output .expansion e place).execute force .global σ =
      .ok (some (σ.newObject (.string (e.expand σ .global [] []).render)).1)
        (σ.newObject (.string (e.expand σ .global [] []).render)).2 :=
  rfl

/-- What a run by name outputs, and how it ends, is what a run by need does within limits that are
at least as wide; and it never ends because a thunk needs itself. -/
theorem byNeed_agrees_of_byName {limits limits' : Limits} (hfuel : limits.fuel ≤ limits'.fuel)
    (hdepth : limits.depth ≤ limits'.depth) (ss : List Statement) (hσ : Sound G σ)
    (hσ' : Sound G σ') (hidle : ∀ a, (σ'.cell a).busy = false)
    (hend : (execute limits.forceByName .global ss σ).Ended)
    (hlog : ¬ComparesFunctions (execute limits.forceByName .global ss σ).store.log) :
    (execute limits'.force .global ss σ').Agrees (execute limits.forceByName .global ss σ) ∧
      ∀ stop, (execute limits.forceByName .global ss σ).stop = some stop → ¬stop.IsCircular := by
  induction ss generalizing G σ σ' with
  | nil => exact ⟨⟨rfl, .nil⟩, fun _ hstop => nomatch hstop⟩
  | cons s ss ih =>
    rcases s with ⟨x, e, place⟩ | ⟨_ | _, e, place⟩
    · cases hx : G.lookup x with
      | some e' =>
        have hs := execute_declare_of_some hσ hx limits.forceByName e place
        refine ⟨Outcome.agrees_of_error (execute_declare_of_some hσ' hx limits'.force e place) hs,
          ?_⟩
        rw [execute_cons_of_error hs]
        rintro _ ⟨⟩
        nofun
      | none =>
        obtain ⟨σ₁, hs, hσ₁, -⟩ := execute_declare_of_none hσ hx limits.forceByName e place
        obtain ⟨σ₁', hs', hσ₁', hbusy⟩ := execute_declare_of_none hσ' hx limits'.force e place
        rw [execute_cons_of_ok hs] at hend hlog
        obtain ⟨hagrees, hcircle⟩ := ih hσ₁ hσ₁' (fun a => (hbusy a).trans (hidle a)) hend hlog
        refine ⟨hagrees.cons hs' hs .nil, ?_⟩
        rw [execute_cons_of_ok hs]
        exact hcircle
    · -- by name the expression gives a settled value, and by need it can only give the same
      have hx := realizes_of_comparison (sim_value_byName .comparison limits hσ e)
        (not_comparesFunctions_logAfter (logGrows_forceByName _ _) hlog)
      have hsettled := hx.settled (stopsNot_of_stop hend.not_isLimit)
      have hy := sim_value_byNeed limits' hσ' hidle e
      rw [(below_valueOf hfuel hdepth e).eq_of_not hsettled] at hy
      rcases hx.agree (realizes_of_vague hy hsettled) with
        ⟨o, o', σ₁, σ₁', hs, hs', hσ₁, hσ₁', hext, hext', ho⟩ | ⟨stop, σ₁, σ₁', hs, hs'⟩
      · have hs := execute_value_of_ok hs place
        have hs' := execute_value_of_ok hs' place
        rw [execute_cons_of_ok hs] at hend hlog
        obtain ⟨hagrees, hcircle⟩ :=
          ih hσ₁ hσ₁' (fun a => (hext'.busy a).trans (hidle a)) hend hlog
        refine ⟨hagrees.cons hs' hs (.cons ho.symm .nil), ?_⟩
        rw [execute_cons_of_ok hs]
        exact hcircle
      · refine ⟨Outcome.agrees_of_error (execute_value_of_error hs' place)
          (execute_value_of_error hs place), ?_⟩
        rw [execute_cons_of_error (execute_value_of_error hs place)]
        rintro _ ⟨⟩
        exact noCircle_valueOf limits.fuel limits.depth e stop (hx.eq_error hs)
    · -- what a name expands to depends on the declarations only
      have hs := execute_expansion limits.forceByName e place σ
      have hs' := execute_expansion limits'.force e place σ'
      rw [execute_cons_of_ok hs] at hend hlog
      obtain ⟨hagrees, hcircle⟩ := ih (hσ.newObject _) (hσ'.newObject _) hidle hend hlog
      refine ⟨hagrees.cons hs' hs (.cons ?_ .nil), ?_⟩
      · rw [hσ.declares.expand_eq hσ'.declares e]
        exact .same _
      · rw [execute_cons_of_ok hs]
        exact hcircle

/-- What a run by need outputs, and how it ends, is what a run by name does within wide enough
limits, unless a thunk was found to need itself. -/
theorem byName_agrees_of_byNeed (limits : Limits) (ss : List Statement) (hσ' : Sound G σ')
    (hend : (execute limits.force .global ss σ').Ended)
    (hcircle : ∀ stop, (execute limits.force .global ss σ').stop = some stop →
      ¬stop.IsCircular)
    (hlog : ¬ComparesFunctions (execute limits.force .global ss σ').store.log) :
    ∃ bound, ∀ σ, Sound G σ → ∀ limits' : Limits, bound ≤ limits'.fuel → bound ≤ limits'.depth →
      (execute limits'.forceByName .global ss σ).Agrees (execute limits.force .global ss σ') := by
  induction ss generalizing G σ' with
  | nil => exact ⟨0, fun _ _ _ _ _ => ⟨rfl, .nil⟩⟩
  | cons s ss ih =>
    rcases s with ⟨x, e, place⟩ | ⟨_ | _, e, place⟩
    · cases hx : G.lookup x with
      | some e' =>
        refine ⟨0, fun σ hσ limits' _ _ => ?_⟩
        exact Outcome.agrees_of_error (execute_declare_of_some hσ hx limits'.forceByName e place)
          (execute_declare_of_some hσ' hx limits.force e place)
      | none =>
        obtain ⟨σ₁', hs', hσ₁', -⟩ := execute_declare_of_none hσ' hx limits.force e place
        rw [execute_cons_of_ok hs'] at hend hcircle hlog
        obtain ⟨bound, hbound⟩ := ih hσ₁' hend hcircle hlog
        refine ⟨bound, fun σ hσ limits' hfuel hdepth => ?_⟩
        obtain ⟨σ₁, hs, hσ₁, -⟩ := execute_declare_of_none hσ hx limits'.forceByName e place
        exact (hbound σ₁ hσ₁ limits' hfuel hdepth).cons hs hs' .nil
    · -- by need the expression gives the value on which evaluation by name settles
      obtain ⟨r, hx, hr⟩ := realizes_of_endless (sim_value_eventually limits hσ' e)
        (not_comparesFunctions_logAfter (logGrows_force _ _) hlog)
        (stopsNot_of_stop hend.not_isLimit) (stopsNot_of_stop hcircle)
      obtain ⟨n, rfl⟩ := hr.exists
      have hsettled := hx.settled (stopsNot_of_stop hend.not_isLimit)
      -- once it has settled, every run by name within wider limits realizes the value
      have hy : ∀ σ, Sound G σ → ∀ limits' : Limits, n ≤ limits'.fuel → n ≤ limits'.depth →
          Realizes G (eval limits'.forceByName .global e >>= limits'.forceByName) σ
            (valueOf G n n e) := by
        intro σ hσ limits' hfuel hdepth
        have hy := sim_value_byName .vague limits' hσ e
        rw [(below_valueOf hfuel hdepth e).eq_of_not hsettled] at hy
        exact realizes_of_vague hy hsettled
      cases hs' : (eval limits.force .global e >>= limits.force) σ' with
      | error stop σ₁' =>
        refine ⟨n, fun σ hσ limits' hfuel hdepth => ?_⟩
        rcases (hy σ hσ limits' hfuel hdepth).agree hx with
          ⟨_, _, _, _, _, hok, _⟩ | ⟨stop', σ₁, σ₂, hs, herror⟩
        · cases hs'.symm.trans hok
        · exact Outcome.agrees_of_error (execute_value_of_error hs place)
            (execute_value_of_error herror place)
      | ok o' σ₁' =>
        -- the statements that follow may need wider limits than this one
        have hs₁ := execute_value_of_ok hs' place
        rw [execute_cons_of_ok hs₁] at hend hcircle hlog
        obtain ⟨bound, hbound⟩ := ih (hx.sound hs') hend hcircle hlog
        refine ⟨max n bound, fun σ hσ limits' hfuel hdepth => ?_⟩
        rw [max_le_iff] at hfuel hdepth
        rcases (hy σ hσ limits' hfuel.1 hdepth.1).agree hx with
          ⟨o, o₂, σ₁, σ₂, hs, hok, hσ₁, _, _, _, ho⟩ | ⟨_, _, _, _, herror⟩
        · cases hs'.symm.trans hok
          exact (hbound σ₁ hσ₁ limits' hfuel.2 hdepth.2).cons (execute_value_of_ok hs place) hs₁
            (.cons ho .nil)
        · cases hs'.symm.trans herror
    · have hs' := execute_expansion limits.force e place σ'
      rw [execute_cons_of_ok hs'] at hend hcircle hlog
      obtain ⟨bound, hbound⟩ := ih (hσ'.newObject _) hend hcircle hlog
      refine ⟨bound, fun σ hσ limits' hfuel hdepth => ?_⟩
      refine (hbound _ (hσ.newObject _) limits' hfuel hdepth).cons
        (execute_expansion limits'.forceByName e place σ) hs' (.cons ?_ .nil)
      rw [hσ.declares.expand_eq hσ'.declares e]
      exact .same _

end

/-- Evaluation by need agrees with evaluation by name. If a program ends by name within some limits,
and no two functions were compared, then by need it agrees with that within the same limits and all
wider ones, and no thunk is found to need itself. And if it ends by need within some limits, without
such a comparison and without a thunk that needs itself, then by name it agrees with that within all
limits that are wide enough. -/
theorem need_agrees_with_name (statements : List Statement) :
    let byName (limits : Limits) := execute limits.forceByName .global statements .empty
    let byNeed (limits : Limits) := execute limits.force .global statements .empty
    (∀ limits, (byName limits).Ended → ¬ComparesFunctions (byName limits).store.log →
      ∀ limits' : Limits, limits.fuel ≤ limits'.fuel → limits.depth ≤ limits'.depth →
        (byNeed limits').Agrees (byName limits) ∧
          ∀ stop, (byNeed limits').stop = some stop → ¬stop.IsCircular) ∧
    (∀ limits, (byNeed limits).Ended →
      (∀ stop, (byNeed limits).stop = some stop → ¬stop.IsCircular) →
      ¬ComparesFunctions (byNeed limits).store.log →
      ∃ bound, ∀ limits' : Limits, bound ≤ limits'.fuel → bound ≤ limits'.depth →
        (byName limits').Agrees (byNeed limits)) := by
  intro byName byNeed
  refine ⟨fun limits hend hlog limits' hfuel hdepth => ?_, fun limits hend hcircle hlog => ?_⟩
  · obtain ⟨hagrees, hcircle⟩ := byNeed_agrees_of_byName hfuel hdepth statements .empty .empty
      (fun _ => rfl) hend hlog
    refine ⟨hagrees, fun stop hstop => hcircle stop ?_⟩
    rw [← hagrees.stop]
    exact hstop
  · obtain ⟨bound, hbound⟩ := byName_agrees_of_byNeed limits statements .empty hend hcircle hlog
    exact ⟨bound, hbound .empty .empty⟩

/-- Here a text that was put together once is used twice by need and put together again by name, a
function is output, and then the text is negated, which is an error in both runs. -/
theorem need_agrees_with_name_twice :
    let text := Expr.name "text" none
    let twice := Expr.name "twice" none
    let x := Expr.name "x" none
    let statements : List Statement :=
      [.declare "text"
          (.binary .add (.literal (.string "a") none) (.literal (.string "b") none) none) none,
        .declare "twice" (.arrow "x" (.binary .add x x none) none) none,
        .output .value (.call twice text none) none,
        .output .value twice none,
        .output .value (.unary .not text none) none]
    let byName := execute (Limits.forceByName ⟨9, 9⟩) .global statements .empty
    let byNeed := execute (Limits.force ⟨9, 9⟩) .global statements .empty
    (byName.Ended ∧ ¬ComparesFunctions byName.store.log ∧ byNeed.Agrees byName) ∧
      (byNeed.Ended ∧ (∀ stop, byNeed.stop = some stop → ¬stop.IsCircular) ∧
        ¬ComparesFunctions byNeed.store.log ∧
        ∃ bound, ∀ limits : Limits, bound ≤ limits.fuel → bound ≤ limits.depth →
          (execute limits.forceByName .global statements .empty).Agrees byNeed) := by
  intro text twice x statements byName byNeed
  obtain ⟨hneed, hname⟩ := need_agrees_with_name statements
  have hend : byName.Ended := by decide +kernel
  have hlog : ¬ComparesFunctions byName.store.log := by decide +kernel
  have hend' : byNeed.Ended := by decide +kernel
  have hlog' : ¬ComparesFunctions byNeed.store.log := by decide +kernel
  obtain ⟨hagrees, hcircle⟩ := hneed ⟨9, 9⟩ hend hlog ⟨9, 9⟩ le_rfl le_rfl
  exact ⟨⟨hend, hlog, hagrees⟩, hend', hcircle, hlog', hname ⟨9, 9⟩ hend' hcircle hlog'⟩

/-- By need a function is the same as itself, but by name each use makes another one. -/
example :
    let f := Expr.name "f" none
    let statements : List Statement :=
      [.declare "f" (.arrow "x" (.name "x" none) none) none,
        .output .value (.binary .equal f f none) none]
    let contents (force : Value → Eval Object) :=
      (execute force .global statements .empty).outputs.map Object.content
    contents (Limits.force ⟨9, 9⟩) = [.boolean true] ∧
      contents (Limits.forceByName ⟨9, 9⟩) = [.boolean false] := by
  decide +kernel

end CallByNeed
