import CallByNeed.Proofs.CatchUp
import CallByNeed.Proofs.LockStep
import CallByNeed.Proofs.MemoDiscipline

/-!
# Extra work makes no difference

A run may have done more than another one: it may have executed statements that output something, or
statements that failed. This leaves results of thunks in the store, and nothing else that could be
seen. From then on both runs give the same (`Surpasses.track_execute`), in two senses:

* if the run ahead comes to a result, so does the run behind within wide enough bounds
  (`Mode.eventual`), because it can catch up;
* if the run behind comes to a result, so does the run ahead within the same bounds
  (`Mode.sameLimits`), because it has less to do.
-/

namespace CallByNeed

open Filter

/-! ## Two ways to compare bounds -/

/-- The run behind is given bounds as wide as it needs. Nothing is expected of it if the run ahead
has come to its limits. -/
def Mode.eventual : Mode (ℕ × ℕ) :=
  ⟨atTop, Stop.IsLimit, fun _ => False⟩

/-- Both runs have the same bounds, and the run behind may come to its limits. -/
def Mode.sameLimits : Mode Unit :=
  ⟨pure (), fun _ => False, Stop.IsLimit⟩

instance : Mode.eventual.along.NeBot :=
  inferInstanceAs (atTop : Filter (ℕ × ℕ)).NeBot

instance : Mode.sameLimits.along.NeBot :=
  inferInstanceAs (pure () : Filter Unit).NeBot

section

variable {L : Ledger} {P : Pairing} {σ τ : Store} {a b : CellId}

/-- Without holes a thunk that needs itself is at the same place in both runs. -/
theorem Swaps.place_eq {e e' : Expr} (h : Swaps NoHole e e') : e.place = e'.place := by
  rw [h.eq]

/-- With nothing left of the bounds, forcing a thunk fails for them. -/
theorem isLimit_of_spent {fuel depth : ℕ} (hspent : fuel = 0 ∨ depth = 0) (a : CellId)
    (σ : Store) : ∃ stop, force fuel depth (.thunk a) σ = .error stop σ ∧ stop.IsLimit := by
  rcases fuel with _ | fuel
  · exact ⟨.outOfFuel, rfl, .inr rfl⟩
  · rcases depth with _ | depth
    · exact ⟨.tooDeep, rfl, .inl rfl⟩
    · exact absurd hspent (by simp)

/-- With bounds that are wide enough the run behind does what the run ahead has done. -/
theorem pace_eventual (L : Ledger) :
    Pace .eventual (fun l _ _ => force l.1 l.2) NoHole L where
  byNeed l _ _ := ⟨l.1, l.2, rfl⟩
  spent {_ _ _ σ _ a _} hspent _ := by
    obtain ⟨stop, hx, hstop⟩ := isLimit_of_spent hspent a σ
    exact .ahead hx hstop
  follow {fuel depth P σ τ a b} htrack := by
    have hthunk : force (fuel + 1) (depth + 1) (.thunk a) =
        step (eval (force fuel depth)) a >>= force fuel (depth + 1) := by
      unfold force
      rw [forceWith_thunk]
    -- the run behind has one level more whenever its bounds are wide enough
    have hwide : ∀ l : ℕ × ℕ, ∀ᶠ n : ℕ × ℕ in atTop,
        Within (step (eval (force l.1 l.2)) b >>= force l.1 l.2) (force n.1 n.2 (.thunk b)) := by
      intro l
      filter_upwards [eventually_ge_atTop (l.1 + 1, l.2 + 1)] with n hn
      exact within_thunk hn.1 hn.2 b
    rw [hthunk]
    cases htrack with
    | ahead hx hstop => exact .ahead hx hstop
    | behind hy =>
      obtain ⟨_, _, _, _, hfalse⟩ := hy.exists
      exact hfalse.elim
    | ok hx hy hP hQ ho =>
      obtain ⟨l, hl⟩ := hy.exists
      exact .ok hx ((hwide l).mono fun n hn => hn.of_ok hl) hP hQ ho
    | @error stop _ _ _ hx hy hP hQ =>
      by_cases hstop : stop.IsLimit
      · exact .ahead hx hstop
      · obtain ⟨l, hl⟩ := hy.exists
        exact .error hx ((hwide l).mono fun n hn => hn.of_error hl hstop) hP hQ
  hole _ _ hee' := hee'.elim
  circle _ _ h := .inl h.place_eq
  catchUp {_ _ P σ τ a b v} h hab hv hnone := by
    -- how much is needed depends on how much there is to catch up with
    obtain ⟨Q, w, τ', hy, hP, hQ, hvw⟩ := h.catchUp hab hv hnone
    obtain ⟨m, hm⟩ := hy.exists
    refine .ok (step_of_memo hv) ?_ hP hQ hvw
    filter_upwards [eventually_ge_atTop (m, m)] with n hn
    exact (within_step_force hn.1 hn.2 b).of_ok hm

/-- Within the same bounds the run ahead does what the run behind does. -/
theorem pace_sameLimits (L : Ledger) : Pace .sameLimits (fun _ => force) NoHole L := by
  refine pace_same (fun _ _ hee' => hee'.elim) (fun _ _ h => .inl h.place_eq) ?_
  intro fuel depth P σ τ a b v h hab hv hnone
  obtain ⟨Q, w, τ', hy, hP, hQ, hvw⟩ := h.catchUp hab hv hnone
  -- within the bounds at hand the run behind either catches up as well, or comes to its limits
  obtain ⟨m, hm, hwide⟩ := (hy.and (eventually_ge_atTop (max fuel depth))).exists
  have hwithin := within_step_force ((le_max_left fuel depth).trans hwide)
    ((le_max_right fuel depth).trans hwide) b
  rcases hwithin τ with heq | ⟨stop, τ'', hstop, hlimit⟩
  · exact track_ok (step_of_memo hv) (heq.trans hm) hP hQ hvw
  · exact .behind (.of_forall fun _ => ⟨stop, τ'', hstop, hlimit⟩)

end

section

variable {α : Type} {I : Pairing → Store → Store → Prop} {R : Pairing → α → α → Prop}
  {P : Pairing} {σ σ' τ τ' : Store} {x : Eval α}

/-- Within the same bounds, what the run behind comes to the run ahead comes to as well. -/
theorem Track.ahead_ok {y : Unit → Eval α} {b : α} (h : Track .sameLimits I R x y P σ τ)
    (hy : y () τ = .ok b τ') :
    ∃ Q a σ', x σ = .ok a σ' ∧ P.Grows Q ∧ I Q σ' τ' ∧ R Q a b := by
  -- only the run behind can come to its limits, and it has not
  cases h with
  | ahead _ hfalse => exact hfalse.elim
  | behind hy' =>
    obtain ⟨⟨⟩, stop, τ'', hy', -⟩ := hy'.exists
    cases hy.symm.trans hy'
  | error _ hy' =>
    obtain ⟨⟨⟩, hy'⟩ := hy'.exists
    cases hy.symm.trans hy'
  | ok hx hy' hP hQ hR =>
    obtain ⟨⟨⟩, hy'⟩ := hy'.exists
    cases hy.symm.trans hy'
    exact ⟨_, _, _, hx, hP, hQ, hR⟩

/-- If the run behind fails within the same limits, so does the run ahead. -/
theorem Track.ahead_error {y : Unit → Eval α} {stop : Stop} (h : Track .sameLimits I R x y P σ τ)
    (hy : y () τ = .error stop τ') (hstop : ¬stop.IsLimit) :
    ∃ Q σ', x σ = .error stop σ' ∧ P.Grows Q ∧ I Q σ' τ' := by
  cases h with
  | ahead _ hfalse => exact hfalse.elim
  | behind hy' =>
    obtain ⟨⟨⟩, stop', τ'', hy', hlimit⟩ := hy'.exists
    cases hy.symm.trans hy'
    exact absurd hlimit hstop
  | ok _ hy' =>
    obtain ⟨⟨⟩, hy'⟩ := hy'.exists
    cases hy.symm.trans hy'
  | error hx hy' hP hQ =>
    obtain ⟨⟨⟩, hy'⟩ := hy'.exists
    cases hy.symm.trans hy'
    exact ⟨_, _, hx, hP, hQ⟩

/-- Within bounds that are wide enough, what the run ahead comes to the run behind comes to. -/
theorem Track.behind_ok {y : ℕ × ℕ → Eval α} {a : α} (h : Track .eventual I R x y P σ τ)
    (hx : x σ = .ok a σ') :
    ∃ Q b τ', (∀ᶠ l in atTop, y l τ = .ok b τ') ∧ P.Grows Q ∧ I Q σ' τ' ∧ R Q a b := by
  cases h with
  | ahead hx' => cases hx.symm.trans hx'
  | behind hy =>
    obtain ⟨_, _, _, _, hfalse⟩ := hy.exists
    exact hfalse.elim
  | error hx' => cases hx.symm.trans hx'
  | ok hx' hy hP hQ hR =>
    cases hx.symm.trans hx'
    exact ⟨_, _, _, hy, hP, hQ, hR⟩

end

/-- Within wider bounds a statement does the same. -/
theorem within_execute {fuel fuel' depth depth' : ℕ} (hfuel : fuel ≤ fuel')
    (hdepth : depth ≤ depth') (s : Statement) :
    Within (s.execute (force fuel depth) .global) (s.execute (force fuel' depth') .global) := by
  rcases s with ⟨x, e, place⟩ | ⟨_ | _, e, place⟩
  · exact .refl _
  · have hforce : ∀ v, Within (force fuel depth v) (force fuel' depth' v) := fun v =>
      within_force hfuel hdepth v
    exact ((within_eval hforce .global e).bind hforce).bind fun _ => .refl _
  · exact .refl _

/-- Within wider bounds a program that has come to an end does the same. -/
theorem execute_of_ended {fuel fuel' depth depth' : ℕ} (hfuel : fuel ≤ fuel')
    (hdepth : depth ≤ depth') {ss : List Statement} {σ : Store}
    (hend : (execute (force fuel depth) .global ss σ).Ended) :
    execute (force fuel' depth') .global ss σ = execute (force fuel depth) .global ss σ := by
  induction ss generalizing σ with
  | nil => rfl
  | cons s ss ih =>
    have hwithin := within_execute hfuel hdepth s
    cases hx : s.execute (force fuel depth) .global σ with
    | error stop σ' =>
      rw [execute_cons_of_error hx] at hend
      rw [execute_cons_of_error hx,
        execute_cons_of_error (hwithin.of_error hx (hend.not_isLimit stop rfl))]
    | ok o σ' =>
      rw [execute_cons_of_ok hx] at hend
      rw [execute_cons_of_ok hx, execute_cons_of_ok (hwithin.of_ok hx), ih hend]

/-! ## Between statements -/

/-- The first store is ahead of the second one, all its results are accounted for, and the same
names are declared in both. -/
structure Ahead (G : Globals) (L : Ledger) (P : Pairing) (σ τ : Store) : Prop where
  leads : Leads NoHole L P σ τ
  audited : L.Audited σ
  declares : σ.Declares G
  declares' : τ.Declares G

/-- The run with the first store has done what the run with the second one has done, and maybe
more. -/
def Surpasses (P : Pairing) (σ τ : Store) : Prop :=
  ∃ G L, Ahead G L P σ τ

/-- All results in a store are accounted for, and all names of its top level were declared. -/
def Accounted (σ : Store) : Prop :=
  ∃ (G : Globals) (L : Ledger), L.Audited σ ∧ σ.Declares G

/-- In the empty store there is nothing to account for. -/
theorem accounted_empty : Accounted .empty :=
  ⟨[], .blank, Ledger.audited_blank, Sound.empty.declares⟩

/-- Where everything is accounted for, environments end at the top level. -/
theorem Accounted.rooted {σ : Store} (h : Accounted σ) : σ.Rooted := by
  obtain ⟨G, L, hL, -⟩ := h
  exact hL.sane.rooted

/-- To begin with, a run is ahead of itself. -/
theorem Accounted.surpasses {σ : Store} (h : Accounted σ) : Surpasses (.diagonal σ) σ σ := by
  obtain ⟨G, L, hL, hG⟩ := h
  exact ⟨G, L, hL.leads NoHole, hL, hG, hG⟩

section

variable {G : Globals} {L L' : Ledger} {P Q : Pairing} {σ σ' τ τ' : Store} {x : String}

/-- What is declared stays declared while a store unfolds. -/
theorem Store.Declares.mono (h : σ.Declares G) (hunfolds : σ.Unfolds σ') : σ'.Declares G where
  nonempty := h.nonempty.trans_le hunfolds.frames
  globals := by
    rw [hunfolds.top]
    refine h.globals.imp fun b g hb => ⟨hb.1, ?_⟩
    obtain ⟨a, ha, hlt, hexpr, henv⟩ := hb.2
    exact ⟨a, ha, hlt.trans_le hunfolds.size, (hunfolds.expr a hlt).trans hexpr,
      (hunfolds.env a hlt).trans henv⟩

/-- A new declaration comes before the others. -/
theorem Store.Declares.declared (h : σ.Declares G) (hσ : σ.Rooted)
    (hx : σ.contains .global x = false) (e : Expr) :
    (σ.declared x e).Declares ((x, e) :: G) where
  nonempty := (hσ.declare hx e).nonempty
  globals := by
    have hpersists := hσ.persists_declare hx e
    have hfor := thunkFor_newThunk σ e .global
    -- the new name comes first
    rw [Store.declared, hσ.frame_declare hx]
    refine .cons ⟨rfl, σ.cells.size, rfl, hfor.lt, hfor.expr, hfor.env⟩
      (h.globals.imp fun b g hb => ⟨hb.1, ?_⟩)
    obtain ⟨a, ha, hlt, hexpr, henv⟩ := hb.2
    exact ⟨a, ha, hlt.trans_le hpersists.size, (hpersists.expr a hlt).trans hexpr,
      (hpersists.env a hlt).trans henv⟩

/-- A declaration changes nothing in the ledger, as its thunk has no result yet. -/
theorem Ledger.Audited.declared (h : L.Audited σ) (hx : σ.contains .global x = false) (e : Expr) :
    L.Audited (σ.declared x e) where
  sane := h.sane.declared hx e
  certified := h.certified.mono h.sane.rooted (h.sane.rooted.persists_declare hx e) fun _ _ h => h
  covers a v hv := h.covers a v (memo_of_newThunk hv)
  owned i a hi :=
    ⟨(h.owned i a hi).1.mono (h.sane.rooted.persists_declare hx e), (h.owned i a hi).2⟩

/-- What the run ahead does alone leaves it ahead. -/
theorem Ahead.continue (h : Ahead G L P σ τ) (hL : L.Continues L' σ σ')
    (hbusy : ∀ a, (σ'.cell a).busy = (σ.cell a).busy) : Ahead G L' P σ' τ where
  audited := hL.audited
  declares := h.declares.mono hL.unfolds
  declares' := h.declares'
  leads :=
    { toTrails := h.leads.toTrails.grow_of_memo hL.unfolds hL.audited.sane (.refl τ)
        h.leads.behind fun _ _ hw => hw
      certified := hL.audited.certified
      owned := hL.audited.owned
      busy := fun {a _} hab => (hbusy a).trans (h.leads.busy hab)
      paired := fun a ha => h.leads.paired a ((hbusy a).symm.trans ha)
      taken := by
        intro i j c hij hi
        -- what is paired was there before, and has the owner it had
        have hin : i.In σ := by
          cases hij with
          | cell hab => exact (h.leads.lt hab).1
          | object hmn => exact (h.leads.made_lt hmn).1
        exact h.leads.taken hij ((hL.own i hin).symm.trans hi)
      late := fun a v hv => .inl (hL.audited.covers a v hv) }

/-- What both runs have done in lock step is accounted for. -/
theorem Leads.continue (h : Leads NoHole L Q σ' τ') (hL : L.Continues L' σ σ') :
    Leads NoHole L' Q σ' τ' where
  toTrails := h.toTrails
  certified := hL.audited.certified
  owned := hL.audited.owned
  busy := h.busy
  paired := h.paired
  taken {i _ c} hij hi := by
    rcases hL.fresh i c hi with hin | hnew
    · exact h.taken hij ((hL.own i hin).symm.trans hi)
    · -- the owner has got its result meanwhile, and so in both runs
      obtain ⟨-, v, hv⟩ := hL.audited.certified.memo (hL.audited.owned i c hi).2
      obtain ⟨d, w, hcd, hw⟩ := (h.late c v hv).resolve_left hnew
      exact ⟨d, w, hcd, hw⟩
  late a v hv := .inl (hL.audited.covers a v hv)

/-- Output statements can be accounted for. -/
theorem audits_output (fuel depth : ℕ) (hσ : σ.Auditable) (o : Output) (e : Expr)
    (place : Option Location) :
    Audits (fun _ _ _ => True) ((Statement.output o e place).execute (force fuel depth) .global)
      σ := by
  cases o with
  | value =>
    have heval := Limits.audits_eval ⟨fuel, depth⟩ hσ (Store.hasEnv_global σ) e
    have hvalue : Audits (fun _ _ _ => True)
        (eval (force fuel depth) .global e >>= force fuel depth) σ := by
      refine heval.bind fun v σ' hv => ?_
      obtain ⟨L, hL⟩ := hσ
      obtain ⟨L', hL', items, hv, -⟩ := hv L hL
      have hin := hv.in hL'.audited.sane.rooted (Store.hasEnv_global σ')
      exact (audits_force fuel depth ⟨L', hL'.audited⟩ hin).imp
        (fun _ _ ho => ho.imp fun _ _ _ => trivial) fun _ _ hstop => hstop
    exact hvalue.bind fun o σ' _ => ends_of_ok rfl (continued_refl fun _ _ => trivial)
  | expansion =>
    let text : Content := .string (e.expand σ .global [] []).render
    exact ends_of_ok rfl (continued_grow (σ.unfolds_newObject text) (fun h => h.newObject text)
      fun _ _ h => h)

/-- The same thunks are marked after a statement as before, whether it succeeded or failed. -/
theorem busy_execute (fuel depth : ℕ) (hσ : σ.Sane) (s : Statement) (a : CellId) :
    ((leftBy (s.execute (force fuel depth) .global) σ).cell a).busy = (σ.cell a).busy :=
  Ends.leftBy (s.ok_execute (fun _ _ _ _ => trivial)
      (Limits.forces_ok (fun _ _ _ _ => trivial) ⟨fuel, depth⟩) .global trivial hσ.ok)
    (fun _ _ h => h.2 a) fun _ _ h => h.1.2 a

/-- Output statements leave all that is in the store as it is. -/
theorem unfolds_output (fuel depth : ℕ) (hσ : σ.Rooted) (o : Output) (e : Expr)
    (place : Option Location) :
    σ.Unfolds (leftBy ((Statement.output o e place).execute (force fuel depth) .global) σ) :=
  (Limits.output_rooted ⟨fuel, depth⟩ hσ o e place).rooted.2

/-- After an output statement that only the run ahead executes it is still ahead. -/
theorem Surpasses.output (h : Surpasses P σ τ) (fuel depth : ℕ) (o : Output) (e : Expr)
    (place : Option Location) :
    Surpasses P (leftBy ((Statement.output o e place).execute (force fuel depth) .global) σ)
      τ := by
  obtain ⟨G, L, h⟩ := h
  obtain ⟨L', hL⟩ := (audits_output fuel depth ⟨L, h.audited⟩ o e place).leftBy h.audited
  exact ⟨G, L', h.continue hL (busy_execute fuel depth h.audited.sane _)⟩

/-- After a statement that fails, and that only the run ahead executes, it is still ahead. -/
theorem Surpasses.of_error (h : Surpasses P σ τ) (fuel depth : ℕ) {s : Statement} {stop : Stop}
    (hx : s.execute (force fuel depth) .global σ = .error stop σ') : Surpasses P σ' τ := by
  cases s with
  | output o e place => exact leftBy_of_error hx ▸ h.output fuel depth o e place
  | declare x e place =>
    -- a declaration fails only if the name is taken, and then does nothing
    cases hx' : σ.contains .global x with
    | true =>
      cases (execute_declare_taken _ hx' e place).symm.trans hx
      exact h
    | false => cases (execute_declare_new _ hx' e place).symm.trans hx

/-- After a statement everything is accounted for. -/
theorem Accounted.of_ok (h : Accounted σ) (fuel depth : ℕ) {s : Statement} {r : Option Object}
    (hx : s.execute (force fuel depth) .global σ = .ok r σ') : Accounted σ' := by
  obtain ⟨G, L, hL, hG⟩ := h
  cases s with
  | output o e place =>
    obtain ⟨L', hL', -⟩ := (audits_output fuel depth ⟨L, hL⟩ o e place).ok hx L hL
    exact ⟨G, L', hL'.audited, hG.mono hL'.unfolds⟩
  | declare x e place =>
    cases hx' : σ.contains .global x with
    | true => cases (execute_declare_taken _ hx' e place).symm.trans hx
    | false =>
      cases (execute_declare_new _ hx' e place).symm.trans hx
      exact ⟨(x, e) :: G, L, hL.declared hx' e, hG.declared hL.sane.rooted hx' e⟩

/-- Whatever was executed, everything is accounted for. -/
theorem accounted_execute (h : Accounted σ) (fuel depth : ℕ) (ss : List Statement) :
    Accounted (execute (force fuel depth) .global ss σ).store := by
  induction ss generalizing σ with
  | nil => exact h
  | cons s ss ih =>
    cases hx : s.execute (force fuel depth) .global σ with
    | error stop σ' =>
      rw [execute_cons_of_error hx]
      obtain ⟨G, L, h⟩ := h.surpasses.of_error fuel depth hx
      exact ⟨G, L, h.audited, h.declares⟩
    | ok o σ' =>
      rw [execute_cons_of_ok hx]
      exact ih (h.of_ok fuel depth hx)

/-! ## Statements that both runs execute -/

/-- Both runs go on in lock step with the next statement. -/
theorem Surpasses.track_execute {ι : Type} {M : Mode ι} [M.along.NeBot]
    {F : ι → ℕ → ℕ → Value → Eval Object} (pace : ∀ L, Pace M F NoHole L) (fuel depth : ℕ)
    (s : Statement) (h : Surpasses P σ τ) :
    Track M Surpasses (fun Q => Option.Rel (Q.Objects NoHole))
      (s.execute (force fuel depth) .global) (fun i => s.execute (F i fuel depth) .global)
      P σ τ := by
  obtain ⟨G, L, h⟩ := h
  cases s with
  | declare x e place =>
    cases hx : σ.contains .global x with
    | true =>
      have hx' := (h.leads.contains_eq x).trans hx
      exact .error (execute_declare_taken _ hx e place)
        (.of_forall fun i => execute_declare_taken _ hx' e place) (.refl P) ⟨G, L, h⟩
    | false =>
      have hx' := (h.leads.contains_eq x).trans hx
      refine .ok (execute_declare_new _ hx e place)
        (.of_forall fun i => execute_declare_new _ hx' e place) (P.grows_addCell _ _)
        ⟨(x, e) :: G, L, h.leads.declared hx (.refl e), h.audited.declared hx e, ?_, ?_⟩ .none
      · exact h.declares.declared h.leads.ahead.rooted hx e
      · exact h.declares'.declared h.leads.behind.rooted hx' e
  | output o e place =>
    cases o with
    | expansion =>
      -- both stores declare the same, and so the expansions are the same
      have htext := h.declares.expand_eq h.declares' e
      let text : Content := .string (e.expand σ .global [] []).render
      have hL := h.audited.grow (σ.unfolds_newObject text) (h.audited.sane.newObject text)
        fun _ _ h => h
      refine .ok rfl (.of_forall fun i => ?_) (.refl P)
        ⟨G, L, h.leads.newObject text text, hL.audited, h.declares.mono hL.unfolds,
          h.declares'.mono (τ.unfolds_newObject text)⟩ (.some (.plain _ (.made τ.made) rfl))
      rw [execute_expansion, ← htext]
      rfl
    | value =>
      -- the run ahead accounts for its results, and what is declared stays
      obtain ⟨L', hL⟩ := (audits_output fuel depth ⟨L, h.audited⟩ .value e place).leftBy h.audited
      have hτ : ∀ i, τ.Unfolds (leftBy ((Statement.output .value e place).execute
          (F i fuel depth) .global) τ) := by
        intro i
        obtain ⟨fuel', depth', hF⟩ := (pace L).byNeed i fuel depth
        rw [hF]
        exact unfolds_output fuel' depth' h.leads.behind.rooted .value e place
      cases (pace L).track_execute fuel depth (.output place (.refl e)) h.leads with
      | ahead hx hstop => exact .ahead hx hstop
      | behind hy => exact .behind hy
      | ok hx hy hP hQ ho =>
        obtain ⟨i, hi⟩ := hy.exists
        rw [leftBy_of_ok hx] at hL
        exact .ok hx hy hP ⟨G, L', hQ.continue hL, hL.audited, h.declares.mono hL.unfolds,
          h.declares'.mono (leftBy_of_ok hi ▸ hτ i)⟩ ho
      | error hx hy hP hQ =>
        obtain ⟨i, hi⟩ := hy.exists
        rw [leftBy_of_error hx] at hL
        exact .error hx hy hP ⟨G, L', hQ.continue hL, hL.audited, h.declares.mono hL.unfolds,
          h.declares'.mono (leftBy_of_error hi ▸ hτ i)⟩

end

end CallByNeed
