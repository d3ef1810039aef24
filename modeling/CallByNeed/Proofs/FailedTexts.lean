import CallByNeed.Proofs.ExtraWork

/-!
# Failures leave no trace

A text that fails in a session may have left results of thunks in the store. Nobody can tell: the
session answers all later texts as if only those statements of the text had been executed that were
executed to the end (`failure_leaves_no_trace`).

The session with the failed text is ahead of the one without it. If a statement comes to an end in
the session behind, it comes to the same end in the session ahead, within the same limits. If it
comes to no end there, whatever the limits, then neither does it in the session ahead; and when both
have given up, neither need be ahead of the other, but both are ahead of the store from before. So
both sessions are compared with a third run, which skips every statement that comes to no end
(`exists_gives`).
-/

namespace CallByNeed

/-- The statements that are executed to the end before one fails. -/
def completed (force : Value → Eval Object) (env : Env) : List Statement → Store → List Statement
  | [], _ => []
  | s :: ss, σ =>
    match s.execute force env σ with
    | .error _ _ => []
    | .ok _ σ' => s :: completed force env ss σ'

/-- Two answers are the same: the outputs, environments of functions apart, and the failures. -/
structure Answer.Agrees (a b : Answer) : Prop where
  outputs : List.Forall₂ (fun x y => x.content.Alike y.content) a.outputs b.outputs
  failure : a.failure = b.failure

namespace Session

/-- Runs texts one after the other, and gives the answers. -/
def answers (s : Session) : List String → List Answer
  | [] => []
  | text :: texts => (s.add text).1 :: (s.add text).2.answers texts

/-- The session after texts. -/
def after (s : Session) : List String → Session
  | [] => s
  | text :: texts => (s.add text).2.after texts

/-- Runs just those statements of a text that are executed to the end. If the text cannot be read,
there are none. -/
def addCompleted (s : Session) (text : String) : Answer × Session :=
  match parse s.texts text with
  | .error _ => (⟨[], none⟩, { s with texts := s.texts + 1 })
  | .ok p =>
    let done := completed s.limits.force .global p.statements s.store
    let (answer, store) := Program.run s.limits .global { p with statements := done } s.store
    (answer, { s with store := store, texts := s.texts + 1 })

/-- The session, to go on within other limits. -/
def within (s : Session) (limits : Limits) : Session :=
  { s with limits := limits }

end Session

/-! ## Statements -/

section

variable {P : Pairing} {σ σ' τ ρ : Store} {s : Statement}

/-- A statement comes to no end, whatever the limits. -/
def Statement.Endless (s : Statement) (σ : Store) : Prop :=
  ∀ fuel depth, ∃ stop σ', s.execute (force fuel depth) .global σ = .error stop σ' ∧ stop.IsLimit

/-- What comes to an end in the run behind comes to the same end in the run ahead. -/
theorem Surpasses.execute_ok (h : Surpasses P σ τ) {fuel depth : ℕ} {o : Option Object} {τ' : Store}
    (hy : s.execute (force fuel depth) .global τ = .ok o τ') :
    ∃ Q o' σ', s.execute (force fuel depth) .global σ = .ok o' σ' ∧ Surpasses Q σ' τ' ∧
      List.Forall₂ (fun x y => x.content.Alike y.content) o'.toList o.toList := by
  obtain ⟨Q, o', σ', hx, -, hQ, ho⟩ := (h.track_execute pace_sameLimits fuel depth s).ahead_ok hy
  refine ⟨Q, o', σ', hx, hQ, ?_⟩
  cases ho with
  | none => exact .nil
  | some ho => exact .cons ho.alike .nil

/-- If a statement fails in the run behind, it fails in the run ahead for the same reason. -/
theorem Surpasses.execute_error (h : Surpasses P σ τ) {fuel depth : ℕ} {stop : Stop} {τ' : Store}
    (hy : s.execute (force fuel depth) .global τ = .error stop τ') (hstop : ¬stop.IsLimit) :
    ∃ Q σ', s.execute (force fuel depth) .global σ = .error stop σ' ∧ Surpasses Q σ' τ' := by
  obtain ⟨Q, σ', hx, -, hQ⟩ :=
    (h.track_execute pace_sameLimits fuel depth s).ahead_error hy hstop
  exact ⟨Q, σ', hx, hQ⟩

/-- What comes to no end in the run behind comes to no end in the run ahead. -/
theorem Surpasses.endless (h : Surpasses P σ τ) (hs : s.Endless τ) : s.Endless σ := by
  intro fuel depth
  -- if the run ahead came to an end, so would the run behind, within limits that are wide enough
  cases h.track_execute pace_eventual fuel depth s with
  | ahead hx hstop => exact ⟨_, _, hx, hstop⟩
  | behind hy =>
    obtain ⟨_, _, _, _, hfalse⟩ := hy.exists
    exact hfalse.elim
  | ok _ hy =>
    obtain ⟨l, hl⟩ := hy.exists
    obtain ⟨stop, τ', hl', -⟩ := hs l.1 l.2
    cases hl.symm.trans hl'
  | error hx hy =>
    obtain ⟨l, hl⟩ := hy.exists
    obtain ⟨stop, τ', hl', hstop⟩ := hs l.1 l.2
    cases hl.symm.trans hl'
    exact ⟨_, _, hx, hstop⟩

end

/-! ## Programs -/

/-- A run ends as an answer says, and is still ahead of the store `ρ`. -/
structure Outcome.Gives (source : String) (answer : Answer) (ρ : Store) (o : Outcome) : Prop where
  agrees : Answer.Agrees ⟨o.outputs, o.stop.map (.ofStop (some source))⟩ answer
  store : ∃ Q, Surpasses Q o.store ρ

section

variable {P : Pairing} {σ τ ρ : Store}

/-- What a program gives is determined by any store that the run is ahead of, if its limits are wide
enough. -/
theorem exists_gives (source : String) (ss : List Statement) (ρ : Store) :
    ∃ bound answer ρ', ∀ P σ, Surpasses P σ ρ → ∀ fuel depth, bound ≤ fuel → bound ≤ depth →
      (execute (force fuel depth) .global ss σ).Gives source answer ρ' := by
  induction ss generalizing ρ with
  | nil => exact ⟨0, ⟨[], none⟩, ρ, fun P σ h _ _ _ _ => ⟨⟨.nil, rfl⟩, P, h⟩⟩
  | cons s ss ih =>
    by_cases hendless : s.Endless ρ
    · -- every run ahead gives up here, and stays ahead
      refine ⟨0, ⟨[], some .tooDeep⟩, ρ, fun P σ h fuel depth _ _ => ?_⟩
      obtain ⟨stop, σ', hx, hstop⟩ := h.endless hendless fuel depth
      rw [execute_cons_of_error hx]
      refine ⟨⟨.nil, ?_⟩, P, h.of_error fuel depth hx⟩
      rcases hstop with rfl | rfl <;> rfl
    · unfold Statement.Endless at hendless
      push Not at hendless
      -- within some limits it comes to an end, and so within all wider ones in every run ahead
      obtain ⟨fuel₀, depth₀, hends⟩ := hendless
      cases hρ : s.execute (force fuel₀ depth₀) .global ρ with
      | error stop ρ' =>
        have hstop := hends stop ρ' hρ
        refine ⟨max fuel₀ depth₀, ⟨[], some (.ofStop (some source) stop)⟩, ρ',
          fun P σ h fuel depth hfuel hdepth => ?_⟩
        have hwithin := within_execute ((le_max_left _ _).trans hfuel)
          ((le_max_right _ _).trans hdepth) s
        obtain ⟨Q, σ', hx, hQ⟩ := h.execute_error (hwithin.of_error hρ hstop) hstop
        rw [execute_cons_of_error hx]
        exact ⟨⟨.nil, rfl⟩, Q, hQ⟩
      | ok o ρ' =>
        -- the limits have to do for this statement and for those after it
        obtain ⟨bound, answer, ρ'', hgives⟩ := ih ρ'
        refine ⟨max (max fuel₀ depth₀) bound, ⟨o.toList ++ answer.outputs, answer.failure⟩, ρ'',
          fun P σ h fuel depth hfuel hdepth => ?_⟩
        have hwithin := within_execute ((le_max_left fuel₀ depth₀).trans (le_of_max_le_left hfuel))
          ((le_max_right fuel₀ depth₀).trans (le_of_max_le_left hdepth)) s
        obtain ⟨Q, o', σ', hx, hQ, ho⟩ := h.execute_ok (hwithin.of_ok hρ)
        have hrest := hgives Q σ' hQ fuel depth (le_of_max_le_right hfuel)
          (le_of_max_le_right hdepth)
        rw [execute_cons_of_ok hx]
        exact ⟨⟨List.rel_append ho hrest.agrees.outputs, hrest.agrees.failure⟩, hrest.store⟩

/-- A program that comes to an end in the run behind does the same in the run ahead, within the same
limits. -/
theorem Surpasses.agrees (h : Surpasses P σ τ) {fuel depth : ℕ} {ss : List Statement}
    (hend : (execute (force fuel depth) .global ss τ).Ended) :
    (execute (force fuel depth) .global ss σ).Agrees (execute (force fuel depth) .global ss τ) ∧
      ∃ Q, Surpasses Q (execute (force fuel depth) .global ss σ).store
        (execute (force fuel depth) .global ss τ).store := by
  induction ss generalizing P σ τ with
  | nil => exact ⟨⟨rfl, .nil⟩, P, h⟩
  | cons s ss ih =>
    cases hy : s.execute (force fuel depth) .global τ with
    | error stop τ' =>
      rw [execute_cons_of_error hy] at hend ⊢
      obtain ⟨Q, σ', hx, hQ⟩ := h.execute_error hy (hend.not_isLimit stop rfl)
      rw [execute_cons_of_error hx]
      exact ⟨⟨rfl, .nil⟩, Q, hQ⟩
    | ok o τ' =>
      obtain ⟨Q, o', σ', hx, hQ, ho⟩ := h.execute_ok hy
      rw [execute_cons_of_ok hy] at hend ⊢
      obtain ⟨hagrees, hstore⟩ := ih hQ hend
      rw [execute_cons_of_ok hx]
      exact ⟨⟨hagrees.stop, List.rel_append ho hagrees.outputs⟩, hstore⟩

/-- The statements that are executed to the end output what the whole program outputs, and none of
them fails. After the whole program a run is ahead of one that executed just these. -/
theorem Accounted.completed (h : Accounted σ) (fuel depth : ℕ) (ss : List Statement) :
    let whole := execute (force fuel depth) .global ss σ
    let part := execute (force fuel depth) .global
      (CallByNeed.completed (force fuel depth) .global ss σ) σ
    (part.outputs = whole.outputs ∧ part.stop = none) ∧
      ∃ P, Surpasses P whole.store part.store := by
  dsimp only
  induction ss generalizing σ with
  | nil => exact ⟨⟨rfl, rfl⟩, _, h.surpasses⟩
  | cons s ss ih =>
    cases hx : s.execute (force fuel depth) .global σ with
    | error stop σ' =>
      have hnone : CallByNeed.completed (force fuel depth) .global (s :: ss) σ = [] := by
        rw [CallByNeed.completed, hx]
      rw [hnone, execute_cons_of_error hx]
      -- what the failed statement has left are results only, so its store is ahead of the old one
      exact ⟨⟨rfl, rfl⟩, _, h.surpasses.of_error fuel depth hx⟩
    | ok o σ' =>
      have hcons : CallByNeed.completed (force fuel depth) .global (s :: ss) σ =
          s :: CallByNeed.completed (force fuel depth) .global ss σ' := by
        rw [CallByNeed.completed, hx]
      obtain ⟨⟨houtputs, hstop⟩, hstore⟩ := ih (h.of_ok fuel depth hx)
      rw [hcons, execute_cons_of_ok hx, execute_cons_of_ok hx]
      exact ⟨⟨congrArg (o.toList ++ ·) houtputs, hstop⟩, hstore⟩

end

/-! ## Sessions -/

/-- A transitive relation is transitive between lists. -/
theorem forall₂_trans {α : Type} {R : α → α → Prop} (hR : ∀ {a b c}, R a b → R b c → R a c)
    {as bs cs : List α} (h : List.Forall₂ R as bs) (h' : List.Forall₂ R bs cs) :
    List.Forall₂ R as cs := by
  induction h generalizing cs with
  | nil => exact h'
  | cons hab _ ih =>
    cases h' with
    | cons hbc h' => exact .cons (hR hab hbc) (ih h')

namespace Answer.Agrees

variable {a b c : Answer}

/-- Answers agree in both directions. -/
theorem symm (h : a.Agrees b) : b.Agrees a :=
  ⟨(h.outputs.imp fun _ _ => Content.Alike.symm).flip, h.failure.symm⟩

/-- Answers that agree with the same one agree. -/
theorem trans (h : a.Agrees b) (h' : b.Agrees c) : a.Agrees c :=
  ⟨forall₂_trans (fun hxy hyz => hxy.trans hyz) h.outputs h'.outputs,
    h.failure.trans h'.failure⟩

end Answer.Agrees

section

variable {P : Pairing} {σ τ : Store}

/-- The answer to a text is determined by any store that the session is ahead of, if its limits are
wide enough. -/
theorem exists_answer (text : String) (n : ℕ) (ρ : Store) :
    ∃ bound answer ρ', ∀ P σ, Surpasses P σ ρ →
      ∀ limits : Limits, bound ≤ limits.fuel → bound ≤ limits.depth →
        (runText limits .global n text σ).1.Agrees answer ∧
          ∃ Q, Surpasses Q (runText limits .global n text σ).2 ρ' := by
  cases hparse : parse n text with
  | error e =>
    refine ⟨0, ⟨[], some (.ofRead (some text) e)⟩, ρ, fun P σ h limits _ _ => ?_⟩
    rw [runText, hparse]
    exact ⟨⟨.nil, rfl⟩, P, h⟩
  | ok p =>
    obtain ⟨bound, answer, ρ', hgives⟩ := exists_gives p.source p.statements ρ
    refine ⟨bound, answer, ρ', fun P σ h limits hfuel hdepth => ?_⟩
    have hrun := hgives P σ h limits.fuel limits.depth hfuel hdepth
    rw [runText, hparse]
    exact ⟨hrun.agrees, hrun.store⟩

/-- So are the answers to all later texts. -/
theorem exists_answers (later : List String) (n : ℕ) (ρ : Store) :
    ∃ bound answers, ∀ P σ, Surpasses P σ ρ →
      ∀ limits : Limits, bound ≤ limits.fuel → bound ≤ limits.depth →
        List.Forall₂ Answer.Agrees (Session.answers ⟨σ, n, limits⟩ later) answers := by
  induction later generalizing n ρ with
  | nil => exact ⟨0, [], fun _ _ _ _ _ _ => .nil⟩
  | cons text later ih =>
    obtain ⟨bound, answer, ρ', hfirst⟩ := exists_answer text n ρ
    obtain ⟨bound', answers, hrest⟩ := ih (n + 1) ρ'
    refine ⟨max bound bound', answer :: answers, fun P σ h limits hfuel hdepth => ?_⟩
    obtain ⟨hanswer, Q, hQ⟩ :=
      hfirst P σ h limits (le_of_max_le_left hfuel) (le_of_max_le_left hdepth)
    exact .cons hanswer
      (hrest Q _ hQ limits (le_of_max_le_right hfuel) (le_of_max_le_right hdepth))

/-- A text that comes to an end in the session behind is answered alike in the session ahead, within
the same limits. -/
theorem Surpasses.answer_agrees (h : Surpasses P σ τ) (limits : Limits) (n : ℕ) (text : String)
    (hend : (runText limits .global n text τ).1.failure ≠ some .tooDeep) :
    (runText limits .global n text σ).1.Agrees (runText limits .global n text τ).1 ∧
      ∃ Q, Surpasses Q (runText limits .global n text σ).2 (runText limits .global n text τ).2 := by
  unfold runText at hend ⊢
  generalize parse n text = read at hend ⊢
  cases read with
  | error e => exact ⟨⟨.nil, rfl⟩, P, h⟩
  | ok p =>
    have hended : (execute (force limits.fuel limits.depth) .global p.statements τ).Ended := by
      -- both ways to give up are reported as the same failure
      constructor <;> refine fun hstop => hend ?_
      · exact congrArg (Option.map (Failure.ofStop (some p.source))) hstop
      · exact congrArg (Option.map (Failure.ofStop (some p.source))) hstop
    obtain ⟨hagrees, hstore⟩ := h.agrees hended
    exact ⟨⟨hagrees.outputs, congrArg (Option.map _) hagrees.stop⟩, hstore⟩

/-- Both sessions give answers that agree, if the one behind stays within its limits. -/
theorem Surpasses.answers_agree (h : Surpasses P σ τ) (limits : Limits) (n : ℕ)
    (later : List String)
    (hend : ∀ a ∈ Session.answers ⟨τ, n, limits⟩ later, a.failure ≠ some .tooDeep) :
    List.Forall₂ Answer.Agrees (Session.answers ⟨σ, n, limits⟩ later)
      (Session.answers ⟨τ, n, limits⟩ later) := by
  induction later generalizing P σ τ n with
  | nil => exact .nil
  | cons text later ih =>
    obtain ⟨hanswer, Q, hQ⟩ := h.answer_agrees limits n text (hend _ List.mem_cons_self)
    exact .cons hanswer (ih hQ (n + 1) fun a ha => hend a (List.mem_cons_of_mem _ ha))

end

namespace Session

/-- In a session everything is accounted for. -/
theorem accounted_after (s : Session) (h : Accounted s.store) (texts : List String) :
    Accounted (s.after texts).store := by
  induction texts generalizing s with
  | nil => exact h
  | cons text texts ih =>
    refine ih (s.add text).2 ?_
    show Accounted (runText s.limits .global s.texts text s.store).2
    unfold runText
    cases parse s.texts text with
    | error e => exact h
    | ok p => exact accounted_execute h s.limits.fuel s.limits.depth p.statements

/-- A text that is completed counts as one. -/
theorem texts_addCompleted (s : Session) (text : String) :
    (s.addCompleted text).2.texts = s.texts + 1 := by
  unfold addCompleted
  cases parse s.texts text <;> rfl

/-- After a text that is completed everything is accounted for. -/
theorem accounted_addCompleted (s : Session) (h : Accounted s.store) (text : String) :
    Accounted (s.addCompleted text).2.store := by
  unfold addCompleted
  cases parse s.texts text with
  | error e => exact h
  | ok p => exact accounted_execute h s.limits.fuel s.limits.depth _

/-- A session that ran a text is ahead of one that ran just the statements of it that were executed
to the end. -/
theorem surpasses_addCompleted (s : Session) (h : Accounted s.store) (text : String) :
    (s.addCompleted text).1 = ⟨(s.add text).1.outputs, none⟩ ∧
      ∃ P, Surpasses P (s.add text).2.store (s.addCompleted text).2.store := by
  unfold addCompleted add runText
  cases parse s.texts text with
  | error e => exact ⟨rfl, _, h.surpasses⟩
  | ok p =>
    obtain ⟨⟨houtputs, hstop⟩, hstore⟩ := h.completed s.limits.fuel s.limits.depth p.statements
    exact ⟨congrArg₂ Answer.mk houtputs (congrArg (Option.map _) hstop), hstore⟩

end Session

/-- In any session, whatever texts came before, the answers to later texts are the same as if a text
had been replaced by those of its statements that were executed to the end. If the text has not
failed, these are all of them; if it could not be read, there are none.

The answers are the same within all limits that are wide enough, and within any limits that the
session without the rest of the text does not reach. -/
theorem failure_leaves_no_trace (limits : Limits) (earlier : List String) (text : String)
    (later : List String) :
    let session := (Session.start limits).after earlier
    let failed := (session.add text).2
    let trimmed := (session.addCompleted text).2
    (session.addCompleted text).1 = ⟨(session.add text).1.outputs, none⟩ ∧
      (∃ bound, ∀ limits' : Limits, bound ≤ limits'.fuel → bound ≤ limits'.depth →
        List.Forall₂ Answer.Agrees ((failed.within limits').answers later)
          ((trimmed.within limits').answers later)) ∧
      ∀ limits' : Limits,
        (∀ a ∈ (trimmed.within limits').answers later, a.failure ≠ some .tooDeep) →
        List.Forall₂ Answer.Agrees ((failed.within limits').answers later)
          ((trimmed.within limits').answers later) := by
  intro session failed trimmed
  have haccounted := (Session.start limits).accounted_after accounted_empty earlier
  obtain ⟨hanswer, P, hP⟩ := session.surpasses_addCompleted haccounted text
  -- both sessions number the later texts alike
  have htrimmed : ∀ limits', trimmed.within limits' =
      ⟨trimmed.store, session.texts + 1, limits'⟩ := by
    intro limits'
    rw [← session.texts_addCompleted text]
    rfl
  refine ⟨hanswer, ?_, fun limits' hend => ?_⟩
  · -- both are ahead of the one without the rest of the text
    have hself := (session.accounted_addCompleted haccounted text).surpasses
    obtain ⟨bound, answers, hanswers⟩ := exists_answers later (session.texts + 1) trimmed.store
    refine ⟨bound, fun limits' hfuel hdepth => ?_⟩
    have hfailed := hanswers P failed.store hP limits' hfuel hdepth
    have hself' := hanswers _ trimmed.store hself limits' hfuel hdepth
    rw [htrimmed]
    exact forall₂_trans (fun hab hbc => hab.trans hbc) hfailed
      (hself'.imp fun _ _ hab => hab.symm).flip
  · rw [htrimmed] at hend ⊢
    exact hP.answers_agree limits' (session.texts + 1) later hend

/-- The text that fails leaves the result of a thunk behind, and later texts do not show it. -/
theorem failure_leaves_no_trace_result :
    let session := (Session.start ⟨9, 9⟩).after ["let x = !true;"]
    let text := "let y = !x; console.log(y && z);"
    let later := ["console.log(x);", "console.log(y && z);"]
    let failed := (session.add text).2.within ⟨9, 9⟩
    let trimmed := (session.addCompleted text).2.within ⟨9, 9⟩
    ((session.add text).1.failure.isSome = true ∧ (failed.store.cell 0).memo ≠ none ∧
        (trimmed.store.cell 0).memo = none) ∧
      (∀ a ∈ trimmed.answers later, a.failure ≠ some .tooDeep) ∧
      List.Forall₂ Answer.Agrees (failed.answers later) (trimmed.answers later) := by
  intro session text later failed trimmed
  have hend : ∀ a ∈ trimmed.answers later, a.failure ≠ some .tooDeep := by decide +kernel
  obtain ⟨-, -, hsame⟩ := failure_leaves_no_trace ⟨9, 9⟩ ["let x = !true;"] text later
  exact ⟨by decide +kernel, hend, hsame ⟨9, 9⟩ hend⟩

end CallByNeed
