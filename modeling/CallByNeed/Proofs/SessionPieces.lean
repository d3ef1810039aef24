import CallByNeed.Proofs.FailedTexts
import CallByNeed.Proofs.JoinedTexts
import CallByNeed.Proofs.TwinRuns

/-!
# A program in pieces

A session that is given a program in two pieces does what it does if it is given the whole program
at once (`pieces_equal_whole`). If the first piece fails, then so does the whole program, at the
same place. Otherwise the statements of the second piece are executed from the same store in both
cases; they were read from other places, and so the runs go in tandem, with places that may differ.

What is compared are outputs, failures and the results of the thunks that the names of the top level
stand for, all of them without places.
-/

namespace CallByNeed

/-! ## Without places -/

/-- The content of an object without the places in it. -/
def Content.unplaced : Content → Content
  | function x body env => function x body.unplaced env
  | c => c

/-- What a value holds, without places, and regardless of which object it is. -/
def Value.unplaced : Value → Value
  | object o => object ⟨.nothing, o.content.unplaced⟩
  | thunk a => thunk a

/-- The failure without its place and without the text that it is about. -/
def Failure.unplaced : Failure → Failure
  | diagnosed d => diagnosed ⟨d.kind, d.message, none, none⟩
  | failure => failure

/-- The same failure, about another text. -/
def Failure.about (source : String) : Failure → Failure
  | diagnosed d => diagnosed ⟨d.kind, d.message, d.location, some source⟩
  | failure => failure

/-- What a name is bound to: the result of its thunk, if that has been forced. -/
def Value.result? (σ : Store) : Value → Option Value
  | thunk a => (σ.cell a).memo
  | object _ => none

/-- The names of the top level, each with the result of its thunk, if that has been forced. -/
def Store.results (σ : Store) : List (String × Option Value) :=
  (σ.frame 0).map fun b => (b.1, (b.2.result? σ).map Value.unplaced)

/-- Places may be any. Parameters and parentheses are the same. -/
def Liberty.places : Liberty :=
  ⟨fun _ _ => True, Eq, False, fun _ => trivial, fun _ => rfl, False.elim⟩

section

variable {σ τ : Store}

/-- Objects that are twins are the same without their places. -/
theorem Object.Twins.unplaced_eq {o o' : Object} (h : o.Twins .places σ τ o') :
    o.content.unplaced = o'.content.unplaced := by
  cases h with
  | plain => rfl
  | @function i x x' body body' env ρ hx henv hbody =>
    obtain rfl : x = x' := hx
    have hpairs : ∀ q ∈ (x, x) :: ρ, q.1 = q.2 :=
      List.forall_mem_cons.2 ⟨rfl, henv.eq fun _ _ h => h⟩
    have hunplaced := hbody.unplaced_eq (fun _ _ h => h) not_false hpairs
    simp only [Content.unplaced, hunplaced]

/-- Values that are twins are the same without their places. -/
theorem Value.Twins.unplaced_eq {v v' : Value} (h : v.Twins .places σ τ v') :
    v.unplaced = v'.unplaced := by
  cases h with
  | object ho => rw [Value.unplaced, Value.unplaced, ho.unplaced_eq]
  | thunk a => rfl

/-- Both stores have the same names at the top level, and the same results for them. -/
theorem Store.Twins.results_eq (h : σ.Twins .places τ) : σ.results = τ.results := by
  rw [results, results, ← h.top]
  refine List.map_congr_left fun b _ => ?_
  cases b.2 with
  | object o => rfl
  | thunk a =>
    have hmemo := (h.cell a).memo
    simp only [Value.result?]
    generalize (σ.cell a).memo = m at hmemo ⊢
    generalize (τ.cell a).memo = m' at hmemo ⊢
    cases hmemo with
    | none => rfl
    | some hv => rw [Option.map_some, Option.map_some, hv.unplaced_eq]

/-- Runs that are twins output the same, apart from places. -/
theorem Outcome.Twins.outputs_eq {r r' : Outcome} (h : r.Twins .places r') :
    r.outputs.map (·.content.unplaced) = r'.outputs.map (·.content.unplaced) := by
  have houtputs := h.outputs
  generalize r.outputs = os at houtputs ⊢
  generalize r'.outputs = os' at houtputs ⊢
  induction houtputs with
  | nil => rfl
  | cons ho _ ih =>
    obtain ⟨σ, τ, ho⟩ := ho
    rw [List.map_cons, List.map_cons, ho.unplaced_eq, ih]

/-- Reasons that are variants are reported in the same way, apart from places. -/
theorem Stop.Variant.failure_eq {L : Liberty} {stop stop' : Stop} (h : stop.Variant L stop')
    (source source' : Option String) :
    (Failure.ofStop source stop).unplaced = (Failure.ofStop source' stop').unplaced := by
  cases h with
  | failed => rfl
  | same => cases stop <;> rfl

/-- Runs that are twins fail in the same way, apart from places. -/
theorem Outcome.Twins.failure_eq {L : Liberty} {r r' : Outcome} (h : r.Twins L r')
    (source source' : Option String) :
    (r.stop.map (.ofStop source)).map Failure.unplaced =
      (r'.stop.map (.ofStop source')).map Failure.unplaced := by
  have hstop := h.stop
  generalize r.stop = stop at hstop ⊢
  generalize r'.stop = stop' at hstop ⊢
  cases hstop with
  | none => rfl
  | some hvariant => exact congrArg some (hvariant.failure_eq source source')

end

/-- An expression that stands elsewhere is a variant. -/
theorem Expr.variant_relocate (f : Location → Location) (e : Expr) {ρ : List (String × String)}
    (hρ : ∀ q ∈ ρ, q.1 = q.2) : e.Variant .places ρ (e.relocate f) := by
  induction e generalizing ρ with
  | literal c p => exact .literal c trivial
  | name x p => exact .name trivial (.refl hρ x)
  | paren e p ih => exact .paren trivial (ih hρ)
  | arrow x e p ih => exact .arrow trivial rfl (ih (List.forall_mem_cons.2 ⟨rfl, hρ⟩))
  | call g a p ihg iha => exact .call trivial (ihg hρ) (iha hρ)
  | unary op e p ih => exact .unary op trivial (ih hρ)
  | binary op l r p ihl ihr => exact .binary op trivial (ihl hρ) (ihr hρ)
  | cond c t e p ihc iht ihe => exact .cond trivial (ihc hρ) (iht hρ) (ihe hρ)

/-- A statement at other places is a variant of it. -/
theorem Statement.variant_relocate (f : Location → Location) (s : Statement) :
    s.Variant .places (s.relocate f) := by
  have hexpr : ∀ e : Expr, e.Variant .places [] (e.relocate f) := fun e =>
    e.variant_relocate f (by simp)
  rcases s with ⟨x, e, p⟩ | ⟨_ | _, e, p⟩
  · exact .declare x trivial (hexpr e)
  · exact .value trivial (hexpr e)
  · exact .expansion (fun _ _ h => h) trivial (hexpr e)

/-! ## One piece after the other -/

section

variable {force : Value → Eval Object} {env : Env} {ss : List Statement} {σ : Store}

/-- If statements come to their end, those behind them are executed in the store that they leave. -/
theorem execute_append_of_ended (h : (execute force env ss σ).stop = none) (ts : List Statement) :
    let first := execute force env ss σ
    let rest := execute force env ts first.store
    execute force env (ss ++ ts) σ = ⟨first.outputs ++ rest.outputs, rest.stop, rest.store⟩ := by
  induction ss generalizing σ with
  | nil => rfl
  | cons s ss ih =>
    rw [List.cons_append]
    cases hs : s.execute force env σ with
    | error stop σ' =>
      rw [execute_cons_of_error hs] at h
      cases h
    | ok o σ' =>
      rw [execute_cons_of_ok hs] at h ⊢
      rw [execute_cons_of_ok hs, ih h]
      simp only [List.append_assoc]

/-- If statements fail, those behind them are not executed. -/
theorem execute_append_of_failed {stop : Stop} (h : (execute force env ss σ).stop = some stop)
    (ts : List Statement) : execute force env (ss ++ ts) σ = execute force env ss σ := by
  induction ss generalizing σ with
  | nil => cases h
  | cons s ss ih =>
    rw [List.cons_append]
    cases hs : s.execute force env σ with
    | error stop σ' => rw [execute_cons_of_error hs, execute_cons_of_error hs]
    | ok o σ' =>
      rw [execute_cons_of_ok hs] at h ⊢
      rw [execute_cons_of_ok hs, ih h]

end

/-- A text that can be read is executed. -/
theorem Session.add_of_parse {s : Session} {source : String} {p : Program}
    (h : parse s.texts source = .ok p) :
    let outcome := execute s.limits.force .global p.statements s.store
    s.add source = (⟨outcome.outputs, outcome.stop.map (.ofStop (some p.source))⟩,
      ⟨outcome.store, s.texts + 1, s.limits⟩) := by
  unfold add runText
  rw [h]
  rfl

/-- A failure can be said to be about another text. -/
theorem Failure.about_ofStop (source source' : String) (stop : Stop) :
    (Failure.ofStop (some source) stop).about source' = .ofStop (some source') stop := by
  cases stop <;> rfl

/-- A session that is given two texts that can be read, one after the other, does the same as if it
is given both as one text. If the first one fails, the whole text fails with the same error at the
same place, after the same outputs. Otherwise outputs, results of the names of the top level and the
failure, if there is one, are the same apart from places. -/
theorem pieces_equal_whole (limits : Limits) (earlier : List String) {a b : String}
    (ha : ∃ n p, parse n a = .ok p) (hb : ∃ n p, parse n b = .ok p) :
    let session := (Session.start limits).after earlier
    let first := session.add a
    let second := first.2.add b
    let whole := session.add (a ++ "\n" ++ b)
    (first.1.failure = none →
      whole.1.outputs.map (·.content.unplaced) =
          (first.1.outputs ++ second.1.outputs).map (·.content.unplaced) ∧
        whole.2.store.results = second.2.store.results ∧
        whole.1.failure.map Failure.unplaced = second.1.failure.map Failure.unplaced) ∧
      ∀ failure, first.1.failure = some failure →
        whole.1.outputs = first.1.outputs ∧
          whole.1.failure = some (failure.about (a ++ "\n" ++ b)) := by
  intro session first second whole
  obtain ⟨n, p, ha⟩ := ha
  obtain ⟨m, q, hb⟩ := hb
  -- the session gives numbers of its own to the texts
  replace ha := parse_inText ha session.texts
  replace hb := parse_inText hb (session.texts + 1)
  have hfirst : first = _ := Session.add_of_parse ha
  have hwhole : whole = _ := Session.add_of_parse (parse_append ha hb)
  generalize List.map (Statement.relocate (.inText session.texts)) p.statements = ss
    at hfirst hwhole
  generalize List.map (Statement.relocate (.inText (session.texts + 1))) q.statements = ts
    at hb hwhole
  dsimp only at hfirst hwhole
  rw [hwhole]
  constructor
  · intro hended
    rw [hfirst, Option.map_eq_none_iff] at hended
    have hsecond : second = _ :=
      (congrArg (fun answered => answered.2.add b) hfirst).trans (Session.add_of_parse hb)
    -- both runs start in the store that the first piece leaves
    have hrooted : first.2.store.Rooted :=
      (session.accounted_after ((Session.start limits).accounted_after accounted_empty earlier)
        [a]).rooted
    rw [hfirst] at hrooted
    have htwins := (hrooted.twins .places).execute session.limits.fuel session.limits.depth
      (List.forall₂_map_right_iff.2 (List.forall₂_same.2 fun s _ =>
        s.variant_relocate ((Location.first session.texts).after a.toList).below) :
        List.Forall₂ (Statement.Variant .places) ts _)
    rw [execute_append_of_ended hended, hfirst, hsecond]
    refine ⟨?_, htwins.store.results_eq.symm, (htwins.failure_eq _ _).symm⟩
    rw [List.map_append, List.map_append]
    exact congrArg _ htwins.outputs_eq.symm
  · -- the second piece is not even begun
    intro failure hfailed
    rw [hfirst, Option.map_eq_some_iff] at hfailed
    obtain ⟨stop, hstop, rfl⟩ := hfailed
    rw [execute_append_of_failed hstop, hfirst, hstop]
    exact ⟨rfl, congrArg some (Failure.about_ofStop _ _ _).symm⟩

/-- The first piece ends with a comment, and the second one outputs a function of the first and then
fails. The whole program outputs both, and it fails in the same way, one line further down. -/
theorem pieces_equal_whole_comment :
    let session := (Session.start ⟨9, 9⟩).after ["let t = true;"]
    let a := "let f = x => !x; console.log(t); // done"
    let b := "console.log(f); let u = f(t); console.log(u || v);"
    let first := session.add a
    let second := first.2.add b
    let whole := session.add (a ++ "\n" ++ b)
    (∃ n p, parse n a = .ok p) ∧ (∃ n p, parse n b = .ok p) ∧ first.1.failure = none ∧
      whole.1.failure =
        some (.diagnosed ⟨.runtime, "Undefined variable: v", some ⟨1, 2, 48⟩,
          some (a ++ "\n" ++ b)⟩) ∧
      whole.1.outputs.map (·.content.unplaced) =
        (first.1.outputs ++ second.1.outputs).map (·.content.unplaced) ∧
      whole.2.store.results = second.2.store.results ∧
      whole.1.failure.map Failure.unplaced = second.1.failure.map Failure.unplaced := by
  intro session a b first second whole
  have hread : ∀ source, (parse 0 source).isOk = true → ∃ n p, parse n source = .ok p := by
    intro source hok
    cases hp : parse 0 source with
    | ok p => exact ⟨0, p, hp⟩
    | error e =>
      rw [hp] at hok
      cases hok
  have ha := hread a (by decide +kernel)
  have hb := hread b (by decide +kernel)
  have hended : first.1.failure = none := by decide +kernel
  have hfailure : whole.1.failure =
      some (.diagnosed ⟨.runtime, "Undefined variable: v", some ⟨1, 2, 48⟩,
        some (a ++ "\n" ++ b)⟩) := by decide +kernel
  have hsame := (pieces_equal_whole ⟨9, 9⟩ ["let t = true;"] ha hb).1 hended
  exact ⟨ha, hb, hended, hfailure, hsame⟩

end CallByNeed
