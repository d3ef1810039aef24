import CallByNeed.Proofs.ErrorPlaces
import CallByNeed.Proofs.TwinRuns

/-!
# How a run can end

A run in a fresh environment that fails does so with an error of the language, or because the limits
are reached, with one exception: there is no remainder of an infinite number, and no rule of the
language says so. `Store.Defined` says of a store that its log tells of no such remainder. As long
as no computation stops for this reason the store stays defined, and when one does it no longer is
(`Upkeep.defined`). So the log tells whether a run has ended like that (`failure_of_run`).
-/

namespace CallByNeed

/-! ## Remainders -/

namespace BinaryOp

/-- Only an infinite number has no remainder, and even it has one by what is not a number. -/
theorem remainder?_eq_none_iff {x y : Float} :
    Binary64.remainder? x y = none ↔
      (∃ negative, Binary64.shape x = .infinite negative) ∧ Binary64.shape y ≠ .nan := by
  unfold Binary64.remainder?
  cases Binary64.shape x <;> cases Binary64.shape y <;> simp

/-- The remainder does not exist for an infinite number, by a number other than zero. -/
theorem remainder_eq_domain_iff {x y : Float} :
    remainder x y = .error .domain ↔
      (∃ negative, Binary64.shape x = .infinite negative) ∧ Binary64.shape y ≠ .nan ∧
        (y == 0) = false := by
  rw [← and_assoc, ← remainder?_eq_none_iff]
  unfold remainder
  by_cases hy : (y == 0) = true
  · simp [hy]
  · cases Binary64.remainder? x y <;> simp [hy]

/-- Only the remainder of an infinite number is undefined, by a number that is not zero. -/
theorem combine_eq_domain_iff {op : BinaryOp} {l r : Object} :
    op.combine l r = .error .domain ↔
      op = .modulo ∧ ∃ x y, l.content = .number x ∧ r.content = .number y ∧
        (∃ negative, Binary64.shape x = .infinite negative) ∧ Binary64.shape y ≠ .nan ∧
          (y == 0) = false := by
  constructor
  · intro h
    obtain rfl : op = .modulo := (concerns_of_combine h).elim False.elim And.left
    refine ⟨rfl, ?_⟩
    rcases error_of_bind h with hnumbers | ⟨xy, hxy, hremainder⟩
    · exact (concerns_of_numbers hnumbers).elim
    · -- both operands are numbers
      generalize l.content = c, r.content = d at hxy
      cases c <;> cases d <;> cases hxy
      exact ⟨_, _, rfl, rfl, remainder_eq_domain_iff.1 hremainder⟩
  · rintro ⟨rfl, x, y, hx, hy, hremainder⟩
    simp only [combine, hx, hy, numbers]
    exact remainder_eq_domain_iff.2 hremainder

end BinaryOp

/-! ## What the log tells -/

/-- An operator was applied to operands for which it has no result, and no error either. -/
def Event.Undefined : Event → Prop
  | .combined op l r => op.combine l r = .error .domain
  | _ => False

/-- Whatever operator was applied had a result, or else an error. -/
def Store.Defined (σ : Store) : Prop :=
  ∀ e ∈ σ.log, ¬e.Undefined

/-- Only an undefined event makes the log undefined. -/
theorem Store.defined_note_iff {σ : Store} {e : Event} :
    (σ.note e).Defined ↔ ¬e.Undefined ∧ σ.Defined :=
  List.forall_mem_cons

/-- A store that is not defined tells of a remainder of an infinite number. -/
theorem Store.not_defined_iff {σ : Store} :
    ¬σ.Defined ↔ ∃ l r x y, .combined .modulo l r ∈ σ.log ∧ l.content = .number x ∧
      r.content = .number y ∧ (∃ negative, Binary64.shape x = .infinite negative) ∧
        Binary64.shape y ≠ .nan ∧ (y == 0) = false := by
  unfold Store.Defined
  push Not
  constructor
  · rintro ⟨e, he, hundefined⟩
    cases e with
    | combined op l r =>
      obtain ⟨rfl, x, y, hxy⟩ := BinaryOp.combine_eq_domain_iff.1 hundefined
      exact ⟨l, r, x, y, he, hxy⟩
    | began | abandoned | finished | filled => exact absurd hundefined not_false
  · rintro ⟨l, r, x, y, he, hxy⟩
    exact ⟨_, he, BinaryOp.combine_eq_domain_iff.2 ⟨rfl, x, y, hxy⟩⟩

/-- Whatever changes a store, the log stays defined as long as evaluation does not stop because a
remainder does not exist, and when it does, the log is not defined any more. -/
def Upkeep.defined : Upkeep where
  Inv := Store.Defined
  Grows _ _ := True
  Fits _ _ _ := True
  Has _ _ := True
  Stops σ stop := stop = .domain ↔ ¬σ.Defined

section

variable {σ : Store}

/-- What stops for another reason leaves the store defined. -/
theorem Store.Defined.stops (h : σ.Defined) {stop : Stop} (hstop : stop ≠ .domain) :
    Upkeep.defined.Stops σ stop :=
  iff_of_false hstop fun hnot => hnot h

/-- Operands are refused for another reason. -/
theorem Refusal.Concerns.stop_ne_domain {refusal : Refusal} {operands : List Content}
    (h : refusal.Concerns operands) (place : Option Location) : refusal.stop place ≠ .domain := by
  cases refusal with
  | domain => exact absurd h not_false
  | cause | unnamed | incomparable => exact nofun

/-- Marking a thunk is no undefined event. -/
theorem Store.defined_marked (σ : Store) (a : CellId) : (σ.marked a).Defined ↔ σ.Defined :=
  defined_note_iff.trans (and_iff_right not_false)

/-- Releasing a thunk is no undefined event. -/
theorem Store.defined_released (σ : Store) (a : CellId) : (σ.released a).Defined ↔ σ.Defined :=
  defined_note_iff.trans (and_iff_right not_false)

/-- Settling a thunk is no undefined event. -/
theorem Store.defined_settled (σ : Store) (a : CellId) (v : Value) :
    (σ.settled a v).Defined ↔ σ.Defined := by
  have hevents : ∀ e ∈ [Event.filled a, .finished a], ¬e.Undefined := by simp [Event.Undefined]
  exact List.forall_mem_append.trans (and_iff_right hevents)

end

/-- The undefined event is noted right before the computation stops. -/
theorem Upkeep.lawful_defined : Upkeep.defined.Lawful where
  refl _ := trivial
  trans _ _ := trivial
  fits_mono _ _ := trivial
  has_mono _ _ := trivial
  part _ _ := trivial
  literal _ _ _ := trivial
  lookup _ _ _ := trivial
  undefined h _ _ := Store.Defined.stops h nofun
  object _ h := ⟨h, trivial⟩
  constant _ _ := trivial
  function _ _ := trivial
  thunk h _ := ⟨h, trivial, trivial⟩
  body h _ _ := ⟨h, trivial, trivial⟩
  combined h hc := ⟨Store.defined_note_iff.2 ⟨hc, h⟩, trivial⟩
  domain _ hc := by
    refine ⟨trivial, iff_of_true rfl fun hdefined => ?_⟩
    exact (Store.defined_note_iff.1 hdefined).1 hc
  refused _ h _ _ hrefusal := Store.Defined.stops h (hrefusal.stop_ne_domain _)
  tooDeep h := Store.Defined.stops h nofun
  outOfFuel h := Store.Defined.stops h nofun

/-- Marking, releasing and settling a thunk note no undefined event. -/
theorem Upkeep.memoizes_defined : Upkeep.defined.Memoizes where
  memo _ _ _ := trivial
  busy h _ := Store.Defined.stops h nofun
  mark {σ a} h := ⟨(σ.defined_marked a).2 h.inv, trivial⟩
  release {_ σ' a _} _ _ hstop := ⟨trivial, hstop.trans (not_congr (σ'.defined_released a).symm)⟩
  settle {_ σ' a v} _ _ h _ _ := ⟨(σ'.defined_settled a v).2 h, trivial, trivial⟩
  refill _ _ h _ := by
    refine ⟨trivial, Store.Defined.stops (Store.defined_note_iff.2 ⟨?_, h⟩) nofun⟩
    exact not_false

/-! ## Programs -/

/-- A statement leaves the log defined, unless it stops because a remainder does not exist. -/
theorem Statement.defined_execute {force : Value → Eval Object}
    (hforce : Upkeep.defined.Forces force) (env : Env) (s : Statement) {σ : Store}
    (hσ : σ.Defined) : Upkeep.defined.Keeps (fun _ _ => True) (s.execute force env) σ := by
  rcases s with ⟨x, e, place⟩ | ⟨o, e, place⟩
  · have hrun := execute_declare force env x e place σ
    by_cases hx : σ.contains env x = true
    · rw [if_pos hx] at hrun
      exact ends_of_error hrun ⟨trivial, hσ.stops nofun⟩
    · rw [if_neg hx] at hrun
      exact ends_of_ok hrun ⟨hσ, trivial, trivial⟩
  · have hfits : Upkeep.defined.Fits σ env e := trivial
    exact Upkeep.lawful_defined.output hforce hσ hfits o place

/-- The log tells whether a program has stopped because a remainder does not exist. -/
theorem stop_eq_domain_iff {force : Value → Eval Object} (hforce : Upkeep.defined.Forces force)
    (env : Env) (ss : List Statement) {σ : Store} (hσ : σ.Defined) :
    (execute force env ss σ).stop = some .domain ↔ ¬(execute force env ss σ).store.Defined := by
  induction ss generalizing σ with
  | nil => exact iff_of_false nofun fun hnot => hnot hσ
  | cons s ss ih =>
    have hs := s.defined_execute hforce env hσ
    cases hx : s.execute force env σ with
    | error stop σ' =>
      rw [execute_cons_of_error hx]
      exact Option.some_inj.trans (hs.error hx).2
    | ok o σ' =>
      rw [execute_cons_of_ok hx]
      exact ih (hs.ok hx).1

/-- A text that cannot be read fails for another reason. -/
theorem Failure.ofRead_ne_domain (source : Option String) (e : ReadFailure) :
    Failure.ofRead source e ≠ .fault .domain := by
  rcases e with e | (e | _) <;> simp [ofRead]

/-- The failure tells whether the run has stopped because a remainder does not exist. -/
theorem Failure.ofStop_eq_domain_iff {source : Option String} {stop : Stop} :
    Failure.ofStop source stop = .fault .domain ↔ stop = .domain := by
  cases stop <;> simp [ofStop, Fault.unnamed, Fault.incomparable]

/-- The log tells whether a text has failed because a remainder does not exist. -/
theorem failure_eq_domain_iff (limits : Limits) (text : ℕ) (source : String) {σ : Store}
    (hσ : σ.Defined) :
    (runText limits .global text source σ).1.failure = some (.fault .domain) ↔
      ¬(runText limits .global text source σ).2.Defined := by
  unfold runText
  cases parse text source with
  | error e =>
    -- nothing is run
    apply iff_of_false
    · simpa using Failure.ofRead_ne_domain (some source) e
    · exact fun hnot => hnot hσ
  | ok p =>
    have hforce := Upkeep.lawful_defined.forces Upkeep.memoizes_defined limits.fuel limits.depth
    have hstop := stop_eq_domain_iff hforce .global p.statements hσ
    refine Iff.trans ?_ hstop
    simp [Program.run, Limits.force, Failure.ofStop_eq_domain_iff]

/-- A text that is run in a fresh environment, if it does not come to its end, ends with an error of
the language or because the limits are reached, with one exception: the remainder of an infinite
number by a number other than zero. The run ends like that exactly if such a remainder was asked
for. -/
theorem failure_of_run (limits : Limits) (source : String) :
    let run := runText limits .global 0 source .empty
    (∀ failure, run.1.failure = some failure →
      (∃ d, failure = .diagnosed d ∧ (d.kind = .lex ∨ d.kind = .parse ∨ d.kind = .runtime)) ∨
        failure = .tooDeep ∨ failure = .fault .domain) ∧
    (run.1.failure = some (.fault .domain) ↔
      ∃ l r x y, .combined .modulo l r ∈ run.2.log ∧ l.content = .number x ∧
        r.content = .number y ∧ (∃ negative, Binary64.shape x = .infinite negative) ∧
          Binary64.shape y ≠ .nan ∧ (y == 0) = false) := by
  intro run
  constructor
  · intro failure h
    have hsource : [source][0]? = some source := rfl
    have hordinary := (ordinary_of_runText hsource Store.ok_empty limits).2 failure h
    cases hordinary with
    | lex message l => exact .inl ⟨_, rfl, .inl rfl⟩
    | parse message l => exact .inl ⟨_, rfl, .inr (.inl rfl)⟩
    | runtime message _ => exact .inl ⟨_, rfl, .inr (.inr rfl)⟩
    | tooDeep => exact .inr (.inl rfl)
    | domain => exact .inr (.inr rfl)
  · rw [← Store.not_defined_iff]
    apply failure_eq_domain_iff
    simp [Store.Defined, Store.empty]

/-- A product that is too large is infinite, and its remainder ends the run without an error of the
language. -/
theorem remainder_of_infinity_ends_run :
    (runText ⟨9, 9⟩ .global 0
      "let a = 100000000000000000000; let b = a * a * a * a; console.log(b * b * b * b % 2);"
      .empty).1.failure = some (.fault .domain) := by
  decide +kernel

end CallByNeed
