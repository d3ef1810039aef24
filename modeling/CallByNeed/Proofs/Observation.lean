import CallByNeed.Proofs.ExtraWork

/-!
# Observation does not disturb

Output statements can be deleted from a program that runs to its end: it still runs to its end, and
what is left of the outputs is the same (`observation_does_not_disturb`).

What is left may need wider limits, because thunks that the deleted statements would have evaluated
one by one are now evaluated inside each other.
-/

namespace CallByNeed

open Filter

/-- What becomes of a statement: it is kept, or it is an output statement and is deleted. -/
inductive Edit where
  | keep (s : Statement)
  | delete (o : Output) (e : Expr) (place : Option Location)
deriving DecidableEq, Repr

namespace Edit

/-- The statement as it was. -/
def original : Edit → Statement
  | keep s => s
  | delete o e place => .output o e place

/-- The statement, if it is kept. -/
def kept? : Edit → Option Statement
  | keep s => some s
  | delete _ _ _ => none

/-- Whether the output of the statement is kept, if it has one. -/
def keepsOutput? : Edit → Option Bool
  | keep (.declare _ _ _) => none
  | keep (.output _ _ _) => some true
  | delete _ _ _ => some false

end Edit

/-- The outputs of those statements that are kept. -/
def keptOutputs (edits : List Edit) (outputs : List Object) : List Object :=
  ((outputs.zip (edits.filterMap Edit.keepsOutput?)).filter fun o => o.2).map fun o => o.1

/-- Two lists of outputs are the same. Numbers, texts and truth values are equal, functions have the
same parameter and the same body, and no operator gives something else for two outputs of the one
list than for those of the other; so functions of the one list are identical if and only if those of
the other are. -/
structure SameOutputs (os os' : List Object) : Prop where
  alike : List.Forall₂ (fun o o' => o.content.Alike o'.content) os os'
  combine : ∀ p ∈ os.zip os', ∀ q ∈ os.zip os', ∀ op : BinaryOp,
    op.combine p.1 q.1 = op.combine p.2 q.2

section

variable {P : Pairing} {σ τ σ' : Store} {force : Value → Eval Object}

/-- Outputs that correspond are the same. -/
theorem Trails.sameOutputs (h : Trails NoHole P σ τ) {os os' : List Object}
    (hos : List.Forall₂ (P.Objects NoHole) os os') : SameOutputs os os' where
  alike := hos.imp fun _ _ => Pairing.Objects.alike
  combine _ hp _ hq op :=
    h.combine_eq ((List.forall₂_iff_zip.1 hos).2 hp) ((List.forall₂_iff_zip.1 hos).2 hq) op

/-- Declarations output nothing. -/
theorem output_of_declare {x : String} {e : Expr} {place : Option Location} {o : Option Object}
    (hx : (Statement.declare x e place).execute force .global σ = .ok o σ') : o = none := by
  cases hc : σ.contains .global x with
  | true => cases (execute_declare_taken force hc e place).symm.trans hx
  | false => cases (execute_declare_new force hc e place).symm.trans hx; rfl

/-- Output statements output one object. -/
theorem output_of_output {out : Output} {e : Expr} {place : Option Location} {o : Option Object}
    (hx : (Statement.output out e place).execute force .global σ = .ok o σ') :
    ∃ object, o = some object := by
  cases out with
  | expansion => cases hx; exact ⟨_, rfl⟩
  | value =>
    cases hv : (eval force .global e >>= force) σ with
    | ok object σ₁ =>
      cases (execute_value_of_ok hv place).symm.trans hx
      exact ⟨object, rfl⟩
    | error stop σ₁ => cases (execute_value_of_error hv place).symm.trans hx

/-- The output of a statement that is kept comes first. -/
theorem keptOutputs_keep {s : Statement} {o : Option Object}
    (hx : s.execute force .global σ = .ok o σ') (edits : List Edit) (os : List Object) :
    keptOutputs (.keep s :: edits) (o.toList ++ os) = o.toList ++ keptOutputs edits os := by
  cases s with
  | declare x e place => cases output_of_declare hx; rfl
  | output out e place =>
    obtain ⟨object, rfl⟩ := output_of_output hx
    rfl

/-- The output of a statement that is deleted is left out. -/
theorem keptOutputs_delete {out : Output} {e : Expr} {place : Option Location} {o : Option Object}
    (hx : (Statement.output out e place).execute force .global σ = .ok o σ') (edits : List Edit)
    (os : List Object) :
    keptOutputs (.delete out e place :: edits) (o.toList ++ os) = keptOutputs edits os := by
  obtain ⟨object, rfl⟩ := output_of_output hx
  rfl

end

/-- If a program runs to its end, so does what is left of it after deletions, even in a store that
is behind. -/
theorem execute_kept (fuel depth : ℕ) (edits : List Edit) {P : Pairing} {σ τ : Store}
    (h : Surpasses P σ τ)
    (hdone : (execute (force fuel depth) .global (edits.map Edit.original) σ).stop = none) :
    ∃ Q os τ', (∀ᶠ l : ℕ × ℕ in atTop,
        execute (force l.1 l.2) .global (edits.filterMap Edit.kept?) τ = ⟨os, none, τ'⟩) ∧
      P.Grows Q ∧
      Surpasses Q (execute (force fuel depth) .global (edits.map Edit.original) σ).store τ' ∧
      List.Forall₂ (Q.Objects NoHole) (keptOutputs edits
        (execute (force fuel depth) .global (edits.map Edit.original) σ).outputs) os := by
  induction edits generalizing P σ τ with
  | nil => exact ⟨P, [], τ, .of_forall fun _ => rfl, .refl P, h, .nil⟩
  | cons edit edits ih =>
    rw [List.map_cons] at hdone ⊢
    cases edit with
    | delete out e place =>
      -- only the run ahead executes the statement
      cases hx : (Statement.output out e place).execute (force fuel depth) .global σ with
      | error stop σ' =>
        rw [Edit.original, execute_cons_of_error hx] at hdone
        cases hdone
      | ok o σ' =>
        rw [Edit.original, execute_cons_of_ok hx] at hdone ⊢
        have hσ' : Surpasses P σ' τ := leftBy_of_ok hx ▸ h.output fuel depth out e place
        obtain ⟨Q, os, τ', hy, hP, hQ, hos⟩ := ih hσ' hdone
        refine ⟨Q, os, τ', hy, hP, hQ, ?_⟩
        rw [keptOutputs_delete hx]
        exact hos
    | keep s =>
      rw [Edit.original] at hdone ⊢
      -- both runs execute the statement, and the run ahead does not fail
      cases h.track_execute pace_eventual fuel depth s with
      | behind hy =>
        obtain ⟨_, _, _, _, hfalse⟩ := hy.exists
        exact hfalse.elim
      | ahead hx =>
        rw [execute_cons_of_error hx] at hdone
        cases hdone
      | error hx =>
        rw [execute_cons_of_error hx] at hdone
        cases hdone
      | @ok o o' _ _ _ hx hy hP hQ ho =>
        rw [execute_cons_of_ok hx] at hdone ⊢
        obtain ⟨R, os, τ', hrest, hP', hR, hos⟩ := ih hQ hdone
        refine ⟨R, o'.toList ++ os, τ', ?_, hP.trans hP', hR, ?_⟩
        · filter_upwards [hy, hrest] with l hl hrest
          show execute _ _ (s :: edits.filterMap Edit.kept?) τ = _
          rw [execute_cons_of_ok hl, hrest]
        · rw [keptOutputs_keep hx]
          refine List.rel_append ?_ hos
          cases ho with
          | none => exact .nil
          | some ho => exact .cons (ho.mono hP') .nil

/-- If a program runs to its end in a fresh environment, so does what is left of it after any of its
output statements are deleted, and its outputs are those of the statements that are left, unless it
reaches its limits; and it does not reach limits that are wide enough. -/
theorem observation_does_not_disturb (limits : Limits) (edits : List Edit)
    (hdone : (execute limits.force .global (edits.map Edit.original) .empty).stop = none) :
    let full := execute limits.force .global (edits.map Edit.original) .empty
    let left (limits : Limits) :=
      execute limits.force .global (edits.filterMap Edit.kept?) .empty
    (∀ limits', (left limits').Ended →
        (left limits').stop = none ∧
          SameOutputs (keptOutputs edits full.outputs) (left limits').outputs) ∧
      ∃ bound, ∀ limits' : Limits, bound ≤ limits'.fuel → bound ≤ limits'.depth →
        (left limits').Ended := by
  intro full left
  obtain ⟨Q, os, τ', hy, -, ⟨G, L, hahead⟩, hos⟩ :=
    execute_kept limits.fuel limits.depth edits accounted_empty.surpasses hdone
  obtain ⟨l, hl⟩ := eventually_atTop.1 hy
  refine ⟨fun limits' hend => ?_, max l.1 l.2, fun limits' hfuel hdepth => ?_⟩
  · -- compare with limits that are wider than both
    have hwide := hl (max limits'.fuel l.1, max limits'.depth l.2)
      ⟨le_max_right _ _, le_max_right _ _⟩
    have hrun : left limits' = ⟨os, none, τ'⟩ :=
      (execute_of_ended (le_max_left _ l.1) (le_max_left _ l.2) hend).symm.trans hwide
    rw [hrun]
    exact ⟨rfl, hahead.leads.toTrails.sameOutputs hos⟩
  · have hrun : left limits' = ⟨os, none, τ'⟩ := hl (limits'.fuel, limits'.depth)
      ⟨(le_max_left _ _).trans hfuel, (le_max_right _ _).trans hdepth⟩
    rw [hrun]
    exact ⟨nofun, nofun⟩

/-- A function that is shown first need not be: it is identical to itself all the same. -/
theorem observation_does_not_disturb_identity :
    let f := Expr.name "f" none
    let edits : List Edit :=
      [.keep (.declare "f" (.arrow "x" (.name "x" none) none) none), .delete .value f none,
        .keep (.output .value (.binary .equal f f none) none), .delete .expansion f none,
        .keep (.output .value f none)]
    let full := execute (Limits.force ⟨9, 9⟩) .global (edits.map Edit.original) .empty
    let left := execute (Limits.force ⟨9, 9⟩) .global (edits.filterMap Edit.kept?) .empty
    (full.stop = none ∧ full.outputs.length = 4 ∧ left.Ended) ∧ left.stop = none ∧
      SameOutputs (keptOutputs edits full.outputs) left.outputs := by
  intro f edits full left
  have hdone : full.stop = none := by decide +kernel
  have hend : left.Ended := by decide +kernel
  have hsame := (observation_does_not_disturb ⟨9, 9⟩ edits hdone).1 ⟨9, 9⟩ hend
  exact ⟨⟨hdone, by decide +kernel, hend⟩, hsame⟩

end CallByNeed
