import CallByNeed.Proofs.ExtraWork
import CallByNeed.Proofs.FreeNames
import CallByNeed.Proofs.Lexemes

/-!
# Names of the language

In a program that was read from a text, all names are names of the language: it is *well named*.
Whatever programs were run, the top level has been made by declarations, and if the programs were
well named, so is what they declared (`wellNamed_storeAfter`).

No mark of a cycle is such a name (`not_isName_cycleMark`). So a well-named expression has no marks,
and a mark stands for nothing at the top level.
-/

namespace CallByNeed

/-! ## Marks -/

/-- A mark is no name of the language, since it starts with a point. -/
theorem not_isName_cycleMark (x : String) : ¬IsName (cycleMark x) := by
  rw [isName_iff]
  rintro ⟨c, t, ht, hc, -⟩
  have hhead : (cycleMark x).toList.head? = some '.' := by simp [cycleMark]
  rw [ht] at hhead
  cases Option.some.inj hhead
  revert hc
  decide

/-- The mark of a cycle tells the name. -/
theorem cycleMark_inj {x y : String} : cycleMark x = cycleMark y ↔ x = y := by
  simp [cycleMark]

/-! ## Well-named programs -/

/-- Every name in the expression is one of the language. -/
def Expr.WellNamed (e : Expr) : Prop :=
  ∀ x ∈ e.names, IsName x

/-- What is well named has no marks of cycles. -/
theorem Expr.WellNamed.unmarked {e : Expr} (h : e.WellNamed) : e.Unmarked :=
  fun x hx => not_isName_cycleMark x (h _ hx)

/-- Every name in the statement is one of the language. -/
def Statement.WellNamed : Statement → Prop
  | declare x e _ => IsName x ∧ e.WellNamed
  | output _ e _ => e.WellNamed

/-- The declared names, and those in their definitions, are names of the language. -/
def Globals.WellNamed (G : Globals) : Prop :=
  ∀ x e, G.lookup x = some e → IsName x ∧ e.WellNamed

/-- A store between two statements of well-named programs. -/
structure Store.WellNamed (σ : Store) : Prop where
  /-- Environments end at the top level. -/
  rooted : σ.Rooted
  /-- The top level was made by declarations, and they were well named. -/
  declared : ∃ G : Globals, σ.Declares G ∧ G.WellNamed

/-- The empty store has no names. -/
theorem Store.wellNamed_empty : Store.empty.WellNamed where
  rooted := rooted_empty
  declared := ⟨[], Sound.empty.declares, fun _ _ h => by cases h⟩

/-- A well-named declaration keeps the top level well named. -/
theorem Globals.WellNamed.cons {G : Globals} (h : G.WellNamed) {x : String} {e : Expr}
    (hx : IsName x) (he : e.WellNamed) : Globals.WellNamed ((x, e) :: G) := by
  intro y E hy
  rw [List.lookup_cons] at hy
  by_cases hyx : (y == x) = true
  · rw [hyx] at hy
    cases hy
    cases eq_of_beq hyx
    exact ⟨hx, he⟩
  · rw [Bool.not_eq_true] at hyx
    rw [hyx] at hy
    exact h y E hy

/-- After a well-named statement, whether it succeeded or failed, the top level is well named. -/
theorem Store.WellNamed.step {σ : Store} (h : σ.WellNamed) (limits : Limits) {s : Statement}
    (hs : s.WellNamed) : (leftBy (s.execute limits.force .global) σ).WellNamed := by
  obtain ⟨hrooted, G, hG, hnames⟩ := h
  refine ⟨hrooted.execute limits s, ?_⟩
  cases s with
  | output o e place =>
    -- whatever is evaluated, nothing is declared
    exact ⟨G, hG.mono (limits.output_rooted hrooted o e place).rooted.2, hnames⟩
  | declare x e place =>
    cases hx : σ.contains .global x with
    | true =>
      rw [leftBy_of_error (execute_declare_taken _ hx e place)]
      exact ⟨G, hG, hnames⟩
    | false =>
      rw [leftBy_of_ok (execute_declare_new _ hx e place)]
      exact ⟨(x, e) :: G, hG.declared hrooted hx e, hnames.cons hs.1 hs.2⟩

/-- Running well-named statements keeps the top level well named. -/
theorem Store.WellNamed.run {σ : Store} (h : σ.WellNamed) (limits : Limits)
    {ss : List Statement} (hss : ∀ s ∈ ss, s.WellNamed) :
    (execute limits.force .global ss σ).store.WellNamed := by
  induction ss generalizing σ with
  | nil => exact h
  | cons s ss ih =>
    obtain ⟨hs, hss⟩ := List.forall_mem_cons.1 hss
    have hstep := h.step limits hs
    cases hx : s.execute limits.force .global σ with
    | error stop σ' =>
      -- the statements behind one that fails are not executed
      rw [execute_cons_of_error hx]
      rwa [leftBy_of_error hx] at hstep
    | ok o σ' =>
      rw [execute_cons_of_ok hx]
      rw [leftBy_of_ok hx] at hstep
      exact ih hstep hss

/-- Whatever well-named programs were run, the top level is well named. -/
theorem wellNamed_storeAfter (runs : List (Limits × Program))
    (hruns : ∀ run ∈ runs, ∀ s ∈ run.2.statements, s.WellNamed) : (storeAfter runs).WellNamed := by
  induction runs using List.reverseRecOn with
  | nil => exact Store.wellNamed_empty
  | append_singleton runs run ih =>
    have h := ih fun r hr => hruns r (List.mem_append_left _ hr)
    rw [storeAfter, List.foldl_append]
    exact h.run run.1 (hruns run (List.mem_append_right _ List.mem_cons_self))

end CallByNeed
