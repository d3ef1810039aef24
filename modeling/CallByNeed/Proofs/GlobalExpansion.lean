import CallByNeed.Expansion
import CallByNeed.Proofs.Denotation

/-!
# Expansion at the top level

What an expression expands to at the top level depends on the declared names only, and not on what
else is in the store: thunks, frames of calls, or results that were kept
(`Store.Declares.expand_eq`).

How often names may be replaced inside each other is bounded by the number of all bindings in the
store, and so differs between stores. But no name is replaced inside itself, so that the number of
declared names that are not being replaced already (`unexpanded`) is enough.
-/

namespace CallByNeed

/-- How many declared names are not being replaced. -/
def unexpanded (G : Globals) (expanding : List String) : ℕ :=
  G.countP fun g => !expanding.contains g.1

/-- While one more name is expanded, no more names are left to expand. -/
theorem unexpanded_cons_le (G : Globals) (expanding : List String) (x : String) :
    unexpanded G (x :: expanding) ≤ unexpanded G expanding := by
  refine List.countP_mono_left fun g _ h => ?_
  simp only [List.contains_cons, Bool.not_eq_true', Bool.or_eq_false_iff] at h ⊢
  exact h.2

/-- Replacing one more declared name leaves fewer. -/
theorem unexpanded_cons_lt {G : Globals} {expanding : List String} {x : String} {e : Expr}
    (hx : G.lookup x = some e) (hexpanding : expanding.contains x = false) :
    unexpanded G (x :: expanding) < unexpanded G expanding := by
  induction G with
  | nil => cases hx
  | cons g G ih =>
    obtain ⟨y, f⟩ := g
    have hle := unexpanded_cons_le G expanding x
    unfold unexpanded at hle ih ⊢
    rw [List.countP_cons, List.countP_cons]
    rw [List.lookup_cons] at hx
    by_cases hxy : (x == y) = true
    · -- the name itself is no longer counted
      cases eq_of_beq hxy
      simp only [List.contains_cons, beq_self_eq_true, Bool.true_or, Bool.not_true, hexpanding,
        Bool.not_false]
      exact Nat.lt_succ_of_le hle
    · rw [Bool.not_eq_true] at hxy
      rw [hxy] at hx
      have hyx : (y == x) = false := by
        rw [beq_eq_false_iff_ne] at hxy ⊢
        exact Ne.symm hxy
      simp only [List.contains_cons, hyx, Bool.false_or]
      exact Nat.add_lt_add_right (ih hx) _

/-- The top level binds the declared names to thunks for their expressions, in order. -/
structure Store.Declares (σ : Store) (G : Globals) : Prop where
  /-- There is a top level. -/
  nonempty : 0 < σ.frames.size
  globals : List.Forall₂ (fun b g => b.1 = g.1 ∧ ∃ a, b.2 = .thunk a ∧ a < σ.cells.size ∧
    (σ.cell a).expr = g.2 ∧ (σ.cell a).env = .global) (σ.frame 0) G

/-- A sound store declares the names for which it is sound. -/
theorem Sound.declares {G : Globals} {σ : Store} (h : Sound G σ) : σ.Declares G where
  nonempty := h.nonempty
  globals := h.globals.imp fun _ _ hb =>
    ⟨hb.1, hb.2.imp fun _ ha => ⟨ha.1, ha.2.lt, ha.2.expr, ha.2.env.eq_global⟩⟩

namespace Store.Declares

variable {G : Globals} {σ σ' : Store}

/-- A declared name is bound to a thunk of its expression, and any other name to nothing. -/
theorem lookup_global (h : σ.Declares G) (x : String) :
    Option.Rel (fun v e => ∃ a, v = .thunk a ∧ (σ.cell a).expr = e ∧ (σ.cell a).env = .global)
      (σ.lookup .global x) (G.lookup x) := by
  have hx := rel_lookup (R := fun v e => ∃ a, v = Value.thunk a ∧ a < σ.cells.size ∧
    (σ.cell a).expr = e ∧ (σ.cell a).env = .global) h.globals x
  have hlookup : σ.lookup .global x = ((σ.frame 0).lookup x).bind Value.present? := by
    cases hx : (σ.frame 0).lookup x <;>
      simp [Store.lookup, Store.binding?, Env.global, Env.frames, hx]
  rw [hlookup]
  generalize G.lookup x = e at hx ⊢
  generalize (σ.frame 0).lookup x = v at hx ⊢
  cases hx with
  | none => exact .none
  | some hv =>
    obtain ⟨a, rfl, -, hexpr, henv⟩ := hv
    exact .some ⟨a, rfl, hexpr, henv⟩

/-- Stores with the same declarations have the same names at the top level. -/
theorem contains_eq (h : σ.Declares G) (h' : σ'.Declares G) (x : String) :
    σ.contains .global x = σ'.contains .global x := by
  have hx := h.lookup_global x
  have hx' := h'.lookup_global x
  rw [Store.contains, Store.contains]
  generalize G.lookup x = e at hx hx'
  generalize σ.lookup .global x = v at hx ⊢
  generalize σ'.lookup .global x = v' at hx' ⊢
  cases hx <;> cases hx' <;> rfl

/-- In two stores with the same declarations, an expression mentions a declared name in both or in
none. -/
theorem references_eq (h : σ.Declares G) (h' : σ'.Declares G) (params : List String) (e : Expr) :
    e.references σ .global params = e.references σ' .global params := by
  induction e generalizing params with
  | literal c p => rfl
  | name x p => rw [Expr.references, Expr.references, h.contains_eq h']
  | paren e p ih => exact ih params
  | arrow x e p ih => exact ih (x :: params)
  | call f a p ihf iha => rw [Expr.references, Expr.references, ihf, iha]
  | unary op e p ih => exact ih params
  | binary op l r p ihl ihr => rw [Expr.references, Expr.references, ihl, ihr]
  | cond c t e p ihc iht ihe => rw [Expr.references, Expr.references, ihc, iht, ihe]

/-- Names are replaced alike, if what they are replaced by is. -/
theorem expandWith_eq (h : σ.Declares G) (h' : σ'.Declares G)
    {inline inline' : String → Env → Expr → Expr} {expanding : List String}
    (hinline : ∀ x e, G.lookup x = some e → expanding.contains x = false →
      inline x .global e = inline' x .global e) (params : List String) (e : Expr) :
    e.expandWith σ inline .global expanding params =
      e.expandWith σ' inline' .global expanding params := by
  induction e generalizing params with
  | literal c p => rfl
  | name x p =>
    rw [Expr.expandWith, Expr.expandWith]
    by_cases hparams : params.contains x = true
    · rw [if_pos hparams, if_pos hparams]
    -- the name is no parameter, so it is replaced, unless that is going on already
    rw [if_neg hparams, if_neg hparams]
    by_cases hexpanding : expanding.contains x = true
    · rw [if_pos hexpanding, if_pos hexpanding]
    rw [if_neg hexpanding, if_neg hexpanding]
    rw [Bool.not_eq_true] at hexpanding
    have hx := h.lookup_global x
    have hx' := h'.lookup_global x
    generalize hG : G.lookup x = g at hx hx'
    generalize σ.lookup .global x = v at hx ⊢
    generalize σ'.lookup .global x = v' at hx' ⊢
    cases hx with
    | none => cases hx'; rfl
    | @some _ e ha =>
      cases hx' with
      | some ha' =>
        obtain ⟨a, rfl, hexpr, henv⟩ := ha
        obtain ⟨a', rfl, hexpr', henv'⟩ := ha'
        dsimp only
        rw [hexpr, henv, hexpr', henv', h.references_eq h', hinline x e hG hexpanding]
  | paren e p ih => rw [Expr.expandWith, Expr.expandWith, ih]
  | arrow x e p ih => rw [Expr.expandWith, Expr.expandWith, ih]
  | call f a p ihf iha => rw [Expr.expandWith, Expr.expandWith, ihf, iha]
  | unary op e p ih => rw [Expr.expandWith, Expr.expandWith, ih]
  | binary op l r p ihl ihr => rw [Expr.expandWith, Expr.expandWith, ihl, ihr]
  | cond c t e p ihc iht ihe => rw [Expr.expandWith, Expr.expandWith, ihc, iht, ihe]

/-- With enough fuel the expansion depends on the declared names only. -/
theorem expandBy_eq (h : σ.Declares G) (h' : σ'.Declares G) {fuel fuel' : ℕ}
    {expanding : List String} (hfuel : unexpanded G expanding < fuel)
    (hfuel' : unexpanded G expanding < fuel') (params : List String) (e : Expr) :
    e.expandBy σ fuel .global expanding params = e.expandBy σ' fuel' .global expanding params := by
  induction fuel generalizing fuel' expanding params e with
  | zero => exact absurd hfuel (Nat.not_lt_zero _)
  | succ fuel ih =>
    obtain ⟨fuel', rfl⟩ := Nat.exists_eq_add_of_le' (Nat.zero_lt_of_lt hfuel')
    -- inside the replaced name there is one name less to replace, so less fuel is enough
    refine h.expandWith_eq h' (fun x e hx hexpanding => ?_) params e
    have hlt := unexpanded_cons_lt hx hexpanding
    exact ih (hlt.trans_le (Nat.le_of_lt_succ hfuel)) (hlt.trans_le (Nat.le_of_lt_succ hfuel')) [] e

/-- There are at least as many bindings as declared names. -/
theorem length_le_bindingCount (h : σ.Declares G) : G.length ≤ σ.bindingCount := by
  have hfold : ∀ (fs : List Frame) (n : ℕ), n ≤ fs.foldl (fun n f => n + f.length) n := by
    intro fs
    induction fs with
    | nil => exact fun n => le_rfl
    | cons f fs ih => exact fun n => (Nat.le_add_right n _).trans (ih _)
  have hnonempty := h.nonempty
  -- the first frame alone has as many bindings as there are declarations
  rw [← h.globals.length_eq, Store.bindingCount, ← Array.foldl_toList, Store.frame]
  generalize σ.frames = frames at hnonempty ⊢
  obtain ⟨_ | ⟨f, fs⟩⟩ := frames
  · exact absurd hnonempty (Nat.lt_irrefl 0)
  · rw [List.foldl_cons, Nat.zero_add]
    exact hfold fs f.length

/-- What an expression expands to at the top level depends on the declared names only. -/
theorem expand_eq (h : σ.Declares G) (h' : σ'.Declares G) (e : Expr) :
    e.expand σ .global [] [] = e.expand σ' .global [] [] := by
  have hle : unexpanded G [] ≤ G.length := List.countP_le_length
  exact h.expandBy_eq h' (Nat.lt_succ_of_le (hle.trans h.length_le_bindingCount))
    (Nat.lt_succ_of_le (hle.trans h'.length_le_bindingCount)) [] e

end Store.Declares

end CallByNeed
