import CallByNeed.Proofs.ExpansionRules
import CallByNeed.Proofs.ProperNames

/-!
# Expansions are in normal form

In an expansion there is nothing left to replace. Each name in it is a parameter of a function
around it, or stands for nothing at the top level, as marks do, or is self-contained
(`Expands.settled_of_mem_free`). Such an expression expands to itself (`expands_self`), and so
expanding twice is expanding once (`expansion_normal_form`).

Definitions are put below functions that have nothing to do with them, and their names may be
captured there. That does no harm here: a captured name is a parameter, and stays.
-/

namespace CallByNeed

section

variable {D : String → Option Expr} {X P : List String} {e e' : Expr}

/-- The name stands for nothing, or for something that mentions no name that is defined. -/
def Settled (D : String → Option Expr) (x : String) : Prop :=
  D x = none ∨ SelfContained D x

/-- The names that occur free in an expansion are settled, the parameters of the functions around
the expression apart. -/
theorem Expands.settled_of_mem_free (h : Expands D X P e e')
    (hmark : ∀ x, D (cycleMark x) = none) : ∀ y ∈ e'.free, y ∉ P → Settled D y := by
  induction h with
  | literal c p => exact fun _ h => absurd h List.not_mem_nil
  | parameter p hx =>
    intro y hy hP
    cases List.mem_singleton.1 hy
    exact absurd hx hP
  | @cycle X P x p _ _ =>
    -- what was marked is replaced by a name that nobody can declare
    intro y hy _
    cases List.mem_singleton.1 hy
    exact .inl (hmark x)
  | undefined p _ _ hD =>
    intro y hy _
    cases List.mem_singleton.1 hy
    exact .inl hD
  | @selfContained X P x E p _ _ hD hfree =>
    intro y hy _
    cases List.mem_singleton.1 hy
    exact .inr ⟨E, hD, hfree⟩
  | inline p _ _ _ _ _ _ ih =>
    -- the definition was expanded by itself, so that no parameter is left out there
    exact fun y hy _ => ih y hy List.not_mem_nil
  | paren p _ ih => exact ih
  | arrow x p _ ih =>
    intro y hy hP
    obtain ⟨hy, hne⟩ := Expr.mem_free_arrow.1 hy
    exact ih y hy (by simp [hne, hP])
  | call p _ _ ihf iha => exact List.forall_mem_append.2 ⟨ihf, iha⟩
  | unary op p _ ih => exact ih
  | binary op p _ _ ihl ihr => exact List.forall_mem_append.2 ⟨ihl, ihr⟩
  | cond p _ _ _ ihc iht ihe =>
    exact List.forall_mem_append.2 ⟨ihc, List.forall_mem_append.2 ⟨iht, ihe⟩⟩

/-- If the names that occur free are settled, nothing is replaced. -/
theorem expands_self (h : ∀ y ∈ e.free, y ∉ P → Settled D y) : Expands D [] P e e := by
  induction e generalizing P with
  | literal c p => exact .literal c p
  | name x p =>
    by_cases hP : x ∈ P
    · exact .parameter p hP
    rcases h x (List.mem_singleton_self x) hP with hD | ⟨E, hD, hfree⟩
    · exact .undefined p hP List.not_mem_nil hD
    · exact .selfContained p hP List.not_mem_nil hD hfree
  | paren e p ih => exact .paren p (ih h)
  | arrow x e p ih =>
    refine .arrow x p (ih fun y hy hP => ?_)
    rw [List.mem_cons, not_or] at hP
    exact h y (Expr.mem_free_arrow.2 ⟨hy, hP.1⟩) hP.2
  | call f a p ihf iha =>
    obtain ⟨hf, ha⟩ := List.forall_mem_append.1 h
    exact .call p (ihf hf) (iha ha)
  | unary op e p ih => exact .unary op p (ih h)
  | binary op l r p ihl ihr =>
    obtain ⟨hl, hr⟩ := List.forall_mem_append.1 h
    exact .binary op p (ihl hl) (ihr hr)
  | cond c t e p ihc iht ihe =>
    obtain ⟨hc, h⟩ := List.forall_mem_append.1 h
    obtain ⟨ht, he⟩ := List.forall_mem_append.1 h
    exact .cond p (ihc hc) (iht ht) (ihe he)

end

/-- Expansions are in normal form. Let well-named programs have been run. Every name in an expansion
that is not a parameter of a function around it, that is, every name that occurs free, stands for
nothing at the top level or is self-contained. Marks are among those that stand for nothing. So
expanding the expansion changes nothing. -/
theorem expansion_normal_form (runs : List (Limits × Program))
    (hruns : ∀ run ∈ runs, ∀ s ∈ run.2.statements, s.WellNamed) (e : Expr) :
    let σ := storeAfter runs
    let e' := e.expand σ .global [] []
    (∀ y ∈ e'.free, σ.contains .global y = false ∨ SelfContained σ.definition? y) ∧
      (∀ x, σ.contains .global (cycleMark x) = false) ∧
      e'.expand σ .global [] [] = e' := by
  intro σ e'
  obtain ⟨G, hG, hnames⟩ := (wellNamed_storeAfter runs hruns).declared
  have hcontains : ∀ x, σ.contains .global x = false ↔ σ.definition? x = none := by
    intro x
    rw [hG.contains_iff, Option.isSome_eq_false_iff, Option.isNone_iff_eq_none]
  -- only names of the language were declared
  have hmark : ∀ x, σ.definition? (cycleMark x) = none := by
    intro x
    by_contra hne
    obtain ⟨E, hE⟩ := Option.ne_none_iff_exists'.1 hne
    exact not_isName_cycleMark x (hnames _ E ((hG.definition?_eq _).symm.trans hE)).1
  have hsettled : ∀ y ∈ e'.free, Settled σ.definition? y :=
    fun y hy => (hG.expands e).settled_of_mem_free hmark y hy List.not_mem_nil
  refine ⟨fun y hy => (hsettled y hy).imp_left (hcontains y).2, fun x => (hcontains _).2 (hmark x),
    ?_⟩
  -- the rules lead from the expansion to itself, and nowhere else
  exact (hG.expands e').unique (expands_self fun y hy _ => hsettled y hy)

/-- After `let k = true; let f = !k; let g = z => g(f);`, the expansion of `(k => g(f))(f)` is
`(k => (z => ...g...(!k))(!k))(!k)`. In it `k` is a parameter that has captured two names, and a
self-contained name at the end. -/
theorem expansion_normal_form_captured :
    let name (x : String) := Expr.name x none
    let negation := Expr.unary .not (name "k") none
    let program : Program :=
      ⟨[.declare "k" (.literal (.boolean true) none) none, .declare "f" negation none,
        .declare "g" (.arrow "z" (.call (name "g") (name "f") none) none) none], ""⟩
    let σ := storeAfter [(⟨0, 0⟩, program)]
    let e := Expr.call (.arrow "k" (.call (name "g") (name "f") none) none) (name "f") none
    let e' := e.expand σ .global [] []
    (∀ s ∈ program.statements, s.WellNamed) ∧
      e' = .call (.arrow "k" (.call (.arrow "z" (.call (name "...g...") negation none) none)
        negation none) none) negation none ∧
      e'.free = ["...g...", "k"] ∧ σ.contains .global "k" = true ∧
      SelfContained σ.definition? "k" ∧ σ.contains .global "...g..." = false ∧
      e'.expand σ .global [] [] = e' := by
  intro name negation program σ e e'
  have hnames : ∀ x ∈ ["k", "f", "g"], IsName x := by
    unfold IsName
    decide +kernel
  have hwellNamed : ∀ E : Expr, (∀ x ∈ E.names, x ∈ ["k", "f", "g"]) → E.WellNamed :=
    fun E hE x hx => hnames x (hE x hx)
  have hprogram : ∀ s ∈ program.statements, s.WellNamed := by
    refine List.forall_mem_cons.2 ⟨⟨rfl, hwellNamed _ (by decide)⟩, List.forall_mem_cons.2
      ⟨⟨rfl, hwellNamed _ (by decide)⟩, List.forall_mem_cons.2 ⟨?_, by simp⟩⟩⟩
    exact ⟨rfl, hwellNamed _ (by decide)⟩
  obtain ⟨hsettled, hmark, htwice⟩ := expansion_normal_form [(⟨0, 0⟩, program)]
    (by simpa using hprogram) e
  have hfree : e'.free = ["...g...", "k"] := by decide +kernel
  have hk : σ.contains .global "k" = true := by decide +kernel
  refine ⟨hprogram, by decide +kernel, hfree, hk, ?_, hmark "g", htwice⟩
  refine (hsettled "k" ?_).resolve_left (by rw [hk]; decide)
  rw [hfree]
  exact List.mem_cons_of_mem _ List.mem_cons_self

end CallByNeed
