import CallByNeed.Proofs.FreeNames
import CallByNeed.Proofs.NeedByName
import Mathlib.Logic.Relation

/-!
# The rules of expansion

What an expression expands to is said here by rules (`Expands`), over what the names of the top
level are defined as. Expansion at the top level follows these rules, however many names are
replaced inside each other (`Store.Declares.expands`), so that what holds of expansions can be shown
by induction on them. The rules leave no choice (`Expands.unique`).

Definitions mention each other. `Mentions` is one step from a name to a name that occurs free in its
definition, and the *self-contained* names (`SelfContained`) are those from which no step leads to a
name that is defined.
-/

namespace CallByNeed

/-- What a name of the top level is defined as. -/
def Store.definition? (σ : Store) (x : String) : Option Expr :=
  match σ.lookup .global x with
  | some (.thunk a) => some (σ.cell a).expr
  | _ => none

/-- Whether a statement is a declaration. -/
def Statement.isDeclaration : Statement → Bool
  | declare _ _ _ => true
  | output _ _ _ => false

section

variable {G : Globals} {σ : Store}

/-- Only names that the top level binds are defined. -/
theorem Store.mem_names_of_definition? {x : String} {E : Expr} (h : σ.definition? x = some E) :
    x ∈ (σ.frame 0).names := by
  by_contra hx
  -- the top level has no other frame around it in which the name could be found
  have hnone : (σ.frame 0).lookup x = none := by
    refine List.lookup_eq_none_iff.2 fun b hb => ?_
    rw [bne_iff_ne]
    rintro rfl
    exact hx (List.mem_map_of_mem hb)
  simp [Store.definition?, Store.lookup, Store.binding?, Env.global, Env.frames, hnone] at h

/-- The definition of a name is the expression that was declared for it. -/
theorem Store.Declares.definition?_eq (h : σ.Declares G) (x : String) :
    σ.definition? x = G.lookup x := by
  have hx := h.lookup_global x
  unfold Store.definition?
  generalize G.lookup x = e at hx ⊢
  generalize σ.lookup .global x = v at hx ⊢
  cases hx with
  | none => rfl
  | some hv =>
    obtain ⟨a, rfl, rfl, -⟩ := hv
    rfl

/-- The names that stand for something at the top level are those that are defined. -/
theorem Store.Declares.contains_iff (h : σ.Declares G) (x : String) :
    σ.contains .global x = (σ.definition? x).isSome := by
  have hx := h.lookup_global x
  rw [h.definition?_eq, Store.contains]
  generalize G.lookup x = e at hx ⊢
  generalize σ.lookup .global x = v at hx ⊢
  cases hx <;> rfl

/-- Declarations leave a sound store in which nothing is being evaluated. -/
theorem exists_sound_of_declarations (force : Value → Eval Object) {ss : List Statement}
    (hss : ∀ s ∈ ss, s.isDeclaration = true) (hσ : Sound G σ)
    (hidle : ∀ a, (σ.cell a).busy = false) :
    ∃ G', Sound G' (execute force .global ss σ).store ∧
      (∀ a, ((execute force .global ss σ).store.cell a).busy = false) := by
  induction ss generalizing G σ with
  | nil => exact ⟨G, hσ, hidle⟩
  | cons s ss ih =>
    obtain ⟨hs, hrest⟩ := List.forall_mem_cons.1 hss
    rcases s with ⟨x, e, place⟩ | ⟨o, e, place⟩
    · cases hx : G.lookup x with
      | some e' =>
        -- a name that is taken ends the run
        rw [execute_cons_of_error (execute_declare_of_some hσ hx force e place)]
        exact ⟨G, hσ, hidle⟩
      | none =>
        obtain ⟨σ', hs', hσ', hbusy⟩ := execute_declare_of_none hσ hx force e place
        rw [execute_cons_of_ok hs']
        exact ih hrest hσ' fun a => (hbusy a).trans (hidle a)
    · cases hs

end

/-! ## Rules -/

/-- The second expression is what the first one expands to, by what names are defined as. The
arguments are, in order, the definitions, the names that are being replaced around the expression,
and the parameters of the functions around it. -/
inductive Expands (D : String → Option Expr) : List String → List String → Expr → Expr → Prop where
  | literal {X P : List String} (c : Constant) (p : Option Location) :
      Expands D X P (.literal c p) (.literal c p)
  /-- Parameters stay. -/
  | parameter {X P : List String} {x : String} (p : Option Location) :
      x ∈ P → Expands D X P (.name x p) (.name x p)
  /-- A name within its own expansion is marked. -/
  | cycle {X P : List String} {x : String} (p : Option Location) :
      x ∉ P → x ∈ X → Expands D X P (.name x p) (.name (cycleMark x) p)
  /-- A name that stands for nothing stays. -/
  | undefined {X P : List String} {x : String} (p : Option Location) :
      x ∉ P → x ∉ X → D x = none → Expands D X P (.name x p) (.name x p)
  /-- A name that is defined without other defined names stays. -/
  | selfContained {X P : List String} {x : String} {E : Expr} (p : Option Location) :
      x ∉ P → x ∉ X → D x = some E → (∀ y ∈ E.free, D y = none) →
      Expands D X P (.name x p) (.name x p)
  /-- Any other name is replaced. What it is replaced by is expanded as it was written, regardless
  of the parameters at the place where the name was found. -/
  | inline {X P : List String} {x y : String} {E E' F : Expr} (p : Option Location) :
      x ∉ P → x ∉ X → D x = some E → y ∈ E.free → D y = some F → Expands D (x :: X) [] E E' →
      Expands D X P (.name x p) E'
  | paren {X P : List String} {e e' : Expr} (p : Option Location) :
      Expands D X P e e' → Expands D X P (.paren e p) (.paren e' p)
  | arrow {X P : List String} {e e' : Expr} (x : String) (p : Option Location) :
      Expands D X (x :: P) e e' → Expands D X P (.arrow x e p) (.arrow x e' p)
  | call {X P : List String} {f f' a a' : Expr} (p : Option Location) :
      Expands D X P f f' → Expands D X P a a' → Expands D X P (.call f a p) (.call f' a' p)
  | unary {X P : List String} {e e' : Expr} (op : UnaryOp) (p : Option Location) :
      Expands D X P e e' → Expands D X P (.unary op e p) (.unary op e' p)
  | binary {X P : List String} {l l' r r' : Expr} (op : BinaryOp) (p : Option Location) :
      Expands D X P l l' → Expands D X P r r' →
      Expands D X P (.binary op l r p) (.binary op l' r' p)
  | cond {X P : List String} {c c' t t' e e' : Expr} (p : Option Location) :
      Expands D X P c c' → Expands D X P t t' → Expands D X P e e' →
      Expands D X P (.cond c t e p) (.cond c' t' e' p)

/-- An expression expands to one expression only. -/
theorem Expands.unique {D : String → Option Expr} {X P : List String} {e e₁ e₂ : Expr}
    (h₁ : Expands D X P e e₁) (h₂ : Expands D X P e e₂) : e₁ = e₂ := by
  -- only the rules for a name overlap in their form; their side conditions tell them apart, and
  -- those that may hold together leave the name as it is
  induction h₁ generalizing e₂ with
  | literal c p =>
    cases h₂
    rfl
  | parameter p hP =>
    cases h₂ with
    | parameter => rfl
    | cycle _ hP' => exact absurd hP hP'
    | undefined _ hP' => exact absurd hP hP'
    | selfContained _ hP' => exact absurd hP hP'
    | inline _ hP' => exact absurd hP hP'
  | cycle p hP hX =>
    cases h₂ with
    | parameter _ hP' => exact absurd hP' hP
    | cycle => rfl
    | undefined _ _ hX' => exact absurd hX hX'
    | selfContained _ _ hX' => exact absurd hX hX'
    | inline _ _ hX' => exact absurd hX hX'
  | undefined p hP hX hD =>
    cases h₂ with
    | parameter => rfl
    | cycle _ _ hX' => exact absurd hX' hX
    | undefined => rfl
    | selfContained => rfl
    | inline _ _ _ hD' => cases hD.symm.trans hD'
  | selfContained p hP hX hD hfree =>
    cases h₂ with
    | parameter => rfl
    | cycle _ _ hX' => exact absurd hX' hX
    | undefined => rfl
    | selfContained => rfl
    | inline _ _ _ hD' hy hF =>
      cases hD.symm.trans hD'
      cases (hfree _ hy).symm.trans hF
  | inline p hP hX hD hy hF _ ih =>
    cases h₂ with
    | parameter _ hP' => exact absurd hP' hP
    | cycle _ _ hX' => exact absurd hX' hX
    | undefined _ _ _ hD' => cases hD.symm.trans hD'
    | selfContained _ _ _ hD' hfree =>
      cases hD.symm.trans hD'
      cases (hfree _ hy).symm.trans hF
    | inline _ _ _ hD' _ _ hE =>
      cases hD.symm.trans hD'
      exact ih hE
  | paren p _ ih =>
    cases h₂ with
    | paren _ h => rw [ih h]
  | arrow x p _ ih =>
    cases h₂ with
    | arrow _ _ h => rw [ih h]
  | call p _ _ ihf iha =>
    cases h₂ with
    | call _ hf ha => rw [ihf hf, iha ha]
  | unary op p _ ih =>
    cases h₂ with
    | unary _ _ h => rw [ih h]
  | binary op p _ _ ihl ihr =>
    cases h₂ with
    | binary _ _ hl hr => rw [ihl hl, ihr hr]
  | cond p _ _ _ ihc iht ihe =>
    cases h₂ with
    | cond _ hc ht he => rw [ihc hc, iht ht, ihe he]

namespace Store.Declares

variable {G : Globals} {σ : Store}

/-- A definition mentions a bound name if and only if a name that is defined occurs free in it. -/
theorem references_iff (h : σ.Declares G) (E : Expr) :
    E.references σ .global [] = true ↔ ∃ y ∈ E.free, ∃ F, σ.definition? y = some F := by
  simp only [Expr.references_iff, List.not_mem_nil, not_false_eq_true, true_and, h.contains_iff,
    Option.isSome_iff_exists]

/-- Names are replaced by the rules, if what they are replaced by is expanded by the rules. -/
theorem expands_expandWith (h : σ.Declares G) {inline : String → Env → Expr → Expr}
    {expanding : List String}
    (hinline : ∀ x E, σ.definition? x = some E → x ∉ expanding →
      Expands σ.definition? (x :: expanding) [] E (inline x .global E))
    (params : List String) (e : Expr) :
    Expands σ.definition? expanding params e
      (e.expandWith σ inline .global expanding params) := by
  induction e generalizing params with
  | literal c p => exact .literal c p
  | name x p =>
    simp only [Expr.expandWith, List.contains_iff_mem]
    by_cases hparams : x ∈ params
    · rw [if_pos hparams]
      exact .parameter p hparams
    rw [if_neg hparams]
    by_cases hexpanding : x ∈ expanding
    · rw [if_pos hexpanding]
      exact .cycle p hparams hexpanding
    rw [if_neg hexpanding]
    have hx := h.lookup_global x
    rw [← h.definition?_eq] at hx
    generalize hG : σ.definition? x = E at hx
    generalize σ.lookup .global x = v at hx ⊢
    cases hx with
    | none => exact .undefined p hparams hexpanding hG
    | @some _ E ha =>
      obtain ⟨a, rfl, hexpr, henv⟩ := ha
      dsimp only
      rw [hexpr, henv]
      by_cases hreferences : E.references σ .global [] = true
      · -- the definition mentions a name that is defined, so it takes the place of its name
        rw [if_pos hreferences]
        obtain ⟨y, hy, F, hF⟩ := (h.references_iff E).1 hreferences
        exact .inline p hparams hexpanding hG hy hF (hinline x E hG hexpanding)
      · rw [if_neg hreferences]
        refine .selfContained p hparams hexpanding hG fun y hy => ?_
        by_contra hne
        obtain ⟨F, hF⟩ := Option.ne_none_iff_exists'.1 hne
        exact hreferences ((h.references_iff E).2 ⟨y, hy, F, hF⟩)
  | paren e p ih => exact .paren p (ih params)
  | arrow x e p ih => exact .arrow x p (ih (x :: params))
  | call f a p ihf iha => exact .call p (ihf params) (iha params)
  | unary op e p ih => exact .unary op p (ih params)
  | binary op l r p ihl ihr => exact .binary op p (ihl params) (ihr params)
  | cond c t e p ihc iht ihe => exact .cond p (ihc params) (iht params) (ihe params)

/-- With fuel for all names that are not being replaced yet, expansion follows the rules. -/
theorem expands_expandBy (h : σ.Declares G) {fuel : ℕ} {expanding : List String}
    (hfuel : unexpanded G expanding < fuel) (params : List String) (e : Expr) :
    Expands σ.definition? expanding params e (e.expandBy σ fuel .global expanding params) := by
  induction fuel generalizing expanding params e with
  | zero => exact absurd hfuel (Nat.not_lt_zero _)
  | succ fuel ih =>
    refine h.expands_expandWith (fun x E hx hexpanding => ?_) params e
    -- inside the replaced name there is one name less to replace
    rw [h.definition?_eq] at hx
    have hcontains : expanding.contains x = false := by simpa using hexpanding
    have hlt := unexpanded_cons_lt hx hcontains
    exact ih (hlt.trans_le (Nat.le_of_lt_succ hfuel)) [] E

/-- Expansion at the top level follows the rules. -/
theorem expands (h : σ.Declares G) (e : Expr) :
    Expands σ.definition? [] [] e (e.expand σ .global [] []) := by
  have hle : unexpanded G [] ≤ G.length := List.countP_le_length
  exact h.expands_expandBy (Nat.lt_succ_of_le (hle.trans h.length_le_bindingCount)) [] e

end Store.Declares

/-! ## Definitions that mention each other -/

section

variable (D : String → Option Expr)

/-- The second name occurs free in what the first one is defined as. -/
def Mentions (x y : String) : Prop :=
  ∃ E, D x = some E ∧ y ∈ E.free

/-- The name occurs free in the expression, or in what such a name is defined as, and so on. -/
def Expr.Reaches (e : Expr) (y : String) : Prop :=
  ∃ x ∈ e.free, Relation.ReflTransGen (Mentions D) x y

/-- The name is defined, and without other names that are. -/
def SelfContained (x : String) : Prop :=
  ∃ E, D x = some E ∧ ∀ y ∈ E.free, D y = none

end

end CallByNeed
