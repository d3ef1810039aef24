import CallByNeed.Proofs.ExpansionRules

/-!
# Names that expansion captures

A self-contained name stays a name in an expansion, and is meant to be the one of the top level. It
is, if no function around it has it as its parameter. But definitions are put in the place of their
names as they are, and so a function around the replaced name captures what occurs free in its
definition.

Which defined names occur free in an expansion is said exactly (`Expands.mem_free_iff`): the
self-contained ones that are reached from the expression by occurrences outside of all functions
with that parameter. A name that is no parameter of the expression, nor of any definition that is
reached from it, is therefore never captured (`expansion_free_names`), and any other one may be
(`expansion_captures_parameter`).
-/

namespace CallByNeed

open Relation

section

variable (D : String → Option Expr)

/-- The third name occurs free in what the second one is defined as, outside of functions whose
parameter is the first one. -/
def MentionsOutside (y x z : String) : Prop :=
  ∃ E, D x = some E ∧ z ∈ E.freeOutside y

/-- Some of the names lead to `y`, by occurrences outside of functions with this parameter. -/
def LeadsOutside (y : String) (xs : List String) : Prop :=
  ∃ x ∈ xs, ReflTransGen (MentionsOutside D y) x y

/-- The name is a parameter of the expression, or of a definition that is reached from it. -/
def Expr.ReachesParameter (e : Expr) (y : String) : Prop :=
  y ∈ e.parameters ∨ ∃ x E, e.Reaches D x ∧ D x = some E ∧ y ∈ E.parameters

end

section

variable {D : String → Option Expr} {y : String}

/-- One of several names leads outside if it does in one part of the list. -/
theorem leadsOutside_append {xs zs : List String} :
    LeadsOutside D y (xs ++ zs) ↔ LeadsOutside D y xs ∨ LeadsOutside D y zs := by
  simp only [LeadsOutside, List.mem_append, or_and_right, exists_or]

/-- One name leads to another one by itself, or by the names in its definition. -/
theorem leadsOutside_singleton {x : String} {E : Expr} (hx : D x = some E) :
    LeadsOutside D y [x] ↔ x = y ∨ LeadsOutside D y (E.freeOutside y) := by
  constructor
  · rintro ⟨z, hz, hpath⟩
    obtain rfl := List.mem_singleton.1 hz
    rcases hpath.cases_head with rfl | ⟨w, ⟨F, hF, hw⟩, hpath⟩
    · exact .inl rfl
    · cases hx.symm.trans hF
      exact .inr ⟨w, hw, hpath⟩
  · rintro (rfl | ⟨z, hz, hpath⟩)
    · exact ⟨x, List.mem_singleton_self x, .refl⟩
    · exact ⟨x, List.mem_singleton_self x, .head ⟨E, hx, hz⟩ hpath⟩

/-- Names that are not defined lead to no name that is. -/
theorem not_leadsOutside {xs : List String} (hy : SelfContained D y)
    (hxs : ∀ x ∈ xs, D x = none) : ¬LeadsOutside D y xs := by
  obtain ⟨F, hF, -⟩ := hy
  rintro ⟨x, hx, hpath⟩
  rcases hpath.cases_head with rfl | ⟨z, ⟨E, hE, -⟩, -⟩
  · cases (hxs _ hx).symm.trans hF
  · cases (hxs x hx).symm.trans hE

/-- What parts of an expression lead to, they lead to together. -/
theorem mem_free_iff_append {P as bs cs ds : List String}
    (has : (y ∈ as ∧ ∃ F, D y = some F) ↔
      SelfContained D y ∧ LeadsOutside D y (cs.filter (· ∉ P)))
    (hbs : (y ∈ bs ∧ ∃ F, D y = some F) ↔
      SelfContained D y ∧ LeadsOutside D y (ds.filter (· ∉ P))) :
    (y ∈ as ++ bs ∧ ∃ F, D y = some F) ↔
      SelfContained D y ∧ LeadsOutside D y ((cs ++ ds).filter (· ∉ P)) := by
  rw [List.mem_append, or_and_right, has, hbs, List.filter_append, leadsOutside_append, and_or_left]

/-- Which defined names occur free in an expansion without marks: the self-contained ones that are
reached outside of functions with that parameter. -/
theorem Expands.mem_free_iff {X P : List String} {e e' : Expr} (h : Expands D X P e e')
    (hmark : e'.Unmarked) (hy : y ∉ P) :
    (y ∈ e'.free ∧ ∃ F, D y = some F) ↔
      SelfContained D y ∧ LeadsOutside D y ((e.freeOutside y).filter (· ∉ P)) := by
  induction h with
  | literal c p => simp [Expr.free, Expr.freeOutside, LeadsOutside]
  | @parameter X P x p hx =>
    have hne : y ≠ x := fun h => hy (h ▸ hx)
    simp [Expr.free, Expr.freeOutside, LeadsOutside, hx, hne]
  | @cycle X P x p hx hX => exact absurd (List.mem_singleton_self _) (hmark x)
  | @undefined X P x p hx hX hD =>
    constructor
    · rintro ⟨hmem, F, hF⟩
      obtain rfl := List.mem_singleton.1 hmem
      cases hD.symm.trans hF
    · rintro ⟨hcontained, hleads⟩
      refine absurd hleads (not_leadsOutside hcontained fun z hz => ?_)
      obtain rfl := List.mem_singleton.1 (List.mem_filter.1 hz).1
      exact hD
  | @selfContained X P x E p hx hX hD hfree =>
    have hfilter : ((Expr.name x p).freeOutside y).filter (· ∉ P) = [x] := by
      simp [Expr.freeOutside, hx]
    rw [hfilter, leadsOutside_singleton hD]
    constructor
    · rintro ⟨hmem, -⟩
      obtain rfl := List.mem_singleton.1 hmem
      exact ⟨⟨E, hD, hfree⟩, .inl rfl⟩
    · rintro ⟨hcontained, rfl | hleads⟩
      · exact ⟨List.mem_singleton_self x, E, hD⟩
      · -- the definition leads to nothing that is defined
        exact absurd hleads (not_leadsOutside hcontained fun z hz =>
          hfree z (Expr.free_of_freeOutside hz))
  | @inline X P x z E E' F p hx hX hD hz hF _ ih =>
    have hfilter : ((Expr.name x p).freeOutside y).filter (· ∉ P) = [x] := by
      simp [Expr.freeOutside, hx]
    have hall : (E.freeOutside y).filter (· ∉ []) = E.freeOutside y := by simp
    rw [hfilter, leadsOutside_singleton hD, ih hmark List.not_mem_nil, hall]
    refine and_congr_right fun hcontained => (or_iff_right ?_).symm
    -- a name that is replaced is not self-contained
    rintro rfl
    obtain ⟨E₁, hE₁, hfree⟩ := hcontained
    cases hD.symm.trans hE₁
    cases (hfree z hz).symm.trans hF
  | paren p _ ih => exact ih hmark hy
  | @arrow X P e e' x p _ ih =>
    by_cases hxy : x = y
    · -- here the name is captured, and nothing inside counts
      subst hxy
      simp [Expr.free, Expr.freeOutside, LeadsOutside]
    have hfree : y ∈ (Expr.arrow x e' p).free ↔ y ∈ e'.free := by
      rw [Expr.mem_free_arrow]
      exact and_iff_left (Ne.symm hxy)
    have hfilter : ((Expr.arrow x e p).freeOutside y).filter (· ∉ P) =
        (e.freeOutside y).filter (· ∉ x :: P) := by
      rw [Expr.freeOutside, if_neg hxy, List.filter_filter]
      congr 1
      funext z
      by_cases hz : z = x <;> simp [hz]
    rw [hfree, hfilter]
    exact ih hmark (by simp [Ne.symm hxy, hy])
  | call p _ _ ihf iha =>
    exact mem_free_iff_append (ihf hmark.call.1 hy) (iha hmark.call.2 hy)
  | unary op p _ ih => exact ih hmark hy
  | binary op p _ _ ihl ihr =>
    exact mem_free_iff_append (ihl hmark.binary.1 hy) (ihr hmark.binary.2 hy)
  | cond p _ _ _ ihc iht ihe =>
    exact mem_free_iff_append (ihc hmark.cond.1 hy)
      (mem_free_iff_append (iht hmark.cond.2.1 hy) (ihe hmark.cond.2.2 hy))

/-- A parameter of an expansion is one of the expression, or of a definition that is reached from
the names in it that are replaced. -/
theorem Expands.not_mem_parameters {X P : List String} {e e' : Expr} (h : Expands D X P e e')
    (he : y ∉ e.parameters)
    (hdefinitions : ∀ z ∈ e.free, z ∉ P → ∀ x E, ReflTransGen (Mentions D) z x → D x = some E →
      y ∉ E.parameters) : y ∉ e'.parameters := by
  induction h with
  | literal | parameter | cycle | undefined | selfContained => exact List.not_mem_nil
  | @inline X P x z E E' F p hx _ hD _ _ _ ih =>
    have hname := hdefinitions x (List.mem_singleton_self x) hx
    refine ih (hname x E .refl hD) fun w hw _ x' E₁ hpath => ?_
    -- what is reached from the definition is reached from its name
    exact hname x' E₁ (.head ⟨E, hD, hw⟩ hpath)
  | paren p _ ih => exact ih he hdefinitions
  | @arrow X P e e' x p _ ih =>
    rw [Expr.parameters, List.mem_cons, not_or] at he ⊢
    refine ⟨he.1, ih he.2 fun z hz hP => ?_⟩
    rw [List.mem_cons, not_or] at hP
    exact hdefinitions z (Expr.mem_free_arrow.2 ⟨hz, hP.1⟩) hP.2
  | call p _ _ ihf iha =>
    rw [Expr.parameters, List.mem_append, not_or] at he ⊢
    exact ⟨ihf he.1 fun z hz => hdefinitions z (List.mem_append_left _ hz),
      iha he.2 fun z hz => hdefinitions z (List.mem_append_right _ hz)⟩
  | unary op p _ ih => exact ih he hdefinitions
  | binary op p _ _ ihl ihr =>
    rw [Expr.parameters, List.mem_append, not_or] at he ⊢
    exact ⟨ihl he.1 fun z hz => hdefinitions z (List.mem_append_left _ hz),
      ihr he.2 fun z hz => hdefinitions z (List.mem_append_right _ hz)⟩
  | cond p _ _ _ ihc iht ihe =>
    rw [Expr.parameters, List.mem_append, List.mem_append, not_or, not_or] at he ⊢
    exact ⟨ihc he.1 fun z hz => hdefinitions z (List.mem_append_left _ hz),
      iht he.2.1 fun z hz =>
        hdefinitions z (List.mem_append_right _ (List.mem_append_left _ hz)),
      ihe he.2.2 fun z hz =>
        hdefinitions z (List.mem_append_right _ (List.mem_append_right _ hz))⟩

/-- A name that is no parameter on the way is reached outside of functions with that parameter. -/
theorem Expr.Reaches.leadsOutside {e : Expr} (h : e.Reaches D y)
    (hparameter : ¬e.ReachesParameter D y) : LeadsOutside D y (e.freeOutside y) := by
  obtain ⟨x, hx, hpath⟩ := h
  rw [Expr.ReachesParameter, not_or, not_exists] at hparameter
  obtain ⟨he, hdefinitions⟩ := hparameter
  refine ⟨x, by rwa [Expr.freeOutside_eq_free he], ?_⟩
  -- along the path, every definition is one that is reached from the expression
  have hreaches : ∀ z, ReflTransGen (Mentions D) x z → e.Reaches D z := fun z hz => ⟨x, hx, hz⟩
  have hall : ∀ z, ReflTransGen (Mentions D) x z → ReflTransGen (MentionsOutside D y) x z := by
    intro z hz
    induction hz with
    | refl => exact .refl
    | @tail z w hz hw ih =>
      obtain ⟨E, hE, hw⟩ := hw
      refine ih.tail ⟨E, hE, ?_⟩
      rw [Expr.freeOutside_eq_free fun hy => hdefinitions z ⟨E, hreaches z hz, hE, hy⟩]
      exact hw
  exact hall y hpath

/-- What is reached outside of some functions is reached. -/
theorem LeadsOutside.reaches {e : Expr} (h : LeadsOutside D y (e.freeOutside y)) :
    e.Reaches D y := by
  obtain ⟨x, hx, hpath⟩ := h
  refine ⟨x, Expr.free_of_freeOutside hx, ReflTransGen.mono ?_ _ _ hpath⟩
  rintro _ _ ⟨E, hE, hz⟩
  exact ⟨E, hE, Expr.free_of_freeOutside hz⟩

end

/-- Which names of the top level occur free in an expansion. After declarations in a fresh
environment, and if no name of the expansion had to be marked, these are the self-contained ones
that are reached from the expression by occurrences outside of all functions that have the name as
their parameter. So a name that is no parameter of the expression, nor of any definition that is
reached from it, occurs free exactly if it is self-contained and is reached at all; and then it is
no parameter of the expansion either, so that nothing captures it. -/
theorem expansion_free_names (force : Value → Eval Object) (declarations : List Statement)
    (hdeclarations : ∀ s ∈ declarations, s.isDeclaration = true) (e : Expr) :
    let σ := (execute force .global declarations .empty).store
    let e' := e.expand σ .global [] []
    e'.Unmarked → ∀ y,
      (y ∈ e'.free ∧ σ.contains .global y = true ↔
        SelfContained σ.definition? y ∧ LeadsOutside σ.definition? y (e.freeOutside y)) ∧
      (¬e.ReachesParameter σ.definition? y →
        (y ∈ e'.free ∧ σ.contains .global y = true ↔
          SelfContained σ.definition? y ∧ e.Reaches σ.definition? y) ∧
        y ∉ e'.parameters) := by
  intro σ e' hmark y
  obtain ⟨G, hσ, -⟩ := exists_sound_of_declarations force hdeclarations .empty fun _ => rfl
  have hexpands : Expands σ.definition? [] [] e e' := hσ.declares.expands e
  have hfree : y ∈ e'.free ∧ σ.contains .global y = true ↔
      SelfContained σ.definition? y ∧ LeadsOutside σ.definition? y (e.freeOutside y) := by
    have hfilter : (e.freeOutside y).filter (· ∉ []) = e.freeOutside y := by simp
    rw [hσ.declares.contains_iff, Option.isSome_iff_exists,
      hexpands.mem_free_iff hmark List.not_mem_nil, hfilter]
  refine ⟨hfree, fun hparameter => ⟨?_, ?_⟩⟩
  · rw [hfree]
    exact and_congr_right fun _ => ⟨fun h => h.reaches, fun h => h.leadsOutside hparameter⟩
  · rw [Expr.ReachesParameter, not_or] at hparameter
    refine hexpands.not_mem_parameters hparameter.1 fun z hz _ x E hpath hE hy => ?_
    exact hparameter.2 ⟨x, E, ⟨z, hz, hpath⟩, hE, hy⟩

/-- After `let k = true; let f = x => k === x`, the expansion `y => (x => k === x)(y)` of
`y => f(y)` has `k` free, and `k` is no parameter in it. -/
theorem expansion_free_names_kept :
    let name (x : String) := Expr.name x none
    let declarations : List Statement :=
      [.declare "k" (.literal (.boolean true) none) none,
        .declare "f" (.arrow "x" (.binary .equal (name "k") (name "x") none) none) none]
    let σ := (execute (Limits.force ⟨0, 0⟩) .global declarations .empty).store
    let e := Expr.arrow "y" (.call (name "f") (name "y") none) none
    let e' := e.expand σ .global [] []
    (∀ s ∈ declarations, s.isDeclaration = true) ∧ e'.Unmarked ∧
      ¬e.ReachesParameter σ.definition? "k" ∧ "k" ∈ e'.free ∧ σ.contains .global "k" = true ∧
      SelfContained σ.definition? "k" ∧ e.Reaches σ.definition? "k" ∧ "k" ∉ e'.parameters := by
  intro name declarations σ e e'
  have hdeclarations : ∀ s ∈ declarations, s.isDeclaration = true := by decide
  have hmark : e'.Unmarked := Expr.unmarked_of_head (by decide +kernel)
  have hparameters : ∀ x ∈ (σ.frame 0).names, ∀ E ∈ σ.definition? x, "k" ∉ E.parameters := by
    decide +kernel
  have hparameter : ¬e.ReachesParameter σ.definition? "k" := by
    rintro (he | ⟨x, E, -, hE, hk⟩)
    · exact absurd he (by decide)
    · exact hparameters x (Store.mem_names_of_definition? hE) E hE hk
  obtain ⟨-, hkept⟩ :=
    expansion_free_names (Limits.force ⟨0, 0⟩) declarations hdeclarations e hmark "k"
  obtain ⟨hiff, hbound⟩ := hkept hparameter
  have hfree : "k" ∈ e'.free ∧ σ.contains .global "k" = true := by decide +kernel
  exact ⟨hdeclarations, hmark, hparameter, hfree.1, hfree.2, (hiff.1 hfree).1, (hiff.1 hfree).2,
    hbound⟩

/-- After `let k = true; let f = !k`, the name `k` is self-contained and is reached from `k => f`,
but in the expansion `k => !k` it is the parameter. -/
theorem expansion_captures_parameter :
    let name (x : String) := Expr.name x none
    let declarations : List Statement :=
      [.declare "k" (.literal (.boolean true) none) none,
        .declare "f" (.unary .not (name "k") none) none]
    let σ := (execute (Limits.force ⟨0, 0⟩) .global declarations .empty).store
    let e := Expr.arrow "k" (name "f") none
    let e' := e.expand σ .global [] []
    e' = .arrow "k" (.unary .not (name "k") none) none ∧ e'.Unmarked ∧
      σ.contains .global "k" = true ∧ SelfContained σ.definition? "k" ∧
      e.Reaches σ.definition? "k" ∧ "k" ∉ e'.free := by
  intro name declarations σ e e'
  have hf : σ.definition? "f" = some (.unary .not (name "k") none) := by decide +kernel
  have hk : σ.definition? "k" = some (.literal (.boolean true) none) := by decide +kernel
  refine ⟨by decide +kernel, Expr.unmarked_of_head (by decide +kernel), by decide +kernel,
    ⟨_, hk, fun _ hy => nomatch hy⟩, ⟨"f", by decide, .single ⟨_, hf, ?_⟩⟩, by decide +kernel⟩
  exact List.mem_singleton_self "k"

end CallByNeed
