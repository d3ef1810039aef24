import CallByNeed.Proofs.ExpansionRules
import CallByNeed.Proofs.ScopeRules

/-!
# Expanding an expression keeps its value

An expansion puts definitions in the place of their names (`Inlines`). Where a name has been
replaced, its definition is evaluated among the parameters of the functions around it, instead of at
the top level. That makes no difference, if none of these parameters is a name of the top level:
such a parameter is not looked up by the definition, unless the definition has no value of its own.

The values of an expression and of its expansion are compared by name, where nothing is shared
(`Gives.inlines`). Evaluation by need agrees with evaluation by name, and so an expression that has
a value by need has the same value when it is expanded (`expansion_keeps_value`).
-/

namespace CallByNeed

/-- The second expression is the first one with definitions in the place of some of their names, and
in the place of names in those, and so on. The functions on the way have parameters of a certain
kind only. -/
inductive Inlines (D : String → Option Expr) (B : String → Prop) : Expr → Expr → Prop where
  | literal (c : Constant) (p : Option Location) : Inlines D B (.literal c p) (.literal c p)
  | name (x : String) (p : Option Location) : Inlines D B (.name x p) (.name x p)
  | inline {x : String} {E E' : Expr} (p : Option Location) :
      D x = some E → Inlines D B E E' → Inlines D B (.name x p) E'
  | paren {e e' : Expr} (p : Option Location) :
      Inlines D B e e' → Inlines D B (.paren e p) (.paren e' p)
  | arrow {x : String} {e e' : Expr} (p : Option Location) :
      B x → Inlines D B e e' → Inlines D B (.arrow x e p) (.arrow x e' p)
  | call {f f' a a' : Expr} (p : Option Location) :
      Inlines D B f f' → Inlines D B a a' → Inlines D B (.call f a p) (.call f' a' p)
  | unary {e e' : Expr} (op : UnaryOp) (p : Option Location) :
      Inlines D B e e' → Inlines D B (.unary op e p) (.unary op e' p)
  | binary {l l' r r' : Expr} (op : BinaryOp) (p : Option Location) :
      Inlines D B l l' → Inlines D B r r' → Inlines D B (.binary op l r p) (.binary op l' r' p)
  | cond {c c' t t' e e' : Expr} (p : Option Location) :
      Inlines D B c c' → Inlines D B t t' → Inlines D B e e' →
      Inlines D B (.cond c t e p) (.cond c' t' e' p)

section

variable {D : String → Option Expr} {B : String → Prop}

/-- Nothing need be inlined. -/
theorem Inlines.refl {e : Expr} (h : ∀ x ∈ e.parameters, B x) : Inlines D B e e := by
  induction e with
  | literal c p => exact .literal c p
  | name x p => exact .name x p
  | paren e p ih => exact .paren p (ih h)
  | arrow x e p ih =>
    rw [Expr.parameters, List.forall_mem_cons] at h
    exact .arrow p h.1 (ih h.2)
  | call f a p ihf iha =>
    rw [Expr.parameters, List.forall_mem_append] at h
    exact .call p (ihf h.1) (iha h.2)
  | unary op e p ih => exact .unary op p (ih h)
  | binary op l r p ihl ihr =>
    rw [Expr.parameters, List.forall_mem_append] at h
    exact .binary op p (ihl h.1) (ihr h.2)
  | cond c t e p ihc iht ihe =>
    rw [Expr.parameters, List.forall_mem_append, List.forall_mem_append] at h
    exact .cond p (ihc h.1) (iht h.2.1) (ihe h.2.2)

/-- An expansion without marks puts definitions in the place of their names. -/
theorem Expands.inlines {X P : List String} {e e' : Expr} (h : Expands D X P e e')
    (hmark : e'.Unmarked) (he : ∀ x ∈ e.parameters, B x)
    (hD : ∀ x E, D x = some E → ∀ y ∈ E.parameters, B y) : Inlines D B e e' := by
  induction h with
  | literal c p => exact .literal c p
  | parameter p | undefined p | selfContained p => exact .name _ p
  | cycle p => exact absurd (List.mem_singleton_self _) (hmark _)
  | inline p _ _ hx _ _ _ ih => exact .inline p hx (ih hmark (hD _ _ hx))
  | paren p _ ih => exact .paren p (ih hmark he)
  | arrow x p _ ih =>
    rw [Expr.parameters, List.forall_mem_cons] at he
    exact .arrow p he.1 (ih hmark he.2)
  | call p _ _ ihf iha =>
    rw [Expr.parameters, List.forall_mem_append] at he
    exact .call p (ihf hmark.call.1 he.1) (iha hmark.call.2 he.2)
  | unary op p _ ih => exact .unary op p (ih hmark he)
  | binary op p _ _ ihl ihr =>
    rw [Expr.parameters, List.forall_mem_append] at he
    exact .binary op p (ihl hmark.binary.1 he.1) (ihr hmark.binary.2 he.2)
  | cond p _ _ _ ihc iht ihe =>
    rw [Expr.parameters, List.forall_mem_append, List.forall_mem_append] at he
    exact .cond p (ihc hmark.cond.1 he.1) (iht hmark.cond.2.1 he.2.1) (ihe hmark.cond.2.2 he.2.2)

end

/-! ## Scopes -/

namespace Scope

/-- The expression that a parameter stands for, and its scope. -/
def parameter? : Scope → String → Option (Expr × Scope)
  | top, _ => none
  | inner x e s outer, y => if y == x then some (e, s) else outer.parameter? y

/-- A parameter comes before a declaration of the same name. -/
theorem find?_of_some {G : Globals} {s : Scope} {x : String} {q : Expr × Scope}
    (h : s.parameter? x = some q) : s.find? G x = some q := by
  induction s with
  | top => cases h
  | inner y e t outer _ ih =>
    rw [parameter?] at h
    rw [find?]
    by_cases hy : (x == y) = true
    · rwa [if_pos hy] at h ⊢
    · rw [if_neg hy] at h ⊢
      exact ih h

/-- A name that is no parameter stands for a declaration. -/
theorem find?_of_none {G : Globals} {s : Scope} {x : String} (h : s.parameter? x = none) :
    s.find? G x = (G.lookup x).map fun e => (e, top) := by
  induction s with
  | top => rfl
  | inner y e t outer _ ih =>
    rw [parameter?] at h
    rw [find?]
    by_cases hy : (x == y) = true
    · rw [if_pos hy] at h
      cases h
    · rw [if_neg hy] at h ⊢
      exact ih h

/-- All parameters are of a certain kind. -/
def BindsOnly (B : String → Prop) (s : Scope) : Prop :=
  ∀ y q, s.parameter? y = some q → B y

/-- What the parameters among the given names stand for in the first scope, they stand for in the
second one with definitions in the place of their names. -/
def Matches (D : String → Option Expr) (B : String → Prop) : Scope → List String → Scope → Prop
  | top, _, s' => s'.BindsOnly B
  | inner x e s outer, names, s' =>
    B x ∧ outer.Matches D B (names.filter (· != x)) s' ∧
      (x ∈ names → ∃ e' t', s'.parameter? x = some (e', t') ∧ Inlines D B e e' ∧
        s.Matches D B e.free t')

end Scope

section

variable {D : String → Option Expr} {B : String → Prop}

namespace Scope

/-- The innermost parameter stands for its argument. -/
theorem parameter?_inner_self (x : String) (e : Expr) (s outer : Scope) :
    (inner x e s outer).parameter? x = some (e, s) := by
  simp [parameter?]

/-- Other names are looked for further out. -/
theorem parameter?_inner_of_ne {x y : String} (h : y ≠ x) (e : Expr) (s outer : Scope) :
    (inner x e s outer).parameter? y = outer.parameter? y := by
  simp [parameter?, h]

/-- At the top level there are no parameters. -/
theorem bindsOnly_top : top.BindsOnly B :=
  fun _ _ h => nomatch h

/-- The parameters of a scope are the innermost one and those further out. -/
theorem bindsOnly_inner {x : String} {e : Expr} {s outer : Scope} :
    (inner x e s outer).BindsOnly B ↔ B x ∧ outer.BindsOnly B := by
  constructor
  · refine fun h => ⟨h x (e, s) (parameter?_inner_self x e s outer), fun y q hq => ?_⟩
    by_cases hy : y = x
    · exact hy ▸ h x (e, s) (parameter?_inner_self x e s outer)
    · exact h y q ((parameter?_inner_of_ne hy e s outer).trans hq)
  · rintro ⟨hx, houter⟩ y q hq
    by_cases hy : y = x
    · exact hy ▸ hx
    · exact houter y q ((parameter?_inner_of_ne hy e s outer).symm.trans hq)

/-- Scopes match if the parameters in both are of the given kind, and if each of the names that is a
parameter in the first one is a parameter in the second one and stands for what matches. -/
theorem matches_iff {s s' : Scope} {names : List String} :
    s.Matches D B names s' ↔ s.BindsOnly B ∧ s'.BindsOnly B ∧
      ∀ y ∈ names, ∀ e t, s.parameter? y = some (e, t) →
        ∃ e' t', s'.parameter? y = some (e', t') ∧ Inlines D B e e' ∧ t.Matches D B e.free t' := by
  induction s generalizing names with
  | top => exact ⟨fun h => ⟨bindsOnly_top, h, fun _ _ _ _ h => nomatch h⟩, fun h => h.2.1⟩
  | inner x e s outer _ ih =>
    rw [Matches, ih, bindsOnly_inner]
    constructor
    · rintro ⟨hx, ⟨houter, hs', hnames⟩, hself⟩
      refine ⟨⟨hx, houter⟩, hs', fun y hy e₁ t hq => ?_⟩
      by_cases hyx : y = x
      · subst hyx
        rw [parameter?_inner_self] at hq
        cases hq
        exact hself hy
      · rw [parameter?_inner_of_ne hyx] at hq
        exact hnames y (by simp [hy, hyx]) e₁ t hq
    · rintro ⟨⟨hx, houter⟩, hs', hnames⟩
      refine ⟨hx, ⟨houter, hs', fun y hy e₁ t hq => ?_⟩, fun hmem => ?_⟩
      · obtain ⟨hy, hyx⟩ := List.mem_filter.1 hy
        rw [← parameter?_inner_of_ne (by simpa using hyx) e s] at hq
        exact hnames y hy e₁ t hq
      · exact hnames x hmem e s (parameter?_inner_self x e s outer)

/-- Fewer names may be looked at. -/
theorem Matches.of_subset {s s' : Scope} {names names' : List String} (h : s.Matches D B names s')
    (hsubset : ∀ y ∈ names', y ∈ names) : s.Matches D B names' s' := by
  rw [matches_iff] at h ⊢
  exact ⟨h.1, h.2.1, fun y hy => h.2.2 y (hsubset y hy)⟩

/-- Calls of functions that match, with arguments that match, have bodies whose scopes match. -/
theorem Matches.enter {x : String} {a a' body : Expr} {s s' outer outer' : Scope} (hx : B x)
    (houter : outer.Matches D B (body.free.filter (· != x)) outer') (ha : Inlines D B a a')
    (hs : s.Matches D B a.free s') :
    (inner x a s outer).Matches D B body.free (inner x a' s' outer') := by
  rw [matches_iff] at houter
  obtain ⟨hB, hB', hnames⟩ := houter
  refine matches_iff.2 ⟨bindsOnly_inner.2 ⟨hx, hB⟩, bindsOnly_inner.2 ⟨hx, hB'⟩, ?_⟩
  intro y hy e t hq
  by_cases hyx : y = x
  · subst hyx
    rw [parameter?_inner_self] at hq
    cases hq
    exact ⟨a', s', parameter?_inner_self y a' s' outer', ha, hs⟩
  · rw [parameter?_inner_of_ne hyx] at hq ⊢
    exact hnames y (by simp [hy, hyx]) e t hq

end Scope

/-! ## Values -/

/-- The second value is the first one, or the same function with definitions in the place of their
names. -/
inductive Datum.Matches (D : String → Option Expr) (B : String → Prop) : Datum → Datum → Prop where
  | plain (c : Content) : Matches D B (.plain c) (.plain c)
  | closure {x : String} {body body' : Expr} {s s' : Scope} : B x → Inlines D B body body' →
      s.Matches D B (body.free.filter (· != x)) s' →
      Matches D B (.closure x body s) (.closure x body' s')

/-- Values that match are the same, or both are functions. -/
theorem Datum.Matches.similar {d d' : Datum} (h : d.Matches D B d') :
    d.content.Similar d'.content := by
  cases h with
  | plain c => exact .same c
  | closure => exact .functions _ _ _ _ _ _

/-- Only a truth value is similar to that truth value. -/
theorem Content.Similar.eq_boolean {c : Content} {b : Bool} (h : (Content.boolean b).Similar c) :
    c = .boolean b := by
  cases h
  rfl

/-- Operators do not tell values apart that match. -/
theorem Datum.operate_congr {l l' r r' : Datum} (hl : l.content.Similar l'.content)
    (hr : r.content.Similar r'.content) (op : BinaryOp) (place : Option Location) :
    l.operate op r place = l'.operate op r' place := by
  unfold Datum.operate
  rw [← hl.isFunction_eq, ← hr.isFunction_eq]
  split
  · rfl
  · have hcombine : op.combine ⟨.nothing, l.content⟩ ⟨.nothing, r.content⟩ =
        op.combine ⟨.nothing, l'.content⟩ ⟨.nothing, r'.content⟩ :=
      BinaryOp.combine_congr hl hr fun _ _ _ => Iff.rfl
    rw [hcombine]

/-- An expression that has a value by name has a value that matches it with definitions in the place
of their names, if no parameter is a name of the top level. -/
theorem Gives.inlines {G : Globals} (hB : ∀ x, B x → G.lookup x = none)
    (hparameters : ∀ x E, G.lookup x = some E → ∀ y ∈ E.parameters, B y) {e e' : Expr}
    {s s' : Scope} {d : Datum} (h : Gives G e s d) (he : Inlines (G.lookup ·) B e e')
    (hs : s.Matches (G.lookup ·) B e.free s') :
    ∃ d', Gives G e' s' d' ∧ d.Matches (G.lookup ·) B d' := by
  induction h generalizing e' s' with
  | literal c p s =>
    cases he
    exact ⟨_, .literal c p s', .plain _⟩
  | @name x e₁ s s₁ d p hfind _ ih =>
    obtain ⟨hbinds, hbinds', hnames⟩ := Scope.matches_iff.1 hs
    -- a name of the top level is a parameter in neither scope
    have hglobal : ∀ {t : Scope} {E : Expr}, t.BindsOnly B → G.lookup x = some E →
        t.find? G x = some (E, .top) := by
      intro t E ht hx
      have hnone : t.parameter? x = none := by
        by_contra hsome
        obtain ⟨q, hq⟩ := Option.ne_none_iff_exists'.1 hsome
        cases (hB x (ht x q hq)).symm.trans hx
      rw [Scope.find?_of_none hnone, hx, Option.map_some]
    cases he with
    | name =>
      cases hparameter : s.parameter? x with
      | some q =>
        obtain ⟨e₂, t'⟩ := q
        rw [Scope.find?_of_some hparameter] at hfind
        cases hfind
        obtain ⟨e', t', hparameter', he', ht'⟩ :=
          hnames x (List.mem_singleton_self x) e₁ s₁ hparameter
        obtain ⟨d', hd', hmatches⟩ := ih he' ht'
        exact ⟨d', .name p (Scope.find?_of_some hparameter') hd', hmatches⟩
      | none =>
        rw [Scope.find?_of_none hparameter, Option.map_eq_some_iff] at hfind
        obtain ⟨E, hx, hE⟩ := hfind
        cases hE
        obtain ⟨d', hd', hmatches⟩ := ih (.refl (hparameters x e₁ hx)) Scope.bindsOnly_top
        exact ⟨d', .name p (hglobal hbinds' hx) hd', hmatches⟩
    | inline _ hx hE =>
      -- the definition is evaluated right here, instead of at the top level
      cases (hglobal hbinds hx).symm.trans hfind
      exact ih hE hbinds'
  | paren p _ ih =>
    cases he with
    | paren _ he =>
      obtain ⟨d', hd', hmatches⟩ := ih he hs
      exact ⟨d', .paren p hd', hmatches⟩
  | arrow x e p s =>
    cases he with
    | arrow _ hx he => exact ⟨_, .arrow x _ p s', .closure hx he hs⟩
  | call p _ _ ihf ihbody =>
    cases he with
    | call _ hf ha =>
      obtain ⟨callee, hcallee, hmatches⟩ :=
        ihf hf (hs.of_subset fun y => List.mem_append_left _)
      cases hmatches with
      | closure hx hbody houter =>
        have hinside := Scope.Matches.enter hx houter ha
          (hs.of_subset fun y => List.mem_append_right _)
        obtain ⟨d', hd', hmatches⟩ := ihbody hbody hinside
        exact ⟨d', .call p hcallee hd', hmatches⟩
  | unary p _ hc ih =>
    cases he with
    | unary op _ he =>
      obtain ⟨d', hd', hmatches⟩ := ih he hs
      rw [UnaryOp.apply_congr hmatches.similar] at hc
      exact ⟨_, .unary p hd' hc, .plain _⟩
  | decided p hdecisive _ hb ih =>
    cases he with
    | binary op _ hl hr =>
      obtain ⟨d', hd', hmatches⟩ := ih hl (hs.of_subset fun y => List.mem_append_left _)
      exact ⟨d', .decided p hdecisive hd' (hb ▸ hmatches.similar).eq_boolean, hmatches⟩
  | @binary op l r s d d₁ d₂ p _ _ hop hd ihl ihr =>
    cases he with
    | binary _ _ hl hr =>
      obtain ⟨d₁', hd₁', hmatches₁⟩ := ihl hl (hs.of_subset fun y => List.mem_append_left _)
      obtain ⟨d₂', hd₂', hmatches₂⟩ := ihr hr (hs.of_subset fun y => List.mem_append_right _)
      rw [Datum.operate_congr hmatches₁.similar hmatches₂.similar] at hd
      refine ⟨d, .binary p hd₁' hd₂' (fun b hb => ?_) hd, ?_⟩
      · obtain ⟨hleft, c, hright⟩ := hop b hb
        exact ⟨(hleft ▸ hmatches₁.similar).eq_boolean, c,
          (hright ▸ hmatches₂.similar).eq_boolean⟩
      · obtain ⟨c, hc⟩ := Datum.exists_of_operate hd
        cases hc
        exact .plain c
  | @cond c t e s d₁ d b p _ hb _ ihc ihbranch =>
    cases he with
    | cond _ hc ht he =>
      obtain ⟨d₁', hd₁', hmatches₁⟩ := ihc hc (hs.of_subset fun y => List.mem_append_left _)
      have hb' := (hb ▸ hmatches₁.similar).eq_boolean
      have hbranch : s.Matches (G.lookup ·) B (if b then t else e).free s' := by
        refine hs.of_subset fun y hy => List.mem_append_right _ ?_
        cases b with
        | true => exact List.mem_append_left _ hy
        | false => exact List.mem_append_right _ hy
      cases b with
      | true =>
        obtain ⟨d', hd', hmatches⟩ := ihbranch ht hbranch
        exact ⟨d', .cond p hd₁' hb' hd', hmatches⟩
      | false =>
        obtain ⟨d', hd', hmatches⟩ := ihbranch he hbranch
        exact ⟨d', .cond p hd₁' hb' hd', hmatches⟩

end

/-! ## By need -/

section

variable {G : Globals} {σ σ' : Store}

/-- What an expression gives by need, without comparing functions, it gives by name, and the store
stays sound and idle. -/
theorem Sound.gives_of_ok (hσ : Sound G σ) (hidle : ∀ a, (σ.cell a).busy = false) {e : Expr}
    {limits : Limits} {o : Object}
    (hrun : (eval limits.force .global e >>= limits.force) σ = .ok o σ')
    (hlog : ¬ComparesFunctions σ'.log) :
    ∃ d, Gives G e .top d ∧ o.Means σ' d ∧ Sound G σ' ∧ ∀ a, (σ'.cell a).busy = false := by
  have hlogAfter :
      ¬ComparesFunctions (logAfter (eval limits.force .global e >>= limits.force) σ) := by
    unfold logAfter
    rwa [hrun]
  have hends : ∀ P, StopsNot P (eval limits.force .global e >>= limits.force) σ :=
    fun P stop σ₁ hstop => nomatch hrun.symm.trans hstop
  obtain ⟨r, hrealizes, hr⟩ :=
    realizes_of_endless (sim_value_eventually limits hσ e) hlogAfter (hends _) (hends _)
  unfold Realizes at hrealizes
  rw [hrun] at hrealizes
  obtain ⟨hσ', hextends, d, rfl, ho⟩ := hrealizes
  exact ⟨d, gives_iff_eventually.2 hr, ho, hσ', fun a => (hextends.busy a).trans (hidle a)⟩

/-- What an expression gives by name, it gives by need within wide limits. -/
theorem Gives.eventually_ok {e : Expr} {d : Datum} (h : Gives G e .top d) :
    ∃ bound, ∀ limits : Limits, bound ≤ limits.fuel → bound ≤ limits.depth →
      ∀ σ, Sound G σ → (∀ a, (σ.cell a).busy = false) →
        ∃ o σ', (eval limits.force .global e >>= limits.force) σ = .ok o σ' ∧ o.Means σ' d := by
  obtain ⟨bound, hbound⟩ := h.eventually.exists
  refine ⟨bound, fun limits hfuel hdepth σ hσ hidle => ?_⟩
  -- the value within the bound is the value within all wider limits
  have hvalue : valueOf G limits.fuel limits.depth e = .ok d :=
    (below_valueOf hfuel hdepth e).of_ok hbound
  have hsim := sim_value_byNeed limits hσ hidle e
  rw [hvalue] at hsim
  have hrealizes := realizes_of_vague hsim (by rintro ⟨_, hfalse, -⟩; cases hfalse)
  unfold Realizes at hrealizes
  cases hrun : (eval limits.force .global e >>= limits.force) σ with
  | error stop σ' => rw [hrun] at hrealizes; cases hrealizes
  | ok o σ' =>
    rw [hrun] at hrealizes
    obtain ⟨-, -, d', hd', ho⟩ := hrealizes
    cases hd'
    exact ⟨o, σ', rfl, ho⟩

end

/-- Expanding an expression keeps its value. After declarations in a fresh environment, let no name
of an expansion be marked, and let no parameter of the expression or of a definition be a name of
the top level. If the expression has a value, and no two functions were compared to find it, then
its expansion has a value too within all limits that are wide enough, both before and after the
expression itself was evaluated: the same number, text or truth value, or a function where it was
one. It does not matter whether parameters occur free in definitions. -/
theorem expansion_keeps_value (force : Value → Eval Object) (declarations : List Statement)
    (hdeclarations : ∀ s ∈ declarations, s.isDeclaration = true) (e : Expr) :
    let σ := (execute force .global declarations .empty).store
    let e' := e.expand σ .global [] []
    e'.Unmarked →
    (∀ x, (x ∈ e.parameters ∨ ∃ y E, σ.definition? y = some E ∧ x ∈ E.parameters) →
      σ.contains .global x = false) →
    ∀ (limits : Limits) (o : Object) (σ' : Store),
      (limits.eval .global e >>= limits.force) σ = .ok o σ' → ¬ComparesFunctions σ'.log →
      ∃ bound, ∀ limits' : Limits, bound ≤ limits'.fuel → bound ≤ limits'.depth →
        ∀ τ, τ = σ ∨ τ = σ' → ∃ o' τ',
          (limits'.eval .global e' >>= limits'.force) τ = .ok o' τ' ∧
            o.content.Similar o'.content := by
  intro σ e' hmark hhygienic limits o σ' hrun hlog
  obtain ⟨G, hσ, hidle⟩ := exists_sound_of_declarations force hdeclarations .empty fun _ => rfl
  have hD : σ.definition? = (G.lookup ·) := funext hσ.declares.definition?_eq
  -- the parameters that occur anywhere
  let B (x : String) : Prop :=
    x ∈ e.parameters ∨ ∃ y E, σ.definition? y = some E ∧ x ∈ E.parameters
  have hB : ∀ x, B x → G.lookup x = none := by
    intro x hx
    have hcontains := hhygienic x hx
    rw [hσ.contains_global, Option.isSome_eq_false_iff, Option.isNone_iff_eq_none] at hcontains
    exact hcontains
  have hparameters : ∀ x E, G.lookup x = some E → ∀ y ∈ E.parameters, B y := by
    intro x E hx y hy
    exact .inr ⟨x, E, (hσ.declares.definition?_eq x).trans hx, hy⟩
  have hinlines : Inlines (G.lookup ·) B e e' := by
    have hexpands := hσ.declares.expands e
    rw [hD] at hexpands
    exact hexpands.inlines hmark (fun _ => .inl) hparameters
  -- from need to name, from the expression to its expansion, and back to need
  obtain ⟨d, hgives, ho, hσ', hidle'⟩ := hσ.gives_of_ok hidle hrun hlog
  obtain ⟨d', hgives', hmatches⟩ := hgives.inlines hB hparameters hinlines Scope.bindsOnly_top
  obtain ⟨bound, hbound⟩ := hgives'.eventually_ok
  refine ⟨bound, fun limits' hfuel hdepth τ hτ => ?_⟩
  have hτ : Sound G τ ∧ ∀ a, (τ.cell a).busy = false := by
    rcases hτ with rfl | rfl
    · exact ⟨hσ, hidle⟩
    · exact ⟨hσ', hidle'⟩
  obtain ⟨o', τ', hrun', ho'⟩ := hbound limits' hfuel hdepth τ hτ.1 hτ.2
  exact ⟨o', τ', hrun', ho.alike.similar.trans (hmatches.similar.trans ho'.alike.symm.similar)⟩

/-- After `let k = true; let f = x => k === x`, the call `(y => f(y))(k)` gives `true`, and so does
its expansion `(y => (x => k === x)(y))(k)`. -/
theorem expansion_keeps_value_call :
    let name (x : String) := Expr.name x none
    let declarations : List Statement :=
      [.declare "k" (.literal (.boolean true) none) none,
        .declare "f" (.arrow "x" (.binary .equal (name "k") (name "x") none) none) none]
    let limits : Limits := ⟨9, 9⟩
    let σ := (execute limits.force .global declarations .empty).store
    let e := Expr.call (.arrow "y" (.call (name "f") (name "y") none) none) (name "k") none
    let e' := e.expand σ .global [] []
    (∀ s ∈ declarations, s.isDeclaration = true) ∧ e'.Unmarked ∧
      (∀ x, (x ∈ e.parameters ∨ ∃ y E, σ.definition? y = some E ∧ x ∈ E.parameters) →
        σ.contains .global x = false) ∧
      ∃ o σ', (limits.eval .global e >>= limits.force) σ = .ok o σ' ∧
        ¬ComparesFunctions σ'.log ∧ o.content = .boolean true ∧
        ∃ bound, ∀ limits' : Limits, bound ≤ limits'.fuel → bound ≤ limits'.depth →
          ∀ τ, τ = σ ∨ τ = σ' → ∃ o' τ',
            (limits'.eval .global e' >>= limits'.force) τ = .ok o' τ' ∧
              (Content.boolean true).Similar o'.content := by
  intro name declarations limits σ e e'
  have hdeclarations : ∀ s ∈ declarations, s.isDeclaration = true := by decide
  have hmark : e'.Unmarked := Expr.unmarked_of_head (by decide +kernel)
  have hparameters : ∀ x ∈ e.parameters, σ.contains .global x = false := by decide +kernel
  have hdefinitions : ∀ y ∈ (σ.frame 0).names, ∀ E ∈ σ.definition? y, ∀ x ∈ E.parameters,
      σ.contains .global x = false := by decide +kernel
  have hhygienic : ∀ x, (x ∈ e.parameters ∨
      ∃ y E, σ.definition? y = some E ∧ x ∈ E.parameters) → σ.contains .global x = false := by
    rintro x (hx | ⟨y, E, hE, hx⟩)
    · exact hparameters x hx
    · exact hdefinitions y (Store.mem_names_of_definition? hE) E hE x hx
  have hvalue : ((limits.eval .global e >>= limits.force).run' σ).map Object.content =
      some (.boolean true) := by decide +kernel
  have hlog : ¬ComparesFunctions (logAfter (limits.eval .global e >>= limits.force) σ) := by
    decide +kernel
  refine ⟨hdeclarations, hmark, hhygienic, ?_⟩
  unfold logAfter at hlog
  unfold EStateM.run' EStateM.run at hvalue
  cases hrun : (limits.eval .global e >>= limits.force) σ with
  | error stop σ' =>
    rw [hrun] at hvalue
    cases hvalue
  | ok o σ' =>
    rw [hrun] at hvalue hlog
    have ho : o.content = .boolean true := Option.some.inj hvalue
    have hkept := expansion_keeps_value limits.force declarations hdeclarations e hmark hhygienic
      limits o σ' hrun hlog
    rw [ho] at hkept
    exact ⟨o, σ', rfl, hlog, ho, hkept⟩

end CallByNeed
