import CallByNeed.Proofs.ExpansionRules
import CallByNeed.Proofs.ProperNames

/-!
# Expansion ends, and marks cycles

Expanding follows definitions, which may lead back to themselves. It ends all the same, since no
name is replaced inside its own replacement; instead such a name is marked. So an expansion has a
mark if and only if a cycle of definitions is reached from the expression
(`expansion_marks_cycles`).

* `Expr.trace` expands as `Expr.expand` does, and tells which names were replaced inside each other.
* `Expands.acc_of_unmarked`: if nothing was marked, following definitions ends everywhere.
* `Expands.onCycle_of_mark`: each name that is being replaced leads to all names that are met within
  its replacement, so that a marked name leads to itself.
-/

namespace CallByNeed

open Relation

/-! ## Replacements inside each other -/

namespace Expr

/-- Expands an expression as `expandWith` does, and tells beside the expansion which names were
replaced. For each of them there is a path: the names that were being replaced at that moment, from
the outermost one to the name itself. -/
def traceWith (σ : Store) (inline : String → Env → Expr → Expr × List (List String)) (env : Env)
    (expanding : List String) : List String → Expr → Expr × List (List String)
  | _, literal c p => (literal c p, [])
  | params, name x p =>
    if params.contains x then (name x p, [])
    else if expanding.contains x then (name (cycleMark x) p, [])
    else
      match σ.lookup env x with
      | some (.thunk a) =>
        let cell := σ.cell a
        if cell.expr.references σ cell.env [] then
          let (e, paths) := inline x cell.env cell.expr
          (e, [x] :: paths.map (x :: ·))
        else (name x p, [])
      | _ => (name x p, [])
  | params, paren e p =>
    let (e, paths) := e.traceWith σ inline env expanding params
    (paren e p, paths)
  | params, arrow x e p =>
    let (e, paths) := e.traceWith σ inline env expanding (x :: params)
    (arrow x e p, paths)
  | params, call f a p =>
    let (f, paths) := f.traceWith σ inline env expanding params
    let (a, paths') := a.traceWith σ inline env expanding params
    (call f a p, paths ++ paths')
  | params, unary op e p =>
    let (e, paths) := e.traceWith σ inline env expanding params
    (unary op e p, paths)
  | params, binary op l r p =>
    let (l, paths) := l.traceWith σ inline env expanding params
    let (r, paths') := r.traceWith σ inline env expanding params
    (binary op l r p, paths ++ paths')
  | params, cond c t e p =>
    let (c, paths) := c.traceWith σ inline env expanding params
    let (t, paths') := t.traceWith σ inline env expanding params
    let (e, paths'') := e.traceWith σ inline env expanding params
    (cond c t e p, paths ++ (paths' ++ paths''))

/-- Expands an expression with at most `fuel` replacements inside each other, and tells which there
were. -/
def traceBy (σ : Store) :
    Nat → Env → List String → List String → Expr → Expr × List (List String)
  | 0, _, _, _, e => (e, [])
  | fuel + 1, env, expanding, params, e =>
    e.traceWith σ (fun x env e => e.traceBy σ fuel env (x :: expanding) []) env expanding params

/-- Expands an expression, and tells the path of every name that was replaced. -/
def trace (σ : Store) (env : Env) (expanding params : List String) (e : Expr) :
    Expr × List (List String) :=
  e.traceBy σ (σ.bindingCount + 1) env expanding params

/-- Tracing an expansion does not change it. -/
theorem traceWith_fst (σ : Store) (inline : String → Env → Expr → Expr × List (List String))
    (env : Env) (expanding params : List String) (e : Expr) :
    (e.traceWith σ inline env expanding params).1 =
      e.expandWith σ (fun x env e => (inline x env e).1) env expanding params := by
  -- both ask the same questions about a name, in the same order
  induction e generalizing params with
  | literal c p => rfl
  | name x p =>
    rw [traceWith, expandWith]
    split
    · rfl
    split
    · rfl
    cases σ.lookup env x with
    | none => rfl
    | some v =>
      cases v with
      | object o => rfl
      | thunk a =>
        dsimp only
        split <;> rfl
  | paren e p ih => rw [traceWith, expandWith, ← ih]
  | arrow x e p ih => rw [traceWith, expandWith, ← ih]
  | call f a p ihf iha => rw [traceWith, expandWith, ← ihf, ← iha]
  | unary op e p ih => rw [traceWith, expandWith, ← ih]
  | binary op l r p ihl ihr => rw [traceWith, expandWith, ← ihl, ← ihr]
  | cond c t e p ihc iht ihe => rw [traceWith, expandWith, ← ihc, ← iht, ← ihe]

/-- Tracing an expansion step by step does not change it. -/
theorem traceBy_fst (σ : Store) (fuel : Nat) (env : Env) (expanding params : List String)
    (e : Expr) :
    (e.traceBy σ fuel env expanding params).1 = e.expandBy σ fuel env expanding params := by
  induction fuel generalizing env expanding params e with
  | zero => rfl
  | succ fuel ih =>
    rw [traceBy, traceWith_fst, expandBy]
    simp only [ih]

/-- A trace tells of the expansion itself. -/
theorem trace_fst (σ : Store) (env : Env) (expanding params : List String) (e : Expr) :
    (e.trace σ env expanding params).1 = e.expand σ env expanding params :=
  traceBy_fst σ (σ.bindingCount + 1) env expanding params e

/-- No name is on the path twice, and none of those that were being replaced before is on it. -/
def FreshPath (expanding path : List String) : Prop :=
  path.Nodup ∧ ∀ x ∈ path, x ∉ expanding

/-- A name that was not being replaced goes before the paths within its replacement. -/
theorem FreshPath.cons {expanding path : List String} {x : String} (hx : x ∉ expanding)
    (h : FreshPath (x :: expanding) path) : FreshPath expanding (x :: path) := by
  refine ⟨List.nodup_cons.2 ⟨fun hmem => h.2 x hmem List.mem_cons_self, h.1⟩, ?_⟩
  refine List.forall_mem_cons.2 ⟨hx, fun y hy hmem => ?_⟩
  exact h.2 y hy (List.mem_cons_of_mem x hmem)

/-- The paths of a trace are fresh, if those of the names on the way are. -/
theorem freshPath_of_mem_traceWith (σ : Store)
    {inline : String → Env → Expr → Expr × List (List String)} (env : Env)
    {expanding : List String}
    (hinline : ∀ x env e, ∀ path ∈ (inline x env e).2, FreshPath (x :: expanding) path)
    (params : List String) (e : Expr) :
    ∀ path ∈ (e.traceWith σ inline env expanding params).2, FreshPath expanding path := by
  have hnone : ∀ path ∈ ([] : List (List String)), FreshPath expanding path :=
    fun _ h => absurd h List.not_mem_nil
  induction e generalizing params with
  | literal c p => exact hnone
  | name x p =>
    rw [traceWith]
    split
    · exact hnone
    split
    · exact hnone
    next hexpanding =>
    have hx : x ∉ expanding := by simpa using hexpanding
    cases σ.lookup env x with
    | none => exact hnone
    | some v =>
      cases v with
      | object o => exact hnone
      | thunk a =>
        dsimp only
        split
        · -- here the name is replaced, and it was not being replaced before
          refine List.forall_mem_cons.2 ⟨.cons hx ⟨List.nodup_nil, by simp⟩, ?_⟩
          intro path hpath
          obtain ⟨path, hmem, rfl⟩ := List.mem_map.1 hpath
          exact .cons hx (hinline x _ _ path hmem)
        · exact hnone
  | paren e p ih => exact ih params
  | arrow x e p ih => exact ih (x :: params)
  | call f a p ihf iha => exact List.forall_mem_append.2 ⟨ihf params, iha params⟩
  | unary op e p ih => exact ih params
  | binary op l r p ihl ihr => exact List.forall_mem_append.2 ⟨ihl params, ihr params⟩
  | cond c t e p ihc iht ihe =>
    exact List.forall_mem_append.2
      ⟨ihc params, List.forall_mem_append.2 ⟨iht params, ihe params⟩⟩

/-- In whatever environment, and with whatever fuel, no name is replaced inside its own
replacement. -/
theorem freshPath_of_mem_traceBy (σ : Store) (fuel : Nat) (env : Env)
    (expanding params : List String) (e : Expr) :
    ∀ path ∈ (e.traceBy σ fuel env expanding params).2, FreshPath expanding path := by
  induction fuel generalizing env expanding params e with
  | zero => exact fun _ h => absurd h List.not_mem_nil
  | succ fuel ih =>
    exact freshPath_of_mem_traceWith σ env (fun x env e => ih env (x :: expanding) [] e) params e

end Expr

/-! ## Cycles -/

section

variable {D : String → Option Expr} {X P : List String} {e e' : Expr}

/-- A name from which definitions are followed to an end is not on the way to a cycle. -/
theorem not_transGen_of_acc {x y : String} (h : Acc (Function.swap (Mentions D)) x)
    (hpath : ReflTransGen (Mentions D) x y) : ¬TransGen (Mentions D) y y := by
  induction h generalizing y with
  | intro x _ ih =>
    intro hcycle
    -- the first step goes towards the cycle or along it, and the cycle is still ahead
    obtain ⟨z, hz, hzy⟩ := TransGen.head'_iff.1 (TransGen.trans_right hpath hcycle)
    exact ih z hz hzy hcycle

/-- If an expansion has no marks, following definitions from the expression ends. -/
theorem Expands.acc_of_unmarked (h : Expands D X P e e') (hmark : e'.Unmarked) :
    ∀ y ∈ e.free, y ∉ P → Acc (Function.swap (Mentions D)) y := by
  have hundefined : ∀ x, D x = none → Acc (Function.swap (Mentions D)) x := by
    intro x hx
    refine .intro x ?_
    rintro y ⟨E, hE, -⟩
    cases hx.symm.trans hE
  -- induction is on the rules, and the names that are being replaced do not matter
  induction h with
  | literal c p => exact fun _ h => absurd h List.not_mem_nil
  | @parameter X P x p hx =>
    intro y hy hP
    cases List.mem_singleton.1 hy
    exact absurd hx hP
  | @cycle X P x p hx hX => exact absurd (List.mem_singleton_self _) (hmark x)
  | @undefined X P x p hx hX hD =>
    intro y hy _
    cases List.mem_singleton.1 hy
    exact hundefined x hD
  | @selfContained X P x E p hx hX hD hfree =>
    intro y hy _
    cases List.mem_singleton.1 hy
    refine .intro x ?_
    rintro z ⟨E', hE', hz⟩
    cases hD.symm.trans hE'
    exact hundefined z (hfree z hz)
  | @inline X P x _ E E' _ p _ _ hD _ _ _ ih =>
    -- the replacement has no marks either, and it starts from all that the definition mentions
    intro y hy _
    cases List.mem_singleton.1 hy
    refine .intro x ?_
    rintro z ⟨E', hE', hz⟩
    cases hD.symm.trans hE'
    exact ih hmark z hz List.not_mem_nil
  | paren p _ ih => exact ih hmark
  | @arrow X P e e' x p _ ih =>
    intro y hy hP
    obtain ⟨hy, hne⟩ := Expr.mem_free_arrow.1 hy
    exact ih hmark y hy (by simp [hne, hP])
  | call p _ _ ihf iha =>
    exact List.forall_mem_append.2 ⟨ihf hmark.call.1, iha hmark.call.2⟩
  | unary op p _ ih => exact ih hmark
  | binary op p _ _ ihl ihr =>
    exact List.forall_mem_append.2 ⟨ihl hmark.binary.1, ihr hmark.binary.2⟩
  | cond p _ _ _ ihc iht ihe =>
    exact List.forall_mem_append.2 ⟨ihc hmark.cond.1,
      List.forall_mem_append.2 ⟨iht hmark.cond.2.1, ihe hmark.cond.2.2⟩⟩

/-- A marked name is on a cycle, and it is reached from the expression. Here `xs` are names from
which it is to be reached, among them the free names of the expression. Each name that is being
replaced leads to all of them. -/
theorem Expands.onCycle_of_mark {xs : List String} (h : Expands D X P e e') (he : e.Unmarked)
    (hD : ∀ x E, D x = some E → E.Unmarked) (hxs : ∀ y ∈ e.free, y ∉ P → y ∈ xs)
    (hX : ∀ z ∈ X, ∀ y ∈ xs, TransGen (Mentions D) z y) {x : String}
    (hx : cycleMark x ∈ e'.names) :
    (∃ y ∈ xs, ReflTransGen (Mentions D) y x) ∧ TransGen (Mentions D) x x := by
  induction h generalizing xs with
  | literal | parameter | undefined | selfContained => exact absurd hx (he x)
  | @cycle X P z p hz hzX =>
    -- the name is being replaced, and so it leads to itself
    obtain rfl := cycleMark_inj.1 (List.mem_singleton.1 hx)
    have hmem : x ∈ xs := hxs x (List.mem_singleton_self x) hz
    exact ⟨⟨x, hmem, .refl⟩, hX x hzX x hmem⟩
  | @inline X P z _ E E' _ p hz _ hE _ _ _ ih =>
    have hmem : z ∈ xs := hxs z (List.mem_singleton_self z) hz
    have hmentions : ∀ y ∈ E.free, Mentions D z y := fun y hy => ⟨E, hE, hy⟩
    -- one more name is being replaced, and what its definition mentions is one step further
    have hX' : ∀ w ∈ z :: X, ∀ y ∈ E.free, TransGen (Mentions D) w y :=
      List.forall_mem_cons.2 ⟨fun y hy => .single (hmentions y hy),
        fun w hw y hy => (hX w hw z hmem).tail (hmentions y hy)⟩
    obtain ⟨⟨y, hy, hpath⟩, hcycle⟩ := ih (hD z E hE) (fun y hy _ => hy) hX' hx
    exact ⟨⟨z, hmem, .head (hmentions y hy) hpath⟩, hcycle⟩
  | paren p _ ih => exact ih he hxs hX hx
  | @arrow X P e e' z p _ ih =>
    -- inside the function its parameter is not free, but it is not replaced there either
    refine ih he (fun y hy hP => ?_) hX hx
    rw [List.mem_cons, not_or] at hP
    exact hxs y (Expr.mem_free_arrow.2 ⟨hy, hP.1⟩) hP.2
  | call p _ _ ihf iha =>
    obtain ⟨hf, ha⟩ := List.forall_mem_append.1 hxs
    rcases List.mem_append.1 hx with hx | hx
    · exact ihf he.call.1 hf hX hx
    · exact iha he.call.2 ha hX hx
  | unary op p _ ih => exact ih he hxs hX hx
  | binary op p _ _ ihl ihr =>
    obtain ⟨hl, hr⟩ := List.forall_mem_append.1 hxs
    rcases List.mem_append.1 hx with hx | hx
    · exact ihl he.binary.1 hl hX hx
    · exact ihr he.binary.2 hr hX hx
  | cond p _ _ _ ihc iht ihe =>
    obtain ⟨hc, hxs⟩ := List.forall_mem_append.1 hxs
    obtain ⟨ht, he'⟩ := List.forall_mem_append.1 hxs
    rcases List.mem_append.1 hx with hx | hx
    · exact ihc he.cond.1 hc hX hx
    rcases List.mem_append.1 hx with hx | hx
    · exact iht he.cond.2.1 ht hX hx
    · exact ihe he.cond.2.2 he' hX hx

end

/-- Expansion ends, and a mark means a cycle. Let well-named programs have been run, and let the
expression be well named.

Expanding it follows the rules to exactly one result, and allowing more replacements inside each
other than there are names at the top level does not change it. No name is replaced inside its own
replacement: none is twice on the path of a replaced name. The expansion has a marked name if and
only if a cycle of definitions is reached from the expression, and each marked name is on such a
cycle. All names on the way to a cycle, and on it, are defined, since each mentions the next one. -/
theorem expansion_marks_cycles (runs : List (Limits × Program))
    (hruns : ∀ run ∈ runs, ∀ s ∈ run.2.statements, s.WellNamed) (e : Expr) (he : e.WellNamed) :
    let σ := storeAfter runs
    let D := σ.definition?
    let e' := e.expand σ .global [] []
    (∀ f, Expands D [] [] e f ↔ f = e') ∧
      (∀ fuel, (σ.frame 0).length < fuel → e.expandBy σ fuel .global [] [] = e') ∧
      (e.trace σ .global [] []).1 = e' ∧
      (∀ path ∈ (e.trace σ .global [] []).2, path.Nodup) ∧
      ((∃ x, cycleMark x ∈ e'.names) ↔ ∃ x, e.Reaches D x ∧ TransGen (Mentions D) x x) ∧
      ∀ x, cycleMark x ∈ e'.names → e.Reaches D x ∧ TransGen (Mentions D) x x := by
  intro σ D e'
  obtain ⟨G, hG, hnames⟩ := (wellNamed_storeAfter runs hruns).declared
  have hexpands : Expands D [] [] e e' := hG.expands e
  have hD : ∀ x E, D x = some E → E.Unmarked := by
    intro x E hx
    exact (hnames x E ((hG.definition?_eq x).symm.trans hx)).2.unmarked
  have hcycle : ∀ x, cycleMark x ∈ e'.names → e.Reaches D x ∧ TransGen (Mentions D) x x :=
    fun x hx => hexpands.onCycle_of_mark he.unmarked hD (fun y hy _ => hy)
      (fun _ hz => absurd hz List.not_mem_nil) hx
  refine ⟨fun f => ⟨fun hf => hf.unique hexpands, ?_⟩, fun fuel hfuel => ?_, e.trace_fst .., ?_,
    ⟨fun hx => hx.imp hcycle, ?_⟩, hcycle⟩
  · rintro rfl
    exact hexpands
  · -- the names of the top level are all that can be replaced
    have hlt : unexpanded G [] < fuel :=
      List.countP_le_length.trans_lt (hG.globals.length_eq ▸ hfuel)
    exact (hG.expands_expandBy hlt [] e).unique hexpands
  · exact fun path hpath => (Expr.freshPath_of_mem_traceBy _ _ _ _ _ _ path hpath).1
  · -- without a mark the way to the cycle would come to an end
    rintro ⟨x, ⟨y, hy, hpath⟩, hx⟩
    by_contra hnone
    have hmark : e'.Unmarked := fun z hz => hnone ⟨z, hz⟩
    exact not_transGen_of_acc (hexpands.acc_of_unmarked hmark y hy List.not_mem_nil) hpath hx

/-- After `let even = n => odd(n); let odd = n => even(n);`, the name `even` is met again inside the
replacement of `odd`, which is inside its own. -/
theorem expansion_marks_cycles_mutual :
    let name (x : String) := Expr.name x none
    let calls (f : String) := Expr.arrow "n" (.call (name f) (name "n") none) none
    let program : Program :=
      ⟨[.declare "even" (calls "odd") none, .declare "odd" (calls "even") none], ""⟩
    let σ := storeAfter [(⟨0, 0⟩, program)]
    let e := name "even"
    (∀ s ∈ program.statements, s.WellNamed) ∧ e.WellNamed ∧
      e.expand σ .global [] [] = .arrow "n" (.call (calls "...even...") (name "n") none) none ∧
      (e.trace σ .global [] []).2 = [["even"], ["even", "odd"]] ∧
      e.Reaches σ.definition? "even" ∧ TransGen (Mentions σ.definition?) "even" "even" := by
  intro name calls program σ e
  have hcalls : ∀ f, IsName f → (calls f).WellNamed := by
    intro f hf x hx
    rcases List.mem_cons.1 hx with rfl | hx
    · exact hf
    · cases List.mem_singleton.1 hx
      rfl
  have hprogram : ∀ s ∈ program.statements, s.WellNamed := by
    refine List.forall_mem_cons.2 ⟨⟨rfl, hcalls "odd" rfl⟩, List.forall_mem_cons.2 ⟨?_, by simp⟩⟩
    exact ⟨rfl, hcalls "even" rfl⟩
  have he : e.WellNamed := by
    intro x hx
    cases List.mem_singleton.1 hx
    rfl
  have hexpand : e.expand σ .global [] [] =
      .arrow "n" (.call (calls "...even...") (name "n") none) none := by decide +kernel
  have htrace : (e.trace σ .global [] []).2 = [["even"], ["even", "odd"]] := by decide +kernel
  have hmark : cycleMark "even" ∈ (e.expand σ .global [] []).names := by
    rw [hexpand]
    exact List.mem_cons_self
  obtain ⟨-, -, -, -, -, hcycle⟩ := expansion_marks_cycles [(⟨0, 0⟩, program)]
    (by simpa using hprogram) e he
  obtain ⟨hreaches, hcycle⟩ := hcycle "even" hmark
  exact ⟨hprogram, he, hexpand, htrace, hreaches, hcycle⟩

end CallByNeed
