import CallByNeed.Proofs.TwinRuns
import CallByNeed.Proofs.UnneededCode

/-!
# The names of parameters do not matter

A name stands for the parameter of the innermost function around it that has this parameter,
wherever the function is called from. Giving the parameter of one function another name, together
with the names that it binds (`Expr.rename`), therefore changes nothing: the program outputs the
same, with functions where functions were, and it ends for the same reason at the same place
(`parameter_name_irrelevant`).

Both programs run in tandem, with the parameter under one name in the frames of one run and under
the other name in the frames of the other one.
-/

namespace CallByNeed

/-- The expression with another name in the place of a free one, that is, where it is not inside a
function with that parameter. -/
def Expr.rename (x z : String) : Expr → Expr
  | literal c p => literal c p
  | name y p => name (if y = x then z else y) p
  | paren e p => paren (e.rename x z) p
  | arrow y e p => arrow y (if y = x then e else e.rename x z) p
  | call f a p => call (f.rename x z) (a.rename x z) p
  | unary op e p => unary op (e.rename x z) p
  | binary op l r p => binary op (l.rename x z) (r.rename x z) p
  | cond c t e p => cond (c.rename x z) (t.rename x z) (e.rename x z) p

/-- Parameters may have any name. Places and parentheses are the same. -/
def Liberty.names : Liberty :=
  ⟨Eq, fun _ _ => True, False, fun _ => rfl, fun _ => trivial, False.elim⟩

section

variable {L : Liberty} {ρ : List (String × String)}

/-- A renamed expression is a variant where the old name and the new one are paired, if the new one
does not occur in it. -/
theorem Expr.variant_rename {x z : String} {e : Expr} (hx : Paired ρ x z)
    (hothers : ∀ y, y ≠ x → y ≠ z → Paired ρ y y) (hz : z ∉ e.names) (hz' : z ∉ e.parameters) :
    e.Variant L ρ (e.rename x z) := by
  induction e generalizing ρ with
  | literal c p => exact .literal c (L.place_refl p)
  | name y p =>
    have hyz : y ≠ z := fun h => hz (by simp [names, h])
    refine .name (L.place_refl p) ?_
    by_cases hy : y = x
    · rw [if_pos hy, hy]
      exact hx
    · rw [if_neg hy]
      exact hothers y hy hyz
  | paren e p ih => exact .paren (L.place_refl p) (ih hx hothers hz hz')
  | arrow y e p ih =>
    simp only [parameters, List.mem_cons, not_or] at hz'
    refine .arrow (L.place_refl p) (L.parameter_refl y) ?_
    by_cases hy : y = x
    · -- the inner function has a parameter of that name, so nothing in it is meant
      subst hy
      rw [if_pos rfl]
      refine .refl fun w hw => ?_
      have hwz : w ≠ z := fun h => hz (h ▸ hw)
      by_cases hwy : w = y
      · rw [hwy]
        exact .here y y ρ
      · exact .outer hwy hwy (hothers w hwy hwz)
    · -- the inner parameter is neither of both names, so they stay paired inside
      rw [if_neg hy]
      refine ih (.outer (Ne.symm hy) hz'.1 hx) (fun w hwx hwz => ?_) hz hz'.2
      by_cases hwy : w = y
      · rw [hwy]
        exact .here y y ρ
      · exact .outer hwy hwy (hothers w hwx hwz)
  | call f a p ihf iha =>
    simp only [names, parameters, List.mem_append, not_or] at hz hz'
    exact .call (L.place_refl p) (ihf hx hothers hz.1 hz'.1) (iha hx hothers hz.2 hz'.2)
  | unary op e p ih => exact .unary op (L.place_refl p) (ih hx hothers hz hz')
  | binary op l r p ihl ihr =>
    simp only [names, parameters, List.mem_append, not_or] at hz hz'
    exact .binary op (L.place_refl p) (ihl hx hothers hz.1 hz'.1) (ihr hx hothers hz.2 hz'.2)
  | cond c t e p ihc iht ihe =>
    simp only [names, parameters, List.mem_append, not_or] at hz hz'
    exact .cond (L.place_refl p) (ihc hx hothers hz.1 hz'.1) (iht hx hothers hz.2.1 hz'.2.1)
      (ihe hx hothers hz.2.2 hz'.2.2)

/-- A function is a variant of the one with another name for its parameter. -/
theorem Expr.variant_arrow_rename (hρ : ∀ q ∈ ρ, q.1 = q.2) (x z : String) {body : Expr}
    (p : Option Location) (hz : z ∉ body.names) (hz' : z ∉ body.parameters) :
    (Expr.arrow x body p).Variant .names ρ (.arrow z (body.rename x z) p) :=
  .arrow rfl trivial
    (variant_rename (.here x z ρ) (fun y hyx hyz => .outer hyx hyz (.refl hρ y)) hz hz')

/-- Variants in the place of a hole give variants. -/
theorem Expr.Context.variant (c : Expr.Context) {e e' : Expr}
    (he : ∀ ρ : List (String × String), (∀ q ∈ ρ, q.1 = q.2) → e.Variant L ρ e')
    (hρ : ∀ q ∈ ρ, q.1 = q.2) : (c.fill e).Variant L ρ (c.fill e') := by
  have hrefl : ∀ e : Expr, e.Variant L ρ e := fun e => .refl fun x _ => .refl hρ x
  induction c generalizing ρ with
  | hole => exact he ρ hρ
  | paren c p ih => exact .paren (L.place_refl p) (ih hρ hrefl)
  | arrow x c p ih =>
    have hρ' : ∀ q ∈ (x, x) :: ρ, q.1 = q.2 := List.forall_mem_cons.2 ⟨rfl, hρ⟩
    have hrefl' : ∀ e : Expr, e.Variant L ((x, x) :: ρ) e := fun e => .refl fun y _ => .refl hρ' y
    exact .arrow (L.place_refl p) (L.parameter_refl x) (ih hρ' hrefl')
  | callee c a p ih => exact .call (L.place_refl p) (ih hρ hrefl) (hrefl a)
  | argument f c p ih => exact .call (L.place_refl p) (hrefl f) (ih hρ hrefl)
  | operand op c p ih => exact .unary op (L.place_refl p) (ih hρ hrefl)
  | left op c r p ih => exact .binary op (L.place_refl p) (ih hρ hrefl) (hrefl r)
  | right op l c p ih => exact .binary op (L.place_refl p) (hrefl l) (ih hρ hrefl)
  | condition c t e p ih => exact .cond (L.place_refl p) (ih hρ hrefl) (hrefl t) (hrefl e)
  | consequent c t e p ih => exact .cond (L.place_refl p) (hrefl c) (ih hρ hrefl) (hrefl e)
  | alternate c t e p ih => exact .cond (L.place_refl p) (hrefl c) (hrefl t) (ih hρ hrefl)

/-- A statement that outputs no expansion is a variant of itself. -/
theorem Statement.Variant.refl {s : Statement} (h : s.expands = false) : s.Variant L s := by
  have hrefl : ∀ e : Expr, e.Variant L [] e := fun e => .refl fun x _ => .top x
  rcases s with ⟨x, e, p⟩ | ⟨_ | _, e, p⟩
  · exact .declare x (L.place_refl p) (hrefl e)
  · exact .value (L.place_refl p) (hrefl e)
  · cases h

/-- Variants in the place of the hole of a program give programs that are variants statement by
statement. -/
theorem ProgramContext.variant (c : ProgramContext) {e e' : Expr}
    (he : ∀ ρ : List (String × String), (∀ q ∈ ρ, q.1 = q.2) → e.Variant L ρ e') :
    List.Forall₂ (Statement.Variant L) (c.fill e) (c.fill e') := by
  have hrefl : ∀ ss : List Statement, (∀ s ∈ ss, s.expands = false) →
      List.Forall₂ (Statement.Variant L) ss ss := fun ss hss =>
    List.forall₂_same.2 fun s hs => .refl (hss s hs)
  have hhole : (c.statement.fill e).Variant L (c.statement.fill e') := by
    cases c.statement with
    | declare x e p => exact .declare x (L.place_refl p) (e.variant he (by simp))
    | output e p => exact .value (L.place_refl p) (e.variant he (by simp))
  have hbefore := hrefl c.before fun s hs => c.plain s (List.mem_append_left _ hs)
  have hafter := hrefl c.after fun s hs => c.plain s (List.mem_append_right _ hs)
  exact List.rel_append hbefore (.cons hhole hafter)

/-- Where places are the same, so are the reasons to stop. -/
theorem Stop.Variant.eq (hL : ∀ p p', L.place p p' → p = p') {stop stop' : Stop}
    (h : stop.Variant L stop') : stop = stop' := by
  cases h with
  | failed cause hp => rw [hL _ _ hp]
  | same => rfl

/-- Runs that are twins stop for the same reason, if places are kept. -/
theorem Outcome.Twins.stop_eq (hL : ∀ p p', L.place p p' → p = p') {r r' : Outcome}
    (h : r.Twins L r') : r.stop = r'.stop := by
  have hstop := h.stop
  generalize r.stop = stop at hstop ⊢
  generalize r'.stop = stop' at hstop ⊢
  cases hstop with
  | none => rfl
  | some hvariant => rw [hvariant.eq hL]

/-- Runs that are twins output values that are the same, or both functions. -/
theorem Outcome.Twins.similar {r r' : Outcome} (h : r.Twins L r') :
    List.Forall₂ (fun o o' => o.content.Similar o'.content) r.outputs r'.outputs := by
  refine h.outputs.imp ?_
  rintro o o' ⟨σ, τ, ho⟩
  exact ho.similar

end

/-- In a program without expansions, the parameter of any function can have any other name that does
not occur in its body, if the names that it binds are renamed with it: the program outputs the same,
with functions where functions were, and it ends for the same reason at the same place. -/
theorem parameter_name_irrelevant (c : ProgramContext) (x z : String) {body : Expr}
    (p : Option Location) (hz : z ∉ body.names) (hz' : z ∉ body.parameters) (limits : Limits) :
    let original := execute limits.force .global (c.fill (.arrow x body p)) .empty
    let renamed := execute limits.force .global (c.fill (.arrow z (body.rename x z) p)) .empty
    renamed.stop = original.stop ∧
      List.Forall₂ (fun o o' => o.content.Similar o'.content) original.outputs renamed.outputs := by
  intro original renamed
  have hprograms := c.variant fun ρ hρ => Expr.variant_arrow_rename hρ x z p hz hz'
  have htwins : original.Twins .names renamed :=
    (Store.rooted_empty.twins .names).execute limits.fuel limits.depth hprograms
  exact ⟨(htwins.stop_eq fun _ _ h => h).symm, htwins.similar⟩

/-- In `let z = true; let f = x => y => x && (x => x)(y); console.log(f); console.log(f(z)(q))` the
parameter of `f` can be called `z`: the name `z` of the top level does not occur in `f`, and the
inner function keeps its own parameter. Both programs fail, because `q` stands for nothing. -/
theorem parameter_name_irrelevant_shadowed :
    let x := Expr.name "x" none
    let y := Expr.name "y" none
    let f := Expr.name "f" none
    let body := Expr.arrow "y" (.binary .and x (.call (.arrow "x" x none) y none) none) none
    let limits : Limits := ⟨9, 9⟩
    let c : ProgramContext :=
      ⟨[.declare "z" (.literal (.boolean true) none) none], .declare "f" .hole none,
        [.output .value f none, .output .value
          (.call (.call f (.name "z" none) none) (.name "q" none) none) none], by decide⟩
    let original := execute limits.force .global (c.fill (.arrow "x" body none)) .empty
    let renamed := execute limits.force .global
      (c.fill (.arrow "z" (body.rename "x" "z") none)) .empty
    "z" ∉ body.names ∧ "z" ∉ body.parameters ∧
      body.rename "x" "z" = Expr.arrow "y"
        (.binary .and (.name "z" none) (.call (.arrow "x" x none) y none) none) none ∧
      original.stop = some (.error ⟨.undefined "q", none⟩) ∧ renamed.stop = original.stop ∧
      List.Forall₂ (fun o o' => o.content.Similar o'.content) original.outputs
        renamed.outputs := by
  intro x y f body limits c original renamed
  have hz : "z" ∉ body.names := by decide
  have hz' : "z" ∉ body.parameters := by decide
  have hstop : original.stop = some (.error ⟨.undefined "q", none⟩) := by decide +kernel
  exact ⟨hz, hz', by decide, hstop, parameter_name_irrelevant c "x" "z" none hz hz' limits⟩

end CallByNeed
