import CallByNeed.Expansion
import Mathlib.Data.List.Basic
import Mathlib.Tactic.Common

/-!
# Names in expressions

Which names occur in an expression, which of them occur free, and which are the parameters of the
functions in it. Expansion asks whether an expression mentions a bound name (`Expr.references`),
which is a question about its free names (`Expr.references_iff`).

A free name may stand inside of functions that have other parameters. The names that occur free
outside of all functions with one given parameter (`Expr.freeOutside`) are those under which that
parameter would not be captured.
-/

namespace CallByNeed

namespace Expr

/-- The names that stand for something in a tree, its parameters apart. -/
def names : Expr → List String
  | literal _ _ => []
  | name x _ => [x]
  | paren e _ | arrow _ e _ | unary _ e _ => e.names
  | call f a _ => f.names ++ a.names
  | binary _ l r _ => l.names ++ r.names
  | cond c t e _ => c.names ++ (t.names ++ e.names)

/-- A tree in which no name is marked as one that turned up within its own expansion. -/
def Unmarked (e : Expr) : Prop :=
  ∀ x, cycleMark x ∉ e.names

/-- The names that occur free, that is, not inside a function with that parameter. -/
def free : Expr → List String
  | literal _ _ => []
  | name x _ => [x]
  | paren e _ | unary _ e _ => e.free
  | arrow x e _ => e.free.filter (· != x)
  | call f a _ => f.free ++ a.free
  | binary _ l r _ => l.free ++ r.free
  | cond c t e _ => c.free ++ (t.free ++ e.free)

/-- The names that occur free outside of all functions whose parameter is `y`. -/
def freeOutside (y : String) : Expr → List String
  | literal _ _ => []
  | name x _ => [x]
  | paren e _ | unary _ e _ => e.freeOutside y
  | arrow x e _ => if x = y then [] else (e.freeOutside y).filter (· != x)
  | call f a _ => f.freeOutside y ++ a.freeOutside y
  | binary _ l r _ => l.freeOutside y ++ r.freeOutside y
  | cond c t e _ => c.freeOutside y ++ (t.freeOutside y ++ e.freeOutside y)

/-- The parameters of the functions in an expression. -/
def parameters : Expr → List String
  | literal _ _ | name _ _ => []
  | paren e _ | unary _ e _ => e.parameters
  | arrow x e _ => x :: e.parameters
  | call f a _ => f.parameters ++ a.parameters
  | binary _ l r _ => l.parameters ++ r.parameters
  | cond c t e _ => c.parameters ++ (t.parameters ++ e.parameters)

/-- The parameter of a function is not free in it. -/
theorem mem_free_arrow {x y : String} {e : Expr} {p : Option Location} :
    y ∈ (arrow x e p).free ↔ y ∈ e.free ∧ y ≠ x := by
  simp [free]

/-- A function with the parameter `y` has no names that are free outside of such functions. Any
other has those of its body, its parameter apart. -/
theorem mem_freeOutside_arrow {x y z : String} {e : Expr} {p : Option Location} :
    z ∈ (arrow x e p).freeOutside y ↔ x ≠ y ∧ z ∈ e.freeOutside y ∧ z ≠ x := by
  by_cases h : x = y <;> simp [freeOutside, h]

/-- What is free outside of some functions is free. -/
theorem free_of_freeOutside {y z : String} {e : Expr} (h : z ∈ e.freeOutside y) : z ∈ e.free := by
  induction e with
  | literal c p => exact h
  | name x p => exact h
  | paren e p ih => exact ih h
  | arrow x e p ih =>
    obtain ⟨-, h, hne⟩ := mem_freeOutside_arrow.1 h
    exact mem_free_arrow.2 ⟨ih h, hne⟩
  | call f a p ihf iha =>
    rw [freeOutside, List.mem_append] at h
    exact List.mem_append.2 (h.imp ihf iha)
  | unary op e p ih => exact ih h
  | binary op l r p ihl ihr =>
    rw [freeOutside, List.mem_append] at h
    exact List.mem_append.2 (h.imp ihl ihr)
  | cond c t e p ihc iht ihe =>
    rw [freeOutside, List.mem_append, List.mem_append] at h
    rw [free, List.mem_append, List.mem_append]
    exact h.imp ihc (Or.imp iht ihe)

/-- If no function has the parameter, nothing is inside of such a function. -/
theorem freeOutside_eq_free {y : String} {e : Expr} (h : y ∉ e.parameters) :
    e.freeOutside y = e.free := by
  induction e with
  | literal c p => rfl
  | name x p => rfl
  | paren e p ih => exact ih h
  | arrow x e p ih =>
    rw [parameters, List.mem_cons, not_or] at h
    rw [freeOutside, if_neg (Ne.symm h.1), ih h.2, free]
  | call f a p ihf iha =>
    rw [parameters, List.mem_append, not_or] at h
    rw [freeOutside, ihf h.1, iha h.2, free]
  | unary op e p ih => exact ih h
  | binary op l r p ihl ihr =>
    rw [parameters, List.mem_append, not_or] at h
    rw [freeOutside, ihl h.1, ihr h.2, free]
  | cond c t e p ihc iht ihe =>
    rw [parameters, List.mem_append, List.mem_append, not_or, not_or] at h
    rw [freeOutside, ihc h.1, iht h.2.1, ihe h.2.2, free]

/-- An expression mentions a bound name if one occurs free in it, and is no parameter from outside
either. -/
theorem references_iff (σ : Store) (env : Env) (params : List String) (e : Expr) :
    e.references σ env params = true ↔
      ∃ y ∈ e.free, y ∉ params ∧ σ.contains env y = true := by
  induction e generalizing params with
  | literal c p => simp [references, free]
  | name x p => simp [references, free]
  | paren e p ih => exact ih params
  | arrow x e p ih =>
    rw [references, ih]
    constructor
    · rintro ⟨y, hy, hparams, hbound⟩
      rw [List.mem_cons, not_or] at hparams
      exact ⟨y, mem_free_arrow.2 ⟨hy, hparams.1⟩, hparams.2, hbound⟩
    · rintro ⟨y, hy, hparams, hbound⟩
      obtain ⟨hy, hne⟩ := mem_free_arrow.1 hy
      exact ⟨y, hy, by simp [hne, hparams], hbound⟩
  | call f a p ihf iha =>
    simp only [references, free, Bool.or_eq_true, ihf, iha, List.mem_append, or_and_right,
      exists_or]
  | unary op e p ih => exact ih params
  | binary op l r p ihl ihr =>
    simp only [references, free, Bool.or_eq_true, ihl, ihr, List.mem_append, or_and_right,
      exists_or]
  | cond c t e p ihc iht ihe =>
    simp only [references, free, Bool.or_eq_true, ihc, iht, ihe, List.mem_append, or_and_right,
      exists_or, or_assoc]

/-! ## Marked names -/

/-- A tree is unmarked if no name in it starts with a point, as all marked ones do. -/
theorem unmarked_of_head {e : Expr} (h : ∀ x ∈ e.names, x.toList.head? ≠ some '.') :
    e.Unmarked := by
  intro x hx
  exact h _ hx (by simp [cycleMark])

section

variable {f a c t e l r : Expr} {p : Option Location}

/-! The parts of an unmarked tree are unmarked. -/

/-- The parts of a call without marks have none. -/
theorem Unmarked.call (h : (Expr.call f a p).Unmarked) : f.Unmarked ∧ a.Unmarked :=
  ⟨fun x hx => h x (List.mem_append_left _ hx), fun x hx => h x (List.mem_append_right _ hx)⟩

/-- The operands of an operator without marks have none. -/
theorem Unmarked.binary {op : BinaryOp} (h : (Expr.binary op l r p).Unmarked) :
    l.Unmarked ∧ r.Unmarked :=
  ⟨fun x hx => h x (List.mem_append_left _ hx), fun x hx => h x (List.mem_append_right _ hx)⟩

/-- The parts of a conditional without marks have none. -/
theorem Unmarked.cond (h : (Expr.cond c t e p).Unmarked) :
    c.Unmarked ∧ t.Unmarked ∧ e.Unmarked :=
  ⟨fun x hx => h x (List.mem_append_left _ hx),
    fun x hx => h x (List.mem_append_right _ (List.mem_append_left _ hx)),
    fun x hx => h x (List.mem_append_right _ (List.mem_append_right _ hx))⟩

end

end Expr

end CallByNeed
