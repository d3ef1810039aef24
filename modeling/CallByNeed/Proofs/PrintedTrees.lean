import CallByNeed.Proofs.NumberText
import CallByNeed.Proofs.ReaderFollows

/-!
# The tree that a printed expression is read as

Printing drops the parentheses of a tree and puts new ones where they are called for. `Expr.printed`
is the tree with those new parentheses. It is a proper tree, so that it is what its tokens are read
as (`Expr.proper_printed`), and it prints as the tree it came from (`Expr.render_printed`).

`Expr.WellFormed` says which trees can be written at all: names must be names, and numbers must not
be below zero.
-/

namespace CallByNeed

/-! ## Well-formed trees -/

/-- A constant that can be written: a number that is not below zero, or any text or truth value. -/
def Constant.WellFormed : Constant → Prop
  | number x => 0 ≤ x
  | string _ | boolean _ => True

/-- The numbers among the constants. -/
def Constant.numbers : Constant → List Float
  | number x => [x]
  | string _ | boolean _ => []

/-- The constant, the zero with a sign apart. -/
def Constant.unsigned : Constant → Constant
  | number x => number (Number.unsigned x)
  | string s => string s
  | boolean b => boolean b

namespace Expr

/-- A tree that can be written: all its names are names, and none of its numbers is below zero. -/
def WellFormed : Expr → Prop
  | literal c _ => c.WellFormed
  | name x _ => IsName x
  | paren e _ => e.WellFormed
  | arrow x e _ => IsName x ∧ e.WellFormed
  | call f a _ => f.WellFormed ∧ a.WellFormed
  | unary _ e _ => e.WellFormed
  | binary _ l r _ => l.WellFormed ∧ r.WellFormed
  | cond c t e _ => c.WellFormed ∧ t.WellFormed ∧ e.WellFormed

/-- The numbers in a tree, from left to right. -/
def numbers : Expr → List Float
  | literal c _ => c.numbers
  | name _ _ => []
  | paren e _ | arrow _ e _ | unary _ e _ => e.numbers
  | call f a _ => f.numbers ++ a.numbers
  | binary _ l r _ => l.numbers ++ r.numbers
  | cond c t e _ => c.numbers ++ (t.numbers ++ e.numbers)

/-- How many names and parameters there are in a tree. -/
def identifierCount : Expr → ℕ
  | literal _ _ => 0
  | name _ _ => 1
  | paren e _ | unary _ e _ => e.identifierCount
  | arrow _ e _ => 1 + e.identifierCount
  | call f a _ => f.identifierCount + a.identifierCount
  | binary _ l r _ => l.identifierCount + r.identifierCount
  | cond c t e _ => c.identifierCount + (t.identifierCount + e.identifierCount)

/-- The tree without its parentheses. -/
def erase : Expr → Expr
  | literal c p => literal c p
  | name x p => name x p
  | paren e _ => e.erase
  | arrow x e p => arrow x e.erase p
  | call f a p => call f.erase a.erase p
  | unary op e p => unary op e.erase p
  | binary op l r p => binary op l.erase r.erase p
  | cond c t e p => cond c.erase t.erase e.erase p

/-- Erasing keeps the identifiers. -/
theorem identifierCount_erase (e : Expr) : e.erase.identifierCount = e.identifierCount := by
  induction e <;> simp_all [erase, identifierCount]

/-- Expressions that are alike have equally many identifiers. -/
theorem identifierCount_eq_of_alike {e f : Expr} (h : e.alike f) :
    e.identifierCount = f.identifierCount := by
  fun_induction alike e f with
  | case1 | case2 => rfl
  | case3 e _ f _ ih => exact ih h
  | case4 x e _ y f _ ih =>
    rw [Bool.and_eq_true] at h
    rw [identifierCount, identifierCount, ih h.2]
  | case5 f a _ g b _ ihf iha =>
    rw [Bool.and_eq_true] at h
    rw [identifierCount, identifierCount, ihf h.1, iha h.2]
  | case6 o e _ p f _ ih =>
    rw [Bool.and_eq_true] at h
    exact ih h.2
  | case7 o l r _ p k s _ ihl ihr =>
    rw [Bool.and_eq_true, Bool.and_eq_true] at h
    rw [identifierCount, identifierCount, ihl h.1.2, ihr h.2]
  | case8 c t e _ d u f _ ihc iht ihe =>
    rw [Bool.and_eq_true, Bool.and_eq_true] at h
    rw [identifierCount, identifierCount, ihc h.1.1, iht h.1.2, ihe h.2]
  | case9 => cases h

/-! ## The printed tree -/

/-- The tree in parentheses, if they are wanted. -/
def wrap (wanted : Bool) (e : Expr) : Expr :=
  if wanted then paren e none else e

/-- The tree with the parentheses that the printer puts. -/
def printed : Expr → Expr
  | literal c _ => literal c.unsigned none
  | name x _ => name x none
  | paren e _ => e.printed
  | arrow x e _ => arrow x e.printed none
  | call f a _ => call (f.printed.wrap (f.precedence < 8)) a.printed none
  | unary op e _ => unary op (e.printed.wrap (e.precedence < 7)) none
  | binary op l r _ =>
    binary op (l.printed.wrap (l.precedence < op.precedence))
      (r.printed.wrap (r.precedence ≤ op.precedence)) none
  | cond c t e _ => cond (c.printed.wrap (c.precedence ≤ 0)) t.printed e.printed none

/-- Parentheses do not count for the precedence of the printer. -/
@[simp]
theorem precedence_wrap (wanted : Bool) (e : Expr) : (e.wrap wanted).precedence = e.precedence := by
  cases wanted <;> rfl

/-- Parentheses of the tree are not printed, only those that are wanted. -/
@[simp]
theorem render_wrap (wanted : Bool) (e : Expr) : (e.wrap wanted).render = e.render := by
  cases wanted <;> rfl

/-- Parentheses are erased. -/
@[simp]
theorem erase_wrap (wanted : Bool) (e : Expr) : (e.wrap wanted).erase = e.erase := by
  cases wanted <;> rfl

/-- The tree of the printed text has the precedence of the expression. -/
@[simp]
theorem precedence_printed (e : Expr) : e.printed.precedence = e.precedence := by
  induction e <;> simp_all [printed, precedence]

/-- A printed tree binds at least as tightly as the grammar has to know. -/
theorem precedence_le_rung_printed (e : Expr) : e.precedence ≤ e.printed.rung := by
  induction e <;> simp_all [printed, precedence, rung]

/-- Where parentheses are not wanted, the part binds tightly enough. -/
theorem le_rung_wrap {e : Expr} {wanted : Bool} {k : ℕ} (hk : k ≤ 9)
    (h : wanted = false → k ≤ e.precedence) : k ≤ (e.printed.wrap wanted).rung := by
  cases wanted with
  | true => exact hk
  | false => exact (h rfl).trans (precedence_le_rung_printed e)

/-- What binds more tightly than a conditional is closed. -/
theorem closed_printed {e : Expr} (h : 0 < e.precedence) : e.printed.closed := by
  induction e with
  | literal | name | call => rfl
  | arrow | cond => exact absurd h (lt_irrefl 0)
  | paren e p ih => exact ih h
  | unary op e p ih =>
    rw [printed, closed]
    by_cases hwrap : e.precedence < 7
    · simp [wrap, hwrap, closed]
    · simpa [wrap, hwrap] using ih (by omega)
  | binary op l r p _ ih =>
    rw [printed, closed]
    by_cases hwrap : r.precedence ≤ op.precedence
    · simp [wrap, hwrap, closed]
    · simpa [wrap, hwrap] using ih (by omega)

/-- Where parentheses are not wanted, the part is closed. -/
theorem closed_wrap {e : Expr} {wanted : Bool} (h : wanted = false → 0 < e.precedence) :
    (e.printed.wrap wanted).closed := by
  cases wanted with
  | true => rfl
  | false => exact closed_printed (h rfl)

/-- Parentheses keep a tree proper. -/
theorem proper_wrap {e : Expr} (wanted : Bool) (h : e.Proper) : (e.wrap wanted).Proper := by
  cases wanted <;> exact h

/-- The printer puts all parentheses that the grammar asks for. -/
theorem proper_printed (e : Expr) : e.printed.Proper := by
  induction e with
  | literal | name => trivial
  | paren e p ih => exact ih
  | arrow x e p ih => exact ih
  | call f a p ihf iha =>
    refine ⟨le_rung_wrap (by decide) ?_, closed_wrap ?_, proper_wrap _ ihf, iha⟩ <;>
      simp only [decide_eq_false_iff_not] <;> omega
  | unary op e p ih =>
    refine ⟨le_rung_wrap (by decide) ?_, proper_wrap _ ih⟩
    simp only [decide_eq_false_iff_not]
    omega
  | binary op l r p ihl ihr =>
    have hseven := op.precedence_lt_seven
    have hpos := op.precedence_pos
    refine ⟨le_rung_wrap (by omega) ?_, closed_wrap ?_, le_rung_wrap (by omega) ?_,
      proper_wrap _ ihl, proper_wrap _ ihr⟩ <;>
      simp only [decide_eq_false_iff_not] <;> omega
  | cond c t e p ihc iht ihe =>
    refine ⟨le_rung_wrap (by decide) ?_, closed_wrap ?_, proper_wrap _ ihc, iht, ihe⟩ <;>
      simp only [decide_eq_false_iff_not] <;> omega

/-- The printed tree prints as the tree it came from. -/
theorem render_printed (e : Expr) : e.printed.render = e.render := by
  induction e with
  | literal c p =>
    cases c with
    | number x => exact Number.display_unsigned x
    | string | boolean => rfl
  | name => rfl
  | _ => simp_all [printed, render]

/-- The printed tree is the tree it came from, apart from parentheses and places. -/
theorem alike_erase_printed {e : Expr} (he : e.WellFormed) : e.printed.erase.alike e.erase := by
  induction e with
  | literal c p =>
    cases c with
    | number x => exact Number.unsigned_beq he
    | string | boolean => simp [printed, erase, alike, Constant.unsigned, Constant.alike]
  | _ => simp_all [printed, erase, alike, WellFormed]

/-! ## Places -/

/-- Places do not matter to precedence. -/
theorem precedence_unplaced (e : Expr) : e.unplaced.precedence = e.precedence := by
  induction e <;> simp_all [unplaced, precedence]

/-- Places are not printed. -/
theorem render_unplaced (e : Expr) : e.unplaced.render = e.render := by
  induction e <;> simp_all [unplaced, render, precedence_unplaced]

/-- Places do not matter to whether expressions are alike. -/
theorem alike_erase_unplaced (e f : Expr) :
    e.unplaced.erase.alike f = e.erase.alike f := by
  -- trees of different forms are not alike, whatever their parts are
  induction e generalizing f with
  | literal | name => cases f <;> rfl
  | paren e p ih => exact ih f
  | arrow x e p ih =>
    cases f with
    | arrow y f q => simp only [unplaced, erase, alike, ih]
    | _ => rfl
  | call g a p ihg iha =>
    cases f with
    | call h b q => simp only [unplaced, erase, alike, ihg, iha]
    | _ => rfl
  | unary op e p ih =>
    cases f with
    | unary o f q => simp only [unplaced, erase, alike, ih]
    | _ => rfl
  | binary op l r p ihl ihr =>
    cases f with
    | binary o k s q => simp only [unplaced, erase, alike, ihl, ihr]
    | _ => rfl
  | cond c t e p ihc iht ihe =>
    cases f with
    | cond d u f q => simp only [unplaced, erase, alike, ihc, iht, ihe]
    | _ => rfl

/-- The tree without parentheses and places. -/
def bare : Expr → Expr
  | literal c _ => literal c none
  | name x _ => name x none
  | paren e _ => e.bare
  | arrow x e _ => arrow x e.bare none
  | call f a _ => call f.bare a.bare none
  | unary op e _ => unary op e.bare none
  | binary op l r _ => binary op l.bare r.bare none
  | cond c t e _ => cond c.bare t.bare e.bare none

/-- The precedence of an expression is that of its bare tree. -/
theorem precedence_bare (e : Expr) : e.bare.precedence = e.precedence := by
  induction e <;> simp_all [bare, precedence]

/-- An expression is printed as its bare tree. -/
theorem render_bare (e : Expr) : e.bare.render = e.render := by
  induction e <;> simp_all [bare, render, precedence_bare]

end Expr

end CallByNeed
