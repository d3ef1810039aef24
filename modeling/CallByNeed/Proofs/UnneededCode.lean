import CallByNeed.Proofs.LockStep
import Mathlib.Data.List.Forall2

/-!
# Code that is not needed does not matter

A program with a hole (`ProgramContext`) is run twice, once with an expression in the hole that
fails in every environment, and once with any other expression. If the first run comes to its end,
then it has never evaluated what is in the hole, and so the second run goes in lock step with it: it
comes to its end as well, and it outputs the same, apart from what is inside of functions
(`unneeded_code_irrelevant`).

Neither run is ever ahead of the other one, so that none has to catch up.
-/

namespace CallByNeed

/-! ## Programs with a hole -/

/-- An expression with a hole. -/
inductive Expr.Context where
  /-- The hole itself. -/
  | hole
  | paren (inner : Context) (place : Option Location)
  | arrow (parameter : String) (body : Context) (place : Option Location)
  | callee (callee : Context) (argument : Expr) (place : Option Location)
  | argument (callee : Expr) (argument : Context) (place : Option Location)
  | operand (op : UnaryOp) (operand : Context) (place : Option Location)
  | left (op : BinaryOp) (left : Context) (right : Expr) (place : Option Location)
  | right (op : BinaryOp) (left : Expr) (right : Context) (place : Option Location)
  | condition (condition : Context) (consequent alternate : Expr) (place : Option Location)
  | consequent (condition : Expr) (consequent : Context) (alternate : Expr)
      (place : Option Location)
  | alternate (condition consequent : Expr) (alternate : Context) (place : Option Location)

/-- The expression with something in its hole. -/
def Expr.Context.fill (inside : Expr) : Expr.Context → Expr
  | hole => inside
  | paren c p => .paren (c.fill inside) p
  | arrow x c p => .arrow x (c.fill inside) p
  | callee c a p => .call (c.fill inside) a p
  | argument f c p => .call f (c.fill inside) p
  | operand op c p => .unary op (c.fill inside) p
  | left op c r p => .binary op (c.fill inside) r p
  | right op l c p => .binary op l (c.fill inside) p
  | condition c t e p => .cond (c.fill inside) t e p
  | consequent c t e p => .cond c (t.fill inside) e p
  | alternate c t e p => .cond c t (e.fill inside) p

/-- A statement with a hole in its expression, which does not output an expansion. -/
inductive Statement.Context where
  /-- A declaration. -/
  | declare (name : String) (expr : Expr.Context) (place : Option Location)
  /-- The output of a value. -/
  | output (expr : Expr.Context) (place : Option Location)

/-- The statement with something in its hole. -/
def Statement.Context.fill (inside : Expr) : Statement.Context → Statement
  | declare x c p => .declare x (c.fill inside) p
  | output c p => .output .value (c.fill inside) p

/-- Whether a statement outputs an expansion. -/
def Statement.expands : Statement → Bool
  | output .expansion _ _ => true
  | _ => false

/-- A program with a hole, which does not output expansions. -/
structure ProgramContext where
  /-- The statements before the one that has the hole. -/
  before : List Statement
  /-- The statement that has the hole. -/
  statement : Statement.Context
  /-- The statements after it. -/
  after : List Statement
  /-- None of them outputs an expansion. -/
  plain : ∀ s ∈ before ++ after, s.expands = false

/-- The program with something in its hole. -/
def ProgramContext.fill (inside : Expr) (c : ProgramContext) : List Statement :=
  c.before ++ c.statement.fill inside :: c.after

/-- Evaluating the expression fails in every environment, however far evaluation may go. -/
def Expr.Raises (e : Expr) : Prop :=
  ∀ (limits : Limits) (σ : Store) (env : Env), σ.Sane → σ.HasEnv env →
    ∃ stop σ', limits.eval env e σ = .error stop σ'

/-! ## Both runs -/

/-- The one hole that two programs may differ in. -/
def Hole (bad e : Expr) : Expr → Expr → Prop :=
  fun old new => old = bad ∧ new = e

/-- What is expected: only that the second run succeeds wherever the first one does. -/
def Mode.successes : Mode Unit :=
  ⟨pure (), fun _ => True, fun _ => False⟩

instance : Mode.successes.along.NeBot :=
  inferInstanceAs (pure () : Filter Unit).NeBot

section

variable {bad e : Expr}

/-- Filling a hole in two ways gives expressions that differ there only. -/
theorem Expr.Context.swaps (c : Expr.Context) :
    Swaps (Hole bad e) (c.fill bad) (c.fill e) := by
  induction c with
  | hole => exact .hole ⟨rfl, rfl⟩
  | paren c p ih => exact .paren p ih
  | arrow x c p ih => exact .arrow x p ih
  | callee c a p ih => exact .call p ih (.refl a)
  | argument f c p ih => exact .call p (.refl f) ih
  | operand op c p ih => exact .unary op p ih
  | left op c r p ih => exact .binary op p ih (.refl r)
  | right op l c p ih => exact .binary op p (.refl l) ih
  | condition c t e p ih => exact .cond p ih (.refl t) (.refl e)
  | consequent c t e p ih => exact .cond p (.refl c) ih (.refl e)
  | alternate c t e p ih => exact .cond p (.refl c) (.refl t) ih

/-- A statement that outputs no expansion is the same as itself. -/
theorem Statement.Swaps.refl {H : Expr → Expr → Prop} {s : Statement} (h : s.expands = false) :
    s.Swaps H s := by
  rcases s with ⟨x, e, p⟩ | ⟨_ | _, e, p⟩
  · exact .declare x p (.refl e)
  · exact .output p (.refl e)
  · cases h

/-- Filling the hole of a program in two ways gives programs that differ there only. -/
theorem ProgramContext.swaps (c : ProgramContext) :
    List.Forall₂ (Statement.Swaps (Hole bad e)) (c.fill bad) (c.fill e) := by
  have hrefl : ∀ ss : List Statement, (∀ s ∈ ss, s.expands = false) →
      List.Forall₂ (Statement.Swaps (Hole bad e)) ss ss := fun ss hss =>
    List.forall₂_same.2 fun s hs => .refl (hss s hs)
  have hhole : (c.statement.fill bad).Swaps (Hole bad e) (c.statement.fill e) := by
    cases c.statement with
    | declare x e p => exact .declare x p e.swaps
    | output e p => exact .output p e.swaps
  have hbefore := hrefl c.before fun s hs => c.plain s (List.mem_append_left _ hs)
  have hafter := hrefl c.after fun s hs => c.plain s (List.mem_append_right _ hs)
  exact List.rel_append hbefore (.cons hhole hafter)

/-- If what is in the hole of the first program fails, both runs go in lock step until it is
evaluated. -/
theorem pace_of_raises (hbad : bad.Raises) :
    Pace .successes (fun _ => force) (Hole bad e) .blank := by
  refine pace_same ?_ (fun _ _ _ => .inr trivial) ?_
  · -- at the hole the first run stops
    rintro fuel depth P σ τ env env' _ _ h henv ⟨rfl, rfl⟩
    obtain ⟨stop, σ', hstop⟩ := hbad ⟨fuel, depth⟩ σ env h.ahead (h.hasEnv henv).1
    exact .ahead hstop trivial
  · -- all results are in both stores
    intro fuel depth P σ τ a b v h hab hv hnone
    obtain ⟨d, w, had, hw⟩ := (h.late a v hv).resolve_left List.not_mem_nil
    rw [← (h.cell_iff hab had).1 rfl, hnone] at hw
    cases hw

/-- A program that comes to its end outputs the same, and comes to its end, whatever is put in the
place of an expression that cannot be evaluated. -/
theorem execute_swaps (hbad : bad.Raises) (fuel depth : ℕ) {ss ss' : List Statement}
    (hss : List.Forall₂ (Statement.Swaps (Hole bad e)) ss ss') {P : Pairing} {σ τ : Store}
    (h : Leads (Hole bad e) .blank P σ τ)
    (hstop : (execute (force fuel depth) .global ss σ).stop = none) :
    (execute (force fuel depth) .global ss' τ).stop = none ∧
      List.Forall₂ (fun o o' => o.content.Similar o'.content)
        (execute (force fuel depth) .global ss σ).outputs
        (execute (force fuel depth) .global ss' τ).outputs := by
  induction hss generalizing P σ τ with
  | nil => exact ⟨rfl, .nil⟩
  | @cons s s' ss ss' hs _ ih =>
    -- the first run has not stopped at this statement, so the second one has not either
    cases (pace_of_raises hbad).track_execute fuel depth hs h with
    | behind hy =>
      obtain ⟨_, _, _, _, hfalse⟩ := hy.exists
      exact hfalse.elim
    | ahead hx =>
      rw [execute_cons_of_error hx] at hstop
      cases hstop
    | error hx =>
      rw [execute_cons_of_error hx] at hstop
      cases hstop
    | ok hx hy hP hQ ho =>
      obtain ⟨-, hy⟩ := hy.exists
      rw [execute_cons_of_ok hx] at hstop ⊢
      rw [execute_cons_of_ok hy]
      obtain ⟨hstop', houtputs⟩ := ih hQ hstop
      refine ⟨hstop', List.rel_append ?_ houtputs⟩
      cases ho with
      | none => exact .nil
      | some ho => exact .cons ho.similar .nil

end

/-- If a program without expansions comes to its end with an expression in it that cannot be
evaluated anywhere, then with any other expression in that place it comes to its end too, and its
outputs are the same, with functions where functions were. -/
theorem unneeded_code_irrelevant (c : ProgramContext) {bad : Expr} (hbad : bad.Raises)
    (limits : Limits) (hrun : (execute limits.force .global (c.fill bad) .empty).stop = none)
    (e : Expr) :
    (execute limits.force .global (c.fill e) .empty).stop = none ∧
      List.Forall₂ (fun o o' => o.content.Similar o'.content)
        (execute limits.force .global (c.fill bad) .empty).outputs
        (execute limits.force .global (c.fill e) .empty).outputs :=
  execute_swaps hbad limits.fuel limits.depth c.swaps (Ledger.audited_blank.leads _) hrun

/-- No constant can be called. -/
theorem Expr.raises_call_literal (c : Constant) (a : Expr) (p place : Option Location) :
    (Expr.call (.literal c p) a place).Raises := by
  rintro ⟨fuel, depth⟩ σ env - -
  cases c <;> cases fuel <;> exact ⟨_, _, rfl⟩

/-- In `let f = x => x ? x : □; console.log(f(true)); console.log(f)` the hole can hold `true(x)`,
which cannot be evaluated, and so it can hold the call `f(f)` as well. -/
theorem unneeded_code_irrelevant_branch :
    let x := Expr.name "x" none
    let f := Expr.name "f" none
    let yes := Expr.literal (.boolean true) none
    let bad := Expr.call yes x none
    let limits : Limits := ⟨9, 9⟩
    let c : ProgramContext :=
      ⟨[], .declare "f" (.arrow "x" (.alternate x x .hole none) none) none,
        [.output .value (.call f yes none) none, .output .value f none], by decide⟩
    bad.Raises ∧ (execute limits.force .global (c.fill bad) .empty).stop = none ∧
      (execute limits.force .global (c.fill (.call f f none)) .empty).stop = none ∧
      List.Forall₂ (fun o o' => o.content.Similar o'.content)
        (execute limits.force .global (c.fill bad) .empty).outputs
        (execute limits.force .global (c.fill (.call f f none)) .empty).outputs := by
  intro x f yes bad limits c
  have hbad : bad.Raises := Expr.raises_call_literal _ _ _ _
  have hrun : (execute limits.force .global (c.fill bad) .empty).stop = none := by decide +kernel
  exact ⟨hbad, hrun, unneeded_code_irrelevant c hbad limits hrun (.call f f none)⟩

end CallByNeed
