import CallByNeed.Proofs.StoreInvariant
import CallByNeed.Session
import Mathlib.Data.List.Induction

/-!
# The discipline of results

A session runs one program after the other at one top level, and some of them fail. Whatever they
do, a thunk is evaluated to the end at most once and its result is kept once; it has no result while
it is evaluated, nor when its evaluation was given up; and between statements nothing is being
evaluated.
-/

namespace CallByNeed

/-- The store after some programs were run one after the other at the top level, each within limits
of its own. -/
def storeAfter (runs : List (Limits × Program)) : Store :=
  runs.foldl (fun σ run => (run.2.run run.1 .global σ).2) .empty

/-- Whatever programs were run, the store is kept up and no thunk is marked. -/
theorem ok_storeAfter {W : Expr → Prop} (hW : ∀ e, W e → ∀ c ∈ e.children, W c)
    (runs : List (Limits × Program)) (hruns : ∀ run ∈ runs, ∀ s ∈ run.2.statements, W s.expr) :
    (storeAfter runs).Ok W ∧ ∀ a, ((storeAfter runs).cell a).busy = false := by
  induction runs using List.reverseRecOn with
  | nil => exact ⟨Store.ok_empty, fun _ => rfl⟩
  | append_singleton runs run ih =>
    obtain ⟨hok, hbusy⟩ := ih fun r hr => hruns r (List.mem_append_left _ hr)
    have hlast := ok_execute hW (run.1.forces_ok hW) .global run.2.statements
      (hruns run (List.mem_append_right _ List.mem_cons_self)) hok
    rw [storeAfter, List.foldl_append]
    exact ⟨hlast.1, fun a => (hlast.2.1 a).trans (hbusy a)⟩

/-- After any programs, and any statements of one more, have been executed at the top level, the run
has not stopped because a result was to be kept twice, and no thunk is marked. The log tells which
thunks have a result. It tells that every thunk was evaluated to the end at most once, in which case
its result was kept, and was kept once; that at no time a thunk was being evaluated and had a
result; and that a thunk had no result when its evaluation was given up. -/
theorem memo_discipline (runs : List (Limits × Program)) (limits : Limits)
    (statements : List Statement) :
    let outcome := execute limits.force .global statements (storeAfter runs)
    let log := outcome.store.log
    outcome.stop ≠ some .refilled ∧
    (∀ a, (outcome.store.cell a).busy = false) ∧
    (∀ a, (outcome.store.cell a).memo.isSome = true ↔ .filled a ∈ log) ∧
    (∀ a, .finished a ∈ log → .filled a ∈ log) ∧
    (∀ a, log.count (.finished a) ≤ 1 ∧ log.count (.filled a) ≤ 1) ∧
    (∀ earlier, earlier <:+ log → ∀ a, ¬(inProgress a earlier = true ∧ .filled a ∈ earlier)) ∧
    (∀ earlier a, .abandoned a :: earlier <:+ log → .filled a ∉ earlier) := by
  intro outcome log
  have hW : ∀ e : Expr, True → ∀ c ∈ e.children, True := fun _ _ _ _ => trivial
  obtain ⟨hok, hidle⟩ := ok_storeAfter hW runs fun _ _ _ _ => trivial
  obtain ⟨hok', hbusy, hstop⟩ := ok_execute hW (limits.forces_ok hW) .global statements
    (fun _ _ => trivial) hok
  refine ⟨hstop, fun a => (hbusy a).trans (hidle a), hok'.filled, hok'.finished, fun a => ?_,
    fun earlier hsuffix a h => ?_, fun earlier a hsuffix => ?_⟩
  · exact ⟨hok'.log.count_finished_le_one a, hok'.log.count_filled_le_one a⟩
  · exact (hok'.log.of_suffix hsuffix).not_filled_of_inProgress h.1 h.2
  · exact hok'.log.not_filled_of_abandoned hsuffix

end CallByNeed
