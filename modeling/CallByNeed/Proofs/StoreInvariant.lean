import CallByNeed.Proofs.EvaluationRules

/-!
# What every store keeps up

The log of a store tells when the evaluation of each thunk began, when it was abandoned or finished,
and when the result was kept. `Disciplined` says which events may follow which: a thunk is evaluated
only while it has no result, and its result is kept right after its evaluation has finished.

`Store.Ok W` says that marks and results of thunks are what the log tells, that the log is
disciplined, that no value refers to a thunk that does not exist, and that all expressions in the
store satisfy `W`; if `W` is a restriction at all, then no value is absent either. `Store.Extends`
says what evaluation may change: afterwards the same thunks are marked as before, and none of those
has got a result.

Both are kept up by evaluation, whether it succeeds or fails (`Upkeep.lawful_ok`,
`Upkeep.memoizes_ok`), and so by programs (`keeps_execute`). If it fails, then by a rule of the
language and at the place of an expression that satisfies `W`, or for one of the few other reasons
that `Stop.Regular` leaves.
-/

namespace CallByNeed

/-! ## The log -/

/-- Whether a thunk is being evaluated after these events, the last first. -/
def inProgress (a : CellId) : List Event → Bool
  | [] => false
  | .began b :: log => b == a || inProgress a log
  | .abandoned b :: log | .finished b :: log => b != a && inProgress a log
  | .combined _ _ _ :: log | .filled _ :: log => inProgress a log

/-- Whether an event may come after the ones before it. -/
def Event.Allowed (log : List Event) : Event → Prop
  | .combined _ _ _ => True
  | .began a => inProgress a log = false ∧ .filled a ∉ log
  | .abandoned a => inProgress a log = true ∧ .filled a ∉ log
  | .finished a => inProgress a log = true ∧ .filled a ∉ log ∧ .finished a ∉ log
  | .filled a => inProgress a log = false ∧ .filled a ∉ log ∧ log.head? = some (.finished a)

/-- A log in which every event was allowed when it happened. -/
inductive Disciplined : List Event → Prop where
  | nil : Disciplined []
  | cons {e : Event} {log : List Event} : e.Allowed log → Disciplined log → Disciplined (e :: log)

namespace Disciplined

variable {log : List Event}

/-- What happened earlier was disciplined too. -/
theorem of_suffix {earlier : List Event} (h : Disciplined log) (hsuffix : earlier <:+ log) :
    Disciplined earlier := by
  induction h with
  | nil => rw [List.suffix_nil.1 hsuffix]; exact .nil
  | cons he hlog ih =>
    rcases List.suffix_cons_iff.1 hsuffix with rfl | hsuffix
    · exact .cons he hlog
    · exact ih hsuffix

/-- No thunk has a result while it is evaluated. -/
theorem not_filled_of_inProgress (h : Disciplined log) {a : CellId}
    (ha : inProgress a log = true) : .filled a ∉ log := by
  induction h with
  | nil => simp
  | @cons e log he _ ih =>
    cases e with
    | combined => simpa using ih ha
    | began b =>
      by_cases hb : b = a
      · subst hb
        simpa using he.2
      · simpa using ih (by simpa [inProgress, hb] using ha)
    | abandoned b | finished b =>
      -- after these events the thunk they are about is not being evaluated, so it is another one
      have hne : b ≠ a := by
        rintro rfl
        simp [inProgress] at ha
      simpa using ih (by simpa [inProgress, hne] using ha)
    | filled b =>
      have hne : a ≠ b := by
        rintro rfl
        exact absurd (he.1.symm.trans ha) Bool.false_ne_true
      simpa [hne] using ih ha

/-- The result of a thunk is kept once. -/
theorem count_filled_le_one (h : Disciplined log) (a : CellId) : log.count (.filled a) ≤ 1 := by
  induction h with
  | nil => simp
  | @cons e log he _ ih =>
    by_cases hea : e = .filled a
    · subst hea
      exact Nat.le_of_eq (by rw [List.count_cons_self, List.count_eq_zero.2 he.2.1])
    · rwa [List.count_cons_of_ne hea]

/-- The evaluation of a thunk finishes once. -/
theorem count_finished_le_one (h : Disciplined log) (a : CellId) :
    log.count (.finished a) ≤ 1 := by
  induction h with
  | nil => simp
  | @cons e log he _ ih =>
    by_cases hea : e = .finished a
    · subst hea
      exact Nat.le_of_eq (by rw [List.count_cons_self, List.count_eq_zero.2 he.2.2])
    · rwa [List.count_cons_of_ne hea]

/-- A thunk whose evaluation is abandoned has no result. -/
theorem not_filled_of_abandoned {a : CellId} {earlier : List Event} (h : Disciplined log)
    (hsuffix : .abandoned a :: earlier <:+ log) : .filled a ∉ earlier := by
  cases h.of_suffix hsuffix with
  | cons he => exact he.2

end Disciplined

/-! ## Stores -/

/-- A function has a body that satisfies `W`. Nothing is known about a value that is absent, so
there is none unless every expression satisfies `W`. -/
def Content.Ok (W : Expr → Prop) : Content → Prop
  | .function _ body _ => W body
  | .nothing => ∀ e, W e
  | _ => True

/-- A value that refers to a thunk that exists, or an object that satisfies `W`. -/
def Value.Ok (W : Expr → Prop) (σ : Store) : Value → Prop
  | .object o => o.content.Ok W
  | .thunk a => a < σ.cells.size

/-- The marks and results of the thunks are what the log tells, the log is disciplined, and all
expressions satisfy `W`. -/
structure Store.Ok (W : Expr → Prop) (σ : Store) : Prop where
  /-- The expressions of thunks satisfy `W`. -/
  expr : ∀ a < σ.cells.size, W (σ.cell a).expr
  /-- The results of thunks are values of the store. -/
  memo : ∀ a v, (σ.cell a).memo = some v → v.Ok W σ
  /-- Names are bound to values of the store. -/
  frame : ∀ i, ∀ b ∈ σ.frame i, b.2.Ok W σ
  /-- The marked thunks are those that are being evaluated. -/
  busy : ∀ a, (σ.cell a).busy = inProgress a σ.log
  /-- The thunks that have a result are those whose result was kept. -/
  filled : ∀ a, (σ.cell a).memo.isSome = true ↔ .filled a ∈ σ.log
  /-- The result of every thunk that was evaluated to the end was kept. -/
  finished : ∀ a, .finished a ∈ σ.log → .filled a ∈ σ.log
  /-- The log is disciplined. -/
  log : Disciplined σ.log

/-- What evaluation may change in a store. -/
structure Store.Extends (σ σ' : Store) : Prop where
  /-- No thunk is lost. -/
  size : σ.cells.size ≤ σ'.cells.size
  /-- No frame is lost. -/
  frames : σ.frames.size ≤ σ'.frames.size
  /-- No name is bound anew. -/
  frame : ∀ i < σ.frames.size, σ'.frame i = σ.frame i
  /-- No thunk gets another expression. -/
  expr : ∀ a < σ.cells.size, (σ'.cell a).expr = (σ.cell a).expr
  /-- No thunk gets another environment. -/
  env : ∀ a < σ.cells.size, (σ'.cell a).env = (σ.cell a).env
  /-- The same thunks are marked. -/
  busy : ∀ a, (σ'.cell a).busy = (σ.cell a).busy
  /-- No marked thunk gets a result. -/
  memo : ∀ a, (σ.cell a).busy = true → (σ'.cell a).memo = (σ.cell a).memo

/-- A store extends itself. -/
theorem Store.Extends.refl (σ : Store) : σ.Extends σ :=
  ⟨Nat.le_refl _, Nat.le_refl _, fun _ _ => rfl, fun _ _ => rfl, fun _ _ => rfl, fun _ => rfl,
    fun _ _ => rfl⟩

/-- Extensions can be made one after the other. -/
theorem Store.Extends.trans {σ σ' σ'' : Store} (h : σ.Extends σ') (h' : σ'.Extends σ'') :
    σ.Extends σ'' where
  size := Nat.le_trans h.size h'.size
  frames := Nat.le_trans h.frames h'.frames
  frame i hi := (h'.frame i (Nat.lt_of_lt_of_le hi h.frames)).trans (h.frame i hi)
  expr a ha := (h'.expr a (Nat.lt_of_lt_of_le ha h.size)).trans (h.expr a ha)
  env a ha := (h'.env a (Nat.lt_of_lt_of_le ha h.size)).trans (h.env a ha)
  busy a := (h'.busy a).trans (h.busy a)
  memo a ha := (h'.memo a ((h.busy a).trans ha)).trans (h.memo a ha)

/-- A value of a store stays one as thunks are added. -/
theorem Value.Ok.mono {W : Expr → Prop} {σ σ' : Store} (h : σ.cells.size ≤ σ'.cells.size)
    {v : Value} (hv : v.Ok W σ) : v.Ok W σ' := by
  cases v with
  | object o => exact hv
  | thunk a => exact Nat.lt_of_lt_of_le hv h

/-! ## What the operations on stores keep up -/

namespace Store

variable {W : Expr → Prop} {σ : Store}

/-- The empty store is kept up. -/
theorem ok_empty : Store.empty.Ok W where
  expr a ha := absurd ha (Nat.not_lt_zero a)
  memo a v h := by simp [empty, cell, default] at h
  frame i b hb := by
    rcases i with _ | i <;> simp [empty, frame] at hb
  busy a := by simp [empty, cell, inProgress, default]
  filled a := by simp [empty, cell, default]
  finished a h := by simp [empty] at h
  log := .nil

/-- A new thunk is the only change. -/
theorem cell_newThunk (e : Expr) (env : Env) (a : CellId) :
    (σ.newThunk e env).2.cell a =
      if a = σ.cells.size then ⟨e, env, none, false⟩ else σ.cell a := by
  split
  · next h => rw [h, cell_newThunk_self]
  · next h =>
    rcases Nat.lt_or_gt_of_ne h with h | h
    · exact cell_newThunk_of_lt σ h e env
    · simp [newThunk, cell, Array.getD, Nat.not_lt.2 (Nat.succ_le_of_lt h),
        Nat.not_lt.2 (Nat.le_of_lt h)]

/-- A thunk that does not exist has no result and is not marked. -/
theorem cell_of_size_le {a : CellId} (h : σ.cells.size ≤ a) : σ.cell a = default := by
  simp [cell, Array.getD, Nat.not_lt.2 h]

/-- A frame that does not exist is empty. -/
theorem frame_of_size_le {i : FrameId} (h : σ.frames.size ≤ i) : σ.frame i = [] := by
  simp [frame, Array.getD, Nat.not_lt.2 h]

/-- A store is kept up when a thunk is added for an expression of the given sort. -/
theorem Ok.newThunk (h : σ.Ok W) {e : Expr} (he : W e) (env : Env) :
    (σ.newThunk e env).2.Ok W := by
  have hsize : σ.cells.size ≤ (σ.newThunk e env).2.cells.size := by simp
  -- the log does not tell about a thunk that did not exist yet
  have hself : σ.cell σ.cells.size = default := cell_of_size_le (Nat.le_refl _)
  have hbusy : inProgress σ.cells.size σ.log = false := by rw [← h.busy, hself]; rfl
  refine ⟨fun a ha => ?_, fun a v hv => ?_, fun i b hb => (h.frame i b hb).mono hsize,
    fun a => ?_, fun a => ?_, h.finished, h.log⟩
  · rw [cell_newThunk]
    split
    · exact he
    · next hne =>
      rw [size_cells_newThunk] at ha
      exact h.expr a (Nat.lt_of_le_of_ne (Nat.lt_succ_iff.1 ha) hne)
  · rw [cell_newThunk] at hv
    split at hv
    · cases hv
    · exact (h.memo a v hv).mono hsize
  · rw [cell_newThunk]
    split
    · next heq => rw [heq]; exact hbusy.symm
    · exact h.busy a
  · rw [cell_newThunk]
    split
    · next heq =>
      rw [heq]
      refine Iff.trans ?_ (h.filled σ.cells.size)
      rw [hself]
      rfl
    · exact h.filled a

/-- A new thunk leaves the others as they are. -/
theorem extends_newThunk (e : Expr) (env : Env) : σ.Extends (σ.newThunk e env).2 where
  size := by simp
  frames := Nat.le_refl _
  frame _ _ := rfl
  expr a ha := by rw [cell_newThunk_of_lt σ ha]
  env a ha := by rw [cell_newThunk_of_lt σ ha]
  busy a := by
    rw [cell_newThunk]
    split
    · next h => rw [cell_of_size_le (Nat.le_of_eq h.symm)]; rfl
    · rfl
  memo a _ := by
    rw [cell_newThunk]
    split
    · next h => rw [cell_of_size_le (Nat.le_of_eq h.symm)]; rfl
    · rfl

/-- A store is kept up when a frame is added that binds names to values in order. -/
theorem Ok.newFrame (h : σ.Ok W) {f : Frame} (hf : ∀ b ∈ f, b.2.Ok W σ) :
    (σ.newFrame f).2.Ok W := by
  refine ⟨h.expr, h.memo, fun i b hb => ?_, h.busy, h.filled, h.finished, h.log⟩
  rcases Nat.lt_trichotomy i σ.frames.size with hi | rfl | hi
  · rw [frame_newFrame_of_lt σ hi] at hb
    exact h.frame i b hb
  · rw [frame_newFrame_self] at hb
    exact hf b hb
  · rw [frame_of_size_le (by simpa [Store.newFrame] using Nat.succ_le_of_lt hi)] at hb
    exact absurd hb List.not_mem_nil

/-- A new frame leaves all thunks as they are. -/
theorem extends_newFrame (f : Frame) : σ.Extends (σ.newFrame f).2 :=
  ⟨Nat.le_refl _, by simp [newFrame], fun _ hi => frame_newFrame_of_lt σ hi f, fun _ _ => rfl,
    fun _ _ => rfl, fun _ => rfl, fun _ _ => rfl⟩

/-- A new object takes a number and nothing else. -/
theorem Ok.newObject (h : σ.Ok W) (c : Content) : (σ.newObject c).2.Ok W :=
  ⟨h.expr, h.memo, h.frame, h.busy, h.filled, h.finished, h.log⟩

/-- A new object leaves all thunks as they are. -/
theorem extends_newObject (c : Content) : σ.Extends (σ.newObject c).2 :=
  ⟨Nat.le_refl _, Nat.le_refl _, fun _ _ => rfl, fun _ _ => rfl, fun _ _ => rfl, fun _ => rfl,
    fun _ _ => rfl⟩

/-- That an operator was applied is no event about thunks. -/
theorem Ok.noteCombined (h : σ.Ok W) (op : BinaryOp) (l r : Object) :
    (σ.note (.combined op l r)).Ok W :=
  ⟨h.expr, h.memo, h.frame, h.busy, fun a => (h.filled a).trans (by simp [note]),
    fun a => by simpa [note] using h.finished a, .cons trivial h.log⟩

/-- An event leaves all thunks as they are. -/
theorem extends_note (e : Event) : σ.Extends (σ.note e) :=
  ⟨Nat.le_refl _, Nat.le_refl _, fun _ _ => rfl, fun _ _ => rfl, fun _ _ => rfl, fun _ => rfl,
    fun _ _ => rfl⟩

/-- A store is kept up when a name is bound to a value in order. -/
theorem Ok.bind (h : σ.Ok W) (env : Env) (x : String) {v : Value} (hv : v.Ok W σ) :
    (σ.bind env x v).Ok W := by
  refine ⟨h.expr, h.memo, fun i b hb => ?_, h.busy, h.filled, h.finished, h.log⟩
  rw [frame_bind] at hb
  split at hb
  · rcases List.mem_cons.1 hb with rfl | hb
    · exact hv
    · exact h.frame i b (List.mem_filter.1 hb).1
  · exact h.frame i b hb

/-! ## What evaluating a thunk keeps up -/

@[simp]
theorem expr_setBusy (a b : CellId) (busy : Bool) :
    ((σ.setBusy a busy).cell b).expr = (σ.cell b).expr := by
  rw [cell_setBusy]
  split <;> rfl

@[simp]
theorem env_setBusy (a b : CellId) (busy : Bool) :
    ((σ.setBusy a busy).cell b).env = (σ.cell b).env := by
  rw [cell_setBusy]
  split <;> rfl

@[simp]
theorem memo_setBusy (a b : CellId) (busy : Bool) :
    ((σ.setBusy a busy).cell b).memo = (σ.cell b).memo := by
  rw [cell_setBusy]
  split <;> rfl

/-- A thunk that exists is marked as it was said to be, and the others stay as they were. -/
theorem busy_setBusy {a : CellId} (ha : a < σ.cells.size) (b : CellId) (busy : Bool) :
    ((σ.setBusy a busy).cell b).busy = if a = b then busy else (σ.cell b).busy := by
  rw [cell_setBusy]
  by_cases h : a = b
  · rw [if_pos ⟨h, ha⟩, if_pos h]
  · rw [if_neg fun h' => h h'.1, if_neg h]

@[simp]
theorem expr_setMemo (a b : CellId) (v : Value) :
    ((σ.setMemo a v).cell b).expr = (σ.cell b).expr := by
  rw [cell_setMemo]
  split <;> rfl

@[simp]
theorem env_setMemo (a b : CellId) (v : Value) :
    ((σ.setMemo a v).cell b).env = (σ.cell b).env := by
  rw [cell_setMemo]
  split <;> rfl

@[simp]
theorem busy_setMemo (a b : CellId) (v : Value) :
    ((σ.setMemo a v).cell b).busy = (σ.cell b).busy := by
  rw [cell_setMemo]
  split <;> rfl

/-- A thunk that exists has the result it was given, and the others stay as they were. -/
theorem memo_setMemo {a : CellId} (ha : a < σ.cells.size) (b : CellId) (v : Value) :
    ((σ.setMemo a v).cell b).memo = if a = b then some v else (σ.cell b).memo := by
  rw [cell_setMemo]
  by_cases h : a = b
  · rw [if_pos ⟨h, ha⟩, if_pos h]
  · rw [if_neg fun h' => h h'.1, if_neg h]

/-! The three stores on the way of a thunk to its result differ in the thunk and in the log only. -/

section

variable (σ : Store) (a b : CellId) (v : Value)

@[simp]
theorem size_cells_marked : (σ.marked a).cells.size = σ.cells.size :=
  size_cells_setBusy σ a true

@[simp]
theorem size_cells_released : (σ.released a).cells.size = σ.cells.size :=
  size_cells_setBusy σ a false

@[simp]
theorem size_cells_settled : (σ.settled a v).cells.size = σ.cells.size :=
  (size_cells_setMemo _ a v).trans (size_cells_setBusy σ a false)

@[simp]
theorem expr_marked : ((σ.marked a).cell b).expr = (σ.cell b).expr :=
  expr_setBusy a b true

@[simp]
theorem expr_released : ((σ.released a).cell b).expr = (σ.cell b).expr :=
  expr_setBusy a b false

@[simp]
theorem expr_settled : ((σ.settled a v).cell b).expr = (σ.cell b).expr :=
  (expr_setMemo a b v).trans (expr_setBusy a b false)

@[simp]
theorem env_marked : ((σ.marked a).cell b).env = (σ.cell b).env :=
  env_setBusy a b true

@[simp]
theorem env_released : ((σ.released a).cell b).env = (σ.cell b).env :=
  env_setBusy a b false

@[simp]
theorem env_settled : ((σ.settled a v).cell b).env = (σ.cell b).env :=
  (env_setMemo a b v).trans (env_setBusy a b false)

@[simp]
theorem memo_marked : ((σ.marked a).cell b).memo = (σ.cell b).memo :=
  memo_setBusy a b true

@[simp]
theorem memo_released : ((σ.released a).cell b).memo = (σ.cell b).memo :=
  memo_setBusy a b false

end

/-- A thunk that exists is settled with its result, and the others keep theirs. -/
theorem memo_settled {a : CellId} (ha : a < σ.cells.size) (v : Value) (b : CellId) :
    ((σ.settled a v).cell b).memo = if a = b then some v else (σ.cell b).memo := by
  rw [Store.settled, memo_setMemo (by simpa [note] using ha), cell_note, memo_setBusy]

/-- One thunk is marked, and the others are marked as before. -/
theorem busy_marked {a : CellId} (ha : a < σ.cells.size) (b : CellId) :
    ((σ.marked a).cell b).busy = if a = b then true else (σ.cell b).busy :=
  busy_setBusy ha b true

/-- One thunk is no longer marked, and the others are marked as before. -/
theorem busy_released {a : CellId} (ha : a < σ.cells.size) (b : CellId) :
    ((σ.released a).cell b).busy = if a = b then false else (σ.cell b).busy :=
  busy_setBusy ha b false

/-- A thunk that is settled is no longer marked, and the others are marked as before. -/
theorem busy_settled {a : CellId} (ha : a < σ.cells.size) (v : Value) (b : CellId) :
    ((σ.settled a v).cell b).busy = if a = b then false else (σ.cell b).busy := by
  rw [Store.settled, busy_setMemo, cell_note, busy_setBusy ha]

/-- Whether a thunk is marked does not matter for its result, which is kept up to the events that
are about results. -/
theorem Ok.mark {a : CellId} {busy : Bool} {e : Event} (h : σ.Ok W)
    (hbusy : ∀ b, ((σ.setBusy a busy).cell b).busy = inProgress b (e :: σ.log))
    (hfilled : ∀ b, .filled b ≠ e) (hfinished : ∀ b, .finished b ≠ e)
    (he : e.Allowed σ.log) : ((σ.setBusy a busy).note e).Ok W where
  expr b hb := by
    rw [cell_note, expr_setBusy]
    exact h.expr b (by simpa [note] using hb)
  memo b v hv := by
    rw [cell_note, memo_setBusy] at hv
    exact (h.memo b v hv).mono (by simp [note])
  frame i b hb := (h.frame i b hb).mono (by simp [note])
  busy := hbusy
  filled b := by
    rw [cell_note, memo_setBusy, h.filled]
    exact (List.mem_cons.trans (or_iff_right (hfilled b))).symm
  finished b hb := by
    have hb := (List.mem_cons.1 hb).resolve_left (hfinished b)
    exact List.mem_cons_of_mem _ (h.finished b hb)
  log := .cons he h.log

/-- A thunk without a result was never settled. -/
theorem Ok.not_filled (h : σ.Ok W) {a : CellId} (hmemo : (σ.cell a).memo = none) :
    .filled a ∉ σ.log := by
  intro hmem
  rw [← h.filled, hmemo] at hmem
  exact Bool.false_ne_true hmem

/-- Marking a thunk that has no result and is not marked keeps up the store. -/
theorem Ok.marked (h : σ.Ok W) {a : CellId} (ha : a < σ.cells.size)
    (hmemo : (σ.cell a).memo = none) (hbusy : (σ.cell a).busy = false) : (σ.marked a).Ok W := by
  refine h.mark (fun b => ?_) nofun nofun ⟨(h.busy a).symm.trans hbusy, h.not_filled hmemo⟩
  rw [busy_setBusy ha, h.busy]
  by_cases hb : a = b <;> simp [inProgress, hb]

/-- Releasing a marked thunk without a result keeps up the store. -/
theorem Ok.released (h : σ.Ok W) {a : CellId} (ha : a < σ.cells.size)
    (hmemo : (σ.cell a).memo = none) (hbusy : (σ.cell a).busy = true) : (σ.released a).Ok W := by
  refine h.mark (fun b => ?_) nofun nofun ⟨(h.busy a).symm.trans hbusy, h.not_filled hmemo⟩
  rw [busy_setBusy ha, h.busy]
  by_cases hb : a = b <;> simp [inProgress, hb]

/-- Settling a marked thunk without a result keeps up the store. -/
theorem Ok.settled (h : σ.Ok W) {a : CellId} (ha : a < σ.cells.size)
    (hmemo : (σ.cell a).memo = none) (hbusy : (σ.cell a).busy = true) {v : Value}
    (hv : v.Ok W σ) : (σ.settled a v).Ok W := by
  have hsize := σ.size_cells_settled a v
  have hnone : .filled a ∉ σ.log := h.not_filled hmemo
  have hlog : (σ.settled a v).log = .filled a :: .finished a :: σ.log := rfl
  -- two events are added at once: a finished evaluation is followed by its result
  refine ⟨fun b hb => ?_, fun b w hw => ?_, fun i b hb => ?_, fun b => ?_, fun b => ?_,
    fun b hb => ?_, .cons ?_ (.cons ?_ h.log)⟩
  · rw [expr_settled]
    exact h.expr b (hsize ▸ hb)
  · rw [memo_settled ha] at hw
    split at hw
    · exact Option.some.inj hw ▸ hv.mono (Nat.le_of_eq hsize.symm)
    · exact (h.memo b w hw).mono (Nat.le_of_eq hsize.symm)
  · exact (h.frame i b hb).mono (Nat.le_of_eq hsize.symm)
  · rw [busy_settled ha, h.busy, hlog]
    by_cases hb : a = b <;> simp [inProgress, hb]
  · rw [memo_settled ha, hlog]
    by_cases hb : a = b
    · simp [hb]
    · simpa [hb, Ne.symm hb] using h.filled b
  · rw [hlog] at hb ⊢
    by_cases hba : b = a
    · exact hba ▸ List.mem_cons_self
    · have hb : Event.finished b ∈ σ.log := by simpa [hba] using hb
      exact List.mem_cons_of_mem _ (List.mem_cons_of_mem _ (h.finished b hb))
  · exact ⟨by simp [note, inProgress], by simpa [note, setBusy] using hnone, rfl⟩
  · exact ⟨(h.busy a).symm.trans hbusy, hnone, fun hmem => hnone (h.finished a hmem)⟩

end Store

/-! ## Evaluation -/

/-- The place of an expression that satisfies `W`. -/
def IsPlace (W : Expr → Prop) (place : Option Location) : Prop :=
  ∃ e, W e ∧ e.place = place

/-- A reason to stop that evaluation can have: a rule of the language is broken, by an expression
that satisfies `W`; a remainder does not exist; the limits are reached; or a value is absent, which
no restriction on the expressions allows. -/
def Stop.Regular (W : Expr → Prop) : Stop → Prop
  | .error e => IsPlace W e.place
  | .domain | .tooDeep | .outOfFuel => True
  | .unnamed | .incomparable => ∀ e, W e
  | .refilled => False

section

variable {W : Expr → Prop} {σ : Store}

/-- A constant is neither a function nor absent. -/
theorem Content.ok_ofConstant (c : Constant) : (Content.ofConstant c).Ok W := by
  cases c <;> trivial

/-- No operator before an operand makes a function, or makes nothing. -/
theorem UnaryOp.ok_of_apply {op : UnaryOp} {c d : Content} (h : op.apply c = .ok d) :
    d.Ok W := by
  obtain ⟨k, rfl⟩ := constant_of_apply h
  exact Content.ok_ofConstant k

/-- No operator between operands makes a function, or makes nothing. -/
theorem BinaryOp.ok_of_combine {op : BinaryOp} {l r : Object} {c : Content}
    (h : op.combine l r = .ok c) : c.Ok W := by
  obtain ⟨k, rfl⟩ := constant_of_combine h
  exact Content.ok_ofConstant k

/-- Operands that are there are refused for what they are. -/
theorem Refusal.Concerns.regular {refusal : Refusal} {os : List Object}
    (h : refusal.Concerns (os.map Object.content)) (hos : ∀ o ∈ os, o.content.Ok W)
    {place : Option Location} (hplace : IsPlace W place) : (refusal.stop place).Regular W := by
  have habsent : .nothing ∈ os.map Object.content → ∀ e, W e := by
    intro hmem
    obtain ⟨o, ho, hc⟩ := List.mem_map.1 hmem
    have hok := hos o ho
    rwa [hc] at hok
  cases refusal with
  | cause c => exact hplace
  | domain => exact h.elim
  | unnamed | incomparable => exact habsent h

/-- What a name stands for is a value of the store. -/
theorem Store.Ok.lookup (hσ : σ.Ok W) {env : Env} {x : String} {v : Value}
    (h : σ.lookup env x = some v) : v.Ok W σ := by
  -- the value is bound in one of the frames of the environment
  obtain ⟨w, hw, hv⟩ := Option.bind_eq_some_iff.1 h
  obtain ⟨i, -, hi⟩ := List.exists_of_findSome?_eq_some hw
  obtain ⟨l₁, l₂, hf, -⟩ := List.lookup_eq_some_iff.1 hi
  have hwv : w = v := by
    unfold Value.present? at hv
    split at hv
    · cases hv
    · exact Option.some.inj hv
  exact hwv ▸ hσ.frame i (x, w) (hf ▸ by simp)

/-- Once a thunk has been evaluated and its mark taken back, whatever was marked before is marked
again, and is as it was. -/
theorem Store.Extends.unmark {σ' σ'' : Store} {a : CellId} (ha : a < σ.cells.size)
    (hbusy : (σ.cell a).busy = false) (h : (σ.marked a).Extends σ')
    (hsize : σ''.cells.size = σ'.cells.size) (hframes : σ''.frames = σ'.frames)
    (hexpr : ∀ b, (σ''.cell b).expr = (σ'.cell b).expr)
    (henv : ∀ b, (σ''.cell b).env = (σ'.cell b).env)
    (hbusy' : ∀ b, (σ''.cell b).busy = if a = b then false else (σ'.cell b).busy)
    (hmemo : ∀ b, a ≠ b → (σ''.cell b).memo = (σ'.cell b).memo) : σ.Extends σ'' := by
  -- all thunks but this one were marked as before all the time
  have hmarked : ∀ b, a ≠ b → (σ'.cell b).busy = (σ.cell b).busy := fun b hb => by
    rw [h.busy, busy_marked ha, if_neg hb]
  refine ⟨hsize ▸ σ.size_cells_marked a ▸ h.size, hframes ▸ h.frames, fun i hi => ?_,
    fun b hb => ?_, fun b hb => ?_, fun b => ?_, fun b hb => ?_⟩
  · unfold Store.frame
    rw [hframes]
    exact h.frame i hi
  · rw [hexpr, h.expr b (by simpa using hb), expr_marked]
  · rw [henv, h.env b (by simpa using hb), env_marked]
  · rw [hbusy']
    split
    · next hb => rw [← hb, hbusy]
    · next hb => exact hmarked b hb
  · -- the thunk itself was not marked before, so nothing is said about its result
    have hne : a ≠ b := by
      rintro rfl
      exact Bool.false_ne_true (hbusy.symm.trans hb)
    rw [hmemo b hne, h.memo b, memo_marked]
    rwa [busy_marked ha, if_neg hne]

/-- While the expression of a thunk is evaluated, the thunk stays marked and gets no result. -/
theorem Store.Extends.marked {σ' : Store} {a : CellId} (ha : a < σ.cells.size)
    (hmemo : (σ.cell a).memo = none) (h : (σ.marked a).Extends σ') :
    a < σ'.cells.size ∧ (σ'.cell a).memo = none ∧ (σ'.cell a).busy = true := by
  have hmark : ((σ.marked a).cell a).busy = true := by rw [busy_marked ha, if_pos rfl]
  refine ⟨Nat.lt_of_lt_of_le ha (by simpa using h.size), ?_, ?_⟩
  · rw [h.memo a hmark, memo_marked, hmemo]
  · rw [h.busy, hmark]

/-- What the parts of an expression are, they are as its children. -/
theorem Expr.mem_children_of_mem_parts {e d : Expr} (h : d ∈ e.parts) : d ∈ e.children := by
  cases e with
  | literal _ _ | name _ _ | arrow _ _ _ => cases h
  | _ => exact h

/-- Marks, results and log fit together, and all expressions satisfy `W`. -/
def Upkeep.ok (W : Expr → Prop) : Upkeep where
  Inv σ := σ.Ok W
  Grows σ σ' := σ.Extends σ'
  Fits _ _ e := W e
  Has σ v := v.Ok W σ
  Stops σ stop := σ.Ok W ∧ stop.Regular W

/-- The changes that evaluation makes keep up the store. -/
theorem Upkeep.lawful_ok (hW : ∀ e, W e → ∀ c ∈ e.children, W c) : (Upkeep.ok W).Lawful where
  refl := .refl
  trans := .trans
  fits_mono _ he := he
  has_mono hext hv := hv.mono hext.size
  part he hd := hW _ he _ (Expr.mem_children_of_mem_parts hd)
  literal _ _ c := Content.ok_ofConstant c
  lookup hσ _ hx := hσ.lookup hx
  undefined hσ he _ := ⟨hσ, _, he, rfl⟩
  object c hσ := ⟨hσ.newObject c, Store.extends_newObject c⟩
  constant _ c := Content.ok_ofConstant c
  function _ he := hW _ he _ (by simp [Expr.children])
  thunk {σ env e} hσ he := ⟨hσ.newThunk he env, Store.extends_newThunk e env,
    show σ.cells.size < (σ.newThunk e env).2.cells.size by simp⟩
  body {σ i x body closure a} hσ ho ha := by
    have hframe := hσ.newFrame (f := [(x, .thunk a)]) fun b hb => List.mem_singleton.1 hb ▸ ha
    refine ⟨hframe.newThunk ho _, (Store.extends_newFrame _).trans (Store.extends_newThunk body _),
      ?_⟩
    exact show σ.cells.size < ((Store.newFrame _ _).2.newThunk body _).2.cells.size by
      simp [Store.newFrame]
  combined {_ op l r} hσ _ := ⟨hσ.noteCombined op l r, Store.extends_note _⟩
  domain {_ op l r} hσ _ := ⟨Store.extends_note _, hσ.noteCombined op l r, trivial⟩
  refused _ hσ he hos h := ⟨hσ, h.regular hos ⟨_, he, rfl⟩⟩
  tooDeep hσ := ⟨hσ, trivial⟩
  outOfFuel hσ := ⟨hσ, trivial⟩

/-- Following a thunk keeps up the store: the thunk stays marked until it is released or settled,
and so has got no result meanwhile. -/
theorem Upkeep.memoizes_ok (W : Expr → Prop) : (Upkeep.ok W).Memoizes where
  memo hσ _ hmemo := hσ.memo _ _ hmemo
  busy hσ ha := ⟨hσ, _, hσ.expr _ ha, rfl⟩
  mark h := ⟨h.inv.marked h.has h.memo h.busy, h.inv.expr _ h.has⟩
  release {σ σ' a stop} h hext hstop := by
    obtain ⟨ha', hmemo', hbusy'⟩ := hext.marked h.has h.memo
    -- the mark is taken back on the way out, so that all marks are as before
    refine ⟨?_, hstop.1.released ha' hmemo' hbusy', hstop.2⟩
    exact hext.unmark h.has h.busy (by simp) rfl (by simp) (by simp)
      (Store.busy_released ha') (by simp)
  settle {σ σ' a v} h hext hσ' hv _ := by
    obtain ⟨ha', hmemo', hbusy'⟩ := hext.marked h.has h.memo
    refine ⟨hσ'.settled ha' hmemo' hbusy' hv, ?_, hv.mono (by simp)⟩
    exact hext.unmark h.has h.busy (by simp) rfl (by simp) (by simp)
      (Store.busy_settled ha' v) fun b hb => by rw [Store.memo_settled ha', if_neg hb]
  refill h hext _ hsome := by
    rw [(hext.marked h.has h.memo).2.1] at hsome
    cases hsome

/-- Forcing keeps up the store, within any limits. -/
theorem Limits.forces_ok (hW : ∀ e, W e → ∀ c ∈ e.children, W c) (limits : Limits) :
    (Upkeep.ok W).Forces limits.force :=
  (Upkeep.lawful_ok hW).forces (Upkeep.memoizes_ok W) limits.fuel limits.depth

/-! ## Programs -/

/-- The expression of a statement. -/
def Statement.expr : Statement → Expr
  | declare _ e _ | output _ e _ => e

/-- A reason that a statement can have to stop: one of its evaluation, or its name is taken. -/
def Stop.Of (W : Expr → Prop) (s : Statement) (stop : Stop) : Prop :=
  stop.Regular W ∨ ∃ x e place, s = .declare x e place ∧ stop = .error ⟨.taken x, place⟩

/-- After a statement the store is kept up and the same thunks are marked, whether it failed or
not. -/
theorem Statement.ok_execute {force : Value → Eval Object}
    (hW : ∀ e, W e → ∀ c ∈ e.children, W c) (hforce : (Upkeep.ok W).Forces force) (env : Env)
    {s : Statement} (hs : W s.expr) (hσ : σ.Ok W) :
    Ends (fun _ σ' => σ'.Ok W ∧ ∀ a, (σ'.cell a).busy = (σ.cell a).busy)
      (fun stop σ' => (σ'.Ok W ∧ ∀ a, (σ'.cell a).busy = (σ.cell a).busy) ∧ stop.Of W s)
      (s.execute force env) σ := by
  rcases s with ⟨x, e, place⟩ | ⟨o, e, place⟩
  · have hrun := execute_declare force env x e place σ
    by_cases hx : σ.contains env x = true
    · rw [if_pos hx] at hrun
      exact ends_of_error hrun ⟨⟨hσ, fun _ => rfl⟩, .inr ⟨x, e, place, rfl, rfl⟩⟩
    · rw [if_neg hx] at hrun
      have hbusy := (Store.extends_newThunk (σ := σ) e env).busy
      refine ends_of_ok hrun ⟨(hσ.newThunk hs env).bind env x ?_, hbusy⟩
      exact show σ.cells.size < (σ.newThunk e env).2.cells.size by simp
  · have hfits : (Upkeep.ok W).Fits σ env e := hs
    have hrun := (Upkeep.lawful_ok hW).output hforce hσ hfits o place
    exact hrun.imp (fun _ _ h => ⟨h.1, h.2.1.busy⟩) fun _ _ h => ⟨⟨h.2.1, h.1.busy⟩, .inl h.2.2⟩

/-- After a program the store is kept up and the same thunks are marked, wherever it ended; and if
it ended early, then for a reason that one of its statements can have. -/
theorem keeps_execute {force : Value → Eval Object} (hW : ∀ e, W e → ∀ c ∈ e.children, W c)
    (hforce : (Upkeep.ok W).Forces force) (env : Env) (ss : List Statement)
    (hss : ∀ s ∈ ss, W s.expr) (hσ : σ.Ok W) :
    (execute force env ss σ).store.Ok W ∧
      (∀ a, ((execute force env ss σ).store.cell a).busy = (σ.cell a).busy) ∧
      ∀ stop, (execute force env ss σ).stop = some stop → ∃ s ∈ ss, stop.Of W s := by
  induction ss generalizing σ with
  | nil => exact ⟨hσ, fun _ => rfl, nofun⟩
  | cons s ss ih =>
    have hs := s.ok_execute hW hforce env (hss s List.mem_cons_self) hσ
    rw [execute]
    cases hrun : s.execute force env σ with
    | error stop σ' =>
      obtain ⟨⟨hok, hbusy⟩, hof⟩ := hs.error hrun
      exact ⟨hok, hbusy, fun _ h => ⟨s, List.mem_cons_self, Option.some.inj h ▸ hof⟩⟩
    | ok o σ' =>
      obtain ⟨hσ', hsame⟩ := hs.ok hrun
      obtain ⟨hok, hbusy, hstop⟩ := ih (fun s h => hss s (List.mem_cons_of_mem _ h)) hσ'
      refine ⟨hok, fun a => (hbusy a).trans (hsame a), fun stop h => ?_⟩
      obtain ⟨s', hs', hof⟩ := hstop stop h
      exact ⟨s', List.mem_cons_of_mem _ hs', hof⟩

/-- After a program the store is kept up and the same thunks are marked, wherever it ended, and no
result was to be kept twice. -/
theorem ok_execute {force : Value → Eval Object} (hW : ∀ e, W e → ∀ c ∈ e.children, W c)
    (hforce : (Upkeep.ok W).Forces force) (env : Env) (ss : List Statement)
    (hss : ∀ s ∈ ss, W s.expr) (hσ : σ.Ok W) :
    (execute force env ss σ).store.Ok W ∧
      (∀ a, ((execute force env ss σ).store.cell a).busy = (σ.cell a).busy) ∧
      (execute force env ss σ).stop ≠ some .refilled := by
  obtain ⟨hok, hbusy, hstop⟩ := keeps_execute hW hforce env ss hss hσ
  refine ⟨hok, hbusy, fun h => ?_⟩
  obtain ⟨s, -, hregular | ⟨x, e, place, -, htaken⟩⟩ := hstop _ h
  · exact hregular
  · cases htaken

end

end CallByNeed
