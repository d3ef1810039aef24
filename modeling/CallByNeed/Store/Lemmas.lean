import CallByNeed.Store

/-!
# What each operation does to a store

A store is looked at through `Store.frame`, `Store.cell` and `Store.lookup`. The lemmas here say
what every operation leaves of the old view and what it adds: a new frame or thunk gets a number
that no other has, a mark or a result changes one thunk only, and only binding a name changes what a
name stands for.
-/

namespace CallByNeed

/-- Modifying an array changes the element at the given index only. -/
theorem getD_modify {α : Type} (xs : Array α) (f : α → α) (i j : Nat) (d : α) :
    (xs.modify i f).getD j d = if i = j ∧ i < xs.size then f (xs.getD j d) else xs.getD j d := by
  by_cases hj : j < xs.size <;> by_cases hij : i = j <;>
    simp [Array.getD, Array.getElem_modify, hj, hij]

namespace Frame

/-- A name stands for what it was bound to last. -/
@[simp]
theorem lookup_bind_self (f : Frame) (x : String) (v : Value) :
    (f.bind x v).lookup x = some v := by
  simp [bind]

/-- Removing the bindings of a name keeps those of the others. -/
theorem lookup_filter_of_ne {x y : String} (h : y ≠ x) (f : Frame) :
    (f.filter fun b => b.1 != x).lookup y = f.lookup y := by
  induction f with
  | nil => rfl
  | cons b f ih =>
    obtain ⟨z, w⟩ := b
    by_cases hz : z = x
    · subst hz
      simpa [List.lookup_cons, beq_false_of_ne h] using ih
    · by_cases hy : y = z
      · simp [hy, hz]
      · simpa [List.lookup_cons, hz, beq_false_of_ne hy] using ih

/-- Binding a name keeps what the other names stand for. -/
theorem lookup_bind_of_ne {x y : String} (h : y ≠ x) (f : Frame) (v : Value) :
    (f.bind x v).lookup y = f.lookup y := by
  simp [bind, List.lookup_cons, beq_false_of_ne h, lookup_filter_of_ne h]

end Frame

namespace Store

variable (σ : Store)

/-! ## Thunks -/

/-- A new thunk gets the next number, and is neither busy nor filled. -/
@[simp]
theorem cell_newThunk_self (e : Expr) (env : Env) :
    (σ.newThunk e env).2.cell σ.cells.size = ⟨e, env, none, false⟩ := by
  simp [newThunk, cell]

/-- A new thunk changes no other. -/
theorem cell_newThunk_of_lt {a : CellId} (h : a < σ.cells.size) (e : Expr) (env : Env) :
    (σ.newThunk e env).2.cell a = σ.cell a := by
  have h' : a < σ.cells.size + 1 := Nat.lt_succ_of_lt h
  simp [newThunk, cell, Array.getD, Array.getElem_push, h, h']

/-- Only the marked thunk changes, and of it only the mark. -/
theorem cell_setBusy (a b : CellId) (busy : Bool) :
    (σ.setBusy a busy).cell b =
      if a = b ∧ a < σ.cells.size then { σ.cell b with busy := busy } else σ.cell b := by
  simp only [setBusy, cell, getD_modify]

/-- Only the filled thunk changes, and of it only the result. -/
theorem cell_setMemo (a b : CellId) (v : Value) :
    (σ.setMemo a v).cell b =
      if a = b ∧ a < σ.cells.size then { σ.cell b with memo := some v } else σ.cell b := by
  simp only [setMemo, cell, getD_modify]

@[simp]
theorem cell_newFrame (f : Frame) (a : CellId) : (σ.newFrame f).2.cell a = σ.cell a :=
  rfl

@[simp]
theorem cell_newObject (c : Content) (a : CellId) : (σ.newObject c).2.cell a = σ.cell a :=
  rfl

@[simp]
theorem cell_note (e : Event) (a : CellId) : (σ.note e).cell a = σ.cell a :=
  rfl

@[simp]
theorem cell_bind (env : Env) (x : String) (v : Value) (a : CellId) :
    (σ.bind env x v).cell a = σ.cell a :=
  rfl

@[simp]
theorem size_cells_newThunk (e : Expr) (env : Env) :
    (σ.newThunk e env).2.cells.size = σ.cells.size + 1 := by
  simp [newThunk]

@[simp]
theorem size_cells_setBusy (a : CellId) (busy : Bool) :
    (σ.setBusy a busy).cells.size = σ.cells.size := by
  simp [setBusy]

@[simp]
theorem size_cells_setMemo (a : CellId) (v : Value) :
    (σ.setMemo a v).cells.size = σ.cells.size := by
  simp [setMemo]

/-! ## Frames -/

/-- A new frame gets the next number. -/
@[simp]
theorem frame_newFrame_self (f : Frame) :
    (σ.newFrame f).2.frame σ.frames.size = f := by
  simp [newFrame, frame]

/-- A new frame changes no other. -/
theorem frame_newFrame_of_lt {i : FrameId} (h : i < σ.frames.size) (f : Frame) :
    (σ.newFrame f).2.frame i = σ.frame i := by
  have h' : i < σ.frames.size + 1 := Nat.lt_succ_of_lt h
  simp [newFrame, frame, Array.getD, Array.getElem_push, h, h']

/-- Binding a name changes the innermost frame only. -/
theorem frame_bind (env : Env) (x : String) (v : Value) (i : FrameId) :
    (σ.bind env x v).frame i =
      if env.frame = i ∧ env.frame < σ.frames.size then (σ.frame i).bind x v else σ.frame i := by
  simp only [bind, frame, getD_modify]

/-! ## Names -/

/-- A name that has just been bound stands for what it was bound to. -/
theorem lookup_bind_self {env : Env} (h : env.frame < σ.frames.size) (x : String) (v : Value) :
    (σ.bind env x v).lookup env x = v.present? := by
  simp [lookup, binding?, Env.frames, frame_bind, h]

/-- Binding a name keeps what the other names stand for, in every environment. -/
theorem lookup_bind_of_ne {x y : String} (h : y ≠ x) (env inside : Env) (v : Value) :
    (σ.bind env x v).lookup inside y = σ.lookup inside y := by
  unfold lookup binding?
  congr 2
  funext i
  rw [frame_bind]
  split
  · exact Frame.lookup_bind_of_ne h _ v
  · rfl

/-- A new frame changes no name, in an environment that does not hold it. -/
theorem lookup_newFrame {env : Env} (h : ∀ i ∈ env.frames, i < σ.frames.size) (f : Frame)
    (x : String) : (σ.newFrame f).2.lookup env x = σ.lookup env x := by
  unfold lookup binding?
  congr 1
  generalize env.frames = is at h
  induction is with
  | nil => rfl
  | cons i is ih =>
    rw [List.findSome?_cons, List.findSome?_cons, frame_newFrame_of_lt σ (h i List.mem_cons_self),
      ih fun j hj => h j (List.mem_cons_of_mem i hj)]

@[simp]
theorem lookup_newThunk (e : Expr) (env inside : Env) (x : String) :
    (σ.newThunk e env).2.lookup inside x = σ.lookup inside x :=
  rfl

@[simp]
theorem lookup_newObject (c : Content) (env : Env) (x : String) :
    (σ.newObject c).2.lookup env x = σ.lookup env x :=
  rfl

@[simp]
theorem lookup_setBusy (a : CellId) (busy : Bool) (env : Env) (x : String) :
    (σ.setBusy a busy).lookup env x = σ.lookup env x :=
  rfl

@[simp]
theorem lookup_setMemo (a : CellId) (v : Value) (env : Env) (x : String) :
    (σ.setMemo a v).lookup env x = σ.lookup env x :=
  rfl

@[simp]
theorem lookup_note (e : Event) (env : Env) (x : String) :
    (σ.note e).lookup env x = σ.lookup env x :=
  rfl

end Store

end CallByNeed
