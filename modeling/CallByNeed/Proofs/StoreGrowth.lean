import CallByNeed.Proofs.StoreInvariant
import Mathlib.Order.Nat
import Mathlib.Tactic.Common

/-!
# Stores only grow

Nothing that is in a store is ever changed, apart from the mark of a thunk and the result that it
has not got yet. Environments keep their frames, names keep their values, thunks keep their
expressions, environments and results (`Store.Persists`). Evaluation does not even bind a name in a
frame that was there before (`Store.Unfolds`); only a declaration does so, at the top level, and
only for a name that is not bound yet.

Names are looked up along the frames of an environment. Each of these frames but the last is the
place of one parameter, and the last one is the top level (`Store.Rooted`). A frame belongs to one
environment only, and the frames further out are older, so that there are no cycles.

The main result is `store_only_grows`, about all stores in which a session begins or ends something
(`Store.Reachable`): a statement, and within it the evaluation of an expression, the forcing of a
value, and each link of a chain of thunks that is followed.
-/

namespace CallByNeed

/-! ## What belongs to a store -/

/-- An environment of a store: the top level, or one in which a thunk is to be evaluated. -/
def Store.HasEnv (σ : Store) (env : Env) : Prop :=
  env = .global ∨ ∃ a < σ.cells.size, (σ.cell a).env = env

/-- An object of a store. -/
structure Object.In (σ : Store) (o : Object) : Prop where
  /-- If it was made, it was made in this store. -/
  made : ∀ n, o.identity = .made n → n < σ.made
  /-- If it is a function, it was written in an environment of this store. -/
  closure : ∀ x body env, o.content = .function x body env → σ.HasEnv env

/-- A value of a store. -/
def Value.In (σ : Store) : Value → Prop
  | .object o => o.In σ
  | .thunk a => a < σ.cells.size

namespace Store

/-- Environments are chains of frames that end at the top level. -/
structure Rooted (σ : Store) : Prop where
  /-- There is a top level. -/
  nonempty : 0 < σ.frames.size
  /-- Every other environment has one frame more than an environment that is older. -/
  chain : ∀ env, σ.HasEnv env → env = .global ∨
    ∃ outer, σ.HasEnv outer ∧ outer.frame < env.frame ∧ env = outer.inner env.frame
  /-- The frames of environments exist. -/
  lt : ∀ env, σ.HasEnv env → env.frame < σ.frames.size
  /-- A frame is the innermost one of one environment only. -/
  unique : ∀ env env', σ.HasEnv env → σ.HasEnv env' → env.frame = env'.frame → env = env'
  /-- Every frame is the innermost one of some environment. -/
  covers : ∀ i < σ.frames.size, ∃ env, σ.HasEnv env ∧ env.frame = i
  /-- Every frame but the top level binds one name. -/
  single : ∀ i, 0 < i → i < σ.frames.size → ∃ x a, σ.frame i = [(x, .thunk a)]
  /-- Names are bound to thunks. -/
  frame : ∀ i, ∀ b ∈ σ.frame i, ∃ a < σ.cells.size, b.2 = .thunk a
  /-- The results of thunks are values of the store. -/
  memo : ∀ a v, (σ.cell a).memo = some v → v.In σ

/-- What is in a store stays as it is. -/
structure Persists (σ σ' : Store) : Prop where
  /-- No thunk is lost. -/
  size : σ.cells.size ≤ σ'.cells.size
  /-- No object is lost. -/
  made : σ.made ≤ σ'.made
  /-- No frame is lost. -/
  frames : σ.frames.size ≤ σ'.frames.size
  /-- No frame gets another environment. -/
  parent : ∀ env, σ'.HasEnv env → env.frame < σ.frames.size → σ.HasEnv env
  /-- No frame but the top level gets names. -/
  frame : ∀ i, 0 < i → i < σ.frames.size → σ'.frame i = σ.frame i
  /-- No name of the top level gets another value. -/
  binding : ∀ x v, (σ.frame 0).lookup x = some v → (σ'.frame 0).lookup x = some v
  /-- No thunk gets another expression. -/
  expr : ∀ a < σ.cells.size, (σ'.cell a).expr = (σ.cell a).expr
  /-- No thunk gets another environment. -/
  env : ∀ a < σ.cells.size, (σ'.cell a).env = (σ.cell a).env
  /-- No thunk that has a result gets another one. -/
  memo : ∀ a v, (σ.cell a).memo = some v → (σ'.cell a).memo = some v

/-- What is in a store stays as it is, and the top level gets no names. -/
structure Unfolds (σ σ' : Store) : Prop extends σ.Persists σ' where
  /-- The top level binds the same names. -/
  top : σ'.frame 0 = σ.frame 0

section

variable {σ σ' σ'' : Store}

/-- What is in a store is in that store. -/
theorem Persists.refl (σ : Store) : σ.Persists σ :=
  ⟨le_rfl, le_rfl, le_rfl, fun _ h _ => h, fun _ _ _ => rfl, fun _ _ h => h, fun _ _ => rfl,
    fun _ _ => rfl, fun _ _ h => h⟩

/-- What is kept twice is kept. -/
theorem Persists.trans (h : σ.Persists σ') (h' : σ'.Persists σ'') : σ.Persists σ'' where
  size := h.size.trans h'.size
  made := h.made.trans h'.made
  frames := h.frames.trans h'.frames
  parent env henv hlt := h.parent env (h'.parent env henv (hlt.trans_le h.frames)) hlt
  frame i hi hlt := (h'.frame i hi (hlt.trans_le h.frames)).trans (h.frame i hi hlt)
  binding x v hx := h'.binding x v (h.binding x v hx)
  expr a ha := (h'.expr a (ha.trans_le h.size)).trans (h.expr a ha)
  env a ha := (h'.env a (ha.trans_le h.size)).trans (h.env a ha)
  memo a v hv := h'.memo a v (h.memo a v hv)

/-- A store unfolds into itself. -/
theorem Unfolds.refl (σ : Store) : σ.Unfolds σ :=
  ⟨.refl σ, rfl⟩

/-- A store unfolds step by step. -/
theorem Unfolds.trans (h : σ.Unfolds σ') (h' : σ'.Unfolds σ'') : σ.Unfolds σ'' :=
  ⟨h.toPersists.trans h'.toPersists, h'.top.trans h.top⟩

/-- The top level is an environment of every store. -/
theorem hasEnv_global (σ : Store) : σ.HasEnv .global :=
  .inl rfl

/-- The environment of a thunk is one of the store. -/
theorem hasEnv_cell {a : CellId} (ha : a < σ.cells.size) : σ.HasEnv (σ.cell a).env :=
  .inr ⟨a, ha, rfl⟩

/-- An environment of a store stays one. -/
theorem HasEnv.mono (h : σ.Persists σ') {env : Env} (henv : σ.HasEnv env) : σ'.HasEnv env := by
  rcases henv with rfl | ⟨a, ha, rfl⟩
  · exact .inl rfl
  · exact .inr ⟨a, ha.trans_le h.size, h.env a ha⟩

end

end Store

section

variable {σ σ' : Store}

/-- An object of a store stays one. -/
theorem Object.In.mono (h : σ.Persists σ') {o : Object} (ho : o.In σ) : o.In σ' :=
  ⟨fun n hn => (ho.made n hn).trans_le h.made,
    fun x body env hc => (ho.closure x body env hc).mono h⟩

/-- A value of a store stays one. -/
theorem Value.In.mono (h : σ.Persists σ') {v : Value} (hv : v.In σ) : v.In σ' := by
  cases v with
  | object o => exact Object.In.mono h hv
  | thunk a => exact Nat.lt_of_lt_of_le hv h.size

/-- A constant belongs to every store. -/
theorem Object.in_literal (σ : Store) (place : Option Location) (c : Constant) :
    Object.In σ ⟨.literal place, .ofConstant c⟩ :=
  ⟨nofun, fun x body env hc => by cases c <;> cases hc⟩

end

/-! ## What the operations on stores do -/

namespace Store

variable {σ σ' : Store}

/-- Stores with the same frames bind the same names. -/
theorem frame_congr (h : σ'.frames = σ.frames) (i : FrameId) : σ'.frame i = σ.frame i := by
  rw [Store.frame, h, Store.frame]

/-- Nothing happens to environments while only marks, results, objects and events are added. -/
theorem hasEnv_congr (hsize : σ'.cells.size = σ.cells.size)
    (henv : ∀ a, (σ'.cell a).env = (σ.cell a).env) (env : Env) :
    σ'.HasEnv env ↔ σ.HasEnv env := by
  simp only [HasEnv, hsize, henv]

/-- A store unfolds if only marks, results, objects and events are added. -/
theorem Unfolds.of_same (hframes : σ'.frames = σ.frames) (hmade : σ.made ≤ σ'.made)
    (hsize : σ'.cells.size = σ.cells.size) (hexpr : ∀ a, (σ'.cell a).expr = (σ.cell a).expr)
    (henv : ∀ a, (σ'.cell a).env = (σ.cell a).env)
    (hmemo : ∀ a v, (σ.cell a).memo = some v → (σ'.cell a).memo = some v) :
    σ.Unfolds σ' where
  size := hsize.ge
  made := hmade
  frames := (congrArg Array.size hframes).ge
  parent env h _ := (hasEnv_congr hsize henv env).1 h
  frame i _ _ := frame_congr hframes i
  binding x v h := by rwa [frame_congr hframes]
  expr a _ := hexpr a
  env a _ := henv a
  memo := hmemo
  top := frame_congr hframes 0

/-- Environments stay rooted if only marks, results of the store, objects and events are added. -/
theorem Rooted.of_same (h : σ.Rooted) (hunfolds : σ.Unfolds σ') (hframes : σ'.frames = σ.frames)
    (hsize : σ'.cells.size = σ.cells.size) (henv : ∀ a, (σ'.cell a).env = (σ.cell a).env)
    (hmemo : ∀ a v, (σ'.cell a).memo = some v → (σ.cell a).memo = some v ∨ v.In σ) :
    σ'.Rooted := by
  have hframe := frame_congr hframes
  have hlt : σ'.frames.size = σ.frames.size := congrArg Array.size hframes
  have hiff := hasEnv_congr hsize henv
  refine ⟨hlt ▸ h.nonempty, fun env he => ?_, fun env he => ?_, fun env env' he he' => ?_,
    fun i hi => ?_, fun i hi hi' => ?_, fun i b hb => ?_, fun a v hv => ?_⟩
  · simpa only [hiff] using h.chain env ((hiff env).1 he)
  · exact hlt ▸ h.lt env ((hiff env).1 he)
  · exact h.unique env env' ((hiff env).1 he) ((hiff env').1 he')
  · simpa only [hiff] using h.covers i (hlt ▸ hi)
  · rw [hframe]
    exact h.single i hi (hlt ▸ hi')
  · rw [hframe] at hb
    rw [hsize]
    exact h.frame i b hb
  · rcases hmemo a v hv with hv | hv
    · exact (h.memo a v hv).mono hunfolds.toPersists
    · exact hv.mono hunfolds.toPersists

/-- A new object leaves all else as it is. -/
theorem unfolds_newObject (σ : Store) (c : Content) : σ.Unfolds (σ.newObject c).2 :=
  .of_same rfl (Nat.le_succ _) rfl (fun _ => rfl) (fun _ => rfl) fun _ _ h => h

/-- Environments stay rooted when an object is made. -/
theorem Rooted.newObject (h : σ.Rooted) (c : Content) : (σ.newObject c).2.Rooted :=
  h.of_same (σ.unfolds_newObject c) rfl rfl (fun _ => rfl) fun _ _ => .inl

/-- An event leaves all else as it is. -/
theorem unfolds_note (σ : Store) (e : Event) : σ.Unfolds (σ.note e) :=
  .of_same rfl le_rfl rfl (fun _ => rfl) (fun _ => rfl) fun _ _ h => h

/-- Environments stay rooted when an event is noted. -/
theorem Rooted.note (h : σ.Rooted) (e : Event) : (σ.note e).Rooted :=
  h.of_same (σ.unfolds_note e) rfl rfl (fun _ => rfl) fun _ _ => .inl

/-- A mark leaves all else as it is. -/
theorem unfolds_setBusy (σ : Store) (a : CellId) (busy : Bool) (e : Event) :
    σ.Unfolds ((σ.setBusy a busy).note e) :=
  .of_same rfl le_rfl (by simp [Store.note]) (by simp) (by simp) (by simp)

/-- Environments stay rooted when a thunk is marked or its mark is removed. -/
theorem Rooted.setBusy (h : σ.Rooted) (a : CellId) (busy : Bool) (e : Event) :
    ((σ.setBusy a busy).note e).Rooted :=
  h.of_same (σ.unfolds_setBusy a busy e) rfl (by simp [Store.note]) (by simp) fun b v hv =>
    .inl (by simpa using hv)

/-- A thunk without a result may get one. -/
theorem unfolds_setMemo {a : CellId} (hmemo : (σ.cell a).memo = none) (v : Value) :
    σ.Unfolds (σ.setMemo a v) := by
  refine .of_same rfl le_rfl (by simp) (by simp) (by simp) fun b w hw => ?_
  have hne : ¬(a = b ∧ a < σ.cells.size) := by
    rintro ⟨rfl, -⟩
    cases hmemo.symm.trans hw
  rwa [cell_setMemo, if_neg hne]

/-- Environments stay rooted when a thunk gets a value of the store as its result. -/
theorem Rooted.setMemo (h : σ.Rooted) {a : CellId} (hmemo : (σ.cell a).memo = none) {v : Value}
    (hv : v.In σ) : (σ.setMemo a v).Rooted := by
  refine h.of_same (unfolds_setMemo hmemo v) rfl (by simp) (by simp) fun b w hw => ?_
  rw [cell_setMemo] at hw
  split at hw
  · exact .inr (Option.some.inj hw ▸ hv)
  · exact .inl hw

/-- A new thunk brings its environment along. -/
theorem hasEnv_newThunk (e : Expr) (env env' : Env) :
    (σ.newThunk e env).2.HasEnv env' ↔ σ.HasEnv env' ∨ env' = env := by
  constructor
  · rintro (rfl | ⟨a, ha, rfl⟩)
    · exact .inl (.inl rfl)
    · rw [cell_newThunk]
      split
      · exact .inr rfl
      · next hne =>
        rw [size_cells_newThunk] at ha
        exact .inl (hasEnv_cell (Nat.lt_of_le_of_ne (Nat.lt_succ_iff.1 ha) hne))
  · rintro ((rfl | ⟨a, ha, rfl⟩) | rfl)
    · exact .inl rfl
    · refine .inr ⟨a, by rw [size_cells_newThunk]; exact Nat.lt_succ_of_lt ha, ?_⟩
      rw [cell_newThunk_of_lt σ ha]
    · exact .inr ⟨σ.cells.size, by simp, by rw [cell_newThunk_self]⟩

/-- A thunk may be added in an environment that the store has. -/
theorem unfolds_newThunk (e : Expr) {env : Env} (henv : σ.HasEnv env) :
    σ.Unfolds (σ.newThunk e env).2 where
  size := by simp
  made := le_rfl
  frames := le_rfl
  parent env' h _ := ((hasEnv_newThunk e env env').1 h).elim id fun h => h ▸ henv
  frame _ _ _ := rfl
  binding _ _ h := h
  expr a ha := by rw [cell_newThunk_of_lt σ ha]
  env a ha := by rw [cell_newThunk_of_lt σ ha]
  memo a v hv := by
    rw [cell_newThunk, if_neg, hv]
    rintro rfl
    rw [cell_of_size_le le_rfl] at hv
    cases hv
  top := rfl

/-- Environments stay rooted when a thunk is made in one of them. -/
theorem Rooted.newThunk (h : σ.Rooted) (e : Expr) {env : Env} (henv : σ.HasEnv env) :
    (σ.newThunk e env).2.Rooted := by
  have hunfolds := unfolds_newThunk e henv
  have hiff : ∀ env', (σ.newThunk e env).2.HasEnv env' ↔ σ.HasEnv env' := fun env' =>
    (hasEnv_newThunk e env env').trans (or_iff_left_of_imp fun h => h ▸ henv)
  refine ⟨h.nonempty, fun env he => ?_, fun env he => h.lt env ((hiff env).1 he),
    fun env env' he he' => h.unique env env' ((hiff env).1 he) ((hiff env').1 he'),
    fun i hi => ?_, h.single, fun i b hb => ?_, fun a v hv => ?_⟩
  · simpa only [hiff] using h.chain env ((hiff env).1 he)
  · simpa only [hiff] using h.covers i hi
  · obtain ⟨a, ha, hb⟩ := h.frame i b hb
    exact ⟨a, ha.trans_le hunfolds.size, hb⟩
  · rw [cell_newThunk] at hv
    split at hv
    · cases hv
    · exact (h.memo a v hv).mono hunfolds.toPersists

section

variable {closure : Env} (x : String) (a : CellId) (body : Expr)

/-- A call binds the parameter in the new frame, and leaves the other frames as they are. -/
theorem frame_extendFrame (closure : Env) (i : FrameId) :
    (σ.extendFrame closure x a body).frame i =
      if i = σ.frames.size then [(x, .thunk a)] else σ.frame i := by
  change (σ.newFrame [(x, .thunk a)]).2.frame i = _
  split
  · next hi => rw [hi, frame_newFrame_self]
  · next hi =>
    rcases Nat.lt_or_gt_of_ne hi with hi | hi
    · rw [frame_newFrame_of_lt σ hi]
    · rw [frame_of_size_le hi.le, frame_of_size_le]
      simpa [Store.newFrame] using Nat.succ_le_of_lt hi

/-- A call adds one frame. -/
theorem size_frames_extendFrame (closure : Env) :
    (σ.extendFrame closure x a body).frames.size = σ.frames.size + 1 := by
  simp [extendFrame, Store.newFrame, Store.newThunk]

/-- A call adds one environment, that of the body. -/
theorem hasEnv_extendFrame (closure env : Env) :
    (σ.extendFrame closure x a body).HasEnv env ↔
      σ.HasEnv env ∨ env = closure.inner σ.frames.size :=
  hasEnv_newThunk body _ env

/-- A call leaves all that is there as it is. -/
theorem unfolds_extendFrame (h : σ.Rooted) (closure : Env) :
    σ.Unfolds (σ.extendFrame closure x a body) where
  size := by simp [extendFrame, Store.newFrame]
  made := le_rfl
  frames := by rw [size_frames_extendFrame]; exact Nat.le_succ _
  parent env henv hlt := by
    refine ((hasEnv_extendFrame x a body closure env).1 henv).resolve_right ?_
    rintro rfl
    exact Nat.lt_irrefl _ hlt
  frame i _ hi := by rw [frame_extendFrame, if_neg hi.ne]
  binding y v hy := by rwa [frame_extendFrame, if_neg h.nonempty.ne]
  expr b hb := congrArg Cell.expr (cell_newThunk_of_lt (σ.newFrame _).2 hb body _)
  env b hb := congrArg Cell.env (cell_newThunk_of_lt (σ.newFrame _).2 hb body _)
  memo b v hv := by
    have hne : b ≠ σ.cells.size := by
      rintro rfl
      rw [cell_of_size_le le_rfl] at hv
      cases hv
    exact (congrArg Cell.memo ((cell_newThunk body _ b).trans (if_neg hne))).trans hv
  top := by rw [frame_extendFrame, if_neg h.nonempty.ne]

/-- A frame for a parameter may be added inside of an environment that the store has. -/
theorem Rooted.extendFrame (h : σ.Rooted) (hclosure : σ.HasEnv closure)
    (ha : a < σ.cells.size) : (σ.extendFrame closure x a body).Rooted := by
  have hunfolds := unfolds_extendFrame x a body h closure
  have hiff := hasEnv_extendFrame (σ := σ) x a body closure
  have hsize := size_frames_extendFrame (σ := σ) x a body closure
  refine ⟨hsize ▸ Nat.succ_pos _, fun env he => ?_, fun env he => ?_,
    fun env env' he he' heq => ?_, fun i hi => ?_, fun i hi hlt => ?_, fun i b hb => ?_,
    fun b v hv => ?_⟩
  · -- the new environment lies inside `closure`, the others where they lay
    rcases (hiff env).1 he with he | rfl
    · refine (h.chain env he).imp_right ?_
      rintro ⟨outer, houter, hlt, heq⟩
      exact ⟨outer, houter.mono hunfolds.toPersists, hlt, heq⟩
    · exact .inr ⟨closure, hclosure.mono hunfolds.toPersists, h.lt closure hclosure, rfl⟩
  · rw [hsize]
    rcases (hiff env).1 he with he | rfl
    · exact (h.lt env he).trans (Nat.lt_succ_self _)
    · exact Nat.lt_succ_self _
  · -- the new frame has a number that no other one has
    rcases (hiff env).1 he with he | rfl <;> rcases (hiff env').1 he' with he' | rfl
    · exact h.unique env env' he he' heq
    · exact absurd heq (h.lt env he).ne
    · exact absurd heq.symm (h.lt env' he').ne
    · rfl
  · rcases Nat.lt_succ_iff_lt_or_eq.1 (hsize ▸ hi) with hi | rfl
    · obtain ⟨env, he, heq⟩ := h.covers i hi
      exact ⟨env, he.mono hunfolds.toPersists, heq⟩
    · exact ⟨closure.inner σ.frames.size, (hiff _).2 (.inr rfl), rfl⟩
  · rw [frame_extendFrame]
    split
    · exact ⟨x, a, rfl⟩
    · next hne =>
      rw [hsize] at hlt
      exact h.single i hi (Nat.lt_of_le_of_ne (Nat.lt_succ_iff.1 hlt) hne)
  · rw [frame_extendFrame] at hb
    split at hb
    · rw [List.mem_singleton.1 hb]
      exact ⟨a, ha.trans_le hunfolds.size, rfl⟩
    · obtain ⟨c, hc, hb⟩ := h.frame i b hb
      exact ⟨c, hc.trans_le hunfolds.size, hb⟩
  · -- the new thunk has no result yet
    have hcell := cell_newThunk (σ := (σ.newFrame [(x, .thunk a)]).2) body
      (closure.inner σ.frames.size) b
    rw [Store.extendFrame, hcell] at hv
    split at hv
    · cases hv
    · exact (h.memo b v hv).mono hunfolds.toPersists

end

/-- A name is bound to a thunk of the store. -/
theorem Rooted.lookup (h : σ.Rooted) {env : Env} {x : String} {v : Value}
    (hx : σ.lookup env x = some v) : ∃ a < σ.cells.size, v = .thunk a := by
  obtain ⟨w, hw, hv⟩ := Option.bind_eq_some_iff.1 hx
  obtain ⟨i, -, hi⟩ := List.exists_of_findSome?_eq_some hw
  obtain ⟨l₁, l₂, hf, -⟩ := List.lookup_eq_some_iff.1 hi
  obtain ⟨a, ha, rfl⟩ := h.frame i (x, w) (hf ▸ by simp)
  exact ⟨a, ha, (Option.some.inj hv).symm⟩

/-- A name that stands for nothing at the top level is not bound there. -/
theorem Rooted.lookup_top (h : σ.Rooted) {x : String} (hx : σ.contains .global x = false) :
    (σ.frame 0).lookup x = none := by
  cases hf : (σ.frame 0).lookup x with
  | none => rfl
  | some v =>
    obtain ⟨l₁, l₂, hmem, -⟩ := List.lookup_eq_some_iff.1 hf
    obtain ⟨a, -, rfl⟩ := h.frame 0 (x, v) (hmem ▸ by simp)
    simp [contains, Store.lookup, binding?, Env.global, Env.frames, hf, Value.present?] at hx

end Store

/-! ## Evaluation -/

/-- An object that was made belongs to the store, if it is no function. -/
theorem Object.in_made {σ : Store} {n : ℕ} (hn : n < σ.made) {c : Content}
    (hc : c.Ok fun _ => False) : Object.In σ ⟨.made n, c⟩ := by
  refine ⟨?_, ?_⟩
  · rintro _ ⟨⟩
    exact hn
  · rintro x body closure rfl
    exact hc.elim

/-- A function that was made belongs to the store, if its environment does. -/
theorem Object.in_function {σ : Store} {n : ℕ} (hn : n < σ.made) {env : Env}
    (henv : σ.HasEnv env) (x : String) (body : Expr) :
    Object.In σ ⟨.made n, .function x body env⟩ := by
  refine ⟨?_, ?_⟩
  · rintro _ ⟨⟩
    exact hn
  · rintro _ _ _ ⟨⟩
    exact henv

/-- Environments end at the top level, and nothing that is in the store is changed. -/
def Upkeep.rooted : Upkeep where
  Inv σ := σ.Rooted
  Grows σ σ' := σ.Unfolds σ'
  Fits σ env _ := σ.HasEnv env
  Has σ v := v.In σ
  Stops σ _ := σ.Rooted

/-- The changes that evaluation makes keep what is in the store. -/
theorem Upkeep.lawful_rooted : Upkeep.rooted.Lawful where
  refl := .refl
  trans := .trans
  fits_mono h henv := henv.mono h.toPersists
  has_mono h hv := hv.mono h.toPersists
  part henv _ := henv
  literal σ p c := Object.in_literal σ p c
  lookup hσ _ hx := by
    obtain ⟨a, ha, rfl⟩ := hσ.lookup hx
    exact ha
  undefined hσ _ _ := hσ
  object c hσ := ⟨hσ.newObject c, Store.unfolds_newObject _ c⟩
  constant σ c := Object.in_made (Nat.lt_succ_self _) (Content.ok_ofConstant c)
  function {σ env x e p} _ henv := Object.in_function (Nat.lt_succ_self _)
    (henv.mono (σ.unfolds_newObject _).toPersists) x e
  thunk {σ env e} hσ henv := ⟨hσ.newThunk e henv, Store.unfolds_newThunk e henv,
    show σ.cells.size < (σ.newThunk e env).2.cells.size by simp⟩
  body {σ i x body closure a} hσ ho ha := by
    refine ⟨hσ.extendFrame x a body (ho.closure x body closure rfl) ha,
      Store.unfolds_extendFrame x a body hσ closure, ?_⟩
    exact show σ.cells.size < (Store.newThunk _ body _).2.cells.size by simp [Store.newFrame]
  combined hσ _ := ⟨hσ.note _, Store.unfolds_note _ _⟩
  domain hσ _ := ⟨Store.unfolds_note _ _, hσ.note _⟩
  refused _ hσ _ _ _ := hσ
  tooDeep hσ := hσ
  outOfFuel hσ := hσ

/-- Marking, releasing and settling a thunk keep what is in the store: a result is kept only if
there is none yet. -/
theorem Upkeep.memoizes_rooted : Upkeep.rooted.Memoizes where
  memo hσ _ hmemo := hσ.memo _ _ hmemo
  busy hσ _ := hσ
  mark {σ a} h := ⟨h.inv.setBusy a true _,
    (Store.hasEnv_cell h.has).mono (σ.unfolds_setBusy a true _).toPersists⟩
  release {σ σ' a stop} _ hunfolds hσ' :=
    ⟨((σ.unfolds_setBusy a true _).trans hunfolds).trans (σ'.unfolds_setBusy a false _),
      Store.Rooted.setBusy hσ' a false _⟩
  settle {σ σ' a v} _ hunfolds hσ' hv hmemo := by
    have hend := σ'.unfolds_setBusy a false (.finished a)
    have hnone : (((σ'.setBusy a false).note (.finished a)).cell a).memo = none := by
      simpa using hmemo
    have hset := Store.unfolds_setMemo hnone v
    have hv := hv.mono hend.toPersists
    exact ⟨(hσ'.setBusy a false (.finished a)).setMemo hnone hv,
      (((σ.unfolds_setBusy a true _).trans hunfolds).trans hend).trans hset,
      hv.mono hset.toPersists⟩
  refill {σ σ' a} _ hunfolds hσ' _ :=
    ⟨((σ.unfolds_setBusy a true _).trans hunfolds).trans (σ'.unfolds_setBusy a false _),
      Store.Rooted.setBusy hσ' a false _⟩

/-- Forcing keeps what is in the store, within any limits. -/
theorem Limits.forces_rooted (limits : Limits) : Upkeep.rooted.Forces limits.force :=
  Upkeep.lawful_rooted.forces Upkeep.memoizes_rooted limits.fuel limits.depth

/-- Evaluation keeps what is in the store, within any limits. -/
theorem Limits.evals_rooted (limits : Limits) : Upkeep.rooted.Evals limits.eval :=
  Upkeep.lawful_rooted.evals limits.forces_rooted

/-- Following a thunk keeps what is in the store, within any limits. -/
theorem Limits.follows_rooted (limits : Limits) : Upkeep.rooted.Follows (step limits.eval) :=
  Upkeep.memoizes_rooted.follows Upkeep.lawful_rooted limits.evals_rooted

/-- The store that is left is rooted and has grown. -/
theorem Upkeep.Keeps.rooted {α : Type} {Q : Store → α → Prop} {x : Eval α} {σ : Store}
    (h : Upkeep.rooted.Keeps Q x σ) : (leftBy x σ).Rooted ∧ σ.Unfolds (leftBy x σ) :=
  ⟨Ends.leftBy h (fun _ _ h => h.1) fun _ _ h => h.2, h.grows⟩

/-! ## Statements -/

section

variable {σ : Store}

/-- The top level after a new name was declared. -/
theorem Store.Rooted.frame_declare (h : σ.Rooted) {x : String}
    (hx : σ.contains .global x = false) (e : Expr) :
    ((σ.newThunk e .global).2.bind .global x (.thunk σ.cells.size)).frame 0 =
      (x, .thunk σ.cells.size) :: σ.frame 0 := by
  rw [Store.frame_bind, if_pos ⟨rfl, h.nonempty⟩, Frame.bind]
  congr 1
  -- the name is not bound yet, so that nothing is removed
  refine List.filter_eq_self.2 fun b hb => ?_
  have hne := List.lookup_eq_none_iff.1 (h.lookup_top hx) b hb
  exact bne_iff_ne.2 (bne_iff_ne.1 hne).symm

/-- A declaration of a new name keeps all that is in the store. -/
theorem Store.Rooted.persists_declare (h : σ.Rooted) {x : String}
    (hx : σ.contains .global x = false) (e : Expr) :
    σ.Persists ((σ.newThunk e .global).2.bind .global x (.thunk σ.cells.size)) := by
  have hthunk := Store.unfolds_newThunk e σ.hasEnv_global
  refine ⟨hthunk.size, le_rfl, by simp [Store.bind, Store.newThunk], hthunk.parent,
    fun i hi _ => ?_, fun y v hy => ?_, hthunk.expr, hthunk.env, hthunk.memo⟩
  · rw [Store.frame_bind, if_neg fun h => Nat.ne_of_lt hi h.1]
    rfl
  · -- a name that is bound already is another one
    have hne : (y == x) = false := by
      rw [beq_eq_false_iff_ne]
      rintro rfl
      cases (h.lookup_top hx).symm.trans hy
    rw [h.frame_declare hx, List.lookup_cons, hne]
    exact hy

/-- Environments stay rooted when a new name is declared at the top level. -/
theorem Store.Rooted.declare (h : σ.Rooted) {x : String} (hx : σ.contains .global x = false)
    (e : Expr) : ((σ.newThunk e .global).2.bind .global x (.thunk σ.cells.size)).Rooted := by
  have hthunk := h.newThunk e σ.hasEnv_global
  have hsize : ((σ.newThunk e .global).2.bind .global x (.thunk σ.cells.size)).frames.size =
      σ.frames.size := by simp [Store.bind, Store.newThunk]
  have hframe : ∀ i, 0 < i →
      ((σ.newThunk e .global).2.bind .global x (.thunk σ.cells.size)).frame i = σ.frame i := by
    intro i hi
    rw [Store.frame_bind, if_neg fun h => Nat.ne_of_lt hi h.1]
    rfl
  refine ⟨hsize ▸ h.nonempty, hthunk.chain, fun env he => ?_, hthunk.unique, fun i hi => ?_,
    fun i hi hlt => ?_, fun i b hb => ?_, fun a v hv => ?_⟩
  · exact hsize ▸ hthunk.lt env he
  · exact hthunk.covers i (hsize ▸ hi)
  · rw [hframe i hi]
    exact h.single i hi (hsize ▸ hlt)
  · rcases Nat.eq_zero_or_pos i with rfl | hi
    · rw [h.frame_declare hx] at hb
      rcases List.mem_cons.1 hb with rfl | hb
      · exact ⟨σ.cells.size, by simp [Store.bind], rfl⟩
      · exact hthunk.frame 0 b hb
    · rw [hframe i hi] at hb
      exact hthunk.frame i b hb
  · -- binding a name touches neither thunks nor objects
    have hv := hthunk.memo a v hv
    cases v with
    | object o => exact ⟨hv.made, hv.closure⟩
    | thunk b => exact hv

/-- Outputting keeps what is in the store, within any limits. -/
theorem Limits.output_rooted (limits : Limits) (hσ : σ.Rooted) (o : Output) (e : Expr)
    (place : Option Location) :
    Upkeep.rooted.Keeps (fun _ _ => True)
      ((Statement.output o e place).execute limits.force .global) σ :=
  Upkeep.lawful_rooted.output limits.forces_rooted hσ σ.hasEnv_global o place

end

/-- After a statement environments end at the top level, whether it succeeded or failed. -/
theorem Store.Rooted.execute {σ : Store} (h : σ.Rooted) (limits : Limits) (s : Statement) :
    (leftBy (s.execute limits.force .global) σ).Rooted := by
  rcases s with ⟨x, e, place⟩ | ⟨o, e, place⟩
  · unfold leftBy
    rw [Statement.execute_declare]
    cases hx : σ.contains .global x with
    | true => exact h
    | false => exact h.declare hx e
  · exact (limits.output_rooted h o e place).rooted.1

namespace Store

/-- The stores in which a session can begin or end a statement, or for one of its statements the
evaluation of an expression, the forcing of a value or the following of a thunk. A store between the
single changes that a call or an operator makes, when both operands are there, is not among them. -/
inductive Reachable : Store → Prop where
  /-- Nothing was done yet. -/
  | empty : Reachable .empty
  /-- A statement was executed, or failed. -/
  | execute {σ : Store} (limits : Limits) (s : Statement) : Reachable σ →
      Reachable (leftBy (s.execute limits.force .global) σ)
  /-- An expression was evaluated, or its evaluation failed. -/
  | eval {σ : Store} {env : Env} (limits : Limits) (e : Expr) : Reachable σ → σ.HasEnv env →
      Reachable (leftBy (limits.eval env e) σ)
  /-- A value was forced, or forcing it failed. -/
  | force {σ : Store} {v : Value} (limits : Limits) : Reachable σ → v.In σ →
      Reachable (leftBy (limits.force v) σ)
  /-- One thunk was followed to its result, which may be another thunk, or following it failed. -/
  | step {σ : Store} {a : CellId} (limits : Limits) : Reachable σ → a < σ.cells.size →
      Reachable (leftBy (CallByNeed.step limits.eval a) σ)
  /-- The evaluation of a thunk has begun. -/
  | begin {σ : Store} {a : CellId} : Reachable σ → a < σ.cells.size →
      (σ.cell a).memo = none → (σ.cell a).busy = false → Reachable (σ.marked a)

/-- The top level of the empty store is its only environment. -/
theorem rooted_empty : Store.empty.Rooted where
  nonempty := Nat.one_pos
  chain env h := .inl (h.resolve_right fun ⟨_, ha, _⟩ => Nat.not_lt_zero _ ha)
  lt env h := by
    rcases h with rfl | ⟨_, ha, _⟩
    · exact Nat.one_pos
    · exact absurd ha (Nat.not_lt_zero _)
  unique env env' h h' _ :=
    (h.resolve_right fun ⟨_, ha, _⟩ => Nat.not_lt_zero _ ha).trans
      (h'.resolve_right fun ⟨_, ha, _⟩ => Nat.not_lt_zero _ ha).symm
  covers i hi := ⟨.global, .inl rfl, (Nat.lt_one_iff.1 hi).symm⟩
  single i hi hlt := absurd hlt (Nat.not_lt.2 hi)
  frame i b hb := by rcases i with _ | i <;> simp [Store.empty, Store.frame] at hb
  memo a v h := by simp [Store.empty, cell, default] at h

/-- In every store that a session can come to, environments end at the top level. -/
theorem Reachable.rooted {σ : Store} (h : σ.Reachable) : σ.Rooted := by
  induction h with
  | empty => exact rooted_empty
  | execute limits s _ ih => exact ih.execute limits s
  | eval limits e _ henv ih => exact (limits.evals_rooted ih henv).rooted.1
  | force limits _ hv ih => exact (limits.forces_rooted ih hv).rooted.1
  | step limits _ ha ih => exact (limits.follows_rooted ih ha).rooted.1
  | begin _ _ _ _ ih => exact ih.setBusy _ true _

/-- The frames of an environment get older from the inside to the top level. -/
theorem Rooted.pairwise_frames {σ : Store} (h : σ.Rooted) {env : Env} (henv : σ.HasEnv env) :
    env.frames.Pairwise (· > ·) ∧ env.frames.getLast? = some 0 := by
  induction hf : env.frame using Nat.strong_induction_on generalizing env with
  | _ f ih =>
  rcases h.chain env henv with rfl | ⟨outer, houter, hlt, heq⟩
  · exact ⟨List.pairwise_singleton _ _, rfl⟩
  · obtain ⟨hpairwise, hlast⟩ := ih outer.frame (hf ▸ hlt) houter rfl
    rw [heq]
    refine ⟨List.pairwise_cons.2 ⟨fun i hi => ?_, hpairwise⟩, ?_⟩
    · -- the innermost of the other frames is older, and the others are older still
      rcases List.mem_cons.1 hi with rfl | hi
      · exact hlt
      · exact ((List.pairwise_cons.1 hpairwise).1 i hi).trans hlt
    · rw [← hlast]
      rfl

end Store

/-- In every store that a session can come to, the frames of an environment get older up to the top
level, which is the last; each frame has one environment; and each but the top level binds one name.
From there on, whether it succeeds or fails, evaluating, forcing and outputting keep all that is in
the store, and bind no name in a frame that is there already. A declaration of a name that is bound
fails and leaves the store as it is. A declaration of any other name keeps all that is in the store,
and adds that name to the top level. -/
theorem store_only_grows {σ : Store} (hσ : σ.Reachable) (limits : Limits) :
    (∀ env, σ.HasEnv env → env.frames.Pairwise (· > ·) ∧ env.frames.getLast? = some 0) ∧
    (∀ i < σ.frames.size, (∃! env, σ.HasEnv env ∧ env.frame = i) ∧
      (i ≠ 0 → ∃ x a, σ.frame i = [(x, .thunk a)])) ∧
    (∀ env e, σ.HasEnv env → σ.Unfolds (leftBy (limits.eval env e) σ)) ∧
    (∀ v, v.In σ → σ.Unfolds (leftBy (limits.force v) σ)) ∧
    (∀ o e place,
      σ.Unfolds (leftBy ((Statement.output o e place).execute limits.force .global) σ)) ∧
    (∀ x e place, σ.contains .global x = true →
      (Statement.declare x e place).execute limits.force .global σ =
        .error (.error ⟨.taken x, place⟩) σ) ∧
    (∀ x e place, σ.contains .global x = false →
      ∃ σ', (Statement.declare x e place).execute limits.force .global σ = .ok none σ' ∧
        σ.Persists σ' ∧ σ'.frames.size = σ.frames.size ∧
        ∃ a, σ'.frame 0 = (x, .thunk a) :: σ.frame 0) := by
  have hrooted := hσ.rooted
  refine ⟨fun env henv => hrooted.pairwise_frames henv, fun i hi => ⟨?_, fun hne => ?_⟩,
    fun env e henv => (limits.evals_rooted hrooted henv).rooted.2,
    fun v hv => (limits.forces_rooted hrooted hv).rooted.2,
    fun o e place => (limits.output_rooted hrooted o e place).rooted.2,
    fun x e place hx => ?_, fun x e place hx => ?_⟩
  · obtain ⟨env, henv, hframe⟩ := hrooted.covers i hi
    refine ⟨env, ⟨henv, hframe⟩, ?_⟩
    rintro env' ⟨henv', hframe'⟩
    exact hrooted.unique env' env henv' henv (hframe'.trans hframe.symm)
  · exact hrooted.single i (Nat.pos_of_ne_zero hne) hi
  · rw [Statement.execute_declare, hx, if_pos rfl]
  · rw [Statement.execute_declare, hx, if_neg Bool.false_ne_true]
    exact ⟨_, rfl, hrooted.persists_declare hx e, by simp [Store.bind, Store.newThunk],
      σ.cells.size, hrooted.frame_declare hx e⟩

/-- Here a function was called, which added a frame for its parameter. The parameter is evaluated in
it, its thunk is forced, the function is declared again in vain, and another name is declared. -/
theorem store_only_grows_call :
    let f := Expr.name "f" none
    let x := Expr.name "x" none
    let yes := Expr.literal (.boolean true) none
    let limits : Limits := ⟨9, 9⟩
    let run (s : Statement) := leftBy (s.execute limits.force .global)
    let σ := run (.output .value (.call f yes none) none)
      (run (.declare "f" (.arrow "x" x none) none) .empty)
    let inside := Env.global.inner 1
    σ.Reachable ∧ σ.HasEnv inside ∧ inside.frames.getLast? = some 0 ∧
      (∃ y a, σ.frame 1 = [(y, .thunk a)]) ∧
      σ.Unfolds (leftBy (limits.eval inside x) σ) ∧
      Value.In σ (.thunk 2) ∧ σ.Unfolds (leftBy (limits.force (.thunk 2)) σ) ∧
      σ.contains .global "f" = true ∧
      (Statement.declare "f" yes none).execute limits.force .global σ =
        .error (.error ⟨.taken "f", none⟩) σ ∧
      σ.contains .global "g" = false ∧
      ∃ σ', (Statement.declare "g" yes none).execute limits.force .global σ = .ok none σ' ∧
        ∃ a, σ'.frame 0 = ("g", .thunk a) :: σ.frame 0 := by
  intro f x yes limits run σ inside
  have hσ : σ.Reachable := .execute limits _ (.execute limits _ .empty)
  have hinside : σ.HasEnv inside := .inr ⟨2, by decide +kernel, by decide +kernel⟩
  have htwo : Value.In σ (.thunk 2) := show 2 < σ.cells.size by decide +kernel
  have hf : σ.contains .global "f" = true := by decide +kernel
  have hg : σ.contains .global "g" = false := by decide +kernel
  obtain ⟨hchain, hframe, heval, hforce, -, htaken, hnew⟩ := store_only_grows hσ limits
  obtain ⟨σ', hrun, -, -, htop⟩ := hnew "g" yes none hg
  exact ⟨hσ, hinside, (hchain inside hinside).2,
    (hframe 1 (by decide +kernel)).2 (by decide), heval inside x hinside, htwo,
    hforce (.thunk 2) htwo, hf, htaken "f" yes none hf, hg, σ', hrun, htop⟩

end CallByNeed
