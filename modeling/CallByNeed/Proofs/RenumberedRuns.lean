import CallByNeed.Proofs.TwinRuns
import Mathlib.Logic.Function.Basic

/-!
# Runs that number their thunks differently

Two runs may do the same on thunks that are numbered differently, because some of them were added at
another time. The second store *mirrors* the first (`Store.Mirrors`): frames, environments and
objects are the same, and each thunk of the first store has a number of its own in the second. There
may be further names at the top level of the second store. Those that the first store will get only
later are `waiting`, each with a thunk that has not been touched.

The relation is meant for a first run that succeeds. Such a run never asks for a name that is still
waiting, and so whatever it does, the second does too (`mimics_eval`, `mimics_force`).
-/

namespace CallByNeed

/-! ## Other numbers -/

/-- The value with another number for its thunk. -/
def Value.renumber (ren : CellId → CellId) : Value → Value
  | object o => object o
  | thunk a => thunk (ren a)

/-- The frame with other numbers for its thunks. -/
def Frame.renumber (ren : CellId → CellId) (f : Frame) : Frame :=
  f.map fun b => (b.1, b.2.renumber ren)

/-- The thunk with another number for its result. -/
def Cell.renumber (ren : CellId → CellId) (c : Cell) : Cell :=
  { c with memo := c.memo.map (Value.renumber ren) }

/-- A thunk without a result has no number in it. -/
theorem Cell.renumber_of_memo_eq_none {c : Cell} (h : c.memo = none) (ren : CellId → CellId) :
    c.renumber ren = c := by
  obtain ⟨e, env, memo, busy⟩ := c
  cases h
  rfl

/-- A name is found in a frame with other numbers where it was found before. -/
theorem Frame.lookup_renumber (ren : CellId → CellId) (f : Frame) (x : String) :
    (f.renumber ren).lookup x = (f.lookup x).map (Value.renumber ren) := by
  induction f with
  | nil => rfl
  | cons b f ih =>
    rw [renumber, List.map_cons, List.lookup_cons, List.lookup_cons]
    cases x == b.1 with
    | true => rfl
    | false => exact ih

/-- A name has a thunk that has not been touched. -/
structure Store.Awaits (τ : Store) (x : String) (e : Expr) (b : CellId) : Prop where
  lt : b < τ.cells.size
  lookup : (τ.frame 0).lookup x = some (.thunk b)
  cell : τ.cell b = ⟨e, .global, none, false⟩

/-- The second store has what the first has, with other numbers for the thunks, and it has thunks
for the names that are waiting. -/
structure Store.Mirrors (ren : CellId → CellId) (waiting : List (String × Expr)) (σ τ : Store) :
    Prop where
  rooted : σ.Rooted
  /-- There are the same frames. -/
  frames : τ.frames.size = σ.frames.size
  /-- The same number of objects was made. -/
  made : τ.made = σ.made
  /-- Parameters are bound to the same thunks. -/
  frame : ∀ i, 0 < i → τ.frame i = (σ.frame i).renumber ren
  /-- The names of the top level are bound to the same thunks. -/
  top : ∀ x v, (σ.frame 0).lookup x = some v → (τ.frame 0).lookup x = some (v.renumber ren)
  /-- The numbers exist. -/
  lt : ∀ a < σ.cells.size, ren a < τ.cells.size
  /-- The thunks are the same. -/
  cell : ∀ a < σ.cells.size, τ.cell (ren a) = (σ.cell a).renumber ren
  /-- Different thunks have different numbers. -/
  injective : ∀ a < σ.cells.size, ∀ b < σ.cells.size, ren a = ren b → a = b
  /-- A name that is waiting has a thunk that is none of the first store. -/
  awaits : ∀ x e, (x, e) ∈ waiting → ∃ b, τ.Awaits x e b ∧ ∀ a < σ.cells.size, ren a ≠ b
  /-- Different names have different thunks. -/
  apart : ∀ x y b, (τ.frame 0).lookup x = some (.thunk b) →
    (τ.frame 0).lookup y = some (.thunk b) → x = y

section

variable {ren ren' : CellId → CellId} {waiting : List (String × Expr)} {σ σ' τ τ' : Store}

/-- The number of a thunk counts only if there is that thunk. -/
theorem Value.renumber_congr (h : ∀ a < σ.cells.size, ren' a = ren a) {v : Value} (hv : v.In σ) :
    v.renumber ren' = v.renumber ren := by
  cases v with
  | object o => rfl
  | thunk a => rw [renumber, renumber, h a hv]

namespace Store

/-- Only the numbers of thunks that are there matter to frames. -/
theorem Rooted.renumber_frame (hσ : σ.Rooted) (h : ∀ a < σ.cells.size, ren' a = ren a)
    (i : FrameId) : (σ.frame i).renumber ren' = (σ.frame i).renumber ren := by
  refine List.map_congr_left fun b hb => ?_
  obtain ⟨a, ha, hv⟩ := hσ.frame i b hb
  rw [Value.renumber_congr h (show b.2.In σ from hv ▸ ha)]

/-- The names of the top level are bound to thunks that exist. -/
theorem Rooted.exists_of_lookup_top (hσ : σ.Rooted) {x : String} {v : Value}
    (hx : (σ.frame 0).lookup x = some v) : ∃ a < σ.cells.size, v = .thunk a := by
  obtain ⟨l₁, l₂, hf, -⟩ := List.lookup_eq_some_iff.1 hx
  exact hσ.frame 0 (x, v) (hf ▸ by simp)

/-- Only the numbers of thunks that are there matter to results. -/
theorem Rooted.renumber_cell (hσ : σ.Rooted) (h : ∀ a < σ.cells.size, ren' a = ren a)
    (b : CellId) : (σ.cell b).renumber ren' = (σ.cell b).renumber ren := by
  rw [Cell.renumber, Cell.renumber]
  congr 1
  exact Option.map_congr fun v hv => Value.renumber_congr h (hσ.memo b v hv)

namespace Mirrors

/-- What a name stands for in the first store, it stands for in the second. -/
theorem lookup (h : σ.Mirrors ren waiting τ) {env : Env} (henv : σ.HasEnv env) {x : String}
    {a : CellId} (hx : σ.lookup env x = some (.thunk a)) :
    τ.lookup env x = some (.thunk (ren a)) := by
  have hbinding : ∀ v, σ.binding? env x = some v → τ.binding? env x = some (v.renumber ren) := by
    refine h.rooted.env_induction (motive := fun env => ∀ v, σ.binding? env x = some v →
      τ.binding? env x = some (v.renumber ren)) ?_ ?_ henv
    · intro v hv
      rw [binding?_global] at hv ⊢
      exact h.top x v hv
    · -- the innermost frame binds the same name in both stores
      intro outer f _ hpos _ ih v hv
      rw [binding?_inner] at hv ⊢
      rw [h.frame f hpos, Frame.lookup_renumber]
      cases hf : (σ.frame f).lookup x with
      | some w =>
        rw [hf] at hv
        cases hv
        rfl
      | none =>
        rw [hf] at hv
        exact ih v hv
  rw [h.rooted.lookup_eq] at hx
  rw [Store.lookup, hbinding _ hx]
  rfl

/-- Both stores change alike, in marks, results, objects and events only. -/
theorem of_same (h : σ.Mirrors ren waiting τ) (hrooted : σ'.Rooted)
    (hframes : σ'.frames = σ.frames) (hframes' : τ'.frames = τ.frames) (hmade : τ'.made = σ'.made)
    (hsize : σ'.cells.size = σ.cells.size) (hsize' : τ'.cells.size = τ.cells.size)
    (hcell : ∀ a < σ.cells.size, τ'.cell (ren a) = (σ'.cell a).renumber ren)
    (hother : ∀ b, (∀ a < σ.cells.size, ren a ≠ b) → τ'.cell b = τ.cell b) :
    σ'.Mirrors ren waiting τ' := by
  have hframe := frame_congr hframes
  have hframe' := frame_congr hframes'
  refine ⟨hrooted, ?_, hmade, fun i hi => ?_, fun x v hx => ?_, fun a ha => ?_, fun a ha => ?_,
    fun a ha b hb => ?_, fun x e hx => ?_, fun x y b hx hy => ?_⟩
  · rw [hframes, hframes', h.frames]
  · rw [hframe, hframe', h.frame i hi]
  · rw [hframe] at hx
    rw [hframe', h.top x v hx]
  · rw [hsize']
    exact h.lt a (hsize ▸ ha)
  · exact hcell a (hsize ▸ ha)
  · exact h.injective a (hsize ▸ ha) b (hsize ▸ hb)
  · obtain ⟨b, hb, hne⟩ := h.awaits x e hx
    refine ⟨b, ⟨?_, ?_, ?_⟩, fun a ha => hne a (hsize ▸ ha)⟩
    · exact hsize' ▸ hb.lt
    · rw [hframe', hb.lookup]
    · rw [hother b hne, hb.cell]
  · rw [hframe'] at hx hy
    exact h.apart x y b hx hy

/-- Both stores may make an object. -/
theorem newObject (h : σ.Mirrors ren waiting τ) (c : Content) :
    (σ.newObject c).2.Mirrors ren waiting (τ.newObject c).2 :=
  h.of_same (h.rooted.newObject c) rfl rfl (congrArg (· + 1) h.made) rfl rfl h.cell fun _ _ => rfl

/-- Both stores may note an event, not necessarily the same. -/
theorem note (h : σ.Mirrors ren waiting τ) (e e' : Event) :
    (σ.note e).Mirrors ren waiting (τ.note e') :=
  h.of_same (h.rooted.note e) rfl rfl h.made rfl rfl h.cell fun _ _ => rfl

/-- One thunk changes, in the same way in both stores. -/
theorem modifyCell (h : σ.Mirrors ren waiting τ) (hrooted : σ'.Rooted)
    (hframes : σ'.frames = σ.frames) (hframes' : τ'.frames = τ.frames) (hmade : τ'.made = σ'.made)
    (hsize : σ'.cells.size = σ.cells.size) (hsize' : τ'.cells.size = τ.cells.size) {a : CellId}
    (ha : a < σ.cells.size) (f g : Cell → Cell)
    (hfg : ∀ c, g (c.renumber ren) = (f c).renumber ren)
    (hcell : ∀ b, σ'.cell b = if a = b ∧ a < σ.cells.size then f (σ.cell b) else σ.cell b)
    (hcell' : ∀ b, τ'.cell b =
      if ren a = b ∧ ren a < τ.cells.size then g (τ.cell b) else τ.cell b) :
    σ'.Mirrors ren waiting τ' := by
  refine h.of_same hrooted hframes hframes' hmade hsize hsize' (fun b hb => ?_) fun b hb => ?_
  · rw [hcell, hcell', h.cell b hb]
    by_cases hab : a = b
    · rw [if_pos ⟨congrArg ren hab, h.lt a ha⟩, if_pos ⟨hab, ha⟩, hfg]
    · rw [if_neg fun hand => hab (h.injective a ha b hb hand.1), if_neg fun hand => hab hand.1]
  · rw [hcell', if_neg fun hand => hb a ha hand.1]

/-- Both stores may mark a thunk, or remove its mark. -/
theorem setBusy (h : σ.Mirrors ren waiting τ) {a : CellId} (ha : a < σ.cells.size) (busy : Bool)
    (e e' : Event) :
    ((σ.setBusy a busy).note e).Mirrors ren waiting ((τ.setBusy (ren a) busy).note e') :=
  h.modifyCell (h.rooted.setBusy a busy e) rfl rfl h.made (by simp [Store.note])
    (by simp [Store.note]) ha (fun c => { c with busy := busy }) (fun c => { c with busy := busy })
    (fun _ => rfl) (fun b => σ.cell_setBusy a b busy) fun b => τ.cell_setBusy (ren a) b busy

/-- Both stores may keep a result for a thunk that has none. -/
theorem setMemo (h : σ.Mirrors ren waiting τ) {a : CellId} (ha : a < σ.cells.size)
    (hmemo : (σ.cell a).memo = none) {v : Value} (hv : v.In σ) :
    (σ.setMemo a v).Mirrors ren waiting (τ.setMemo (ren a) (v.renumber ren)) :=
  h.modifyCell (h.rooted.setMemo hmemo hv) rfl rfl h.made (by simp) (by simp) ha
    (fun c => { c with memo := some v }) (fun c => { c with memo := some (v.renumber ren) })
    (fun _ => rfl) (fun b => σ.cell_setMemo a b v) fun b => τ.cell_setMemo (ren a) b _

/-- The first store gets a thunk, and from then on it belongs together with one of the second store
that belonged to none before. -/
theorem pairCell (h : σ.Mirrors ren waiting τ) (hrooted : σ'.Rooted)
    (hframes : τ'.frames.size = σ'.frames.size) (hmade : τ'.made = σ'.made) {b : CellId} {c : Cell}
    (hb : b < τ'.cells.size) (hfree : ∀ a < σ.cells.size, ren a ≠ b) (hmemo : c.memo = none)
    (hsize : σ'.cells.size = σ.cells.size + 1) (hsize' : τ.cells.size ≤ τ'.cells.size)
    (hcell : ∀ a, σ'.cell a = if a = σ.cells.size then c else σ.cell a) (hpaired : τ'.cell b = c)
    (hcell' : ∀ a < τ.cells.size, a ≠ b → τ'.cell a = τ.cell a)
    (hframe : ∀ i, 0 < i → τ'.frame i = (σ'.frame i).renumber (Function.update ren σ.cells.size b))
    (htop : ∀ x v, (σ'.frame 0).lookup x = some v →
      (τ'.frame 0).lookup x = some (v.renumber (Function.update ren σ.cells.size b)))
    {still : List (String × Expr)}
    (hawaits : ∀ x e, (x, e) ∈ still →
      ∃ d, τ'.Awaits x e d ∧ b ≠ d ∧ ∀ a < σ.cells.size, ren a ≠ d)
    (hapart : ∀ x y d, (τ'.frame 0).lookup x = some (.thunk d) →
      (τ'.frame 0).lookup y = some (.thunk d) → x = y) :
    σ'.Mirrors (Function.update ren σ.cells.size b) still τ' := by
  have hold : ∀ a < σ.cells.size, Function.update ren σ.cells.size b a = ren a :=
    fun a ha => Function.update_of_ne ha.ne _ _
  have hnew : Function.update ren σ.cells.size b σ.cells.size = b := Function.update_self _ _ _
  have hcases : ∀ a < σ'.cells.size, a < σ.cells.size ∨ a = σ.cells.size := fun a ha =>
    Nat.lt_succ_iff_lt_or_eq.1 (ha.trans_eq hsize)
  refine ⟨hrooted, hframes, hmade, hframe, htop, fun a ha => ?_, fun a ha => ?_,
    fun a ha d hd heq => ?_, fun x e hx => ?_, hapart⟩
  · rcases hcases a ha with ha | rfl
    · rw [hold a ha]
      exact (h.lt a ha).trans_le hsize'
    · rw [hnew]
      exact hb
  · rcases hcases a ha with ha | rfl
    · rw [hold a ha, hcell' _ (h.lt a ha) (hfree a ha), hcell, if_neg ha.ne, h.cell a ha,
        h.rooted.renumber_cell hold]
    · rw [hnew, hpaired, hcell, if_pos rfl, Cell.renumber_of_memo_eq_none hmemo]
  · -- no thunk of the first store had the number that the new one gets
    rcases hcases a ha with ha | rfl <;> rcases hcases d hd with hd | rfl
    · rw [hold a ha, hold d hd] at heq
      exact h.injective a ha d hd heq
    · rw [hold a ha, hnew] at heq
      exact absurd heq (hfree a ha)
    · rw [hold d hd, hnew] at heq
      exact absurd heq.symm (hfree d hd)
    · rfl
  · obtain ⟨d, hd, hbd, hne⟩ := hawaits x e hx
    refine ⟨d, hd, fun a ha => ?_⟩
    rcases hcases a ha with ha | rfl
    · rw [hold a ha]
      exact hne a ha
    · rwa [hnew]

/-- Both stores get a thunk and perhaps a frame. -/
theorem addCell (h : σ.Mirrors ren waiting τ) (hrooted : σ'.Rooted) {c : Cell}
    (hmemo : c.memo = none) (hframes : τ'.frames.size = σ'.frames.size)
    (hmade : τ'.made = σ'.made) (htop : σ'.frame 0 = σ.frame 0) (htop' : τ'.frame 0 = τ.frame 0)
    (hframe : ∀ i, 0 < i →
      τ'.frame i = (σ'.frame i).renumber (Function.update ren σ.cells.size τ.cells.size))
    (hsize : σ'.cells.size = σ.cells.size + 1) (hsize' : τ'.cells.size = τ.cells.size + 1)
    (hcell : ∀ a, σ'.cell a = if a = σ.cells.size then c else σ.cell a)
    (hcell' : ∀ a, τ'.cell a = if a = τ.cells.size then c else τ.cell a) :
    σ'.Mirrors (Function.update ren σ.cells.size τ.cells.size) waiting τ' := by
  have hlt : τ.cells.size < τ'.cells.size := hsize' ▸ Nat.lt_succ_self _
  refine h.pairCell hrooted hframes hmade hlt (fun a ha => (h.lt a ha).ne) hmemo hsize hlt.le hcell
    (by rw [hcell', if_pos rfl]) (fun a ha _ => by rw [hcell', if_neg ha.ne]) hframe
    (fun x v hx => ?_) (fun x e hx => ?_) ?_
  · rw [htop] at hx
    obtain ⟨a, ha, rfl⟩ := h.rooted.exists_of_lookup_top hx
    rw [htop', h.top x _ hx, Value.renumber, Value.renumber, Function.update_of_ne ha.ne]
  · obtain ⟨d, hd, hne⟩ := h.awaits x e hx
    refine ⟨d, ⟨hd.lt.trans hlt, ?_, ?_⟩, hd.lt.ne', hne⟩
    · rw [htop', hd.lookup]
    · rw [hcell', if_neg hd.lt.ne, hd.cell]
  · rw [htop']
    exact h.apart

/-- Both stores may make a thunk, which gets the next number in each of them. -/
theorem newThunk (h : σ.Mirrors ren waiting τ) (e : Expr) {env : Env} (henv : σ.HasEnv env) :
    (σ.newThunk e env).2.Mirrors (Function.update ren σ.cells.size τ.cells.size) waiting
      (τ.newThunk e env).2 := by
  have hold : ∀ a < σ.cells.size, Function.update ren σ.cells.size τ.cells.size a = ren a :=
    fun a ha => Function.update_of_ne ha.ne _ _
  refine h.addCell (h.rooted.newThunk e henv) rfl h.frames h.made rfl rfl (fun i hi => ?_)
    (by simp) (by simp) (cell_newThunk e env) (cell_newThunk e env)
  exact (h.frame i hi).trans (h.rooted.renumber_frame hold i).symm

/-- A function is entered in both stores. -/
theorem extendFrame (h : σ.Mirrors ren waiting τ) {closure : Env} (hclosure : σ.HasEnv closure)
    (x : String) {a : CellId} (ha : a < σ.cells.size) (body : Expr) :
    (σ.extendFrame closure x a body).Mirrors (Function.update ren σ.cells.size τ.cells.size) waiting
      (τ.extendFrame closure x (ren a) body) := by
  have hold : ∀ a < σ.cells.size, Function.update ren σ.cells.size τ.cells.size a = ren a :=
    fun a ha => Function.update_of_ne ha.ne _ _
  have hne : 0 ≠ σ.frames.size := h.rooted.nonempty.ne
  refine h.addCell (h.rooted.extendFrame x a body hclosure ha)
    (c := ⟨body, closure.inner σ.frames.size, none, false⟩) rfl ?_ h.made ?_ ?_ (fun i hi => ?_)
    (by simp [Store.extendFrame, Store.newFrame]) (by simp [Store.extendFrame, Store.newFrame])
    (cell_newThunk body _) ?_
  · rw [size_frames_extendFrame, size_frames_extendFrame, h.frames]
  · rw [frame_extendFrame, if_neg hne]
  · rw [frame_extendFrame, h.frames, if_neg hne]
  · rw [frame_extendFrame, frame_extendFrame, h.frames]
    split
    · rw [Frame.renumber, List.map_singleton, Value.renumber, hold a ha]
    · rw [h.frame i hi, h.rooted.renumber_frame hold]
  · rw [← h.frames]
    exact cell_newThunk body _

end Mirrors

end Store

end

/-! ## Computations -/

/-- If the first computation gives a result, then the second gives one that is related to it by `R`,
and it leaves a store that mirrors the first. -/
def Mimics {α β : Type} (waiting : List (String × Expr))
    (R : (CellId → CellId) → Store → α → β → Prop) (ren : CellId → CellId) (x : Eval α) (y : Eval β)
    (σ τ : Store) : Prop :=
  ∀ a σ', x σ = .ok a σ' → ∃ ren' b τ', y τ = .ok b τ' ∧ σ'.Mirrors ren' waiting τ' ∧
    σ.Unfolds σ' ∧ (∀ c < σ.cells.size, ren' c = ren c) ∧ R ren' σ' a b

/-- A value and the same with another number for its thunk. -/
def Value.Mirrors (ren : CellId → CellId) (σ : Store) (v w : Value) : Prop :=
  v.In σ ∧ w = v.renumber ren

/-- The same object twice. -/
def Object.Mirrors (_ : CellId → CellId) (σ : Store) (o p : Object) : Prop :=
  o.In σ ∧ p = o

section

variable {α β γ δ : Type} {waiting : List (String × Expr)} {ren : CellId → CellId} {σ τ : Store}
  {R : (CellId → CellId) → Store → α → β → Prop} {S : (CellId → CellId) → Store → γ → δ → Prop}

/-- Results that correspond are given in both stores. -/
theorem mimics_pure (h : σ.Mirrors ren waiting τ) {a : α} {b : β} (hab : R ren σ a b) :
    Mimics waiting R ren (pure a) (pure b) σ τ := by
  rintro _ _ ⟨⟩
  exact ⟨ren, b, τ, rfl, h, .refl σ, fun _ _ => rfl, hab⟩

/-- What mimics in two steps mimics. -/
theorem Mimics.bind {x : Eval α} {y : Eval β} {f : α → Eval γ} {g : β → Eval δ}
    (hxy : Mimics waiting R ren x y σ τ)
    (hfg : ∀ ren' a b σ' τ', σ'.Mirrors ren' waiting τ' → σ.Unfolds σ' → R ren' σ' a b →
      Mimics waiting S ren' (f a) (g b) σ' τ') :
    Mimics waiting S ren (x >>= f) (y >>= g) σ τ := by
  intro c σ'' hc
  cases hx : x σ with
  | error stop σ' =>
    rw [bind_of_error hx] at hc
    cases hc
  | ok a σ' =>
    rw [bind_of_ok hx] at hc
    obtain ⟨ren', b, τ', hy, h', hunfolds, hagree, hab⟩ := hxy a σ' hx
    obtain ⟨ren'', d, τ'', hg, h'', hunfolds', hagree', hcd⟩ :=
      hfg ren' a b σ' τ' h' hunfolds hab c σ'' hc
    refine ⟨ren'', d, τ'', (bind_of_ok hy g).trans hg, h'', hunfolds.trans hunfolds', ?_, hcd⟩
    exact fun e he => (hagree' e (he.trans_le hunfolds.size)).trans (hagree e he)

/-- A refusal gives no result. -/
theorem mimics_refuse (refusal : Refusal) (place : Option Location) (y : Eval β) :
    Mimics waiting R ren (refuse refusal place) y σ τ := by
  intro a σ' ha
  cases refusal <;> cases ha

/-- Both computations give a value, and the first makes its store grow. -/
theorem mimics_ok {x y : Eval Value} {σ' τ' : Store} {ren' : CellId → CellId} {v : Value}
    (hx : x σ = .ok v σ') (hunfolds : σ.Unfolds σ') (hv : v.In σ')
    (hy : y τ = .ok (v.renumber ren') τ') (h : σ'.Mirrors ren' waiting τ')
    (hagree : ∀ c < σ.cells.size, ren' c = ren c) :
    Mimics waiting Value.Mirrors ren x y σ τ := by
  intro w σ'' hw
  rw [hx] at hw
  cases hw
  exact ⟨ren', _, τ', hy, h, hunfolds, hagree, hv, rfl⟩

/-- Both computations make the same object. -/
theorem mimics_make (h : σ.Mirrors ren waiting τ) {c : Content}
    (hc : Object.In (σ.newObject c).2 ⟨.made σ.made, c⟩) :
    Mimics waiting Value.Mirrors ren (make c) (make c) σ τ := by
  refine mimics_ok (v := .object ⟨.made σ.made, c⟩) rfl (σ.unfolds_newObject c) hc ?_
    (h.newObject c) fun _ _ => rfl
  rw [← h.made]
  rfl

/-- Both computations make a thunk for the same expression. -/
theorem mimics_suspend (h : σ.Mirrors ren waiting τ) (e : Expr) {env : Env}
    (henv : σ.HasEnv env) :
    Mimics waiting Value.Mirrors ren (suspend e env) (suspend e env) σ τ := by
  obtain ⟨-, hunfolds, hthunk⟩ := Upkeep.lawful_rooted.thunk (e := e) h.rooted henv
  refine mimics_ok rfl hunfolds hthunk ?_ (h.newThunk e henv) fun a ha =>
    Function.update_of_ne ha.ne _ _
  rw [Value.renumber, Function.update_self]
  rfl

/-- A call mimics itself where thunks have other numbers. -/
theorem mimics_call (h : σ.Mirrors ren waiting τ) {o : Object} (ho : o.In σ) (a : Expr)
    {env : Env} (henv : σ.HasEnv env) (place : Option Location) :
    Mimics waiting Value.Mirrors ren (call o a env place) (call o a env place) σ τ := by
  cases hc : o.content with
  | function x body closure =>
    have hargument := h.newThunk a henv
    have hclosure := (ho.closure x body closure hc).mono
      (Store.unfolds_newThunk a henv).toPersists
    have hlt : σ.cells.size < (σ.newThunk a env).2.cells.size := by simp
    have hfits : Upkeep.rooted.Fits σ env (.call (.name x none) a place) := henv
    obtain ⟨-, hunfolds, hv⟩ := (Upkeep.lawful_rooted.call h.rooted ho hfits).ok
      (call_function hc a env place σ)
    refine mimics_ok (call_function hc a env place σ) hunfolds hv ?_
      (hargument.extendFrame hclosure x hlt body) fun b hb => ?_
    · rw [call_function hc, Function.update_self, Value.renumber, Store.size_cells_newThunk,
        Store.size_cells_newThunk, Function.update_self]
    · rw [Function.update_of_ne (hb.trans hlt).ne, Function.update_of_ne hb.ne]
  | _ =>
    unfold call
    rw [hc]
    exact mimics_refuse _ place _

/-- An operator before its operand mimics itself where thunks have other numbers. -/
theorem mimics_operateUnary (h : σ.Mirrors ren waiting τ) (op : UnaryOp) (o : Object)
    (place : Option Location) :
    Mimics waiting Value.Mirrors ren (operateUnary op o place) (operateUnary op o place) σ τ := by
  unfold operateUnary
  cases hc : op.apply o.content with
  | error refusal => exact mimics_refuse refusal place _
  | ok c => exact mimics_make h (Object.in_made (Nat.lt_succ_self _) (UnaryOp.ok_of_apply hc))

/-- An operator between two objects mimics itself where thunks have other numbers. -/
theorem mimics_operate (h : σ.Mirrors ren waiting τ) (op : BinaryOp) (l r : Object)
    (place : Option Location) :
    Mimics waiting Value.Mirrors ren (operate op l r place) (operate op l r place) σ τ := by
  have hnote : Mimics waiting (fun _ _ _ _ => True) ren
      (modify fun σ => σ.note (.combined op l r) : Eval Unit)
      (modify fun σ => σ.note (.combined op l r) : Eval Unit) σ τ := by
    rintro _ _ ⟨⟩
    exact ⟨ren, (), _, rfl, h.note _ _, σ.unfolds_note _, fun _ _ => rfl, trivial⟩
  refine hnote.bind fun ren' _ _ σ' τ' h' _ _ => ?_
  cases hc : op.combine l r with
  | error refusal => exact mimics_refuse refusal place _
  | ok c => exact mimics_make h' (Object.in_made (Nat.lt_succ_self _) (BinaryOp.ok_of_combine hc))

/-- An operator mimics itself where thunks have other numbers, if its right operand does. -/
theorem mimics_operateLazily (h : σ.Mirrors ren waiting τ) {o : Object} (ho : o.In σ)
    {right : Eval Object} (hright : Mimics waiting Object.Mirrors ren right right σ τ)
    (op : BinaryOp) (place : Option Location) :
    Mimics waiting Value.Mirrors ren (operateLazily op o right place)
      (operateLazily op o right place) σ τ := by
  unfold operateLazily
  cases op.decisive? with
  | none =>
    refine hright.bind fun ren' o' _ σ' τ' h' _ ho' => ?_
    rw [ho'.2]
    exact mimics_operate h' op o o' place
  | some decisive =>
    cases o.content with
    | boolean b =>
      dsimp only
      split
      · exact mimics_pure h ⟨ho, rfl⟩
      · refine hright.bind fun ren' o' _ σ' τ' h' _ ho' => ?_
        rw [ho'.2]
        cases o'.content with
        | boolean _ => exact mimics_operate h' op o o' place
        | _ => exact mimics_refuse _ place _
    | _ => exact mimics_refuse _ place _

/-- The choice of a branch mimics itself where thunks have other numbers. -/
theorem mimics_choose (h : σ.Mirrors ren waiting τ) (o : Object) (t e : Expr) {env : Env}
    (henv : σ.HasEnv env) (place : Option Location) :
    Mimics waiting Value.Mirrors ren (choose o t e env place) (choose o t e env place) σ τ := by
  unfold choose
  cases o.content with
  | boolean b => exact mimics_suspend h _ henv
  | _ => exact mimics_refuse (.cause .condition) place _

/-- Forcing a value mimics forcing it where thunks have other numbers. -/
def ForceMimics (waiting : List (String × Expr)) (force : Value → Eval Object) : Prop :=
  ∀ ren v σ τ, σ.Mirrors ren waiting τ → v.In σ →
    Mimics waiting Object.Mirrors ren (force v) (force (v.renumber ren)) σ τ

/-- Evaluation does the same where thunks have other numbers, if forcing does. -/
theorem mimics_eval {force : Value → Eval Object} (hforce : ForceMimics waiting force)
    (h : σ.Mirrors ren waiting τ) {env : Env} (henv : σ.HasEnv env) (e : Expr) :
    Mimics waiting Value.Mirrors ren (eval force env e) (eval force env e) σ τ := by
  -- an operand is first evaluated and then forced
  have need : ∀ {e : Expr} {ren : CellId → CellId} {σ τ : Store},
      Mimics waiting Value.Mirrors ren (eval force env e) (eval force env e) σ τ →
      Mimics waiting Object.Mirrors ren (eval force env e >>= force) (eval force env e >>= force)
        σ τ := by
    refine fun h => h.bind fun ren' v w σ' τ' h' _ hv => ?_
    rw [hv.2]
    exact hforce ren' v σ' τ' h' hv.1
  induction e generalizing ren σ τ with
  | literal c place => exact mimics_pure h ⟨Object.in_literal σ place c, rfl⟩
  | name x place =>
    intro v σ' hv
    rw [eval_name] at hv ⊢
    cases hx : σ.lookup env x with
    | none =>
      rw [hx] at hv
      cases hv
    | some w =>
      rw [hx] at hv
      cases hv
      -- the first run has found the name, and so it is none of those that are waiting
      obtain ⟨a, ha, rfl⟩ := h.rooted.lookup hx
      rw [h.lookup henv hx]
      exact ⟨ren, _, τ, rfl, h, .refl σ, fun _ _ => rfl, ha, rfl⟩
  | paren e _ ih => exact ih h henv
  | arrow x e place =>
    have hfits : Upkeep.rooted.Fits σ env (.arrow x e place) := henv
    exact mimics_make h (Upkeep.lawful_rooted.function h.rooted hfits)
  | call f a place ihf =>
    refine (need (ihf h henv)).bind fun ren' o _ σ' τ' h' hunfolds ho => ?_
    rw [ho.2]
    exact mimics_call h' ho.1 a (henv.mono hunfolds.toPersists) place
  | unary op e place ih =>
    refine (need (ih h henv)).bind fun ren' o _ σ' τ' h' _ ho => ?_
    rw [ho.2]
    exact mimics_operateUnary h' op o place
  | binary op l r place ihl ihr =>
    refine (need (ihl h henv)).bind fun ren' o _ σ' τ' h' hunfolds ho => ?_
    rw [ho.2]
    exact mimics_operateLazily h' ho.1 (need (ihr h' (henv.mono hunfolds.toPersists))) op place
  | cond c t e place ihc =>
    refine (need (ihc h henv)).bind fun ren' o _ σ' τ' h' hunfolds ho => ?_
    rw [ho.2]
    exact mimics_choose h' o t e (henv.mono hunfolds.toPersists) place

/-- Keeping a result mimics keeping it, under another number. -/
theorem mimics_fill (h : σ.Mirrors ren waiting τ) {a : CellId} (ha : a < σ.cells.size) {v : Value}
    (hv : v.In σ) :
    Mimics waiting Value.Mirrors ren (do fill a v; pure v)
      (do fill (ren a) (v.renumber ren); pure (v.renumber ren)) σ τ := by
  intro w σ' hw
  have hcell := h.cell a ha
  cases hmemo : (σ.cell a).memo with
  | some u =>
    -- the first run would have failed
    have hfill : fill a v σ = .error .refilled σ := by rw [fill, hmemo]; rfl
    rw [bind_of_error hfill] at hw
    cases hw
  | none =>
    have hmemo' : (τ.cell (ren a)).memo = none := by rw [hcell, Cell.renumber, hmemo]; rfl
    have hfill : fill a v σ = .ok () (σ.setMemo a v) := by rw [fill, hmemo]; rfl
    have hfill' : fill (ren a) (v.renumber ren) τ =
        .ok () (τ.setMemo (ren a) (v.renumber ren)) := by rw [fill, hmemo']; rfl
    rw [bind_of_ok hfill] at hw
    cases hw
    have hunfolds := Store.unfolds_setMemo hmemo v
    exact ⟨ren, _, _, bind_of_ok hfill' _, h.setMemo ha hmemo hv, hunfolds, fun _ _ => rfl,
      hv.mono hunfolds.toPersists, rfl⟩

/-- Following a thunk mimics following the one with the other number, if evaluation does. -/
theorem mimics_step {eval : Env → Expr → Eval Value}
    (heval : ∀ ren env e σ τ, σ.Mirrors ren waiting τ → σ.HasEnv env →
      Mimics waiting Value.Mirrors ren (eval env e) (eval env e) σ τ)
    (h : σ.Mirrors ren waiting τ) {a : CellId} (ha : a < σ.cells.size) :
    Mimics waiting Value.Mirrors ren (step eval a) (step eval (ren a)) σ τ := by
  have hcell := h.cell a ha
  intro v σ' hv
  cases hmemo : (σ.cell a).memo with
  | some w =>
    rw [step_of_memo hmemo] at hv
    cases hv
    have hmemo' : (τ.cell (ren a)).memo = some (v.renumber ren) := by
      rw [hcell, Cell.renumber, hmemo]
      rfl
    exact ⟨ren, _, τ, step_of_memo hmemo', h, .refl σ, fun _ _ => rfl, h.rooted.memo a v hmemo, rfl⟩
  | none =>
    have hmemo' : (τ.cell (ren a)).memo = none := by
      rw [hcell, Cell.renumber, hmemo]
      rfl
    have hbusy' : (τ.cell (ren a)).busy = (σ.cell a).busy := by rw [hcell, Cell.renumber]
    cases hbusy : (σ.cell a).busy with
    | true =>
      rw [step_of_busy hmemo hbusy] at hv
      cases hv
    | false =>
      rw [hbusy] at hbusy'
      have hmarked := h.setBusy ha true (.began a) (.began (ren a))
      have hbegin := σ.unfolds_setBusy a true (.began a)
      have hbody := heval ren (σ.cell a).env (σ.cell a).expr _ _ hmarked
        ((Store.hasEnv_cell ha).mono hbegin.toPersists)
      cases hx : eval (σ.cell a).env (σ.cell a).expr (σ.marked a) with
      | error stop σ₁ =>
        rw [step_of_error hmemo hbusy hx] at hv
        cases hv
      | ok u σ₁ =>
        obtain ⟨ren₁, w, τ₁, hy, h₁, hunfolds, hagree, hu, rfl⟩ := hbody u σ₁ hx
        have ha₁ : a < σ₁.cells.size := ha.trans_le (hbegin.trans hunfolds).size
        have hren : ren₁ a = ren a := hagree a (ha.trans_le hbegin.size)
        -- the thunk gets its result, under the number that it has had all along
        have hunmarked := h₁.setBusy ha₁ false (.finished a) (.finished (ren a))
        have hend := σ₁.unfolds_setBusy a false (.finished a)
        have hfill := mimics_fill hunmarked (ha₁.trans_le hend.size) (hu.mono hend.toPersists)
        rw [step_of_eval_ok hmemo hbusy hx] at hv
        obtain ⟨ren', w', τ', hw', h', hunfolds', hagree', hv', rfl⟩ := hfill v σ' hv
        rw [hren] at hw'
        have hy' : eval (τ.cell (ren a)).env (τ.cell (ren a)).expr (τ.marked (ren a)) =
            .ok (u.renumber ren₁) τ₁ := by rw [hcell]; exact hy
        refine ⟨ren', _, τ', (step_of_eval_ok hmemo' hbusy' hy').trans hw', h',
          (hbegin.trans hunfolds).trans (hend.trans hunfolds'), fun c hc => ?_, hv', rfl⟩
        have hc₁ := hc.trans_le (hbegin.trans (hunfolds.trans hend)).size
        exact (hagree' c hc₁).trans (hagree c (hc.trans_le hbegin.size))

/-- Forcing does the same where thunks have other numbers, with the same limits. -/
theorem mimics_force (fuel depth : ℕ) : ForceMimics waiting (force fuel depth) := by
  unfold force
  induction fuel generalizing depth with
  | zero =>
    rintro ren (o | a) σ τ h hv
    · exact mimics_pure h ⟨hv, rfl⟩
    · rintro _ _ ⟨⟩
  | succ fuel ih =>
    rintro ren (o | a) σ τ h hv
    · exact mimics_pure h ⟨hv, rfl⟩
    · cases depth with
      | zero => rintro _ _ ⟨⟩
      | succ depth =>
        rw [Value.renumber, forceWith_thunk, forceWith_thunk]
        refine (mimics_step (fun ren env e σ τ h henv => ?_) h hv).bind
          fun ren' v w σ' τ' h' _ hvw => ?_
        · exact mimics_eval (ih depth) h henv e
        · rw [hvw.2]
          exact ih (depth + 1) ren' v σ' τ' h' hvw.1

/-- The value of an expression is found in the same way where thunks have other numbers. -/
theorem mimics_value (limits : Limits) (h : σ.Mirrors ren waiting τ) {env : Env}
    (henv : σ.HasEnv env) (e : Expr) :
    Mimics waiting Object.Mirrors ren (eval limits.force env e >>= limits.force)
      (eval limits.force env e >>= limits.force) σ τ := by
  have hforce : ForceMimics waiting limits.force := mimics_force limits.fuel limits.depth
  refine (mimics_eval hforce h henv e).bind fun ren' v w σ' τ' h' _ hv => ?_
  rw [hv.2]
  exact hforce ren' v σ' τ' h' hv.1

end

end CallByNeed
