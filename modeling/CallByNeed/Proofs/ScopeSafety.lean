import CallByNeed.Proofs.EvaluationMoments
import CallByNeed.Proofs.FreeNames
import CallByNeed.Proofs.NeedByName
import CallByNeed.Session

/-!
# Scope safety

A name is never found undefined in a program that declares, before each output, the names that the
output and the declarations so far leave free. The reason is an invariant of the store
(`Store.Scoped`): the free names of each thunk's expression are bound in the environment of the
thunk, and those of each function's body, its parameter apart, in its closure. Evaluation preserves
it (`Upkeep.scoped`), and it holds not only before and after but at every moment
(`Passes.scoped`).

Between the outputs the invariant is weaker, because a declaration may mention names that are
declared only after it. The list `loose` holds the names that may still be missing at the top level.
-/

namespace CallByNeed

/-! ## Names in scope -/

namespace Store

/-- A frame of the environment binds the name. -/
def Binds (σ : Store) (env : Env) (x : String) : Prop :=
  ∃ i ∈ env.frames, x ∈ (σ.frame i).names

/-- No frame loses a name. -/
def Widens (σ σ' : Store) : Prop :=
  ∀ i, (σ.frame i).names ⊆ (σ'.frame i).names

end Store

/-- The free names of the expression are bound in the environment. -/
def Expr.Scoped (σ : Store) (env : Env) (e : Expr) : Prop :=
  ∀ x ∈ e.free, σ.Binds env x

/-- The free names of a function's body other than its parameter are bound in its closure. -/
def Content.Scoped (σ : Store) : Content → Prop
  | .function x body closure => ∀ y ∈ body.free, y ≠ x → σ.Binds closure y
  | _ => True

/-- If the value is a function, its free names are bound in its closure. -/
def Value.Scoped (σ : Store) : Value → Prop
  | .object o => o.content.Scoped σ
  | .thunk _ => True

/-- All free names are bound where they are used, except for the loose ones at the top level. -/
structure Store.Scoped (loose : List String) (σ : Store) : Prop where
  /-- Names are bound to thunks. -/
  frame : ∀ i, ∀ b ∈ σ.frame i, ∃ a, b.2 = .thunk a
  /-- The free names of a thunk's expression are bound in its environment. -/
  expr : ∀ a, ∀ x ∈ (σ.cell a).expr.free,
    σ.Binds (σ.cell a).env x ∨ (σ.cell a).env = .global ∧ x ∈ loose
  /-- The results of thunks are in scope. -/
  memo : ∀ a v, (σ.cell a).memo = some v → v.Scoped σ

section

variable {σ σ' σ'' : Store} {env : Env} {loose : List String}

namespace Store

/-- No frame loses a name if nothing is done. -/
theorem Widens.refl (σ : Store) : σ.Widens σ :=
  fun _ => List.Subset.refl _

/-- Names that are kept twice are kept. -/
theorem Widens.trans (h : σ.Widens σ') (h' : σ'.Widens σ'') : σ.Widens σ'' :=
  fun i => List.Subset.trans (h i) (h' i)

/-- No frame loses a name if the frames stay as they are. -/
theorem Widens.of_frames (h : σ'.frames = σ.frames) : σ.Widens σ' := by
  intro i
  rw [Store.frame, Store.frame, h]
  exact List.Subset.refl _

/-- A name that is bound stays bound. -/
theorem Binds.mono (h : σ.Widens σ') {x : String} (hx : σ.Binds env x) : σ'.Binds env x := by
  obtain ⟨i, hi, hmem⟩ := hx
  exact ⟨i, hi, h i hmem⟩

/-- A new frame takes a number at which no name was bound. -/
theorem widens_newFrame (σ : Store) (f : Frame) : σ.Widens (σ.newFrame f).2 := by
  intro i
  rcases Nat.lt_or_ge i σ.frames.size with hi | hi
  · rw [frame_newFrame_of_lt σ hi]
    exact List.Subset.refl _
  · rw [frame_of_size_le hi]
    exact List.nil_subset _

/-- Binding a name again keeps it, and binding it keeps the others. -/
theorem widens_bind (σ : Store) (env : Env) (x : String) (v : Value) :
    σ.Widens (σ.bind env x v) := by
  intro i
  rw [frame_bind]
  split
  · intro y hy
    obtain ⟨b, hb, rfl⟩ := List.mem_map.1 hy
    by_cases hbx : b.1 = x
    · exact hbx ▸ List.mem_cons_self
    · exact List.mem_cons_of_mem _ (List.mem_map_of_mem (List.mem_filter.2 ⟨hb, bne_iff_ne.2 hbx⟩))
  · exact List.Subset.refl _

end Store

/-- Free names of an expression that are bound stay bound. -/
theorem Expr.Scoped.mono (h : σ.Widens σ') {e : Expr} (he : e.Scoped σ env) : e.Scoped σ' env :=
  fun x hx => (he x hx).mono h

/-- A function whose free names are bound in its closure stays one. -/
theorem Content.Scoped.mono (h : σ.Widens σ') {c : Content} (hc : c.Scoped σ) : c.Scoped σ' := by
  cases c with
  | function x body closure => exact fun y hy hne => (hc y hy hne).mono h
  | _ => trivial

/-- A value in scope stays in scope. -/
theorem Value.Scoped.mono (h : σ.Widens σ') {v : Value} (hv : v.Scoped σ) : v.Scoped σ' := by
  cases v with
  | object o => exact Content.Scoped.mono h hv
  | thunk a => trivial

/-- A constant has no free names. -/
theorem Content.scoped_ofConstant (σ : Store) (c : Constant) : (Content.ofConstant c).Scoped σ := by
  cases c <;> trivial

namespace Store

/-- The names that an expression needs are there, once the loose ones are bound. -/
theorem Scoped.tighten (h : σ.Scoped loose) (hloose : ∀ x ∈ loose, σ.Binds .global x) :
    σ.Scoped [] where
  frame := h.frame
  expr a x hx := by
    rcases h.expr a x hx with hbinds | ⟨henv, hx⟩
    · exact .inl hbinds
    · exact .inl (henv ▸ hloose x hx)
  memo := h.memo

/-- More names may be missing than are. -/
theorem Scoped.loosen {more : List String} (h : σ.Scoped loose) (hsub : loose ⊆ more) :
    σ.Scoped more :=
  ⟨h.frame, fun a x hx => (h.expr a x hx).imp_right (And.imp_right fun hx => hsub hx), h.memo⟩

/-- In a scoped store the expression of a thunk is in scope. -/
theorem Scoped.scoped_expr (h : σ.Scoped []) (a : CellId) :
    (σ.cell a).expr.Scoped σ (σ.cell a).env :=
  fun x hx => (h.expr a x hx).resolve_right fun h => List.not_mem_nil h.2

/-- What is bound in a scoped store is a thunk. -/
theorem Scoped.exists_lookup (h : σ.Scoped loose) {x : String} (hx : σ.Binds env x) :
    ∃ a, σ.lookup env x = some (.thunk a) := by
  obtain ⟨i, hi, hmem⟩ := hx
  obtain ⟨b, hb, rfl⟩ := List.mem_map.1 hmem
  have hsome : (σ.binding? env b.1).isSome = true := by
    refine List.findSome?_isSome_iff.2 ⟨i, hi, ?_⟩
    rw [Option.isSome_iff_ne_none]
    intro hnone
    exact absurd rfl (bne_iff_ne.1 (List.lookup_eq_none_iff.1 hnone b hb))
  obtain ⟨w, hw⟩ := Option.isSome_iff_exists.1 hsome
  -- a frame further inside may bind the name too, and then that binding counts
  obtain ⟨j, -, hj⟩ := List.exists_of_findSome?_eq_some hw
  obtain ⟨l₁, l₂, hf, -⟩ := List.lookup_eq_some_iff.1 hj
  obtain ⟨a, rfl⟩ := h.frame j (b.1, w) (hf ▸ by simp)
  exact ⟨a, by rw [Store.lookup, hw]; rfl⟩

/-- A name that is bound stands for something. -/
theorem Scoped.contains (h : σ.Scoped loose) {x : String} (hx : σ.Binds env x) :
    σ.contains env x = true := by
  obtain ⟨a, ha⟩ := h.exists_lookup hx
  rw [Store.contains, ha]
  rfl

/-! ## What keeps names in scope -/

/-- A change keeps a store scoped if it adds only what is in scope. -/
theorem Scoped.change (h : σ.Scoped loose) (hwidens : σ.Widens σ')
    (hframe : ∀ i, ∀ b ∈ σ'.frame i, b ∈ σ.frame i ∨ ∃ a, b.2 = .thunk a)
    (hexpr : ∀ a, (σ'.cell a).expr = (σ.cell a).expr ∧ (σ'.cell a).env = (σ.cell a).env ∨
      ∀ x ∈ (σ'.cell a).expr.free,
        σ'.Binds (σ'.cell a).env x ∨ (σ'.cell a).env = .global ∧ x ∈ loose)
    (hmemo : ∀ a v, (σ'.cell a).memo = some v → (σ.cell a).memo = some v ∨ v.Scoped σ') :
    σ'.Scoped loose where
  frame i b hb := (hframe i b hb).elim (h.frame i b) id
  expr a x hx := by
    rcases hexpr a with ⟨he, henv⟩ | hscoped
    · rw [he] at hx
      rw [henv]
      exact (h.expr a x hx).imp_left (Binds.mono hwidens)
    · exact hscoped x hx
  memo a v hv := (hmemo a v hv).elim (fun hv => (h.memo a v hv).mono hwidens) id

/-- Names stay in scope while only marks, results, objects and events are added. -/
theorem Scoped.of_same (h : σ.Scoped loose) (hframes : σ'.frames = σ.frames)
    (hexpr : ∀ a, (σ'.cell a).expr = (σ.cell a).expr)
    (henv : ∀ a, (σ'.cell a).env = (σ.cell a).env)
    (hmemo : ∀ a v, (σ'.cell a).memo = some v → (σ.cell a).memo = some v ∨ v.Scoped σ) :
    σ'.Scoped loose := by
  have hwidens : σ.Widens σ' := .of_frames hframes
  refine h.change hwidens (fun i b hb => .inl ?_) (fun a => .inl ⟨hexpr a, henv a⟩)
    fun a v hv => (hmemo a v hv).imp_right (Value.Scoped.mono hwidens)
  rwa [Store.frame, hframes] at hb

/-- A new object is no thunk and no frame. -/
theorem Scoped.newObject (h : σ.Scoped loose) (c : Content) : (σ.newObject c).2.Scoped loose :=
  h.of_same rfl (fun _ => rfl) (fun _ => rfl) fun _ _ => .inl

/-- Events are about no names. -/
theorem Scoped.note (h : σ.Scoped loose) (e : Event) : (σ.note e).Scoped loose :=
  h.of_same rfl (fun _ => rfl) (fun _ => rfl) fun _ _ => .inl

/-- Marks are about no names. -/
theorem Scoped.setBusy (h : σ.Scoped loose) (a : CellId) (busy : Bool) (e : Event) :
    ((σ.setBusy a busy).note e).Scoped loose :=
  h.of_same rfl (by simp) (by simp) (by simp +contextual)

/-- A thunk may get a result that is in scope. -/
theorem Scoped.setMemo (h : σ.Scoped loose) (a : CellId) {v : Value} (hv : v.Scoped σ) :
    (σ.setMemo a v).Scoped loose := by
  refine h.of_same rfl (by simp) (by simp) fun b w hw => ?_
  rw [cell_setMemo] at hw
  split at hw
  · exact .inr (Option.some.inj hw ▸ hv)
  · exact .inl hw

/-- A new thunk may use what is bound, and at the top level what may be missing. -/
theorem Scoped.newThunk (h : σ.Scoped loose) {e : Expr}
    (he : ∀ x ∈ e.free, σ.Binds env x ∨ env = .global ∧ x ∈ loose) :
    (σ.newThunk e env).2.Scoped loose := by
  refine h.change (.of_frames rfl) (fun _ _ => .inl) (fun a => ?_) fun a v hv => ?_
  · rw [cell_newThunk]
    split
    · exact .inr he
    · exact .inl ⟨rfl, rfl⟩
  · rw [cell_newThunk] at hv
    split at hv
    · cases hv
    · exact .inl hv

/-- A new frame binds its name to a thunk. -/
theorem Scoped.newFrame (h : σ.Scoped loose) (x : String) (a : CellId) :
    (σ.newFrame [(x, .thunk a)]).2.Scoped loose := by
  refine h.change (σ.widens_newFrame _) (fun i b hb => ?_) (fun _ => .inl ⟨rfl, rfl⟩)
    fun _ _ => .inl
  rcases Nat.lt_trichotomy i σ.frames.size with hi | rfl | hi
  · rw [frame_newFrame_of_lt σ hi] at hb
    exact .inl hb
  · rw [frame_newFrame_self, List.mem_singleton] at hb
    exact .inr ⟨a, hb ▸ rfl⟩
  · rw [frame_of_size_le (by simpa [Store.newFrame] using Nat.succ_le_of_lt hi)] at hb
    cases hb

/-- In a new frame the parameter is bound, and what was bound around it still is. -/
theorem binds_newFrame (σ : Store) (closure : Env) (x : String) (v : Value) {y : String}
    (hy : y ≠ x → σ.Binds closure y) :
    (σ.newFrame [(x, v)]).2.Binds (closure.inner σ.frames.size) y := by
  by_cases hyx : y = x
  · refine ⟨σ.frames.size, List.mem_cons_self, ?_⟩
    rw [frame_newFrame_self, hyx]
    exact List.mem_cons_self
  · obtain ⟨i, hi, hmem⟩ := (hy hyx).mono (σ.widens_newFrame [(x, v)])
    exact ⟨i, List.mem_cons_of_mem _ hi, hmem⟩

/-- A declaration binds its name to a thunk. -/
theorem Scoped.bind (h : σ.Scoped loose) (env : Env) (x : String) (a : CellId) :
    (σ.bind env x (.thunk a)).Scoped loose := by
  refine h.change (σ.widens_bind env x _) (fun i b hb => ?_) (fun _ => .inl ⟨rfl, rfl⟩)
    fun _ _ => .inl
  rw [frame_bind] at hb
  split at hb
  · rcases List.mem_cons.1 hb with rfl | hb
    · exact .inr ⟨a, rfl⟩
    · exact .inl (List.mem_of_mem_filter hb)
  · exact .inl hb

end Store

end

/-! ## Computations that never miss a name -/

/-- The stop is that a name is undefined. -/
def Stop.IsUndefined : Stop → Prop
  | .error ⟨.undefined _, _⟩ => True
  | _ => False

/-- Operands are refused for what they are, and not for the lack of a name. -/
theorem Refusal.Concerns.not_isUndefined {refusal : Refusal} {operands : List Content}
    (h : refusal.Concerns operands) (place : Option Location) :
    ¬(refusal.stop place).IsUndefined := by
  cases refusal with
  | cause c =>
    cases c with
    | undefined x => exact h.elim
    | _ => exact id
  | domain | unnamed | incomparable => exact id

/-- Names are kept in scope: no frame loses one, and what is evaluated does not stop for the lack of
one. -/
def Upkeep.scoped : Upkeep where
  Inv σ := σ.Scoped []
  Grows := Store.Widens
  Fits σ env e := e.Scoped σ env
  Has σ v := v.Scoped σ
  Stops σ stop := σ.Scoped [] ∧ ¬stop.IsUndefined

/-- A part of an expression has no more free names than the whole. -/
theorem Expr.free_subset_of_mem_parts {e d : Expr} (hd : d ∈ e.parts) : d.free ⊆ e.free := by
  have hfree : e.free = e.parts.flatMap free := by
    cases e with
    | literal | name | arrow => cases hd
    | paren | unary | call | binary | cond => simp [free, parts]
  rw [hfree]
  exact fun x hx => List.mem_flatMap.2 ⟨d, hd, hx⟩

/-- Whatever evaluation does to a store keeps names in scope. -/
theorem Upkeep.lawful_scoped : Upkeep.scoped.Lawful where
  refl := .refl
  trans := .trans
  fits_mono h he := Expr.Scoped.mono h he
  has_mono h hv := Value.Scoped.mono h hv
  part he hd x hx := he x (Expr.free_subset_of_mem_parts hd hx)
  literal σ _ c := Content.scoped_ofConstant σ c
  lookup hσ he hx := by
    obtain ⟨a, ha⟩ := Store.Scoped.exists_lookup hσ (he _ List.mem_cons_self)
    cases ha.symm.trans hx
    trivial
  undefined hσ he hx := by
    -- the only rule that can miss a name
    obtain ⟨a, ha⟩ := Store.Scoped.exists_lookup hσ (he _ List.mem_cons_self)
    cases ha.symm.trans hx
  object c hσ := ⟨hσ.newObject c, .of_frames rfl⟩
  constant σ c := Content.scoped_ofConstant _ c
  function _ he := fun y hy hne =>
    (he y (Expr.mem_free_arrow.2 ⟨hy, hne⟩)).mono (.of_frames rfl)
  thunk hσ he := ⟨hσ.newThunk fun x hx => .inl (he x hx), .of_frames rfl, trivial⟩
  body {_ _ x _ closure a} hσ ho _ := by
    -- the body may use its parameter and what is bound in the closure
    refine ⟨(hσ.newFrame x a).newThunk fun y hy => .inl ?_, Store.widens_newFrame _ _, trivial⟩
    exact Store.binds_newFrame _ closure x _ (ho y hy)
  combined hσ _ := ⟨hσ.note _, .of_frames rfl⟩
  domain hσ _ := ⟨.of_frames rfl, hσ.note _, id⟩
  refused _ hσ _ _ hrefusal := ⟨hσ, hrefusal.not_isUndefined _⟩
  tooDeep hσ := ⟨hσ, id⟩
  outOfFuel hσ := ⟨hσ, id⟩

/-- The expression of a thunk that is followed is in scope, and so is its result. -/
theorem Upkeep.memoizes_scoped : Upkeep.scoped.Memoizes where
  memo hσ _ hv := hσ.memo _ _ hv
  busy hσ _ := ⟨hσ, id⟩
  mark {_ a} h := ⟨h.inv.setBusy a true _, Expr.Scoped.mono (.of_frames rfl) (h.inv.scoped_expr a)⟩
  release {_ _ a _} _ hwidens hstop := ⟨hwidens, hstop.1.setBusy a false _, hstop.2⟩
  settle {_ _ a _} _ hwidens hσ' hv _ := by
    have hreleased := hσ'.setBusy a false (.finished a)
    exact ⟨hreleased.setMemo a (hv.mono (.of_frames rfl)), hwidens, hv.mono (.of_frames rfl)⟩
  refill {_ _ a} _ hwidens hσ' _ := ⟨hwidens, hσ'.setBusy a false _, id⟩

/-! ## Every moment -/

/-- The names that the work uses are in scope. -/
def Work.Scoped (σ : Store) : Work → Prop
  | eval env e | value env e => e.Scoped σ env
  | force v => v.Scoped σ
  | step _ => True

/-- All names are in scope at the moment. -/
structure Moment.Scoped (m : Moment) : Prop where
  store : m.store.Scoped []
  hand : ∀ v ∈ m.hand, v.Scoped m.store

section

variable {limits : Limits} {w : Work} {σ : Store} {m : Moment}

/-- No work misses a name, if those that it uses are in scope. -/
theorem Work.scoped_run (limits : Limits) (w : Work) (hσ : σ.Scoped []) (hw : w.Scoped σ) :
    Upkeep.scoped.Keeps (fun σ' v => v.Scoped σ') (w.run limits) σ := by
  have hU := Upkeep.lawful_scoped
  have hforce : Upkeep.scoped.Forces limits.force := hU.forces Upkeep.memoizes_scoped _ _
  have heval := hU.evals hforce
  cases w with
  | eval env e => exact heval hσ hw
  | value env e =>
    have hvalue := hU.bind (heval hσ hw) fun v σ' hσ' _ hv => hforce hσ' hv
    exact hU.bind hvalue fun o σ' hσ' _ ho => hU.pure hσ' ho
  | force v => exact hU.bind (hforce hσ hw) fun o σ' hσ' _ ho => hU.pure hσ' ho
  | step a => exact Upkeep.memoizes_scoped.follows hU heval hσ trivial

/-- With nothing in hand, it is the store that counts. -/
theorem Moment.Scoped.of_hand_nil (hσ : σ.Scoped []) : Moment.Scoped ⟨σ, []⟩ :=
  ⟨hσ, fun _ hv => absurd hv List.not_mem_nil⟩

/-- The evaluator may take a value that is in scope. -/
theorem Moment.Scoped.holding (h : m.Scoped) {v : Value} (hv : v.Scoped m.store) :
    (m.holding v).Scoped :=
  ⟨h.store, List.forall_mem_cons.2 ⟨hv, h.hand⟩⟩

/-- At every moment of a work all names are in scope, and no frame has lost one. -/
theorem Passes.scoped (h : Passes limits w σ m) (hσ : σ.Scoped []) (hw : w.Scoped σ) :
    m.Scoped ∧ σ.Widens m.store := by
  -- what was done before a moment has kept names in scope, and what goes on has its own moments
  induction h with
  | start limits w σ =>
    refine ⟨⟨hσ, fun v hv => ?_⟩, .refl σ⟩
    cases w with
    | eval | value => cases hv
    | force w => exact List.mem_singleton.1 hv ▸ hw
    | step a => exact List.mem_singleton.1 hv ▸ trivial
  | done hrun =>
    obtain ⟨hσ', hwidens, hv⟩ := (Work.scoped_run _ _ hσ hw).ok hrun
    exact ⟨(Moment.Scoped.of_hand_nil hσ').holding hv, hwidens⟩
  | failed hrun =>
    obtain ⟨hwidens, hσ', -⟩ := (Work.scoped_run _ _ hσ hw).error hrun
    exact ⟨.of_hand_nil hσ', hwidens⟩
  | paren _ ih => exact ih hσ hw
  | needed hd _ ih => exact ih hσ (Upkeep.lawful_scoped.part hw (Expr.mem_parts_of_needed hd))
  | right hrun _ _ ih =>
    obtain ⟨hl, hr⟩ := List.forall_mem_append.1 hw
    obtain ⟨hσ₁, hwidens, hleft⟩ := (Work.scoped_run _ (.value _ _) hσ hl).ok hrun
    obtain ⟨hm, hwidens'⟩ := ih hσ₁ (Expr.Scoped.mono hwidens hr)
    exact ⟨hm.holding (hleft.mono hwidens'), hwidens.trans hwidens'⟩
  | @combined _ _ op _ _ _ _ _ σ₂ left right hrun _ hrun' =>
    obtain ⟨hl, hr⟩ := List.forall_mem_append.1 hw
    obtain ⟨hσ₁, hwidens, hleft⟩ := (Work.scoped_run _ (.value _ _) hσ hl).ok hrun
    obtain ⟨hσ₂, hwidens', hright⟩ :=
      (Work.scoped_run _ (.value _ _) hσ₁ (Expr.Scoped.mono hwidens hr)).ok hrun'
    have hnote : σ₂.Widens (σ₂.note (.combined op left right)) := .of_frames rfl
    have hm := (Moment.Scoped.of_hand_nil (hσ₂.note _)).holding (hright.mono hnote)
    exact ⟨hm.holding (hleft.mono (hwidens'.trans hnote)), hwidens.trans (hwidens'.trans hnote)⟩
  | @argument _ _ _ _ _ _ σ₁ _ _ _ _ hrun _ =>
    obtain ⟨hf, ha⟩ := List.forall_mem_append.1 hw
    obtain ⟨hσ₁, hwidens, hcallee⟩ := (Work.scoped_run _ (.value _ _) hσ hf).ok hrun
    have hargument := hσ₁.newThunk fun x hx => .inl ((ha x hx).mono hwidens)
    have hm := (Moment.Scoped.of_hand_nil hargument).holding (v := .thunk σ₁.cells.size) trivial
    exact ⟨hm.holding (hcallee.mono (.of_frames rfl)), hwidens⟩
  | @entered _ _ _ _ _ _ σ₁ _ x _ _ hrun _ =>
    obtain ⟨hf, ha⟩ := List.forall_mem_append.1 hw
    obtain ⟨hσ₁, hwidens, hcallee⟩ := (Work.scoped_run _ (.value _ _) hσ hf).ok hrun
    have hargument := hσ₁.newThunk fun x hx => .inl ((ha x hx).mono hwidens)
    have hinside := Store.widens_newFrame σ₁ [(x, .thunk σ₁.cells.size)]
    have hm := Moment.Scoped.of_hand_nil (hargument.newFrame x σ₁.cells.size)
    exact ⟨hm.holding (hcallee.mono hinside), hwidens.trans hinside⟩
  | outermost _ ih => exact ih hσ hw
  | onward hrun _ ih =>
    obtain ⟨hσ₁, hwidens, hv⟩ := (Work.scoped_run _ (.eval _ _) hσ hw).ok hrun
    obtain ⟨hm, hwidens'⟩ := ih hσ₁ hv
    exact ⟨hm, hwidens.trans hwidens'⟩
  | deeper _ ih => exact ih hσ trivial
  | further hrun _ ih =>
    obtain ⟨hσ₁, hwidens, hv⟩ := (Work.scoped_run _ (.step _) hσ trivial).ok hrun
    obtain ⟨hm, hwidens'⟩ := ih hσ₁ hv
    exact ⟨hm, hwidens.trans hwidens'⟩
  | @marked _ a σ _ _ _ _ ih =>
    have hmarked : σ.Widens (σ.marked a) := .of_frames rfl
    obtain ⟨hm, hwidens⟩ :=
      ih (hσ.setBusy a true _) (Expr.Scoped.mono hmarked (hσ.scoped_expr a))
    exact ⟨hm, hmarked.trans hwidens⟩
  | @unmarked _ a σ σ₁ v _ _ hrun =>
    have hmarked : σ.Widens (σ.marked a) := .of_frames rfl
    have hexpr : (Work.eval (σ.cell a).env (σ.cell a).expr).Scoped (σ.marked a) :=
      Expr.Scoped.mono hmarked (hσ.scoped_expr a)
    obtain ⟨hσ₁, hwidens, hv⟩ := (Work.scoped_run _ _ (hσ.setBusy a true _) hexpr).ok hrun
    have hm := Moment.Scoped.of_hand_nil (hσ₁.setBusy a false (.finished a))
    exact ⟨hm.holding (hv.mono (.of_frames rfl)), hmarked.trans hwidens⟩

end

/-! ## Programs -/

/-- The name that a statement declares, if any. -/
def Statement.declared : Statement → List String
  | declare x _ _ => [x]
  | output _ _ _ => []

/-- The free names of what a statement declares. -/
def Statement.mentioned : Statement → List String
  | declare _ e _ => e.free
  | output _ _ _ => []

/-- Each output of a value comes after declarations of all names that are free in it, or in a
declaration before it. -/
def DeclaresFirst (ss : List Statement) : Prop :=
  ∀ before e place after, ss = before ++ .output .value e place :: after →
    ∀ x ∈ e.free ++ before.flatMap Statement.mentioned, x ∈ before.flatMap Statement.declared

/-- The store after the given statements: what they declared is bound, and only names that their
declarations mention may be missing. -/
structure Store.Ready (ss : List Statement) (σ : Store) : Prop where
  rooted : σ.Rooted
  inScope : σ.Scoped (ss.flatMap Statement.mentioned)
  declared : ∀ x ∈ ss.flatMap Statement.declared, σ.Binds .global x

section

variable {before : List Statement} {σ : Store}

/-- Before the first statement nothing is declared and nothing may be missing. -/
theorem Store.ready_empty : Store.empty.Ready [] where
  rooted := Store.rooted_empty
  inScope := by
    refine ⟨fun i b hb => ?_, fun a x hx => ?_, fun a v hv => ?_⟩
    · rcases i with _ | i <;> simp [Store.empty, Store.frame] at hb
    · simp [Store.empty, Store.cell, default, Expr.free] at hx
    · simp [Store.empty, Store.cell, default] at hv
  declared x hx := absurd hx List.not_mem_nil

/-- Once the names are declared that are mentioned, all names are in scope. -/
theorem Store.Ready.tight (h : σ.Ready before)
    (hnames : ∀ x ∈ before.flatMap Statement.mentioned, x ∈ before.flatMap Statement.declared) :
    σ.Scoped [] :=
  h.inScope.tighten fun x hx => h.declared x (hnames x hx)

/-- A statement that declares nothing leaves the store ready if it keeps names in scope. -/
theorem Store.Ready.output {σ' : Store} (h : σ.Ready before) {o : Output} {e : Expr}
    {place : Option Location} (hrooted : σ'.Rooted)
    (hscoped : σ'.Scoped (before.flatMap Statement.mentioned)) (hwidens : σ.Widens σ') :
    σ'.Ready (before ++ [.output o e place]) := by
  refine ⟨hrooted, ?_, fun x hx => ?_⟩
  · rw [List.flatMap_append]
    exact hscoped.loosen (List.subset_append_left _ _)
  · rw [List.flatMap_append] at hx
    exact (h.declared x ((List.mem_append.1 hx).resolve_right List.not_mem_nil)).mono hwidens

/-- After a declaration the name is bound, and what it mentions may be missing. -/
theorem Store.Ready.declare (h : σ.Ready before) {x : String} {e : Expr}
    {place : Option Location} (hx : σ.contains .global x = false) :
    ((σ.newThunk e .global).2.bind .global x (.thunk σ.cells.size)).Ready
      (before ++ [.declare x e place]) := by
  have hwidens := (σ.newThunk e .global).2.widens_bind .global x (.thunk σ.cells.size)
  refine ⟨h.rooted.declare hx e, ?_, fun y hy => ?_⟩
  · have hloose := h.inScope.loosen
      (List.subset_append_left _ ([Statement.declare x e place].flatMap Statement.mentioned))
    rw [List.flatMap_append]
    -- none of the names that it mentions has to be there yet
    refine (hloose.newThunk fun y hy => .inr ⟨rfl, ?_⟩).bind .global x σ.cells.size
    exact List.mem_append_right _ (List.mem_flatMap.2 ⟨_, List.mem_singleton_self _, hy⟩)
  · rw [List.flatMap_append] at hy
    rcases List.mem_append.1 hy with hy | hy
    · exact (h.declared y hy).mono hwidens
    · obtain rfl : y = x := by simpa [Statement.declared] using hy
      refine ⟨0, List.mem_singleton_self _, ?_⟩
      rw [h.rooted.frame_declare hx]
      exact List.mem_cons_self

/-- Executing a statement leaves the store ready for the next, and misses no name. -/
theorem Store.Ready.execute (h : σ.Ready before) (limits : Limits) (s : Statement)
    (hs : DeclaresFirst (before ++ [s])) :
    match s.execute limits.force .global σ with
    | .ok o σ' => σ'.Ready (before ++ [s]) ∧ σ.Widens σ' ∧ ∀ r ∈ o, r.content.Scoped σ'
    | .error stop _ => ¬stop.IsUndefined := by
  have hrooted := h.rooted.execute limits s
  rcases s with ⟨x, e, place⟩ | ⟨_ | _, e, place⟩
  · rw [Statement.execute_declare]
    cases hx : σ.contains .global x with
    | true => exact id
    | false => exact ⟨h.declare hx, Store.widens_bind _ _ _ _, nofun⟩
  · have hnames := List.forall_mem_append.1 (hs before e place [] rfl)
    have hscoped := h.tight hnames.2
    have hscopes := Work.scoped_run limits (.value .global e) hscoped
      fun x hx => h.declared x (hnames.1 x hx)
    cases hrun : (eval limits.force .global e >>= limits.force) σ with
    | error stop σ' =>
      rw [execute_value_of_error hrun]
      exact (hscopes.error (bind_of_error hrun _)).2.2
    | ok o σ' =>
      have hvalue := execute_value_of_ok hrun place
      obtain ⟨hσ', hwidens, ho⟩ := hscopes.ok (bind_of_ok hrun _)
      rw [hvalue]
      rw [leftBy_of_ok hvalue] at hrooted
      refine ⟨h.output hrooted (hσ'.loosen (List.nil_subset _)) hwidens, hwidens, ?_⟩
      rintro _ ⟨⟩
      exact ho
  · have hscoped := h.inScope.newObject (.string (e.expand σ .global [] []).render)
    refine ⟨h.output hrooted hscoped (.of_frames rfl), .of_frames rfl, ?_⟩
    rintro _ ⟨⟩
    trivial

/-- The beginning of a program that declares first declares first. -/
theorem DeclaresFirst.of_append {ss ts : List Statement} (h : DeclaresFirst (ss ++ ts)) :
    DeclaresFirst ss := by
  rintro before e place after rfl
  exact h before e place (after ++ ts) (by simp)

/-- A run misses no name. If it comes to its end, the store is ready for more. -/
theorem Store.Ready.run (h : σ.Ready before) (limits : Limits) (ss : List Statement)
    (hss : DeclaresFirst (before ++ ss)) :
    (∀ stop, (CallByNeed.execute limits.force .global ss σ).stop = some stop →
      ¬stop.IsUndefined) ∧
    ((CallByNeed.execute limits.force .global ss σ).stop = none →
      let outcome := CallByNeed.execute limits.force .global ss σ
      outcome.store.Ready (before ++ ss) ∧ σ.Widens outcome.store ∧
        ∀ o ∈ outcome.outputs, o.content.Scoped outcome.store) := by
  induction ss generalizing before σ with
  | nil =>
    refine ⟨nofun, fun _ => ⟨?_, .refl σ, nofun⟩⟩
    rw [List.append_nil]
    exact h
  | cons s ss ih =>
    rw [List.append_cons] at hss
    have hstep := h.execute limits s hss.of_append
    cases hs : s.execute limits.force .global σ with
    | error stop σ' =>
      rw [hs] at hstep
      rw [execute_cons_of_error hs]
      refine ⟨?_, nofun⟩
      rintro _ ⟨⟩
      exact hstep
    | ok o σ' =>
      rw [hs] at hstep
      obtain ⟨hσ', hwidens, ho⟩ := hstep
      obtain ⟨hstop, hrest⟩ := ih hσ' hss
      rw [execute_cons_of_ok hs]
      refine ⟨hstop, fun hnone => ?_⟩
      obtain ⟨hready, hwidens', houtputs⟩ := hrest hnone
      rw [← List.append_cons] at hready
      refine ⟨hready, hwidens.trans hwidens', fun r hr => ?_⟩
      -- what was output earlier is in scope later, because names are never taken back
      rcases List.mem_append.1 hr with hr | hr
      · exact (ho r (Option.mem_toList.1 hr)).mono hwidens'
      · exact houtputs r hr

end

/-- Only the message for an undefined name reads like one. -/
theorem EvalCause.exists_of_message_eq {c : EvalCause} {x : String}
    (h : c.message = (EvalCause.undefined x).message) : ∃ y, c = .undefined y := by
  -- the other messages begin with another letter
  have hhead := congrArg (fun s => s.toList.head?) h
  unfold EvalCause.message at hhead
  cases c with
  | undefined y => exact ⟨y, rfl⟩
  | _ => simp at hhead

/-- In a program that declares first, no name is ever undefined. This is so because at every moment
of each output of a value, the free names of every thunk's expression stand for something in the
environment of the thunk, and the free names of every function's body, its parameter apart, stand
for something in the closure of the function. -/
theorem names_never_undefined (limits : Limits) (p : Program) (h : DeclaresFirst p.statements) :
    (∀ d x, (p.run limits .global .empty).1.failure = some (.diagnosed d) →
      d.message ≠ (EvalCause.undefined x).message) ∧
    ∀ before e place after, p.statements = before ++ .output .value e place :: after →
      let earlier := execute limits.force .global before .empty
      earlier.stop = none →
      ∀ m, Passes limits (.value .global e) earlier.store m →
        (∀ a < m.store.cells.size, ∀ x ∈ (m.store.cell a).expr.free,
          m.store.contains (m.store.cell a).env x = true) ∧
        ∀ o y body closure, o ∈ earlier.outputs ∨ m.Has o →
          o.content = .function y body closure →
          ∀ x ∈ body.free, x ≠ y → m.store.contains closure x = true := by
  constructor
  · intro d x hd
    have hrun := (Store.ready_empty.run limits p.statements h).1
    obtain ⟨stop, hstop, hfailure⟩ := Option.map_eq_some_iff.1 hd
    cases stop with
    | error error =>
      cases hfailure
      intro hmessage
      obtain ⟨y, hcause⟩ := EvalCause.exists_of_message_eq hmessage
      obtain ⟨cause, errorPlace⟩ := error
      cases hcause
      exact hrun _ hstop trivial
    | _ => cases hfailure
  · intro before e place after hsplit earlier hended m hm
    have hnames := List.forall_mem_append.1 (h before e place after hsplit)
    rw [hsplit] at h
    -- the names that were missing before the output are declared by now
    obtain ⟨hready, -, houtputs⟩ := (Store.ready_empty.run limits before h.of_append).2 hended
    obtain ⟨hscoped, hwidens⟩ := hm.scoped (hready.tight hnames.2)
      fun x hx => hready.declared x (hnames.1 x hx)
    refine ⟨fun a _ x hx => hscoped.store.contains (hscoped.store.scoped_expr a x hx), ?_⟩
    intro o y body closure ho hfunction x hx hne
    have hcontent : o.content.Scoped m.store := by
      rcases ho with ho | ho | ⟨a, ha⟩ | ⟨i, z, hz⟩
      · exact (houtputs o ho).mono hwidens
      · exact hscoped.hand _ ho
      · exact hscoped.store.memo a _ ha
      · obtain ⟨a, ha⟩ := hscoped.store.frame i _ hz
        cases ha
    rw [hfunction] at hcontent
    exact hscoped.store.contains (hcontent x hx hne)

/-- Here a function mentions a name that is declared after it. The function is output and then
called; at every moment of the call the name stands for something in the function's closure. -/
theorem names_never_undefined_forward :
    let f := Expr.name "f" none
    let body := Expr.binary .add (.name "x" none) (.name "y" none) none
    let a := Expr.literal (.string "a") none
    let limits : Limits := ⟨9, 9⟩
    let before : List Statement := [.declare "f" (.arrow "x" body none) none,
      .declare "y" (.literal (.string "b") none) none, .output .value f none]
    let p : Program := ⟨before ++ [.output .value (.call f a none) none], ""⟩
    let earlier := execute limits.force .global before .empty
    DeclaresFirst p.statements ∧ earlier.stop = none ∧
      (∀ d x, (p.run limits .global .empty).1.failure = some (.diagnosed d) →
        d.message ≠ (EvalCause.undefined x).message) ∧
      ∃ o ∈ earlier.outputs, o.content = .function "x" body .global ∧
        ∀ m, Passes limits (.value .global (.call f a none)) earlier.store m →
          m.store.contains .global "y" = true := by
  intro f body a limits before p earlier
  have hfirst : DeclaresFirst p.statements := by
    intro before' e place after hsplit
    rcases before' with _ | ⟨_, _ | ⟨_, _ | ⟨_, _ | ⟨_, _ | ⟨_, _⟩⟩⟩⟩⟩ <;> cases hsplit
    all_goals simp [f, a, body, Expr.free, Statement.mentioned, Statement.declared]
  have hended : earlier.stop = none := by decide +kernel
  let o : Object := ⟨.made 0, .function "x" body .global⟩
  have ho : o ∈ earlier.outputs := by decide +kernel
  obtain ⟨hmessage, hmoment⟩ := names_never_undefined limits p hfirst
  refine ⟨hfirst, hended, hmessage, o, ho, rfl, fun m hm => ?_⟩
  have hy : "y" ∈ body.free := by decide
  exact (hmoment before _ none [] rfl hended m hm).2 o _ _ _ (.inl ho) rfl "y" hy (by decide)

end CallByNeed
