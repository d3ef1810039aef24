import CallByNeed.Proofs.FreeNames
import CallByNeed.Proofs.SaneStore

/-!
# Stores of programs that differ in names, places and parentheses only

Two programs may differ in the names of parameters, together with the occurrences that these bind,
in the places that they were read from, and in needless parentheses (`Expr.Variant`). Both then do
the same, step by step: they add the same frames and thunks in the same order, and so a frame or a
thunk of one run is the frame or thunk of the other run with the same number.

The stores of both runs are *twins* (`Store.Twins`). Frames other than the top level bind parameters
that may be called differently; an environment tells which parameters are called how
(`BindsPairs`), and so which names stand for the same (`BindsPairs.lookup`).
-/

namespace CallByNeed

/-- What two programs may differ in. -/
structure Liberty where
  /-- Which places may stand for each other. -/
  place : Option Location → Option Location → Prop
  /-- Which names a parameter may have instead of another one. -/
  parameter : String → String → Prop
  /-- Whether there may be more or fewer parentheses. -/
  parens : Prop
  /-- Places may stay as they are. -/
  place_refl : ∀ p, place p p
  /-- Parameters may stay as they are. -/
  parameter_refl : ∀ x, parameter x x
  /-- Parentheses have places of their own, so without them places are others. -/
  place_of_parens : parens → ∀ p p', place p p'

/-! ## Expressions -/

/-- Two names stand for the same inside of functions with the given pairs of parameters, innermost
first: both are parameters of the same function, or they are one name that no function binds. -/
inductive Paired : List (String × String) → String → String → Prop where
  | top (x : String) : Paired [] x x
  | here (x y : String) (ρ : List (String × String)) : Paired ((x, y) :: ρ) x y
  | outer {x y x' y' : String} {ρ : List (String × String)} :
      x' ≠ x → y' ≠ y → Paired ρ x' y' → Paired ((x, y) :: ρ) x' y'

/-- The second expression is the first one with other names for parameters, other places and other
parentheses, inside of functions with the given pairs of parameters. -/
inductive Expr.Variant (L : Liberty) : List (String × String) → Expr → Expr → Prop where
  | literal {ρ : List (String × String)} {p p' : Option Location} (c : Constant) :
      L.place p p' → Variant L ρ (.literal c p) (.literal c p')
  | name {ρ : List (String × String)} {x x' : String} {p p' : Option Location} :
      L.place p p' → Paired ρ x x' → Variant L ρ (.name x p) (.name x' p')
  | paren {ρ : List (String × String)} {e e' : Expr} {p p' : Option Location} :
      L.place p p' → Variant L ρ e e' → Variant L ρ (.paren e p) (.paren e' p')
  | arrow {ρ : List (String × String)} {x x' : String} {e e' : Expr} {p p' : Option Location} :
      L.place p p' → L.parameter x x' → Variant L ((x, x') :: ρ) e e' →
      Variant L ρ (.arrow x e p) (.arrow x' e' p')
  | call {ρ : List (String × String)} {f f' a a' : Expr} {p p' : Option Location} :
      L.place p p' → Variant L ρ f f' → Variant L ρ a a' →
      Variant L ρ (.call f a p) (.call f' a' p')
  | unary {ρ : List (String × String)} {e e' : Expr} {p p' : Option Location} (op : UnaryOp) :
      L.place p p' → Variant L ρ e e' → Variant L ρ (.unary op e p) (.unary op e' p')
  | binary {ρ : List (String × String)} {l l' r r' : Expr} {p p' : Option Location}
      (op : BinaryOp) : L.place p p' → Variant L ρ l l' → Variant L ρ r r' →
      Variant L ρ (.binary op l r p) (.binary op l' r' p')
  | cond {ρ : List (String × String)} {c c' t t' e e' : Expr} {p p' : Option Location} :
      L.place p p' → Variant L ρ c c' → Variant L ρ t t' → Variant L ρ e e' →
      Variant L ρ (.cond c t e p) (.cond c' t' e' p')
  | opened {ρ : List (String × String)} {e e' : Expr} (p : Option Location) :
      L.parens → Variant L ρ e e' → Variant L ρ (.paren e p) e'
  | enclosed {ρ : List (String × String)} {e e' : Expr} (p' : Option Location) :
      L.parens → Variant L ρ e e' → Variant L ρ e (.paren e' p')

section

variable {L : Liberty} {ρ : List (String × String)}

/-- Variants have places that may stand for each other. -/
theorem Expr.Variant.place {e e' : Expr} (h : e.Variant L ρ e') : L.place e.place e'.place := by
  cases h with
  | opened _ hparens | enclosed _ hparens => exact L.place_of_parens hparens _ _
  | _ => assumption

/-- Where no parameter has another name, each name stands for itself. -/
theorem Paired.refl (h : ∀ q ∈ ρ, q.1 = q.2) (x : String) : Paired ρ x x := by
  induction ρ with
  | nil => exact .top x
  | cons q ρ ih =>
    obtain ⟨y, z⟩ := q
    obtain rfl : y = z := h (y, z) List.mem_cons_self
    by_cases hx : x = y
    · subst hx
      exact .here x x ρ
    · exact .outer hx hx (ih fun q hq => h q (List.mem_cons_of_mem _ hq))

/-- Where no parameter has another name, a name stands for itself only. -/
theorem Paired.eq (h : ∀ q ∈ ρ, q.1 = q.2) {x x' : String} (hx : Paired ρ x x') : x = x' := by
  induction hx with
  | top => rfl
  | here x y => exact h (x, y) List.mem_cons_self
  | outer _ _ _ ih => exact ih fun q hq => h q (List.mem_cons_of_mem _ hq)

/-- An expression is a variant of itself, if each of its names stands for itself. -/
theorem Expr.Variant.refl {e : Expr} (h : ∀ x ∈ e.names, Paired ρ x x) : e.Variant L ρ e := by
  induction e generalizing ρ with
  | literal c p => exact .literal c (L.place_refl p)
  | name x p => exact .name (L.place_refl p) (h x List.mem_cons_self)
  | paren e p ih => exact .paren (L.place_refl p) (ih h)
  | arrow x e p ih =>
    refine .arrow (L.place_refl p) (L.parameter_refl x) (ih fun y hy => ?_)
    by_cases hyx : y = x
    · subst hyx
      exact .here y y ρ
    · exact .outer hyx hyx (h y hy)
  | call f a p ihf iha =>
    exact .call (L.place_refl p) (ihf fun x hx => h x (List.mem_append_left _ hx))
      (iha fun x hx => h x (List.mem_append_right _ hx))
  | unary op e p ih => exact .unary op (L.place_refl p) (ih h)
  | binary op l r p ihl ihr =>
    exact .binary op (L.place_refl p) (ihl fun x hx => h x (List.mem_append_left _ hx))
      (ihr fun x hx => h x (List.mem_append_right _ hx))
  | cond c t e p ihc iht ihe =>
    have hbranches : ∀ x ∈ t.names ++ e.names, Paired ρ x x := fun x hx =>
      h x (List.mem_append_right _ hx)
    exact .cond (L.place_refl p) (ihc fun x hx => h x (List.mem_append_left _ hx))
      (iht fun x hx => hbranches x (List.mem_append_left _ hx))
      (ihe fun x hx => hbranches x (List.mem_append_right _ hx))

end

/-! ## Environments and values -/

/-- In two stores an environment binds pairs of parameters to the same thunks, innermost first. -/
inductive BindsPairs (L : Liberty) (σ τ : Store) : Env → List (String × String) → Prop where
  | global : BindsPairs L σ τ .global []
  | inner {f : FrameId} {x x' : String} {a : CellId} {env : Env} {ρ : List (String × String)} :
      f ≠ 0 → L.parameter x x' → σ.frame f = [(x, .thunk a)] → τ.frame f = [(x', .thunk a)] →
      BindsPairs L σ τ env ρ → BindsPairs L σ τ (env.inner f) ((x, x') :: ρ)

/-- Two objects are the same, apart from where they were read from and from the names of parameters.
Functions are told apart by their identities, and so these are the same. -/
inductive Object.Twins (L : Liberty) (σ τ : Store) : Object → Object → Prop where
  | plain (i i' : Identity) {c : Content} : c.isFunction = false → Twins L σ τ ⟨i, c⟩ ⟨i', c⟩
  | function (i : Identity) {x x' : String} {body body' : Expr} {env : Env}
      {ρ : List (String × String)} : L.parameter x x' → BindsPairs L σ τ env ρ →
      body.Variant L ((x, x') :: ρ) body' →
      Twins L σ τ ⟨i, .function x body env⟩ ⟨i, .function x' body' env⟩

/-- Two values are the same thunk, or objects that are the same apart from names and places. -/
inductive Value.Twins (L : Liberty) (σ τ : Store) : Value → Value → Prop where
  | object {o o' : Object} : o.Twins L σ τ o' → Twins L σ τ (.object o) (.object o')
  | thunk (a : CellId) : Twins L σ τ (.thunk a) (.thunk a)

/-- Two thunks are the same apart from names and places. -/
structure Cell.Twins (L : Liberty) (σ τ : Store) (c c' : Cell) : Prop where
  env : c.env = c'.env
  expr : ∃ ρ, BindsPairs L σ τ c.env ρ ∧ c.expr.Variant L ρ c'.expr
  busy : c.busy = c'.busy
  memo : Option.Rel (Value.Twins L σ τ) c.memo c'.memo

/-- Two stores are the same apart from names and places. -/
structure Store.Twins (L : Liberty) (σ τ : Store) : Prop where
  frames : σ.frames.size = τ.frames.size
  /-- Frames bind as many names. -/
  lengths : ∀ f, (σ.frame f).length = (τ.frame f).length
  cells : σ.cells.size = τ.cells.size
  made : σ.made = τ.made
  /-- There is a top level. -/
  nonempty : 0 < σ.frames.size
  /-- The top level binds the same names to the same thunks. -/
  top : σ.frame 0 = τ.frame 0
  /-- Names are bound to thunks. -/
  thunks : ∀ b ∈ σ.frame 0, ∃ a, b.2 = .thunk a
  cell : ∀ a, (σ.cell a).Twins L σ τ (τ.cell a)

section

variable {L : Liberty} {σ τ σ' τ' : Store}

/-- Environments bind the same pairs as long as the frames of parameters stay. -/
theorem BindsPairs.mono {env : Env} {ρ : List (String × String)} (h : BindsPairs L σ τ env ρ)
    (hσ : ∀ f ≠ 0, σ.frame f ≠ [] → σ'.frame f = σ.frame f)
    (hτ : ∀ f ≠ 0, τ.frame f ≠ [] → τ'.frame f = τ.frame f) : BindsPairs L σ' τ' env ρ := by
  induction h with
  | global => exact .global
  | inner hf hx hframe hframe' _ ih =>
    exact .inner hf hx ((hσ _ hf (by simp [hframe])).trans hframe)
      ((hτ _ hf (by simp [hframe'])).trans hframe') ih

/-- If no parameter may have another name, then none has. -/
theorem BindsPairs.eq {env : Env} {ρ : List (String × String)} (h : BindsPairs L σ τ env ρ)
    (hL : ∀ x y, L.parameter x y → x = y) : ∀ q ∈ ρ, q.1 = q.2 := by
  induction h with
  | global => simp
  | inner _ hx _ _ _ ih => exact List.forall_mem_cons.2 ⟨hL _ _ hx, ih⟩

/-- Twins stay twins while environments bind the same pairs of names. -/
theorem Object.Twins.mono {o o' : Object} (h : o.Twins L σ τ o')
    (hpairs : ∀ {env ρ}, BindsPairs L σ τ env ρ → BindsPairs L σ' τ' env ρ) :
    o.Twins L σ' τ' o' := by
  cases h with
  | plain i i' hc => exact .plain i i' hc
  | function i hx henv hbody => exact .function i hx (hpairs henv) hbody

/-- Values stay twins while environments bind the same pairs of names. -/
theorem Value.Twins.mono {v v' : Value} (h : v.Twins L σ τ v')
    (hpairs : ∀ {env ρ}, BindsPairs L σ τ env ρ → BindsPairs L σ' τ' env ρ) :
    v.Twins L σ' τ' v' := by
  cases h with
  | object ho => exact .object (ho.mono hpairs)
  | thunk a => exact .thunk a

/-- Thunks stay twins while environments bind the same pairs of names. -/
theorem Cell.Twins.mono {c c' : Cell} (h : c.Twins L σ τ c')
    (hpairs : ∀ {env ρ}, BindsPairs L σ τ env ρ → BindsPairs L σ' τ' env ρ) :
    c.Twins L σ' τ' c' where
  env := h.env
  expr := h.expr.imp fun _ hρ => ⟨hpairs hρ.1, hρ.2⟩
  busy := h.busy
  memo := by
    have hmemo := h.memo
    generalize c.memo = m at hmemo ⊢
    generalize c'.memo = m' at hmemo ⊢
    cases hmemo with
    | none => exact .none
    | some hv => exact .some (hv.mono hpairs)

/-- Two thunks that are the same have both got a result or none. -/
theorem Cell.Twins.isSome_memo {c c' : Cell} (h : c.Twins L σ τ c') :
    c.memo.isSome = c'.memo.isSome := by
  have hmemo := h.memo
  generalize c.memo = m at hmemo ⊢
  generalize c'.memo = m' at hmemo ⊢
  cases hmemo <;> rfl

/-- Names that are paired stand for the same thunk, or they are one name that stands for nothing. -/
theorem BindsPairs.lookup (hστ : σ.Twins L τ) {env : Env} {ρ : List (String × String)}
    (h : BindsPairs L σ τ env ρ) {x x' : String} (hx : Paired ρ x x') :
    (∃ a, σ.lookup env x = some (.thunk a) ∧ τ.lookup env x' = some (.thunk a)) ∨
      σ.lookup env x = none ∧ τ.lookup env x' = none ∧ x = x' := by
  induction h with
  | global =>
    cases hx
    rw [Store.lookup, Store.lookup, Store.binding?_global, Store.binding?_global, ← hστ.top]
    cases hv : (σ.frame 0).lookup x with
    | none => exact .inr ⟨rfl, rfl, rfl⟩
    | some v =>
      obtain ⟨l₁, l₂, hframe, -⟩ := List.lookup_eq_some_iff.1 hv
      obtain ⟨a, ha⟩ := hστ.thunks (x, v) (hframe ▸ by simp)
      cases ha
      exact .inl ⟨a, rfl, rfl⟩
  | @inner f y y' a env ρ _ _ hframe hframe' _ ih =>
    rw [Store.lookup_inner hframe, Store.lookup_inner hframe']
    cases hx with
    | here =>
      rw [beq_self_eq_true, beq_self_eq_true]
      exact .inl ⟨a, rfl, rfl⟩
    | outer hne hne' hx =>
      rw [beq_false_of_ne hne, beq_false_of_ne hne']
      exact ih hx

/-! ## What both runs do -/

variable (L σ τ σ' τ') in
/-- Both stores of twins have changed in the same way: they are twins still, and environments bind
the pairs that they did. -/
structure StayTwins : Prop where
  twins : σ'.Twins L τ'
  pairs : ∀ {env ρ}, BindsPairs L σ τ env ρ → BindsPairs L σ' τ' env ρ

/-- Twins stay twins if nothing is done. -/
theorem Store.Twins.stay (h : σ.Twins L τ) : StayTwins L σ τ σ τ :=
  ⟨h, id⟩

/-- Twins stay twins step by step. -/
theorem StayTwins.trans {σ'' τ'' : Store} (h : StayTwins L σ τ σ' τ')
    (h' : StayTwins L σ' τ' σ'' τ'') : StayTwins L σ τ σ'' τ'' :=
  ⟨h'.twins, fun hpairs => h'.pairs (h.pairs hpairs)⟩

namespace Store.Twins

/-- What happens to thunks and objects in both stores leaves the frames as they are. -/
theorem change (h : σ.Twins L τ) (hσ : σ'.frames = σ.frames) (hτ : τ'.frames = τ.frames)
    (hcells : σ'.cells.size = τ'.cells.size) (hmade : σ'.made = τ'.made)
    (hcell : ∀ a, (σ'.cell a).Twins L σ τ (τ'.cell a)) : StayTwins L σ τ σ' τ' := by
  have hframe : ∀ f, σ'.frame f = σ.frame f := fun f => by rw [frame, frame, hσ]
  have hframe' : ∀ f, τ'.frame f = τ.frame f := fun f => by rw [frame, frame, hτ]
  have hpairs : ∀ {env ρ}, BindsPairs L σ τ env ρ → BindsPairs L σ' τ' env ρ :=
    fun henv => henv.mono (fun f _ _ => hframe f) fun f _ _ => hframe' f
  refine ⟨⟨?_, fun f => ?_, hcells, hmade, ?_, ?_, ?_, fun a => (hcell a).mono hpairs⟩, hpairs⟩
  · rw [hσ, hτ, h.frames]
  · rw [hframe, hframe', h.lengths]
  · rw [hσ]
    exact h.nonempty
  · rw [hframe, hframe', h.top]
  · rw [hframe]
    exact h.thunks

/-- Both stores may make an object. -/
theorem newObject (h : σ.Twins L τ) (c c' : Content) :
    StayTwins L σ τ (σ.newObject c).2 (τ.newObject c').2 :=
  h.change rfl rfl h.cells (congrArg (· + 1) h.made) h.cell

/-- Both stores may note an event, not necessarily the same. -/
theorem note (h : σ.Twins L τ) (e e' : Event) : StayTwins L σ τ (σ.note e) (τ.note e') :=
  h.change rfl rfl h.cells h.made h.cell

/-- Both stores may make a thunk, for variants. -/
theorem newThunk (h : σ.Twins L τ) {e e' : Expr} {env : Env} {ρ : List (String × String)}
    (henv : BindsPairs L σ τ env ρ) (he : e.Variant L ρ e') :
    StayTwins L σ τ (σ.newThunk e env).2 (τ.newThunk e' env).2 := by
  refine h.change rfl rfl (by simp [h.cells]) h.made fun a => ?_
  rw [cell_newThunk, cell_newThunk, ← h.cells]
  split
  · exact ⟨rfl, ⟨ρ, henv, he⟩, rfl, .none⟩
  · exact h.cell a

/-- Both stores may mark the same thunk, or remove its mark. -/
theorem setBusy (h : σ.Twins L τ) (a : CellId) (busy : Bool) (e e' : Event) :
    StayTwins L σ τ ((σ.setBusy a busy).note e) ((τ.setBusy a busy).note e') := by
  refine h.change rfl rfl (by simp [Store.note, h.cells]) h.made fun b => ?_
  rw [cell_note, cell_note, cell_setBusy, cell_setBusy, ← h.cells]
  split
  · exact ⟨(h.cell b).env, (h.cell b).expr, rfl, (h.cell b).memo⟩
  · exact h.cell b

/-- Both stores may keep twins as results of the same thunk. -/
theorem setMemo (h : σ.Twins L τ) (a : CellId) {v v' : Value} (hv : v.Twins L σ τ v') :
    StayTwins L σ τ (σ.setMemo a v) (τ.setMemo a v') := by
  refine h.change rfl rfl (by simp [h.cells]) h.made fun b => ?_
  rw [cell_setMemo, cell_setMemo, ← h.cells]
  split
  · exact ⟨(h.cell b).env, (h.cell b).expr, (h.cell b).busy, .some hv⟩
  · exact h.cell b

/-- A frame for a parameter is added to both stores. -/
theorem newFrame (h : σ.Twins L τ) (x x' : String) (a : CellId) :
    StayTwins L σ τ (σ.newFrame [(x, .thunk a)]).2 (τ.newFrame [(x', .thunk a)]).2 := by
  -- a frame that binds something was there before
  have hold : ∀ {σ : Store} (x : String) (f : FrameId), σ.frame f ≠ [] →
      (σ.newFrame [(x, .thunk a)]).2.frame f = σ.frame f := by
    intro σ x f hne
    refine frame_newFrame_of_lt σ (Nat.lt_of_not_le fun hle => hne ?_) _
    exact frame_of_size_le hle
  have hpairs : ∀ {env ρ}, BindsPairs L σ τ env ρ →
      BindsPairs L (σ.newFrame [(x, .thunk a)]).2 (τ.newFrame [(x', .thunk a)]).2 env ρ :=
    fun henv => henv.mono (fun f _ => hold x f) fun f _ => hold x' f
  have htop : (σ.newFrame [(x, .thunk a)]).2.frame 0 = σ.frame 0 :=
    frame_newFrame_of_lt σ h.nonempty _
  have htop' : (τ.newFrame [(x', .thunk a)]).2.frame 0 = τ.frame 0 :=
    frame_newFrame_of_lt τ (h.frames ▸ h.nonempty) _
  refine ⟨⟨?_, fun f => ?_, h.cells, h.made, ?_, ?_, ?_, fun b => (h.cell b).mono hpairs⟩, hpairs⟩
  · simp [Store.newFrame, h.frames]
  · have hlengths := h.lengths f
    rcases Nat.lt_trichotomy f σ.frames.size with hf | rfl | hf
    · rwa [frame_newFrame_of_lt σ hf, frame_newFrame_of_lt τ (h.frames ▸ hf)]
    · rw [frame_newFrame_self, h.frames, frame_newFrame_self]
      rfl
    · have hsize : σ.frames.size + 1 ≤ f := hf
      rw [frame_of_size_le (by simpa [Store.newFrame] using hsize),
        frame_of_size_le (by simpa [Store.newFrame, ← h.frames] using hsize)]
  · simp [Store.newFrame]
  · rw [htop, htop', h.top]
  · rw [htop]
    exact h.thunks

/-- Entering two functions adds frames that bind their parameters. -/
theorem bindsPairs_newFrame (h : σ.Twins L τ) {x x' : String} (hx : L.parameter x x')
    (a : CellId) {env : Env} {ρ : List (String × String)} (henv : BindsPairs L σ τ env ρ) :
    BindsPairs L (σ.newFrame [(x, .thunk a)]).2 (τ.newFrame [(x', .thunk a)]).2
      (env.inner σ.frames.size) ((x, x') :: ρ) := by
  refine .inner h.nonempty.ne' hx (frame_newFrame_self σ _) ?_ ((h.newFrame x x' a).pairs henv)
  rw [h.frames]
  exact frame_newFrame_self τ _

/-- A name is bound to the same thunk at the top level of both stores. -/
theorem bind (h : σ.Twins L τ) (x : String) (a : CellId) :
    StayTwins L σ τ (σ.bind .global x (.thunk a)) (τ.bind .global x (.thunk a)) := by
  have hother : ∀ (σ : Store) (f : FrameId), f ≠ 0 →
      (σ.bind .global x (.thunk a)).frame f = σ.frame f := by
    intro σ f hf
    rw [frame_bind, if_neg fun hglobal => hf hglobal.1.symm]
  have htop : ∀ σ : Store, 0 < σ.frames.size →
      (σ.bind .global x (.thunk a)).frame 0 = (σ.frame 0).bind x (.thunk a) := by
    intro σ hσ
    rw [frame_bind, if_pos ⟨rfl, hσ⟩]
  have hpairs : ∀ {env ρ}, BindsPairs L σ τ env ρ →
      BindsPairs L (σ.bind .global x (.thunk a)) (τ.bind .global x (.thunk a)) env ρ :=
    fun henv => henv.mono (fun f hf _ => hother σ f hf) fun f hf _ => hother τ f hf
  refine ⟨⟨?_, fun f => ?_, h.cells, h.made, ?_, ?_, ?_, fun b => (h.cell b).mono hpairs⟩, hpairs⟩
  · simp [Store.bind, h.frames]
  · by_cases hf : f = 0
    · rw [hf, htop σ h.nonempty, htop τ (h.frames ▸ h.nonempty), h.top]
    · rw [hother σ f hf, hother τ f hf, h.lengths]
  · simp [Store.bind, h.nonempty]
  · rw [htop σ h.nonempty, htop τ (h.frames ▸ h.nonempty), h.top]
  · rw [htop σ h.nonempty, Frame.bind]
    intro b hb
    rcases List.mem_cons.1 hb with rfl | hb
    · exact ⟨a, rfl⟩
    · exact h.thunks b (List.mem_filter.1 hb).1

/-- A name is declared in both stores or in none. -/
theorem contains_eq (h : σ.Twins L τ) (x : String) :
    σ.contains .global x = τ.contains .global x := by
  rw [contains, contains, lookup, lookup, binding?_global, binding?_global, h.top]

end Store.Twins

/-- A store is its own twin, if its environments end at the top level. -/
theorem Store.Rooted.twins (L : Liberty) (h : σ.Rooted) : σ.Twins L σ := by
  have hpairs : ∀ {env}, σ.HasEnv env →
      ∃ ρ : List (String × String), BindsPairs L σ σ env ρ ∧ ∀ q ∈ ρ, q.1 = q.2 := by
    intro env henv
    refine h.env_induction (motive := fun env => ∃ ρ : List (String × String),
      BindsPairs L σ σ env ρ ∧ ∀ q ∈ ρ, q.1 = q.2) ⟨[], .global, by simp⟩ ?_ henv
    rintro outer f - hpos hlt ⟨ρ, hρ, hsame⟩
    obtain ⟨x, a, hframe⟩ := h.single f hpos hlt
    exact ⟨(x, x) :: ρ, .inner hpos.ne' (L.parameter_refl x) hframe hframe hρ,
      List.forall_mem_cons.2 ⟨rfl, hsame⟩⟩
  have hvalue : ∀ v : Value, v.In σ → v.Twins L σ σ v := by
    rintro (⟨i, c⟩ | a) hv
    · cases c with
      | function x body env =>
        obtain ⟨ρ, hρ, hsame⟩ := hpairs (hv.closure x body env rfl)
        have hsame' : ∀ q ∈ (x, x) :: ρ, q.1 = q.2 := List.forall_mem_cons.2 ⟨rfl, hsame⟩
        exact .object (.function i (L.parameter_refl x) hρ (.refl fun y _ => .refl hsame' y))
      | _ => exact .object (.plain i i rfl)
    · exact .thunk a
  refine ⟨rfl, fun _ => rfl, rfl, rfl, h.nonempty, rfl, fun b hb => ?_, fun a => ?_⟩
  · obtain ⟨a, -, ha⟩ := h.frame 0 b hb
    exact ⟨a, ha⟩
  -- a thunk that does not exist counts as one at the top level
  have henv : σ.HasEnv (σ.cell a).env := by
    rcases Nat.lt_or_ge a σ.cells.size with ha | ha
    · exact hasEnv_cell ha
    · rw [cell_of_size_le ha]
      exact .inl rfl
  obtain ⟨ρ, hρ, hsame⟩ := hpairs henv
  refine ⟨rfl, ⟨ρ, hρ, .refl fun x _ => .refl hsame x⟩, rfl, ?_⟩
  cases hmemo : (σ.cell a).memo with
  | none => exact .none
  | some v => exact .some (hvalue v (h.memo a v hmemo))

end

end CallByNeed
