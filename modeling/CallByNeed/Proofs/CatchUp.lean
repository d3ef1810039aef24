import CallByNeed.Proofs.Pairing

/-!
# Catching up

If the run ahead has the result of a thunk, and there is evidence for it, then the run behind gets
the same result within wide enough bounds (`Certified.replays_step`). It makes what the run ahead
has made for it, and each of these items is paired with the one that the run ahead has made at the
same point.

The argument goes along the list of thunks for whose results there is evidence, in the order in
which they got them: the evidence for each is from earlier ones. None of these can be marked in the
run behind, except those with which it is catching up, and they are later in the list.
-/

namespace CallByNeed

open Filter

/-- The programs have no holes. -/
def NoHole : Expr → Expr → Prop :=
  fun _ _ => False

/-- Without holes, expressions that correspond are the same. -/
theorem Swaps.eq {e e' : Expr} (h : Swaps NoHole e e') : e = e' := by
  induction h with
  | hole hee' => exact hee'.elim
  | literal c p => rfl
  | name x p => rfl
  | paren p _ ih => rw [ih]
  | arrow x p _ ih => rw [ih]
  | call p _ _ ihf iha => rw [ihf, iha]
  | unary op p _ ih => rw [ih]
  | binary op p _ _ ihl ihr => rw [ihl, ihr]
  | cond p _ _ _ ihc iht ihe => rw [ihc, iht, ihe]

/-- Without holes, objects that correspond hold the same, environments of functions apart. -/
theorem Pairing.Objects.alike {P : Pairing} {o o' : Object} (h : P.Objects NoHole o o') :
    o.content.Alike o'.content := by
  cases h with
  | plain => exact .same _
  | function x _ hbody =>
    cases hbody.eq
    exact .function _ _ _ _

/-! ## The relation while the run behind catches up -/

/-- The evaluation of a thunk has begun, and may have ended with a result. -/
def Store.Begun (σ : Store) (a : CellId) : Prop :=
  (∃ v, (σ.cell a).memo = some v) ∨ (σ.cell a).busy = true

/-- The second store follows the first one. What is owned is paired only after the evaluation of its
owner has begun in the second store. -/
structure Chases (own : Item → Option CellId) (P : Pairing) (σ τ : Store) : Prop
    extends Trails NoHole P σ τ where
  taken : ∀ {i j c}, P.Items i j → own i = some c → ∃ d, P.cell c d ∧ τ.Begun d

/-- The run behind has caught up with something. All that was paired meanwhile is new in the second
store, and is among `N` in the first one. -/
structure Catches (own : Item → Option CellId) (N : Item → Prop) (σ : Store) (P Q : Pairing)
    (τ τ' : Store) : Prop where
  grows : P.Grows Q
  chases : Chases own Q σ τ'
  evolves : τ.Evolves τ'
  new : ∀ {i j}, Q.Items i j → P.Items i j ∨ ¬j.In τ ∧ N i

/-- No marked thunk of the second store corresponds to a known one of the first store. -/
def Clear (known : List CellId) (P : Pairing) (τ : Store) : Prop :=
  ∀ a b, P.cell a b → (τ.cell b).busy = true → a ∉ known

section

variable {own : Item → Option CellId} {N N' : Item → Prop} {σ τ τ' τ'' : Store}
  {P Q R : Pairing} {known : List CellId} {a b : CellId}

/-- What has begun stays so, with a mark or with a result. -/
theorem Store.Evolves.begun (h : τ.Evolves τ') (hb : τ.Begun b) : τ'.Begun b := by
  rcases hb with ⟨w, hw⟩ | hbusy
  · exact .inl ⟨w, h.unfolds.memo b w hw⟩
  · exact .inr ((h.extension.busy b).trans hbusy)

namespace Chases

/-- The relation is kept as the second store changes, if its results are those of the first one. -/
theorem change (h : Chases own P σ τ) (hτ : τ.Unfolds τ') (hτ' : τ'.Sane)
    (hmemo : ∀ {a b}, P.cell a b → ∀ w, (τ'.cell b).memo = some w →
      ∃ v, (σ.cell a).memo = some v ∧ P.Values NoHole v w)
    (hbegun : ∀ d, τ.Begun d → τ'.Begun d) : Chases own P σ τ' where
  toTrails := h.toTrails.grow (.refl σ) h.ahead hτ hτ' hmemo
  taken hij hi := by
    obtain ⟨d, hd, hbegan⟩ := h.taken hij hi
    exact ⟨d, hd, hbegun d hbegan⟩

/-- The second store may evolve by itself, as long as no thunk gets a result. -/
theorem grow (h : Chases own P σ τ) (hτ : τ.Evolves τ') (hτ' : τ'.Sane)
    (hmemo : ∀ b w, (τ'.cell b).memo = some w → (τ.cell b).memo = some w) :
    Chases own P σ τ' :=
  h.change hτ.unfolds hτ' (fun hab w hw => h.memo hab w (hmemo _ w hw)) fun _ => hτ.begun

/-- The second store may mark a thunk. -/
theorem marked (h : Chases own P σ τ) (hb : b < τ.cells.size) (hmemo : (τ.cell b).memo = none)
    (hbusy : (τ.cell b).busy = false) : Chases own P σ (τ.marked b) := by
  refine h.change (τ.unfolds_marked b) (h.behind.marked hb hmemo hbusy) ?_ ?_
  · intro c d hcd w hw
    rw [Store.memo_marked] at hw
    exact h.memo hcd w hw
  · intro d hd
    rw [Store.Begun, Store.memo_marked, Store.busy_marked hb]
    split
    · exact .inr rfl
    · exact hd

/-- The run behind has got the result that the run ahead has. -/
theorem settled (h : Chases own P σ τ) (hab : P.cell a b) {v w : Value}
    (hv : (σ.cell a).memo = some v) (hmemo : (τ.cell b).memo = none)
    (hbusy : (τ.cell b).busy = true) (hw : w.In τ) (hvw : P.Values NoHole v w) :
    Chases own P σ (τ.settled b w) := by
  have hlt := (h.lt hab).2
  refine h.change (Store.unfolds_settled hmemo w) (h.behind.settled hlt hmemo hbusy hw) ?_ ?_
  · intro c d hcd u hu
    rw [Store.memo_settled hlt] at hu
    split at hu
    · next hbd =>
      cases hu
      rw [← (h.cell_iff hab hcd).2 hbd]
      exact ⟨v, hv, hvw⟩
    · exact h.memo hcd u hu
  · intro d hd
    rw [Store.Begun, Store.memo_settled hlt, Store.busy_settled hlt]
    split
    · exact .inl ⟨w, rfl⟩
    · exact hd

/-- Two thunks for the same expression may be paired, if neither is paired already, and the owner of
the first was begun behind. -/
theorem addCell (h : Chases own P σ τ) {e : Expr} {env env' : Env} (ha : σ.ThunkFor a e env)
    (hb : τ.ThunkFor b e env') (henv : P.env env env') (hmemo : (τ.cell b).memo = none)
    (hnew : ∀ d, ¬P.cell a d) (hnew' : ∀ c, ¬P.cell c b)
    (htaken : ∀ c, own (.cell a) = some c → ∃ d, P.cell c d ∧ τ.Begun d) :
    Chases own (P.addCell a b) σ τ where
  toTrails := by
    refine h.toTrails.addCell ha.lt hb.lt ?_ ?_ hmemo hnew hnew'
    · rw [ha.expr, hb.expr]
      exact .refl e
    · rw [ha.env, hb.env]
      exact henv
  taken {_ _ c} hij hi := by
    obtain ⟨d, hd, hbegun⟩ : ∃ d, P.cell c d ∧ τ.Begun d := by
      cases hij with
      | cell hcd =>
        rcases hcd with hcd | ⟨rfl, rfl⟩
        · exact h.taken (.cell hcd) hi
        · exact htaken c hi
      | object hmn => exact h.taken (.object hmn) hi
    exact ⟨d, .inl hd, hbegun⟩

/-- Two objects may be paired, if neither is paired already, and the owner of the first was begun
behind. -/
theorem addMade (h : Chases own P σ τ) {m n : ℕ} (hm : m < σ.made) (hn : n < τ.made)
    (hnew : ∀ l, ¬P.made m l) (hnew' : ∀ k, ¬P.made k n)
    (htaken : ∀ c, own (.object m) = some c → ∃ d, P.cell c d ∧ τ.Begun d) :
    Chases own (P.addMade m n) σ τ where
  toTrails := h.toTrails.addMade hm hn hnew hnew'
  taken {_ _ c} hij hi := by
    cases hij with
    | cell hcd => exact h.taken (.cell hcd) hi
    | object hmn =>
      rcases hmn with hmn | ⟨rfl, rfl⟩
      · exact h.taken (.object hmn) hi
      · exact htaken c hi

/-- Two environments may be paired, if names stand for values that correspond in both. -/
theorem addEnv (h : Chases own P σ τ) {inner inner' : Env} (hinner : σ.HasEnv inner)
    (hinner' : τ.HasEnv inner') (hlookup : ∀ x, Option.Rel (P.Values NoHole) (σ.lookup inner x)
      (τ.lookup inner' x)) : Chases own (P.addEnv inner inner') σ τ where
  toTrails := h.toTrails.addEnv hinner hinner' hlookup
  taken hij hi := by
    cases hij with
    | cell hcd => exact h.taken (.cell hcd) hi
    | object hmn => exact h.taken (.object hmn) hi

end Chases

namespace Catches

/-- Nothing need be caught up with. -/
theorem refl (h : Chases own P σ τ) : Catches own N σ P P τ τ :=
  ⟨.refl P, h, .refl τ, .inl⟩

/-- The run behind catches up step by step. -/
theorem trans (h : Catches own N σ P Q τ τ') (h' : Catches own N σ Q R τ' τ'') :
    Catches own N σ P R τ τ'' where
  grows := h.grows.trans h'.grows
  chases := h'.chases
  evolves := h.evolves.trans h'.evolves
  new hij := by
    rcases h'.new hij with hij | ⟨hj, hi⟩
    · exact h.new hij
    · exact .inr ⟨fun hin => hj (hin.mono h.evolves.unfolds.toPersists), hi⟩

/-- What is paired may be among more items. -/
theorem imp (h : Catches own N σ P Q τ τ') (hN : ∀ i, N i → N' i) : Catches own N' σ P Q τ τ' where
  grows := h.grows
  chases := h.chases
  evolves := h.evolves
  new hij := (h.new hij).imp_right fun hnew => ⟨hnew.1, hN _ hnew.2⟩

end Catches

/-- Of fewer thunks that are known, none is marked behind. -/
theorem Clear.of_cons (h : Clear (a :: known) P τ) : Clear known P τ :=
  fun c d hcd hbusy hc => h c d hcd hbusy (List.mem_cons_of_mem a hc)

/-- After the run behind has caught up, the same thunks are marked. -/
theorem Clear.catches (h : Clear known P τ) (hcatches : Catches own N σ P Q τ τ') :
    Clear known Q τ' := by
  intro a b hab hbusy
  rw [hcatches.evolves.extension.busy] at hbusy
  rcases hcatches.new (.cell hab) with hold | ⟨hnew, -⟩
  · cases hold with
    | cell hab => exact h a b hab hbusy
  · -- a thunk that was not there was not marked
    rw [Store.cell_of_size_le (Nat.not_lt.1 hnew)] at hbusy
    cases hbusy

end

/-! ## Replaying evidence -/

/-- Within all bounds that are wide enough, a computation of the run behind gives a result for which
`R` holds. -/
def Replays {α : Type} (own : Item → Option CellId) (N : Item → Prop) (σ : Store)
    (R : Pairing → α → Prop) (y : ℕ → Eval α) (P : Pairing) (τ : Store) : Prop :=
  ∃ Q b τ', (∀ᶠ m in atTop, y m τ = .ok b τ') ∧ Catches own N σ P Q τ τ' ∧ R Q b

section

variable {α β : Type} {own : Item → Option CellId} {N N' : Item → Prop} {σ τ : Store}
  {P : Pairing} {R : Pairing → α → Prop} {S : Pairing → β → Prop}

/-- A computation of the run behind that gives its result within all bounds is replayed. -/
theorem replays_of_ok {y : ℕ → Eval α} {b : α} {τ' : Store} {Q : Pairing}
    (hy : ∀ m, y m τ = .ok b τ') (h : Catches own N σ P Q τ τ') (hR : R Q b) :
    Replays own N σ R y P τ :=
  ⟨Q, b, τ', .of_forall hy, h, hR⟩

/-- Computations of the run behind are replayed one after the other. -/
theorem Replays.bind {y : ℕ → Eval α} {g : ℕ → α → Eval β} (h : Replays own N σ R y P τ)
    (hN : ∀ i, N i → N' i) (hg : ∀ Q b τ', Catches own N σ P Q τ τ' → R Q b →
      Replays own N' σ S (fun m => g m b) Q τ') :
    Replays own N' σ S (fun m => y m >>= g m) P τ := by
  obtain ⟨Q, b, τ', hy, hcatches, hR⟩ := h
  obtain ⟨Q', c, τ'', hg, hcatches', hS⟩ := hg Q b τ' hcatches hR
  refine ⟨Q', c, τ'', ?_, (hcatches.imp hN).trans hcatches', hS⟩
  filter_upwards [hy, hg] with m hm hgm
  exact (bind_of_ok hm (g m)).trans hgm

/-- What is paired in a replay may be among more items. -/
theorem Replays.imp {y : ℕ → Eval α} (h : Replays own N σ R y P τ) (hN : ∀ i, N i → N' i) :
    Replays own N' σ R y P τ := by
  obtain ⟨Q, b, τ', hy, hcatches, hR⟩ := h
  exact ⟨Q, b, τ', hy, hcatches.imp hN, hR⟩

end

/-- Items that the thunk `a` owns, and that are not paired yet. The run behind has begun to evaluate
the thunk that corresponds to `a`. -/
structure Due (own : Item → Option CellId) (a : CellId) (P : Pairing) (τ : Store)
    (items : List Item) : Prop where
  nodup : items.Nodup
  own : ∀ i ∈ items, own i = some a
  unpaired : ∀ i ∈ items, ∀ j, ¬P.Items i j
  begun : ∃ b, P.cell a b ∧ τ.Begun b

/-- An item of the list, or one that is owned by a thunk that is known. -/
def Among (own : Item → Option CellId) (known : List CellId) (items : List Item) (i : Item) :
    Prop :=
  i ∈ items ∨ ∃ c ∈ known, own i = some c

section

variable {own : Item → Option CellId} {known : List CellId} {N : Item → Prop} {σ τ τ' : Store}
  {P Q : Pairing} {a : CellId} {items later : List Item}

/-- What is among some items is among more of them. -/
theorem Among.mono (hitems : ∀ i ∈ items, i ∈ later) (i : Item) (hi : Among own known items i) :
    Among own known later i :=
  hi.imp_left (hitems i)

/-- What was made first is due on its own. -/
theorem Due.of_append (h : Due own a P τ (later ++ items)) : Due own a P τ items where
  nodup := (List.nodup_append.1 h.nodup).2.1
  own i hi := h.own i (List.mem_append_right later hi)
  unpaired i hi := h.unpaired i (List.mem_append_right later hi)
  begun := h.begun

/-- What is left after some of the items were paired. -/
theorem Due.rest (h : Due own a P τ (later ++ items)) (ha : a ∉ known)
    (hcatches : Catches own (Among own known items) σ P Q τ τ') : Due own a Q τ' later where
  nodup := (List.nodup_append.1 h.nodup).1
  own i hi := h.own i (List.mem_append_left items hi)
  unpaired i hi j hij := by
    have hmem := List.mem_append_left items hi
    rcases hcatches.new hij with hij | ⟨-, hitem | ⟨c, hc, hown⟩⟩
    · exact h.unpaired i hmem j hij
    · exact (List.nodup_append.1 h.nodup).2.2 i hi i hitem rfl
    · -- the owner of the item is not known
      cases (h.own i hmem).symm.trans hown
      exact ha hc
  begun := by
    obtain ⟨b, hab, hbegun⟩ := h.begun
    exact ⟨b, hcatches.grows.cell a b hab, hcatches.evolves.begun hbegun⟩

/-- The owner of an item is paired, and is being evaluated. -/
theorem Due.taken {i : Item} (h : Due own a P τ [i]) (c : CellId) (hi : own i = some c) :
    ∃ d, P.cell c d ∧ τ.Begun d := by
  cases (h.own i List.mem_cons_self).symm.trans hi
  exact h.begun

/-! ### What evaluation adds -/

/-- The run behind makes a plain object, which need not be paired. -/
theorem Chases.newObject (h : Chases own P σ τ) (c : Content) :
    Catches own N σ P P τ (τ.newObject c).2 :=
  ⟨.refl P, h.grow (τ.evolves_newObject c) (h.behind.newObject c) fun _ _ h => h,
    τ.evolves_newObject c, .inl⟩

/-- The run behind may note that an operator was applied. -/
theorem Chases.noteCombined (h : Chases own P σ τ) (op : BinaryOp) (l r : Object) :
    Catches own N σ P P τ (τ.note (.combined op l r)) :=
  ⟨.refl P, h.grow (τ.evolves_note _) (h.behind.noteCombined op l r) fun _ _ h => h,
    τ.evolves_note _, .inl⟩

/-- The run behind makes a function that the run ahead has made. -/
theorem Chases.newFunction (h : Chases own P σ τ) {n : ℕ} (hn : n < σ.made)
    (hdue : Due own a P τ [.object n]) (c : Content) :
    Catches own (Among own known [.object n]) σ P (P.addMade n τ.made) τ (τ.newObject c).2 where
  grows := P.grows_addMade n τ.made
  evolves := τ.evolves_newObject c
  chases := by
    refine (h.newObject (N := fun _ => True) c).chases.addMade hn (Nat.lt_succ_self _) ?_ ?_ ?_
    · exact fun l hl => hdue.unpaired _ List.mem_cons_self _ (.object hl)
    · exact fun k hk => Nat.lt_irrefl _ (h.made_lt hk).2
    · intro c hc
      obtain ⟨d, hd, hbegun⟩ := hdue.taken c hc
      exact ⟨d, hd, (τ.evolves_newObject _).begun hbegun⟩
  new hij := by
    cases hij with
    | cell hcd => exact .inl (.cell hcd)
    | object hmn =>
      rcases hmn with hmn | ⟨rfl, rfl⟩
      · exact .inl (.object hmn)
      · exact .inr ⟨Nat.lt_irrefl _, .inl List.mem_cons_self⟩

/-- The run behind makes a thunk that the run ahead has made. -/
theorem Chases.newThunk (h : Chases own P σ τ) {c : CellId} {e : Expr} {env env' : Env}
    (hc : σ.ThunkFor c e env) (henv : P.env env env') (hdue : Due own a P τ [.cell c]) :
    Catches own (Among own known [.cell c]) σ P (P.addCell c τ.cells.size) τ
      (τ.newThunk e env').2 where
  grows := P.grows_addCell c τ.cells.size
  evolves := Store.evolves_newThunk e (h.hasEnv henv).2
  chases := by
    have hhas := (h.hasEnv henv).2
    have hevolves := Store.evolves_newThunk e hhas
    have hgrow := h.grow hevolves (h.behind.newThunk e hhas) fun _ _ => memo_of_newThunk
    refine hgrow.addCell hc (thunkFor_newThunk τ e env') henv ?_ ?_ ?_ ?_
    · rw [Store.cell_newThunk_self]
    · exact fun d hd => hdue.unpaired _ List.mem_cons_self _ (.cell hd)
    · exact fun k hk => Nat.lt_irrefl _ (h.lt hk).2
    · intro k hk
      obtain ⟨d, hd, hbegun⟩ := hdue.taken k hk
      exact ⟨d, hd, hevolves.begun hbegun⟩
  new hij := by
    cases hij with
    | cell hcd =>
      rcases hcd with hcd | ⟨rfl, rfl⟩
      · exact .inl (.cell hcd)
      · exact .inr ⟨Nat.lt_irrefl _, .inl List.mem_cons_self⟩
    | object hmn => exact .inl (.object hmn)

/-- The run behind enters a call that the run ahead has entered. -/
theorem Chases.extendFrame (h : Chases own P σ τ) {closure closure' : Env}
    (hclosure : P.env closure closure') {x : String} {c d b : CellId} (hcd : P.cell c d)
    {frame : FrameId} (hframe : σ.frame frame = [(x, .thunk c)]) {body : Expr}
    (hb : σ.ThunkFor b body (closure.inner frame)) (hdue : Due own a P τ [.cell b]) :
    Catches own (Among own known [.cell b]) σ P
      ((P.addEnv (closure.inner frame) (closure'.inner τ.frames.size)).addCell b τ.cells.size) τ
      (τ.extendFrame closure' x d body) where
  grows := (P.grows_addEnv _ _).trans (Pairing.grows_addCell _ _ _)
  evolves := Store.evolves_extendFrame h.behind.rooted closure' x d body
  chases := by
    have hevolves := Store.evolves_extendFrame h.behind.rooted closure' x d body
    have hsane := h.behind.extendFrame (h.hasEnv hclosure).2 x (h.lt hcd).2 body
    have hgrow := h.grow hevolves hsane fun _ _ => memo_of_extendFrame
    have hhas : σ.HasEnv (closure.inner frame) := hb.env ▸ Store.hasEnv_cell hb.lt
    -- the parameter is bound to thunks that correspond
    have henv := hgrow.addEnv hhas ((Store.hasEnv_extendFrame x d body closure' _).2 (.inr rfl))
      (hgrow.toTrails.lookup_inner hclosure hcd hframe
        ((Store.frame_extendFrame x d body closure' _).trans (if_pos rfl)))
    refine henv.addCell hb (thunkFor_extendFrame τ closure' x d body) (.inr ⟨rfl, rfl⟩) ?_ ?_ ?_ ?_
    · exact congrArg Cell.memo (Store.cell_newThunk_self (τ.newFrame [(x, .thunk d)]).2 body
        (closure'.inner τ.frames.size))
    · exact fun k hk => hdue.unpaired _ List.mem_cons_self _ (.cell hk)
    · exact fun k hk => Nat.lt_irrefl _ (h.lt hk).2
    · intro k hk
      obtain ⟨l, hl, hbegun⟩ := hdue.taken k hk
      exact ⟨l, hl, hevolves.begun hbegun⟩
  new hij := by
    cases hij with
    | cell hkl =>
      rcases hkl with hkl | ⟨rfl, rfl⟩
      · exact .inl (.cell hkl)
      · exact .inr ⟨Nat.lt_irrefl _, .inl List.mem_cons_self⟩
    | object hmn => exact .inl (.object hmn)

end

/-! ### Evaluation -/

section

variable {own : Item → Option CellId} {known : List CellId} {N : Item → Prop} {σ τ : Store}
  {P : Pairing} {a : CellId}

/-- What the run ahead has called is called by the run behind. -/
theorem replays_call (ha : a ∉ known) (h : Chases own P σ τ) {i : Identity} {x : String}
    {body : Expr} {closure : Env} {o : Object}
    (ho : P.Objects NoHole ⟨i, .function x body closure⟩ o) {arg : Expr} {env env' : Env}
    (henv : P.env env env') {c b : CellId} (hc : σ.ThunkFor c arg env) {frame : FrameId}
    (hframe : σ.frame frame = [(x, .thunk c)]) (hb : σ.ThunkFor b body (closure.inner frame))
    (hdue : Due own a P τ ([.cell b] ++ [.cell c])) (place : Option Location) :
    Replays own (Among own known [.cell b, .cell c]) σ (fun Q => Q.Values NoHole (.thunk b))
      (fun _ => call o arg env' place) P τ := by
  cases ho with
  | plain i j hplain => cases hplain
  | function x hmade hbody hclosure =>
    cases hbody.eq
    -- first the argument, then the body
    have hthunk : Catches own (Among own known [.cell c]) σ P _ τ _ :=
      h.newThunk hc henv hdue.of_append
    have hentered : Catches own (Among own known [.cell b]) σ _ _ _ _ :=
      hthunk.chases.extendFrame hclosure (.inr ⟨rfl, rfl⟩) hframe hb (hdue.rest ha hthunk)
    have hsize : (τ.newThunk arg env').2.cells.size = τ.cells.size + 1 := by simp
    refine replays_of_ok (fun _ => call_function rfl arg env' place τ)
      ((hthunk.imp (Among.mono ?_)).trans (hentered.imp (Among.mono ?_))) ?_
    · simp
    · simp
    · rw [hsize]
      exact .thunk (.inr ⟨rfl, rfl⟩)

/-- The branch that the run ahead has chosen is chosen by the run behind. -/
theorem replays_choose (h : Chases own P σ τ) {b : Bool} {o o' : Object}
    (ho : P.Objects NoHole o o') (hb : o.content = .boolean b) {t e : Expr} {env env' : Env}
    (henv : P.env env env') {c : CellId} (hc : σ.ThunkFor c (if b then t else e) env)
    (hdue : Due own a P τ [.cell c]) (place : Option Location) :
    Replays own (Among own known [.cell c]) σ (fun Q => Q.Values NoHole (.thunk c))
      (fun _ => choose o' t e env' place) P τ := by
  cases ho with
  | function => cases hb
  | plain i j =>
    cases hb
    exact replays_of_ok (fun _ => rfl) (h.newThunk hc henv hdue) (.thunk (.inr ⟨rfl, rfl⟩))

/-- What the run ahead has made of an operand is made by the run behind. -/
theorem replays_operateUnary (h : Chases own P σ τ) {op : UnaryOp} {o o' : Object}
    (ho : P.Objects NoHole o o') {c : Content} (hc : op.apply o.content = .ok c) (i : Identity)
    (place : Option Location) :
    Replays own N σ (fun Q => Q.Values NoHole (.object ⟨i, c⟩)) (fun _ => operateUnary op o' place)
      P τ := by
  have hc' := (UnaryOp.apply_congr ho.similar op).symm.trans hc
  refine replays_of_ok (b := .object ⟨.made τ.made, c⟩) (fun _ => ?_) (h.newObject c)
    (.object (.plain i _ (isFunction_eq_false (UnaryOp.ok_of_apply hc))))
  rw [operateUnary, hc']
  rfl

/-- An operator that may be decided by its left operand has a result only for truth values. -/
theorem BinaryOp.boolean_of_combine {op : BinaryOp} {decisive : Bool}
    (hop : op.decisive? = some decisive) {l r : Object} {c : Content}
    (hc : op.combine l r = .ok c) : ∃ b, r.content = .boolean b := by
  cases hr : r.content with
  | boolean b => exact ⟨b, rfl⟩
  | _ => cases op <;> cases hop <;> cases hl : l.content <;>
      simp [combine, booleans, hl, hr, Except.map] at hc

/-- An operator that asks for its right operand is applied to both. -/
theorem operateLazily_of_ok {op : BinaryOp} {l r : Object} (hl : op.Asks l)
    {c : Content} (hc : op.combine l r = .ok c) {right : Eval Object} {τ' : Store}
    (hright : right τ = .ok r τ') (place : Option Location) :
    operateLazily op l right place τ = operate op l r place τ' := by
  have hboolean : op.decisive?.isSome → r.content.kind? = some .boolean := by
    intro hop
    obtain ⟨decisive, hop⟩ := Option.isSome_iff_exists.1 hop
    obtain ⟨b, hb⟩ := BinaryOp.boolean_of_combine hop hc
    rw [hb]
    rfl
  rw [operateLazily_of_asks hl, bind_of_ok hright, if_pos hboolean]

/-- What the run ahead has combined is combined by the run behind. -/
theorem replays_operateLazily {op : BinaryOp} {l l' r : Object} (hl : P.Objects NoHole l l')
    (hasks : op.Asks l) {c : Content} (hc : op.combine l r = .ok c) (i : Identity)
    {right : ℕ → Eval Object}
    (hright : Replays own N σ (fun Q => Q.Objects NoHole r) right P τ) (place : Option Location) :
    Replays own N σ (fun Q => Q.Values NoHole (.object ⟨i, c⟩))
      (fun m => operateLazily op l' (right m) place) P τ := by
  obtain ⟨Q, r', τ', hright, hcatches, hr⟩ := hright
  have hl' := hl.mono hcatches.grows
  have hc' := (hcatches.chases.combine_eq hl' hr op).symm.trans hc
  have hasks' : op.Asks l' := by
    intro decisive hop
    have hboolean := hasks decisive hop
    rw [hl.content_eq (by rw [hboolean]; rfl), hboolean]
  have hnote : Catches own N σ Q Q τ' _ := hcatches.chases.noteCombined op l' r'
  refine ⟨Q, .object ⟨.made τ'.made, c⟩, _, ?_,
    hcatches.trans (hnote.trans (hnote.chases.newObject c)),
    .object (.plain i _ (isFunction_eq_false (BinaryOp.ok_of_combine hc)))⟩
  filter_upwards [hright] with m hm
  rw [operateLazily_of_ok hasks' hc' hm, operate_of_ok hc']
  rfl

/-- Evidence for what an expression gives is replayed, if that for the objects it leads to is. -/
theorem Evaluates.replays
    (hforce : ∀ P τ v w o, Chases own P σ τ → Clear known P τ → P.Values NoHole v w →
      Reaches σ known v o →
      Replays own (Among own known []) σ (fun Q => Q.Objects NoHole o) (fun m => force m m w) P τ)
    (ha : a ∉ known) {env env' : Env} {e : Expr} {v : Value} {items : List Item}
    (he : Evaluates σ known env e v items) (h : Chases own P σ τ) (hclear : Clear known P τ)
    (henv : P.env env env') (hdue : Due own a P τ items) :
    Replays own (Among own known items) σ (fun Q => Q.Values NoHole v)
      (fun m => eval (force m m) env' e) P τ := by
  -- forcing pairs only what is owned by thunks that are known
  have need : ∀ {e : Expr} {v : Value} {o : Object} {items : List Item} {P : Pairing} {τ : Store},
      Replays own (Among own known items) σ (fun Q => Q.Values NoHole v)
        (fun m => eval (force m m) env' e) P τ → Clear known P τ → Reaches σ known v o →
      Replays own (Among own known items) σ (fun Q => Q.Objects NoHole o)
        (fun m => eval (force m m) env' e >>= force m m) P τ := by
    intro e v o items P τ heval hclear hv
    refine heval.bind (fun _ h => h) fun Q w τ' hcatches hvw => ?_
    exact (hforce Q τ' v w o hcatches.chases (hclear.catches hcatches) hvw hv).imp
      (Among.mono nofun)
  induction he generalizing P τ with
  | literal c p =>
    exact replays_of_ok (fun _ => rfl) (.refl h) (.object (.plain _ _ (by cases c <;> rfl)))
  | @name x v p hx =>
    -- the name stands for something in the store behind, too
    have hlookup := h.lookup henv x
    rw [hx] at hlookup
    cases hτ : τ.lookup env' x with
    | none => rw [hτ] at hlookup; cases hlookup
    | some w =>
      rw [hτ] at hlookup
      cases hlookup with
      | some hvw => exact replays_of_ok (fun m => by rw [eval_name, hτ]) (.refl h) hvw
  | paren p _ ih => exact ih h hclear henv hdue
  | arrow x e p hn =>
    refine replays_of_ok (fun _ => rfl) (h.newFunction hn hdue (.function x e env')) ?_
    exact .object (.function x (.inr ⟨rfl, rfl⟩) (.refl e) henv)
  | @call f arg body v i x closure items c b frame p _ hv hc _ _ hframe hb ih =>
    -- the callee was found first, then the argument and the body were made
    have hdue : Due own a P τ ([.cell b, .cell c] ++ items) := hdue
    refine (need (ih h hclear henv hdue.of_append) hclear hv).bind
      (Among.mono fun _ => List.mem_append_right [Item.cell b, .cell c])
      fun Q o τ' hcatches ho => ?_
    refine (replays_call ha hcatches.chases ho (hcatches.grows.env _ _ henv) hc hframe hb
      (hdue.rest ha hcatches) p).imp (Among.mono fun _ => List.mem_append_left _)
  | unary p _ hv hc hn ih =>
    exact (need (ih h hclear henv hdue) hclear hv).bind (fun _ h => h) fun Q o τ' hcatches ho =>
      replays_operateUnary hcatches.chases ho hc _ p
  | @binary op l r v w o o' c items items' n p _ hv hasks _ hw hc hn ihl ihr =>
    refine (need (ihl h hclear henv hdue.of_append) hclear hv).bind
      (Among.mono fun _ => List.mem_append_right _)
      fun Q l' τ' hcatches hl' => ?_
    -- what was made for the right operand is still due after the left one
    have hclear' := hclear.catches hcatches
    have hright := need (ihr hcatches.chases hclear' (hcatches.grows.env _ _ henv)
      (hdue.rest ha hcatches)) hclear' hw
    exact replays_operateLazily hl' hasks hc _
      (hright.imp (Among.mono fun _ => List.mem_append_left _)) p
  | decided p _ hv hop ho ih =>
    refine (need (ih h hclear henv hdue) hclear hv).bind (fun _ h => h)
      fun Q o' τ' hcatches ho' => ?_
    have hcontent := (ho'.content_eq (by rw [ho]; rfl)).trans ho
    exact replays_of_ok (fun m => congrFun (operateLazily_of_decided hop hcontent _ p) τ')
      (.refl hcatches.chases) (.object ho')
  | @cond c t e v o b items d p _ hv ho hd ih =>
    have hdue : Due own a P τ ([.cell d] ++ items) := hdue
    refine (need (ih h hclear henv hdue.of_append) hclear hv).bind
      (Among.mono fun _ => List.mem_append_right [Item.cell d])
      fun Q o' τ' hcatches ho' => ?_
    refine (replays_choose hcatches.chases ho' ho (hcatches.grows.env _ _ henv) hd
      (hdue.rest ha hcatches) p).imp (Among.mono fun _ => List.mem_append_left _)

/-! ### Results -/

/-- A thunk is forced within wide bounds, if it is followed and what it gives is forced. -/
theorem eventually_force_thunk {b : CellId} {w : Value} {o : Object} {τ τ₁ τ₂ : Store}
    (hstep : ∀ᶠ m in atTop, step (eval (force m m)) b τ = .ok w τ₁)
    (hforce : ∀ᶠ m in atTop, force m m w τ₁ = .ok o τ₂) :
    ∀ᶠ m in atTop, force m m (.thunk b) τ = .ok o τ₂ := by
  obtain ⟨m, hstep, hforce⟩ := (hstep.and hforce).exists
  filter_upwards [eventually_gt_atTop m] with n hn
  exact (within_thunk hn hn b).of_ok ((bind_of_ok hstep _).trans hforce)

/-- Evidence for what a value leads to is replayed, if that for the results on the way is. -/
theorem Reaches.replays
    (hstep : ∀ P τ c d v, Chases own P σ τ → Clear known P τ → P.cell c d → c ∈ known →
      (σ.cell c).memo = some v →
      Replays own (Among own known []) σ (fun Q => Q.Values NoHole v)
        (fun m => step (eval (force m m)) d) P τ)
    {v w : Value} {o : Object} (hv : Reaches σ known v o) (h : Chases own P σ τ)
    (hclear : Clear known P τ) (hvw : P.Values NoHole v w) :
    Replays own (Among own known []) σ (fun Q => Q.Objects NoHole o) (fun m => force m m w)
      P τ := by
  induction hv generalizing w P τ with
  | object o =>
    cases hvw with
    | object ho => exact replays_of_ok (fun m => by cases m <;> rfl) (.refl h) ho
  | thunk hc hmemo _ ih =>
    cases hvw with
    | thunk hcd =>
      -- the run behind follows the thunk, and gets on from what it gives
      obtain ⟨Q, u, τ₁, hfollow, hcatches, hu⟩ := hstep P τ _ _ _ h hclear hcd hc hmemo
      obtain ⟨R, o', τ₂, hforce, hcatches', ho⟩ :=
        ih hcatches.chases (hclear.catches hcatches) hu
      exact ⟨R, o', τ₂, eventually_force_thunk hfollow hforce, hcatches.trans hcatches', ho⟩

/-- While a thunk is marked, what it owns is due. -/
theorem Chases.due (h : Chases own P σ τ) {b : CellId} (hab : P.cell a b) {items : List Item}
    (hnodup : items.Nodup) (hown : ∀ i ∈ items, own i = some a)
    (hmemo : (τ.cell b).memo = none) (hbusy : (τ.cell b).busy = false) :
    Due own a P (τ.marked b) items where
  nodup := hnodup
  own := hown
  unpaired i hi j hij := by
    -- if an item were paired already, the evaluation of its owner would have begun
    obtain ⟨d, hd, ⟨w, hw⟩ | hd'⟩ := h.taken hij (hown i hi)
    all_goals cases (h.cell_iff hab hd).1 rfl
    · cases hmemo.symm.trans hw
    · cases hbusy.symm.trans hd'
  begun := ⟨b, hab, .inr ((Store.busy_marked (h.lt hab).2 b).trans (if_pos rfl))⟩

/-- Every result for which there is evidence is got by the run behind, too. -/
theorem Certified.replays_step (hknown : Certified σ own known) {b : CellId} {v : Value}
    (h : Chases own P σ τ) (hclear : Clear known P τ) (hab : P.cell a b) (ha : a ∈ known)
    (hmemo : (σ.cell a).memo = some v) :
    Replays own (Among own known []) σ (fun Q => Q.Values NoHole v)
      (fun m => step (eval (force m m)) b) P τ := by
  induction hknown generalizing a b v P τ with
  | nil => cases ha
  | @cons c known v' items _ hnew _ hmemo' heval hnodup hown ih =>
    have hmono : ∀ i, Among own known [] i → Among own (c :: known) [] i := by
      rintro i (hi | ⟨d, hd, hi⟩)
      · cases hi
      · exact .inr ⟨d, List.mem_cons_of_mem c hd, hi⟩
    rcases List.mem_cons.1 ha with rfl | ha
    swap
    · -- an earlier thunk: there is evidence for it without this one
      exact (ih h hclear.of_cons hab ha hmemo).imp hmono
    cases hmemo.symm.trans hmemo'
    have hlt := (h.lt hab).2
    cases hmemo₂ : (τ.cell b).memo with
    | some w =>
      -- the run behind has caught up with this thunk before
      obtain ⟨v', hv', hvw⟩ := h.memo hab w hmemo₂
      cases hmemo.symm.trans hv'
      exact replays_of_ok (fun m => step_of_memo hmemo₂) (.refl h) hvw
    | none =>
      -- the run behind has not begun with it either
      have hbusy : (τ.cell b).busy = false := by
        rw [← Bool.not_eq_true]
        exact fun hbusy => hclear a b hab hbusy List.mem_cons_self
      have hmark := h.marked hlt hmemo₂ hbusy
      have hclear' : Clear known P (τ.marked b) := by
        intro c d hcd hd
        rw [Store.busy_marked hlt] at hd
        split at hd
        · next hbd => exact (h.cell_iff hab hcd).2 hbd ▸ hnew
        · exact hclear.of_cons c d hcd hd
      -- its expression is evaluated again, from results that are known
      have hreplay := heval.replays
        (fun P τ v w o h hclear hvw hv => hv.replays
          (fun P τ c d v h hclear hcd hc hv => ih h hclear hcd hc hv) h hclear hvw)
        hnew hmark hclear' (h.env hab) (h.due hab hnodup hown hmemo₂ hbusy)
      obtain ⟨Q, w, τ', hy, hcatches, hvw⟩ := hreplay
      rw [(h.expr hab).eq] at hy
      obtain ⟨m, hm⟩ := hy.exists
      have hlawful := lawfulEval_force m m
      have hhas := (Store.hasEnv_cell hlt).mono (τ.unfolds_marked b).toPersists
      obtain ⟨-, hevolves, hw⟩ := hlawful.ok hmark.behind hhas hm
      obtain ⟨-, hleft, hleft'⟩ := hevolves.extension.marked hlt hmemo₂
      have hdone := (hlawful.step_ok h.behind hlt
        (step_of_ok hlawful h.behind hlt hmemo₂ hbusy hm)).2
      refine ⟨Q, w, τ'.settled b w, ?_, ⟨hcatches.grows, ?_, hdone, ?_⟩, hvw⟩
      · filter_upwards [hy] with m hm
        exact step_of_ok (lawfulEval_force m m) h.behind hlt hmemo₂ hbusy hm
      · exact hcatches.chases.settled (hcatches.grows.cell a b hab) hmemo hleft hleft' hw hvw
      · -- what was paired meanwhile is owned by this thunk, or by an earlier one
        intro i j hij
        refine (hcatches.new hij).imp_right fun hfresh => ?_
        refine ⟨fun hin => hfresh.1 (hin.mono (τ.unfolds_marked b).toPersists), ?_⟩
        rcases hfresh.2 with hi | hi
        · exact .inr ⟨a, List.mem_cons_self, hown i hi⟩
        · exact hmono i (.inr hi)

end

namespace Leads

variable {L : Ledger} {P Q : Pairing} {σ τ τ' : Store} {a b : CellId} {v : Value}

/-- A run that leads is chased by the other. -/
theorem chases (h : Leads NoHole L P σ τ) : Chases L.own P σ τ where
  toTrails := h.toTrails
  taken hij hi := by
    obtain ⟨d, w, hd, hw⟩ := h.taken hij hi
    exact ⟨d, hd, .inl ⟨w, hw⟩⟩

/-- A thunk that is known has a result, and so neither it nor its counterpart is marked. -/
theorem clear (h : Leads NoHole L P σ τ) : Clear L.known P τ := by
  intro a b hab hbusy ha
  obtain ⟨-, v, hv⟩ := h.certified.memo ha
  cases (h.ahead.not_busy hv).symm.trans ((h.busy hab).trans hbusy)

/-- After the run behind has caught up with something, the relation holds again. -/
theorem catches {N : Item → Prop} (h : Leads NoHole L P σ τ)
    (hcatches : Catches L.own N σ P Q τ τ') : Leads NoHole L Q σ τ' := by
  have hbusy : ∀ {a b}, Q.cell a b → (σ.cell a).busy = (τ'.cell b).busy := by
    intro a b hab
    rw [hcatches.evolves.extension.busy]
    rcases hcatches.new (.cell hab) with hold | ⟨hnew, -⟩
    · cases hold with
      | cell hab => exact h.busy hab
    · -- thunks that were not paired are not marked
      rw [Store.cell_of_size_le (Nat.not_lt.1 hnew)]
      refine Bool.eq_false_iff.2 fun ha => ?_
      obtain ⟨d, had⟩ := h.paired a ha
      cases (hcatches.chases.cell_iff hab (hcatches.grows.cell a d had)).1 rfl
      exact hnew (h.lt had).2
  refine ⟨hcatches.chases.toTrails, h.certified, h.owned, hbusy, ?_, ?_, ?_⟩
  · intro a ha
    obtain ⟨b, hab⟩ := h.paired a ha
    exact ⟨b, hcatches.grows.cell a b hab⟩
  · intro i j c hij hi
    obtain ⟨d, hcd, ⟨w, hw⟩ | hd⟩ := hcatches.chases.taken hij hi
    · exact ⟨d, w, hcd, hw⟩
    · -- the owner has a result, and so is not marked
      obtain ⟨-, v, hv⟩ := h.certified.memo (h.owned i c hi).2
      cases (h.ahead.not_busy hv).symm.trans ((hbusy hcd).trans hd)
  · intro a v hv
    refine (h.late a v hv).imp_right ?_
    rintro ⟨b, w, hab, hw⟩
    exact ⟨b, w, hcatches.grows.cell a b hab, hcatches.evolves.unfolds.memo b w hw⟩

/-- The run behind can catch up with any result of the run ahead. -/
theorem catchUp (h : Leads NoHole L P σ τ) (hab : P.cell a b) (hv : (σ.cell a).memo = some v)
    (hnone : (τ.cell b).memo = none) :
    ∃ Q w τ', (∀ᶠ m in atTop, step (eval (force m m)) b τ = .ok w τ') ∧ P.Grows Q ∧
      Leads NoHole L Q σ τ' ∧ Q.Values NoHole v w := by
  have ha : a ∈ L.known := by
    refine (h.late a v hv).resolve_right ?_
    rintro ⟨d, w, had, hw⟩
    rw [← (h.cell_iff hab had).1 rfl, hnone] at hw
    cases hw
  obtain ⟨Q, w, τ', hy, hcatches, hvw⟩ :=
    h.certified.replays_step h.chases h.clear hab ha hv
  exact ⟨Q, w, τ', hy, hcatches.grows, h.catches hcatches, hvw⟩

end Leads

end CallByNeed
