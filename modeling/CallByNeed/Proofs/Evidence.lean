import CallByNeed.Proofs.SaneStore

/-!
# Evidence for results

Whenever the result of a thunk is kept, there is evidence for it in the store: `Evaluates` derives
what an expression gives from results that were kept before, by one rule for each form of
expression. The derivation names the thunks and functions that the evaluation has made on its way.
They are *owned* by the thunk whose evaluation made them.

A `Ledger` lists the thunks that have a result, in the order in which they got it, together with
the owners. It is *audited* if it has evidence for each result. Whatever evaluation does, and
whether it succeeds or fails, the ledger can be continued (`audits_eval`, `audits_force`).
-/

namespace CallByNeed

/-! ## Evidence -/

/-- Something that evaluation adds to a store and that can be told from others. -/
inductive Item where
  /-- A thunk. -/
  | cell (a : CellId)
  /-- An object that was made. -/
  | object (n : ℕ)
deriving DecidableEq

/-- The item is there. -/
def Item.In (σ : Store) : Item → Prop
  | cell a => a < σ.cells.size
  | object n => n < σ.made

/-- A thunk is there for an expression in an environment. -/
structure Store.ThunkFor (σ : Store) (a : CellId) (e : Expr) (env : Env) : Prop where
  lt : a < σ.cells.size
  expr : (σ.cell a).expr = e
  env : (σ.cell a).env = env

/-- A value leads to an object by way of results that were kept, of thunks that are known. -/
inductive Reaches (σ : Store) (known : List CellId) : Value → Object → Prop where
  | object (o : Object) : Reaches σ known (.object o) o
  | thunk {a : CellId} {v : Value} {o : Object} : a ∈ known → (σ.cell a).memo = some v →
      Reaches σ known v o → Reaches σ known (.thunk a) o

/-- An expression gives a value, and the evaluation has made the items in the list. Whatever else
had to be evaluated is known. -/
inductive Evaluates (σ : Store) (known : List CellId) (env : Env) :
    Expr → Value → List Item → Prop where
  | literal (c : Constant) (p : Option Location) :
      Evaluates σ known env (.literal c p) (.object ⟨.literal p, .ofConstant c⟩) []
  | name {x : String} {v : Value} (p : Option Location) : σ.lookup env x = some v →
      Evaluates σ known env (.name x p) v []
  | paren {e : Expr} {v : Value} {items : List Item} (p : Option Location) :
      Evaluates σ known env e v items → Evaluates σ known env (.paren e p) v items
  | arrow (x : String) (e : Expr) (p : Option Location) {n : ℕ} : n < σ.made →
      Evaluates σ known env (.arrow x e p) (.object ⟨.made n, .function x e env⟩) [.object n]
  | call {f arg body : Expr} {v : Value} {i : Identity} {x : String} {closure : Env}
      {items : List Item} {a b : CellId} {frame : FrameId} (p : Option Location) :
      Evaluates σ known env f v items → Reaches σ known v ⟨i, .function x body closure⟩ →
      σ.ThunkFor a arg env → 0 < frame → frame < σ.frames.size →
      σ.frame frame = [(x, .thunk a)] → σ.ThunkFor b body (closure.inner frame) →
      Evaluates σ known env (.call f arg p) (.thunk b) (.cell b :: .cell a :: items)
  -- what operators make is not listed: only functions are told apart by their identities
  | unary {op : UnaryOp} {e : Expr} {v : Value} {o : Object} {c : Content} {items : List Item}
      {n : ℕ} (p : Option Location) :
      Evaluates σ known env e v items → Reaches σ known v o → op.apply o.content = .ok c →
      n < σ.made → Evaluates σ known env (.unary op e p) (.object ⟨.made n, c⟩) items
  | binary {op : BinaryOp} {l r : Expr} {v w : Value} {o o' : Object} {c : Content}
      {items items' : List Item} {n : ℕ} (p : Option Location) :
      Evaluates σ known env l v items → Reaches σ known v o → op.Asks o →
      Evaluates σ known env r w items' → Reaches σ known w o' → op.combine o o' = .ok c →
      n < σ.made →
      Evaluates σ known env (.binary op l r p) (.object ⟨.made n, c⟩) (items' ++ items)
  | decided {op : BinaryOp} {l r : Expr} {v : Value} {o : Object} {decisive : Bool}
      {items : List Item} (p : Option Location) :
      Evaluates σ known env l v items → Reaches σ known v o → op.decisive? = some decisive →
      o.content = .boolean decisive → Evaluates σ known env (.binary op l r p) (.object o) items
  | cond {c t e : Expr} {v : Value} {o : Object} {b : Bool} {items : List Item} {a : CellId}
      (p : Option Location) :
      Evaluates σ known env c v items → Reaches σ known v o → o.content = .boolean b →
      σ.ThunkFor a (if b then t else e) env →
      Evaluates σ known env (.cond c t e p) (.thunk a) (.cell a :: items)

section

variable {σ σ' : Store} {known known' : List CellId}

/-- What was made stays made. -/
theorem Item.In.mono (h : σ.Persists σ') {i : Item} (hi : i.In σ) : i.In σ' := by
  cases i with
  | cell a => exact Nat.lt_of_lt_of_le hi h.size
  | object n => exact Nat.lt_of_lt_of_le hi h.made

/-- A thunk stays that for its expression. -/
theorem Store.ThunkFor.mono (h : σ.Persists σ') {a : CellId} {e : Expr} {env : Env}
    (ha : σ.ThunkFor a e env) : σ'.ThunkFor a e env :=
  ⟨ha.lt.trans_le h.size, (h.expr a ha.lt).trans ha.expr, (h.env a ha.lt).trans ha.env⟩

/-- A chain of results that are known stays one. -/
theorem Reaches.mono (h : σ.Persists σ') (hknown : ∀ a ∈ known, a ∈ known') {v : Value}
    {o : Object} (hv : Reaches σ known v o) : Reaches σ' known' v o := by
  induction hv with
  | object o => exact .object o
  | thunk ha hmemo _ ih => exact .thunk (hknown _ ha) (h.memo _ _ hmemo) ih

/-- Evidence stays evidence as the store grows. -/
theorem Evaluates.mono (h : σ.Persists σ') (hσ : σ.Rooted) {env : Env} (henv : σ.HasEnv env)
    (hknown : ∀ a ∈ known, a ∈ known') {e : Expr} {v : Value} {items : List Item}
    (he : Evaluates σ known env e v items) : Evaluates σ' known' env e v items := by
  induction he with
  | literal c p => exact .literal c p
  | name p hx => exact .name p (h.lookup hσ henv hx)
  | paren p _ ih => exact .paren p ih
  | arrow x e p hn => exact .arrow x e p (hn.trans_le h.made)
  | call p _ hv ha hpos hlt hframe hb ih =>
    exact .call p ih (hv.mono h hknown) (ha.mono h) hpos (hlt.trans_le h.frames)
      ((h.frame _ hpos hlt).trans hframe) (hb.mono h)
  | unary p _ hv hc hn ih => exact .unary p ih (hv.mono h hknown) hc (hn.trans_le h.made)
  | binary p _ hv ho _ hw hc hn ihl ihr =>
    exact .binary p ihl (hv.mono h hknown) ho ihr (hw.mono h hknown) hc (hn.trans_le h.made)
  | decided p _ hv hop ho ih => exact .decided p ih (hv.mono h hknown) hop ho
  | cond p _ hv ho ha ih => exact .cond p ih (hv.mono h hknown) ho (ha.mono h)

/-- Results lead from values of the store to objects of the store. -/
theorem Reaches.in (hσ : σ.Rooted) {v : Value} {o : Object} (h : Reaches σ known v o)
    (hv : v.In σ) : o.In σ := by
  induction h with
  | object o => exact hv
  | thunk _ hmemo _ ih => exact ih (hσ.memo _ _ hmemo)

end

/-! ## Ledgers -/

/-- There is evidence for the results of all thunks in the list, each from those after it. Each
thunk owns what its evaluation has made. -/
inductive Certified (σ : Store) (own : Item → Option CellId) : List CellId → Prop where
  | nil : Certified σ own []
  | cons {a : CellId} {known : List CellId} {v : Value} {items : List Item} :
      Certified σ own known → a ∉ known → a < σ.cells.size → (σ.cell a).memo = some v →
      Evaluates σ known (σ.cell a).env (σ.cell a).expr v items → items.Nodup →
      (∀ i ∈ items, own i = some a) → Certified σ own (a :: known)

/-- The thunks that have a result, the last first, and who owns what. -/
structure Ledger where
  /-- The thunk whose evaluation has made an item. -/
  own : Item → Option CellId
  /-- The thunks that have a result. -/
  known : List CellId

namespace Ledger

/-- A ledger of nothing. -/
def blank : Ledger :=
  ⟨fun _ => none, []⟩

/-- A ledger that has evidence for all results in a store. -/
structure Audited (L : Ledger) (σ : Store) : Prop where
  sane : σ.Sane
  certified : Certified σ L.own L.known
  /-- No result is left out. -/
  covers : ∀ a v, (σ.cell a).memo = some v → a ∈ L.known
  /-- What is owned is there, and its owner has a result. -/
  owned : ∀ i a, L.own i = some a → i.In σ ∧ a ∈ L.known

/-- A ledger is continued while a store grows. -/
structure Continues (L L' : Ledger) (σ σ' : Store) : Prop where
  audited : L'.Audited σ'
  unfolds : σ.Unfolds σ'
  /-- What was there before has the owner it had. -/
  own : ∀ i, i.In σ → L'.own i = L.own i
  known : ∀ a ∈ L.known, a ∈ L'.known
  /-- What is new is owned by thunks that have got their results meanwhile. -/
  fresh : ∀ i a, L'.own i = some a → i.In σ ∨ a ∉ L.known

end Ledger

section

variable {σ σ' σ'' : Store} {own own' : Item → Option CellId} {known : List CellId}
  {L L' L'' : Ledger}

/-- Results stay certified while the store keeps them and items keep their owners. -/
theorem Certified.mono (h : Certified σ own known) (hσ : σ.Rooted) (hpersists : σ.Persists σ')
    (hown : ∀ i a, own i = some a → own' i = some a) : Certified σ' own' known := by
  induction h with
  | nil => exact .nil
  | @cons a known v items _ hnew hlt hmemo heval hnodup hitems ih =>
    refine .cons ih hnew (hlt.trans_le hpersists.size) (hpersists.memo a v hmemo) ?_ hnodup
      fun i hi => hown i a (hitems i hi)
    rw [hpersists.expr a hlt, hpersists.env a hlt]
    exact heval.mono hpersists hσ (Store.hasEnv_cell hlt) fun _ h => h

/-- What is known has a result. -/
theorem Certified.memo (h : Certified σ own known) {a : CellId} (ha : a ∈ known) :
    a < σ.cells.size ∧ ∃ v, (σ.cell a).memo = some v := by
  induction h with
  | nil => cases ha
  | cons _ _ hlt hmemo _ _ _ ih =>
    rcases List.mem_cons.1 ha with rfl | ha
    · exact ⟨hlt, _, hmemo⟩
    · exact ih ha

/-- Functions that are results were made. -/
theorem Evaluates.made (hσ : σ.Rooted) {env : Env} {e : Expr} {v : Value} {items : List Item}
    (h : Evaluates σ known env e v items) {i : Identity} {x : String} {body : Expr} {closure : Env}
    (hv : v = .object ⟨i, .function x body closure⟩) : ∃ n, i = .made n := by
  induction h with
  | literal c p => cases c <;> cases hv
  | name p hx =>
    obtain ⟨a, -, rfl⟩ := hσ.lookup hx
    cases hv
  | paren p _ ih => exact ih hv
  | arrow x e p => cases hv; exact ⟨_, rfl⟩
  | unary p => cases hv; exact ⟨_, rfl⟩
  | binary p => cases hv; exact ⟨_, rfl⟩
  | decided p _ _ _ ho => cases hv; cases ho
  | call p => cases hv
  | cond p => cases hv

/-- A function that is a result was made. -/
theorem Certified.made (h : Certified σ own known) (hσ : σ.Rooted) {a : CellId} (ha : a ∈ known)
    {i : Identity} {x : String} {body : Expr} {closure : Env}
    (hmemo : (σ.cell a).memo = some (.object ⟨i, .function x body closure⟩)) :
    ∃ n, i = .made n := by
  induction h with
  | nil => cases ha
  | cons _ _ _ hmemo' heval _ _ ih =>
    rcases List.mem_cons.1 ha with rfl | ha
    · exact heval.made hσ (Option.some.inj (hmemo'.symm.trans hmemo))
    · exact ih ha

/-- There is nothing to account for in the empty store. -/
theorem Ledger.audited_blank : Ledger.blank.Audited .empty where
  sane := ⟨Store.rooted_empty, Store.ok_empty⟩
  certified := .nil
  covers a v h := by simp [Store.empty, Store.cell, default] at h
  owned _ _ h := nomatch h

/-- A ledger is continued by itself if nothing is done. -/
theorem Ledger.Audited.refl (h : L.Audited σ) : L.Continues L σ σ :=
  ⟨h, .refl σ, fun _ _ => rfl, fun _ ha => ha, fun i a hi => .inl (h.owned i a hi).1⟩

/-- Ledgers are continued step by step. -/
theorem Ledger.Continues.trans (h : L.Continues L' σ σ') (h' : L'.Continues L'' σ' σ'') :
    L.Continues L'' σ σ'' where
  audited := h'.audited
  unfolds := h.unfolds.trans h'.unfolds
  own i hi := (h'.own i (hi.mono h.unfolds.toPersists)).trans (h.own i hi)
  known a ha := h'.known a (h.known a ha)
  fresh i a hi := by
    rcases h'.fresh i a hi with hin | hnew
    · exact h.fresh i a ((h'.own i hin).symm.trans hi)
    · exact .inr fun ha => hnew (h.known a ha)

/-- The ledger need not be changed if no thunk gets a result. -/
theorem Ledger.Audited.grow (h : L.Audited σ) (hunfolds : σ.Unfolds σ') (hσ' : σ'.Sane)
    (hmemo : ∀ a v, (σ'.cell a).memo = some v → (σ.cell a).memo = some v) :
    L.Continues L σ σ' where
  audited := ⟨hσ', h.certified.mono h.sane.rooted hunfolds.toPersists fun _ _ h => h,
    fun a v hv => h.covers a v (hmemo a v hv),
    fun i a hi => ⟨(h.owned i a hi).1.mono hunfolds.toPersists, (h.owned i a hi).2⟩⟩
  unfolds := hunfolds
  own _ _ := rfl
  known _ ha := ha
  fresh i a hi := .inl (h.owned i a hi).1

/-- Items that were made since `σ₀`, each of them once, and that nobody owns yet. -/
structure Ledger.Fresh (L : Ledger) (σ₀ σ : Store) (items : List Item) : Prop where
  nodup : items.Nodup
  notIn : ∀ i ∈ items, ¬i.In σ₀
  isIn : ∀ i ∈ items, i.In σ
  unowned : ∀ i ∈ items, L.own i = none

/-- Nothing at all is fresh. -/
theorem Ledger.fresh_nil (L : Ledger) (σ₀ σ : Store) : L.Fresh σ₀ σ [] :=
  ⟨.nil, nofun, nofun, nofun⟩

/-- Nobody else comes to own them. -/
theorem Ledger.Fresh.continue {σ₀ : Store} {items : List Item} (h : L.Fresh σ₀ σ items)
    (hL : L.Continues L' σ σ') : L'.Fresh σ₀ σ' items where
  nodup := h.nodup
  notIn := h.notIn
  isIn i hi := (h.isIn i hi).mono hL.unfolds.toPersists
  unowned i hi := (hL.own i (h.isIn i hi)).trans (h.unowned i hi)

/-- What is made later is different from what was made before. -/
theorem Ledger.Fresh.append {σ₀ : Store} {items items' : List Item} (h : L'.Fresh σ σ' items')
    (hunfolds : σ₀.Unfolds σ) (hitems : L.Fresh σ₀ σ items) (hL : L.Continues L' σ σ') :
    L'.Fresh σ₀ σ' (items' ++ items) := by
  have hitems' := hitems.continue hL
  refine ⟨List.nodup_append.2 ⟨h.nodup, hitems.nodup, ?_⟩, ?_, ?_, ?_⟩
  · rintro i hi _ hi' rfl
    exact h.notIn i hi (hitems.isIn i hi')
  all_goals
    intro i hi
    rcases List.mem_append.1 hi with hi | hi
  · exact fun hin => h.notIn i hi (hin.mono hunfolds.toPersists)
  · exact hitems'.notIn i hi
  · exact h.isIn i hi
  · exact hitems'.isIn i hi
  · exact h.unowned i hi
  · exact hitems'.unowned i hi

end

/-! ## Every evaluation can be accounted for -/

/-- There is a ledger for the store. -/
def Store.Auditable (σ : Store) : Prop :=
  ∃ L : Ledger, L.Audited σ

/-- Every ledger of the first store can be continued to one of the second store, of which `Q`
holds. -/
def Continued (Q : Ledger → Prop) (σ σ' : Store) : Prop :=
  ∀ L : Ledger, L.Audited σ → ∃ L', L.Continues L' σ σ' ∧ Q L'

/-- Whatever a computation does, ledgers can be continued; and its result, if there is one, is as
`Q` says. -/
def Audits {α : Type} (Q : α → Store → Ledger → Prop) (x : Eval α) (σ : Store) : Prop :=
  Ends (fun a σ' => Continued (Q a σ') σ σ') (fun _ σ' => Continued (fun _ => True) σ σ') x σ

section

variable {α β : Type} {σ σ' σ'' : Store} {P Q : Ledger → Prop}

/-- A ledger need not be continued if nothing was done. -/
theorem continued_refl (h : ∀ L : Ledger, L.Audited σ → Q L) : Continued Q σ σ :=
  fun L hL => ⟨L, hL.refl, h L hL⟩

/-- A ledger can be continued in two steps. -/
theorem Continued.trans (h : Continued P σ σ') (h' : Continued Q σ' σ'') : Continued Q σ σ'' := by
  intro L hL
  obtain ⟨L₁, hL₁, -⟩ := h L hL
  obtain ⟨L₂, hL₂, hQ⟩ := h' L₁ hL₁.audited
  exact ⟨L₂, hL₁.trans hL₂, hQ⟩

/-- What is known of a continued ledger may be weakened. -/
theorem Continued.imp (h : Continued P σ σ') (hPQ : ∀ L : Ledger, L.Audited σ' → P L → Q L) :
    Continued Q σ σ' := by
  intro L hL
  obtain ⟨L', hL', hP⟩ := h L hL
  exact ⟨L', hL', hPQ L' hL'.audited hP⟩

/-- A ledger stays as it is if no thunk gets a result. -/
theorem continued_grow (hunfolds : σ.Unfolds σ') (hσ' : σ.Sane → σ'.Sane)
    (hmemo : ∀ a v, (σ'.cell a).memo = some v → (σ.cell a).memo = some v) :
    Continued (fun _ => True) σ σ' :=
  fun L hL => ⟨L, hL.grow hunfolds (hσ' hL.sane) hmemo, trivial⟩

/-- Computations one after the other can be accounted for, if both can. -/
theorem Audits.bind {Q : α → Store → Ledger → Prop} {R : β → Store → Ledger → Prop} {x : Eval α}
    {f : α → Eval β} (hx : Audits Q x σ)
    (hf : ∀ a σ', Continued (Q a σ') σ σ' → Audits R (f a) σ') : Audits R (x >>= f) σ :=
  Ends.bind hx fun a σ' ha => (hf a σ' ha).imp (fun _ _ hb => ha.trans hb) fun _ _ hs => ha.trans hs

/-- The ledger can be continued to the store that is left. -/
theorem Audits.leftBy {Q : α → Store → Ledger → Prop} {x : Eval α} (h : Audits Q x σ) {L : Ledger}
    (hL : L.Audited σ) : ∃ L', L.Continues L' σ (leftBy x σ) := by
  have hleft : Continued (fun _ => True) σ (CallByNeed.leftBy x σ) :=
    Ends.leftBy h (fun a σ' ha => ha.imp fun _ _ _ => trivial) fun _ _ hs => hs
  obtain ⟨L', hL', -⟩ := hleft L hL
  exact ⟨L', hL'⟩

end

/-- There is evidence for what an expression gives, and all that was made for it since `σ₀` is not
owned yet. -/
def Explains (σ₀ : Store) (env : Env) (e : Expr) (L : Ledger) (σ : Store) (v : Value) : Prop :=
  ∃ items, Evaluates σ L.known env e v items ∧ L.Fresh σ₀ σ items

/-- There is evidence for the object that an expression leads to. -/
def Supplies (σ₀ : Store) (env : Env) (e : Expr) (L : Ledger) (σ : Store) (o : Object) : Prop :=
  ∃ v items, Evaluates σ L.known env e v items ∧ Reaches σ L.known v o ∧ L.Fresh σ₀ σ items

section

variable {L L' : Ledger} {σ₀ σ σ' : Store} {env : Env}

/-- Evidence is about values of the store. -/
theorem Evaluates.in {known : List CellId} (hσ : σ.Rooted) (henv : σ.HasEnv env) {e : Expr}
    {v : Value} {items : List Item} (h : Evaluates σ known env e v items) : v.In σ := by
  induction h with
  | literal c p => exact Object.in_literal σ p c
  | name p hx =>
    obtain ⟨a, ha, rfl⟩ := hσ.lookup hx
    exact ha
  | paren p _ ih => exact ih
  | arrow x e p hn => exact Object.in_function hn henv x e
  | call p _ _ _ _ _ _ hb => exact hb.lt
  | unary p _ _ hc hn => exact Object.in_made hn (UnaryOp.ok_of_apply hc)
  | binary p _ _ _ _ _ hc hn => exact Object.in_made hn (BinaryOp.ok_of_combine hc)
  | decided p _ hv _ _ ih => exact hv.in hσ ih
  | cond p _ _ _ ha => exact ha.lt

/-- Evidence for an object stays evidence as a ledger is continued. -/
theorem Supplies.continue {e : Expr} {o : Object} (h : Supplies σ₀ env e L σ o)
    (hL : L.Audited σ) (henv : σ.HasEnv env) (hL' : L.Continues L' σ σ') :
    Supplies σ₀ env e L' σ' o := by
  obtain ⟨v, items, heval, hreaches, hfresh⟩ := h
  have hpersists := hL'.unfolds.toPersists
  exact ⟨v, items, heval.mono hpersists hL.sane.rooted henv hL'.known,
    hreaches.mono hpersists hL'.known, hfresh.continue hL'⟩

/-- What has just been made is not owned yet. -/
theorem Ledger.Audited.fresh (hL : L.Audited σ) {σ' : Store} (items : List Item)
    (hnodup : items.Nodup) (hnotIn : ∀ i ∈ items, ¬i.In σ) (hisIn : ∀ i ∈ items, i.In σ') :
    L.Fresh σ σ' items := by
  refine ⟨hnodup, hnotIn, hisIn, fun i hi => ?_⟩
  rw [Option.eq_none_iff_forall_ne_some]
  exact fun a ha => hnotIn i hi (hL.owned i a ha).1

/-- A new thunk has no result yet. -/
theorem memo_of_newThunk {e : Expr} {a : CellId} {v : Value}
    (h : ((σ.newThunk e env).2.cell a).memo = some v) : (σ.cell a).memo = some v := by
  rw [Store.cell_newThunk] at h
  split at h
  · cases h
  · exact h

/-- The new thunk in a new frame has no result yet. -/
theorem memo_of_extendFrame {closure : Env} {x : String} {a b : CellId} {body : Expr} {v : Value}
    (h : ((σ.extendFrame closure x a body).cell b).memo = some v) : (σ.cell b).memo = some v :=
  memo_of_newThunk (σ := (σ.newFrame [(x, .thunk a)]).2) h

/-- A new thunk is for its expression. -/
theorem thunkFor_newThunk (σ : Store) (e : Expr) (env : Env) :
    (σ.newThunk e env).2.ThunkFor σ.cells.size e env :=
  ⟨by simp, by rw [Store.cell_newThunk_self], by rw [Store.cell_newThunk_self]⟩

/-- The new thunk in a new frame is for the body. -/
theorem thunkFor_extendFrame (σ : Store) (closure : Env) (x : String) (a : CellId) (body : Expr) :
    (σ.extendFrame closure x a body).ThunkFor σ.cells.size body (closure.inner σ.frames.size) :=
  thunkFor_newThunk (σ.newFrame [(x, .thunk a)]).2 body _

end

/-! ### Evidence for each form of expression -/

section

variable {σ σ₁ σ₂ : Store} {env : Env} {p : Option Location} {o o' : Object}

/-- A function is evidence for itself. -/
theorem explains_arrow (x : String) (e : Expr) :
    Continued (fun L => Explains σ env (.arrow x e p) L (σ.newObject (.function x e env)).2
      (.object ⟨.made σ.made, .function x e env⟩)) σ (σ.newObject (.function x e env)).2 := by
  intro L hL
  refine ⟨L, hL.grow (σ.unfolds_newObject _) (hL.sane.newObject _) fun _ _ h => h, _,
    .arrow x e p (Nat.lt_succ_self _), ?_⟩
  exact hL.fresh _ (by simp) (by simp [Item.In]) (by simp [Item.In, Store.newObject])

/-- A call makes a thunk for the argument and one for the body, and what it gives is the latter. -/
theorem explains_call (henv : σ.HasEnv env) {f a body : Expr} {x : String} {closure : Env}
    (hf : Continued (fun L => Supplies σ env f L σ₁ o) σ σ₁)
    (hc : o.content = .function x body closure) :
    Continued (fun L => Explains σ env (.call f a p) L
        ((σ₁.newThunk a env).2.extendFrame closure x σ₁.cells.size body)
        (.thunk (σ₁.cells.size + 1))) σ
      ((σ₁.newThunk a env).2.extendFrame closure x σ₁.cells.size body) := by
  intro L hL
  obtain ⟨L₁, hL₁, hsupplies⟩ := hf L hL
  have hrooted := hL₁.audited.sane.rooted
  have henv₁ := henv.mono hL₁.unfolds.toPersists
  obtain ⟨v, items, heval, hreaches, hfresh⟩ := hsupplies
  -- the object is of this store, and so is the environment that the function was written in
  have ho := hreaches.in hrooted (heval.in hrooted henv₁)
  have hthunk := Store.evolves_newThunk a henv₁
  have hsane := hL₁.audited.sane.newThunk a henv₁
  have hclosure := (ho.closure x body closure hc).mono hthunk.unfolds.toPersists
  have hframe := Store.evolves_extendFrame hsane.rooted closure x σ₁.cells.size body
  have hbody := thunkFor_extendFrame (σ₁.newThunk a env).2 closure x σ₁.cells.size body
  rw [Store.size_cells_newThunk] at hbody
  have hcontinues := hL₁.audited.grow (hthunk.trans hframe).unfolds
    (hsane.extendFrame hclosure x (by simp) body)
    fun b w hw => memo_of_newThunk (memo_of_extendFrame hw)
  have hpersists := hcontinues.unfolds.toPersists
  obtain ⟨i, c⟩ := o
  cases hc
  refine ⟨L₁, hL₁.trans hcontinues, _, .call p (heval.mono hpersists hrooted henv₁ fun _ h => h)
    (hreaches.mono hpersists fun _ h => h)
    ((thunkFor_newThunk σ₁ a env).mono hframe.unfolds.toPersists) hrooted.nonempty ?_ ?_ hbody, ?_⟩
  · rw [Store.size_frames_extendFrame]
    exact Nat.lt_succ_self _
  · rw [Store.frame_extendFrame]
    exact if_pos rfl
  · refine (hL₁.audited.fresh [.cell (σ₁.cells.size + 1), .cell σ₁.cells.size] ?_ ?_ ?_).append
      hL₁.unfolds hfresh hcontinues
    · simp
    · simp [Item.In]
    · have hlt : σ₁.cells.size < _ := (Nat.lt_succ_self _).trans hbody.lt
      simpa [Item.In] using ⟨hbody.lt, hlt⟩

/-- An operator before its operand gives what it makes of it. -/
theorem explains_unary (henv : σ.HasEnv env) {op : UnaryOp} {e : Expr} {c : Content}
    (he : Continued (fun L => Supplies σ env e L σ₁ o) σ σ₁) (hc : op.apply o.content = .ok c) :
    Continued (fun L => Explains σ env (.unary op e p) L (σ₁.newObject c).2
      (.object ⟨.made σ₁.made, c⟩)) σ (σ₁.newObject c).2 := by
  intro L hL
  obtain ⟨L₁, hL₁, hsupplies⟩ := he L hL
  have hcontinues := hL₁.audited.grow (σ₁.unfolds_newObject c) (hL₁.audited.sane.newObject c)
    fun _ _ h => h
  obtain ⟨v, items, heval, hreaches, hfresh⟩ :=
    hsupplies.continue hL₁.audited (henv.mono hL₁.unfolds.toPersists) hcontinues
  exact ⟨L₁, hL₁.trans hcontinues, items, .unary p heval hreaches hc (Nat.lt_succ_self _), hfresh⟩

/-- The left operand gives the result of an operator that it decides. -/
theorem explains_decided {op : BinaryOp} {l r : Expr} {decisive : Bool}
    (hl : Continued (fun L => Supplies σ env l L σ₁ o) σ σ₁)
    (hop : op.decisive? = some decisive) (ho : o.content = .boolean decisive) :
    Continued (fun L => Explains σ env (.binary op l r p) L σ₁ (.object o)) σ σ₁ := by
  refine hl.imp fun L _ h => ?_
  obtain ⟨v, items, heval, hreaches, hfresh⟩ := h
  exact ⟨items, .decided p heval hreaches hop ho, hfresh⟩

/-- Both operands give the result of an operator that asks for the right one. What was made for the
right operand is newer than what was made for the left one. -/
theorem explains_binary (henv : σ.HasEnv env) {op : BinaryOp} {l r : Expr} {c : Content}
    (hl : Continued (fun L => Supplies σ env l L σ₁ o) σ σ₁) (hasks : op.Asks o)
    (hr : Continued (fun L => Supplies σ₁ env r L σ₂ o') σ₁ σ₂) (hc : op.combine o o' = .ok c) :
    Continued (fun L => Explains σ env (.binary op l r p) L
        ((σ₂.note (.combined op o o')).newObject c).2 (.object ⟨.made σ₂.made, c⟩)) σ
      ((σ₂.note (.combined op o o')).newObject c).2 := by
  intro L hL
  obtain ⟨L₁, hL₁, hleft⟩ := hl L hL
  obtain ⟨L₂, hL₂, w, items', heval', hreaches', hfresh'⟩ := hr L₁ hL₁.audited
  have henv₁ := henv.mono hL₁.unfolds.toPersists
  have henv₂ := henv₁.mono hL₂.unfolds.toPersists
  obtain ⟨v, items, heval, hreaches, hfresh⟩ := hleft
  have hboth := hfresh'.append hL₁.unfolds hfresh hL₂
  -- the evidence for the left operand still holds after the right one was evaluated
  have heval₂ := heval.mono hL₂.unfolds.toPersists hL₁.audited.sane.rooted henv₁ hL₂.known
  have hreaches₂ := hreaches.mono hL₂.unfolds.toPersists hL₂.known
  -- neither the note nor the new object belongs to a thunk, so the ledger stays as it is
  have hcontinues : L₂.Continues L₂ σ₂ ((σ₂.note (.combined op o o')).newObject c).2 :=
    hL₂.audited.grow ((σ₂.unfolds_note _).trans (Store.unfolds_newObject _ c))
      ((hL₂.audited.sane.noteCombined op o o').newObject c) fun _ _ h => h
  have hpersists := hcontinues.unfolds.toPersists
  have hrooted := hL₂.audited.sane.rooted
  exact ⟨L₂, (hL₁.trans hL₂).trans hcontinues, _,
    .binary p (heval₂.mono hpersists hrooted henv₂ fun _ h => h)
      (hreaches₂.mono hpersists fun _ h => h) hasks
      (heval'.mono hpersists hrooted henv₂ fun _ h => h)
      (hreaches'.mono hpersists fun _ h => h) hc (Nat.lt_succ_self _),
    hboth.continue hcontinues⟩

/-- A conditional makes a thunk for one of its branches, which is what it gives. -/
theorem explains_cond (henv : σ.HasEnv env) {c t e : Expr} {b : Bool}
    (hcond : Continued (fun L => Supplies σ env c L σ₁ o) σ σ₁) (ho : o.content = .boolean b) :
    Continued (fun L => Explains σ env (.cond c t e p) L
        (σ₁.newThunk (if b then t else e) env).2 (.thunk σ₁.cells.size)) σ
      (σ₁.newThunk (if b then t else e) env).2 := by
  intro L hL
  obtain ⟨L₁, hL₁, v, items, heval, hreaches, hfresh⟩ := hcond L hL
  have henv₁ := henv.mono hL₁.unfolds.toPersists
  have hcontinues := hL₁.audited.grow (Store.evolves_newThunk (if b then t else e) henv₁).unfolds
    (hL₁.audited.sane.newThunk _ henv₁) fun _ _ h => memo_of_newThunk h
  have hpersists := hcontinues.unfolds.toPersists
  refine ⟨L₁, hL₁.trans hcontinues, _,
    .cond p (heval.mono hpersists hL₁.audited.sane.rooted henv₁ fun _ h => h)
      (hreaches.mono hpersists fun _ h => h) ho (thunkFor_newThunk σ₁ _ env), ?_⟩
  exact (hL₁.audited.fresh [.cell σ₁.cells.size] (by simp) (by simp [Item.In])
    (by simp [Item.In])).append hL₁.unfolds hfresh hcontinues

/-- The rules for evidence. -/
def evidenceRules : EvalRules where
  Fits σ env _ := σ.Auditable ∧ σ.HasEnv env
  Gives env e σ v σ' := Continued (fun L => Explains σ env e L σ' v) σ σ'
  Means env e σ o σ' := Continued (fun L => Supplies σ env e L σ' o) σ σ'
  Stops σ _ σ' := Continued (fun _ => True) σ σ'
  inner h := h
  needed h _ := h
  right h ho := by
    obtain ⟨⟨L, hL⟩, henv⟩ := h
    obtain ⟨L', hL', -⟩ := ho L hL
    exact ⟨⟨L', hL'.audited⟩, henv.mono hL'.unfolds.toPersists⟩
  onward ho hstop := ho.trans hstop
  literal _ := continued_refl fun L _ => ⟨[], .literal _ _, L.fresh_nil _ _⟩
  name _ hx := continued_refl fun L _ => ⟨[], .name _ hx, L.fresh_nil _ _⟩
  undefined _ _ := continued_refl fun _ _ => trivial
  paren h := h.imp fun _ _ hv => by
    obtain ⟨items, heval, hfresh⟩ := hv
    exact ⟨items, .paren _ heval, hfresh⟩
  arrow _ := explains_arrow _ _
  call h ho hc := explains_call h.2 ho hc
  unary h ho hc := explains_unary h.2 ho hc
  decided _ ho hop hdecisive := explains_decided ho hop hdecisive
  binary h ho hasks ho' hc := explains_binary h.2 ho hasks ho' hc
  cond h ho hb := explains_cond h.2 ho hb
  refused _ _ ho _ := ho.imp fun _ _ _ => trivial
  refusedRight _ ho ho' _ := ho.trans (ho'.imp fun _ _ _ => trivial)
  refusedBoth _ ho ho' _ := ho.trans (ho'.trans
    (continued_grow (Store.unfolds_note _ _) (fun h => h.noteCombined _ _ _) fun _ _ h => h))

/-- Evaluation can be accounted for, if forcing can. -/
theorem audits_eval {force : Value → Eval Object}
    (hforce : ∀ v σ, σ.Auditable → v.In σ →
      Audits (fun o σ' L => Reaches σ' L.known v o) (force v) σ)
    (hσ : σ.Auditable) (henv : σ.HasEnv env) (e : Expr) :
    Audits (fun v σ' L => Explains σ env e L σ' v) (eval force env e) σ := by
  refine evidenceRules.eval (fun {env e σ v σ₁} hfits hv => ?_) ⟨hσ, henv⟩
  obtain ⟨⟨L, hL⟩, henv⟩ := hfits
  obtain ⟨L₁, hL₁, items, heval, -⟩ := hv L hL
  have henv₁ := henv.mono hL₁.unfolds.toPersists
  have hin := heval.in hL₁.audited.sane.rooted henv₁
  refine (hforce v σ₁ ⟨L₁, hL₁.audited⟩ hin).imp (fun o σ₂ ho => ?_) fun _ _ hstop => hv.trans hstop
  -- forcing makes nothing that is not owned, so what was made for the value stays all there is
  intro L hL
  obtain ⟨L₁, hL₁, items, heval, hfresh⟩ := hv L hL
  obtain ⟨L₂, hL₂, hreaches⟩ := ho L₁ hL₁.audited
  exact ⟨L₂, hL₁.trans hL₂, v, items,
    heval.mono hL₂.unfolds.toPersists hL₁.audited.sane.rooted henv₁ hL₂.known, hreaches,
    hfresh.continue hL₂⟩

end

/-! ### Results -/

/-- A thunk has got its result, and with it owns what was made for it. -/
def Ledger.settle (L : Ledger) (a : CellId) (items : List Item) : Ledger :=
  ⟨fun i => if i ∈ items then some a else L.own i, a :: L.known⟩

/-- A ledger is continued with a new result. -/
theorem Ledger.Continues.settle {L L' : Ledger} {σ σ' : Store} {a : CellId} {v : Value}
    {items : List Item} (h : L.Continues L' σ σ') (ha : a < σ'.cells.size)
    (hmemo : (σ'.cell a).memo = none) (hbusy : (σ'.cell a).busy = true)
    (heval : Evaluates σ' L'.known (σ'.cell a).env (σ'.cell a).expr v items)
    (hfresh : L'.Fresh σ σ' items) : L.Continues (L'.settle a items) σ (σ'.settled a v) := by
  have hunfolds := Store.unfolds_settled hmemo v
  have hpersists := hunfolds.toPersists
  have hrooted := h.audited.sane.rooted
  have henv := Store.hasEnv_cell ha
  have hnew : a ∉ L'.known := by
    intro hknown
    obtain ⟨-, w, hw⟩ := h.audited.certified.memo hknown
    cases hmemo.symm.trans hw
  have hown : ∀ i b, L'.own i = some b → (L'.settle a items).own i = some b := by
    intro i b hi
    have hne : i ∉ items := fun hmem => by cases (hfresh.unowned i hmem).symm.trans hi
    exact (if_neg hne).trans hi
  have hresult : ((σ'.settled a v).cell a).memo = some v := by
    rw [Store.memo_settled ha, if_pos rfl]
  have hevidence := heval.mono hpersists hrooted henv fun _ h => h
  rw [← hpersists.expr a ha, ← hpersists.env a ha] at hevidence
  refine ⟨⟨?_, .cons (h.audited.certified.mono hrooted hpersists hown) hnew
    (ha.trans_le hpersists.size) hresult hevidence hfresh.nodup fun i hi => if_pos hi, ?_, ?_⟩,
    h.unfolds.trans hunfolds, ?_, ?_, ?_⟩
  · exact h.audited.sane.settled ha hmemo hbusy (heval.in hrooted henv)
  · -- the one new result is the one that was added to the ledger
    intro b w hw
    rw [Store.memo_settled ha] at hw
    split at hw
    · next hab => exact hab ▸ List.mem_cons_self
    · exact List.mem_cons_of_mem _ (h.audited.covers b w hw)
  · intro i b hi
    by_cases hmem : i ∈ items
    · cases (if_pos hmem).symm.trans hi
      exact ⟨(hfresh.isIn i hmem).mono hpersists, List.mem_cons_self⟩
    · obtain ⟨hin, hknown⟩ := h.audited.owned i b ((if_neg hmem).symm.trans hi)
      exact ⟨hin.mono hpersists, List.mem_cons_of_mem _ hknown⟩
  · -- nothing that was made for this thunk was there before
    intro i hi
    exact (if_neg fun hmem => hfresh.notIn i hmem hi).trans (h.own i hi)
  · exact fun b hb => List.mem_cons_of_mem _ (h.known b hb)
  · intro i b hi
    by_cases hmem : i ∈ items
    · cases (if_pos hmem).symm.trans hi
      exact .inr fun hknown => hnew (h.known a hknown)
    · exact h.fresh i b ((if_neg hmem).symm.trans hi)

section

variable {σ : Store}

/-- Following a thunk can be accounted for, if evaluation can. -/
theorem audits_step {eval : Env → Expr → Eval Value} (hlawful : LawfulEval eval)
    (heval : ∀ env e σ, σ.Auditable → σ.HasEnv env →
      Audits (fun v σ' L => Explains σ env e L σ' v) (eval env e) σ)
    (hσ : σ.Auditable) {a : CellId} (ha : a < σ.cells.size) :
    Audits (fun v σ' L => a ∈ L.known ∧ (σ'.cell a).memo = some v) (step eval a) σ := by
  cases hmemo : (σ.cell a).memo with
  | some v =>
    exact ends_of_ok (step_of_memo hmemo) (continued_refl fun L hL => ⟨hL.covers a v hmemo, hmemo⟩)
  | none =>
    cases hbusy : (σ.cell a).busy with
    | true => exact ends_of_error (step_of_busy hmemo hbusy) (continued_refl fun _ _ => trivial)
    | false =>
      have hmark : ∀ L : Ledger, L.Audited σ → L.Continues L σ (σ.marked a) := fun L hL =>
        hL.grow (σ.unfolds_marked a) (hL.sane.marked ha hmemo hbusy)
          fun b v hv => by rwa [Store.memo_marked] at hv
      obtain ⟨L₀, hL₀⟩ := hσ
      have hmarked := (hmark L₀ hL₀).audited
      have henv := (Store.hasEnv_cell ha).mono (hmark L₀ hL₀).unfolds.toPersists
      have haudits := heval (σ.cell a).env (σ.cell a).expr _ ⟨L₀, hmarked⟩ henv
      cases heq : eval (σ.cell a).env (σ.cell a).expr (σ.marked a) with
      | error stop σ' =>
        -- the thunk is released; what was made for it stays without an owner
        have hevolves := (hlawful.error hmarked.sane henv heq).2
        obtain ⟨hlt, hmemo', hbusy'⟩ := hevolves.extension.marked ha hmemo
        refine ends_of_error (step_of_error hmemo hbusy heq) fun L hL => ?_
        obtain ⟨L', hL', -⟩ := haudits.error heq L (hmark L hL).audited
        have hrelease := hL'.audited.grow (σ'.unfolds_released a)
          (hL'.audited.sane.released hlt hmemo' hbusy') fun b v hv => by
            rwa [Store.memo_released] at hv
        exact ⟨L', ((hmark L hL).trans hL').trans hrelease, trivial⟩
      | ok v σ' =>
        have hevolves := (hlawful.ok hmarked.sane henv heq).2.1
        obtain ⟨hlt, hmemo', hbusy'⟩ := hevolves.extension.marked ha hmemo
        refine ends_of_ok (step_of_ok hlawful hL₀.sane ha hmemo hbusy heq) fun L hL => ?_
        -- from now on the thunk owns what was made for it
        obtain ⟨L', hL', items, hv, hfresh⟩ := haudits.ok heq L (hmark L hL).audited
        have hpersists := (hmark L hL).unfolds.toPersists.trans hL'.unfolds.toPersists
        rw [← hpersists.expr a ha, ← hpersists.env a ha] at hv
        have hsettle := hL'.settle hlt hmemo' hbusy' hv hfresh
        exact ⟨_, (hmark L hL).trans hsettle, List.mem_cons_self, by
          rw [Store.memo_settled hlt, if_pos rfl]⟩

/-- Forcing can be accounted for: it leads to an object by results that are known from then on. -/
theorem audits_force (fuel depth : ℕ) {v : Value} (hσ : σ.Auditable) (hv : v.In σ) :
    Audits (fun o σ' L => Reaches σ' L.known v o) (force fuel depth v) σ := by
  induction fuel generalizing depth v σ with
  | zero =>
    cases v with
    | object o => exact ends_of_ok rfl (continued_refl fun _ _ => .object o)
    | thunk a => exact ends_of_error rfl (continued_refl fun _ _ => trivial)
  | succ fuel ih =>
    cases v with
    | object o => exact ends_of_ok rfl (continued_refl fun _ _ => .object o)
    | thunk a =>
      cases depth with
      | zero => exact ends_of_error rfl (continued_refl fun _ _ => trivial)
      | succ depth =>
        rw [force, forceWith_thunk]
        -- the thunk gets its result one level deeper, and then the result is forced in its place
        have hstep := audits_step (lawfulEval_force fuel depth)
          (fun env e σ hσ henv => audits_eval (fun v σ hσ hv => ih depth hσ hv) hσ henv e) hσ hv
        refine Ends.bind hstep fun w σ' hw => ?_
        obtain ⟨L, hL⟩ := hσ
        obtain ⟨L', hL', -, hmemo⟩ := hw L hL
        have hin := hL'.audited.sane.rooted.memo a w hmemo
        refine (ih (depth + 1) ⟨L', hL'.audited⟩ hin).imp (fun o σ'' ho => ?_)
          fun _ _ hstop => hw.trans hstop
        intro L hL
        obtain ⟨L₁, hL₁, hknown, hmemo⟩ := hw L hL
        obtain ⟨L₂, hL₂, hreaches⟩ := ho L₁ hL₁.audited
        exact ⟨L₂, hL₁.trans hL₂,
          .thunk (hL₂.known a hknown) (hL₂.unfolds.memo a w hmemo) hreaches⟩

/-- Evaluation can be accounted for, within any limits. -/
theorem Limits.audits_eval (limits : Limits) (hσ : σ.Auditable) {env : Env} (henv : σ.HasEnv env)
    (e : Expr) : Audits (fun v σ' L => Explains σ env e L σ' v) (limits.eval env e) σ :=
  CallByNeed.audits_eval (fun _ _ hσ hv => audits_force limits.fuel limits.depth hσ hv) hσ henv e

/-- Following a thunk can be accounted for, within any limits. -/
theorem Limits.audits_step (limits : Limits) (hσ : σ.Auditable) {a : CellId}
    (ha : a < σ.cells.size) :
    Audits (fun v σ' L => a ∈ L.known ∧ (σ'.cell a).memo = some v) (step limits.eval a) σ :=
  CallByNeed.audits_step (lawfulEval_force limits.fuel limits.depth)
    (fun _ e _ hσ henv => limits.audits_eval hσ henv e) hσ ha

end

end CallByNeed
