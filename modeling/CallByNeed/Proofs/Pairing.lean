import CallByNeed.Proofs.Evidence

/-!
# A run ahead of another one

Two runs of the same program need not have the same store: one of them may be *ahead*, because it
has evaluated more thunks than the other one, which is *behind*. A `Pairing` says which thunks,
environments and functions of the one store correspond to which of the other. In stores that follow
each other (`Trails`) all that is paired looks the same, and the store ahead has a result wherever
the one behind has one. There may be more results in the store ahead; a ledger has evidence for
these (`Leads`).

The two programs may even differ: they may have different expressions in holes (`Swaps`).

The relations are kept as thunks, frames and functions are added to both stores, and as thunks that
correspond are marked and get their results.
-/

namespace CallByNeed

/-! ## Expressions with holes -/

/-- Two expressions are the same, except that they may have different expressions in the holes that
`H` allows. -/
inductive Swaps (H : Expr → Expr → Prop) : Expr → Expr → Prop where
  | hole {e e' : Expr} : H e e' → Swaps H e e'
  | literal (c : Constant) (p : Option Location) : Swaps H (.literal c p) (.literal c p)
  | name (x : String) (p : Option Location) : Swaps H (.name x p) (.name x p)
  | paren {e e' : Expr} (p : Option Location) : Swaps H e e' → Swaps H (.paren e p) (.paren e' p)
  | arrow (x : String) {e e' : Expr} (p : Option Location) : Swaps H e e' →
      Swaps H (.arrow x e p) (.arrow x e' p)
  | call {f f' a a' : Expr} (p : Option Location) : Swaps H f f' → Swaps H a a' →
      Swaps H (.call f a p) (.call f' a' p)
  | unary (op : UnaryOp) {e e' : Expr} (p : Option Location) : Swaps H e e' →
      Swaps H (.unary op e p) (.unary op e' p)
  | binary (op : BinaryOp) {l l' r r' : Expr} (p : Option Location) : Swaps H l l' →
      Swaps H r r' → Swaps H (.binary op l r p) (.binary op l' r' p)
  | cond {c c' t t' e e' : Expr} (p : Option Location) : Swaps H c c' → Swaps H t t' →
      Swaps H e e' → Swaps H (.cond c t e p) (.cond c' t' e' p)

/-- An expression is the same as itself, whatever the holes are. -/
theorem Swaps.refl {H : Expr → Expr → Prop} (e : Expr) : Swaps H e e := by
  induction e with
  | literal c p => exact .literal c p
  | name x p => exact .name x p
  | paren e p ih => exact .paren p ih
  | arrow x e p ih => exact .arrow x p ih
  | call f a p ihf iha => exact .call p ihf iha
  | unary op e p ih => exact .unary op p ih
  | binary op l r p ihl ihr => exact .binary op p ihl ihr
  | cond c t e p ihc iht ihe => exact .cond p ihc iht ihe

/-! ## Pairings -/

/-- What of one store corresponds to what of another. -/
structure Pairing where
  /-- The thunks that correspond. -/
  cell : CellId → CellId → Prop
  /-- The environments that correspond. -/
  env : Env → Env → Prop
  /-- The functions that correspond, by the numbers of their objects. -/
  made : ℕ → ℕ → Prop

namespace Pairing

/-- The thunks or functions that correspond. -/
inductive Items (P : Pairing) : Item → Item → Prop where
  | cell {a b : CellId} : P.cell a b → P.Items (.cell a) (.cell b)
  | object {m n : ℕ} : P.made m n → P.Items (.object m) (.object n)

/-- Two objects hold the same, or they are functions that correspond. -/
inductive Objects (P : Pairing) (H : Expr → Expr → Prop) : Object → Object → Prop where
  | plain (i j : Identity) {c : Content} : c.isFunction = false → P.Objects H ⟨i, c⟩ ⟨j, c⟩
  | function {m n : ℕ} (x : String) {body body' : Expr} {env env' : Env} : P.made m n →
      Swaps H body body' → P.env env env' →
      P.Objects H ⟨.made m, .function x body env⟩ ⟨.made n, .function x body' env'⟩

/-- Two values correspond. -/
inductive Values (P : Pairing) (H : Expr → Expr → Prop) : Value → Value → Prop where
  | object {o o' : Object} : P.Objects H o o' → P.Values H (.object o) (.object o')
  | thunk {a b : CellId} : P.cell a b → P.Values H (.thunk a) (.thunk b)

/-- More corresponds. -/
structure Grows (P Q : Pairing) : Prop where
  cell : ∀ a b, P.cell a b → Q.cell a b
  env : ∀ env env', P.env env env' → Q.env env env'
  made : ∀ m n, P.made m n → Q.made m n

/-- One more pair of thunks. -/
def addCell (P : Pairing) (a b : CellId) : Pairing :=
  { P with cell := fun c d => P.cell c d ∨ c = a ∧ d = b }

/-- One more pair of environments. -/
def addEnv (P : Pairing) (inner inner' : Env) : Pairing :=
  { P with env := fun env env' => P.env env env' ∨ env = inner ∧ env' = inner' }

/-- One more pair of functions. -/
def addMade (P : Pairing) (m n : ℕ) : Pairing :=
  { P with made := fun k l => P.made k l ∨ k = m ∧ l = n }

section

variable {P Q : Pairing} {H : Expr → Expr → Prop}

/-- What is paired is paired. -/
theorem Grows.refl (P : Pairing) : P.Grows P :=
  ⟨fun _ _ h => h, fun _ _ h => h, fun _ _ h => h⟩

/-- A pairing grows step by step. -/
theorem Grows.trans {R : Pairing} (h : P.Grows Q) (h' : Q.Grows R) : P.Grows R :=
  ⟨fun a b hab => h'.cell a b (h.cell a b hab), fun e e' he => h'.env e e' (h.env e e' he),
    fun m n hmn => h'.made m n (h.made m n hmn)⟩

/-- A pairing grows by two thunks. -/
theorem grows_addCell (P : Pairing) (a b : CellId) : P.Grows (P.addCell a b) :=
  ⟨fun _ _ => .inl, fun _ _ h => h, fun _ _ h => h⟩

/-- A pairing grows by two environments. -/
theorem grows_addEnv (P : Pairing) (inner inner' : Env) : P.Grows (P.addEnv inner inner') :=
  ⟨fun _ _ h => h, fun _ _ => .inl, fun _ _ h => h⟩

/-- A pairing grows by two objects. -/
theorem grows_addMade (P : Pairing) (m n : ℕ) : P.Grows (P.addMade m n) :=
  ⟨fun _ _ h => h, fun _ _ h => h, fun _ _ => .inl⟩

/-- Objects that correspond still do when more is paired. -/
theorem Objects.mono (h : P.Grows Q) {o o' : Object} (ho : P.Objects H o o') :
    Q.Objects H o o' := by
  cases ho with
  | plain i j hc => exact .plain i j hc
  | function x hmade hbody henv => exact .function x (h.made _ _ hmade) hbody (h.env _ _ henv)

/-- Values that correspond still do when more is paired. -/
theorem Values.mono (h : P.Grows Q) {v w : Value} (hv : P.Values H v w) : Q.Values H v w := by
  cases hv with
  | object ho => exact .object (ho.mono h)
  | thunk hab => exact .thunk (h.cell _ _ hab)

/-- Objects that correspond are the same, or both are functions. -/
theorem Objects.similar {o o' : Object} (h : P.Objects H o o') :
    o.content.Similar o'.content := by
  cases h with
  | plain => exact .same _
  | function => exact .functions _ _ _ _ _ _

/-- Objects that are not functions correspond only if they hold the same. -/
theorem Objects.content_eq {o o' : Object} (h : P.Objects H o o')
    (ho : o.content.isFunction = false) : o'.content = o.content := by
  cases h with
  | plain => rfl
  | function => cases ho

end

end Pairing

/-! ## A run ahead of another one -/

/-- All that corresponds looks the same, and wherever the second store has a result, the first one
has it too. -/
structure Trails (H : Expr → Expr → Prop) (P : Pairing) (σ τ : Store) : Prop where
  ahead : σ.Sane
  behind : τ.Sane
  /-- The top levels correspond. -/
  global : P.env .global .global
  hasEnv : ∀ {env env'}, P.env env env' → σ.HasEnv env ∧ τ.HasEnv env'
  /-- Names stand for values that correspond. -/
  lookup : ∀ {env env'}, P.env env env' → ∀ x,
    Option.Rel (P.Values H) (σ.lookup env x) (τ.lookup env' x)
  lt : ∀ {a b}, P.cell a b → a < σ.cells.size ∧ b < τ.cells.size
  expr : ∀ {a b}, P.cell a b → Swaps H (σ.cell a).expr (τ.cell b).expr
  env : ∀ {a b}, P.cell a b → P.env (σ.cell a).env (τ.cell b).env
  memo : ∀ {a b}, P.cell a b → ∀ w, (τ.cell b).memo = some w →
    ∃ v, (σ.cell a).memo = some v ∧ P.Values H v w
  /-- No thunk corresponds to two others. -/
  cell_iff : ∀ {a b c d}, P.cell a b → P.cell c d → (a = c ↔ b = d)
  made_lt : ∀ {m n}, P.made m n → m < σ.made ∧ n < τ.made
  /-- No function corresponds to two others. -/
  made_iff : ∀ {m n k l}, P.made m n → P.made k l → (m = k ↔ n = l)

/-- A relation between results that there may be can be weakened. -/
theorem optionRel_imp {α β : Type} {R S : α → β → Prop} (h : ∀ a b, R a b → S a b)
    {x : Option α} {y : Option β} (hxy : Option.Rel R x y) : Option.Rel S x y := by
  cases hxy with
  | some hab => exact .some (h _ _ hab)
  | none => exact .none

namespace Trails

variable {H : Expr → Expr → Prop} {P : Pairing} {σ σ' τ τ' : Store}

/-- The relation is kept as both stores grow, if new results of the second store are results of the
first one. -/
theorem grow (h : Trails H P σ τ) (hσ : σ.Unfolds σ') (hσ' : σ'.Sane) (hτ : τ.Unfolds τ')
    (hτ' : τ'.Sane) (hmemo : ∀ {a b}, P.cell a b → ∀ w, (τ'.cell b).memo = some w →
      ∃ v, (σ'.cell a).memo = some v ∧ P.Values H v w) : Trails H P σ' τ' where
  ahead := hσ'
  behind := hτ'
  global := h.global
  hasEnv he := ⟨(h.hasEnv he).1.mono hσ.toPersists, (h.hasEnv he).2.mono hτ.toPersists⟩
  lookup he x := by
    rw [hσ.lookup h.ahead.rooted (h.hasEnv he).1, hτ.lookup h.behind.rooted (h.hasEnv he).2]
    exact h.lookup he x
  lt hab := ⟨(h.lt hab).1.trans_le hσ.size, (h.lt hab).2.trans_le hτ.size⟩
  expr hab := by
    rw [hσ.expr _ (h.lt hab).1, hτ.expr _ (h.lt hab).2]
    exact h.expr hab
  env hab := by
    rw [hσ.env _ (h.lt hab).1, hτ.env _ (h.lt hab).2]
    exact h.env hab
  memo := hmemo
  cell_iff := h.cell_iff
  made_lt hmn := ⟨(h.made_lt hmn).1.trans_le hσ.made, (h.made_lt hmn).2.trans_le hτ.made⟩
  made_iff := h.made_iff

/-- The relation is kept as both stores grow, if the second one gets no new results. -/
theorem grow_of_memo (h : Trails H P σ τ) (hσ : σ.Unfolds σ') (hσ' : σ'.Sane)
    (hτ : τ.Unfolds τ') (hτ' : τ'.Sane)
    (hmemo : ∀ b w, (τ'.cell b).memo = some w → (τ.cell b).memo = some w) :
    Trails H P σ' τ' := by
  refine h.grow hσ hσ' hτ hτ' fun hab w hw => ?_
  obtain ⟨v, hv, hvw⟩ := h.memo hab w (hmemo _ w hw)
  exact ⟨v, hσ.memo _ v hv, hvw⟩

/-- Two thunks may be paired, if neither of them is paired yet. -/
theorem addCell (h : Trails H P σ τ) {a b : CellId} (ha : a < σ.cells.size)
    (hb : b < τ.cells.size) (hexpr : Swaps H (σ.cell a).expr (τ.cell b).expr)
    (henv : P.env (σ.cell a).env (τ.cell b).env) (hmemo : (τ.cell b).memo = none)
    (hnew : ∀ d, ¬P.cell a d) (hnew' : ∀ c, ¬P.cell c b) : Trails H (P.addCell a b) σ τ where
  ahead := h.ahead
  behind := h.behind
  global := h.global
  hasEnv := h.hasEnv
  lookup he x := optionRel_imp (fun _ _ => .mono (P.grows_addCell a b)) (h.lookup he x)
  lt hcd := by
    rcases hcd with hcd | ⟨rfl, rfl⟩
    · exact h.lt hcd
    · exact ⟨ha, hb⟩
  expr hcd := by
    rcases hcd with hcd | ⟨rfl, rfl⟩
    · exact h.expr hcd
    · exact hexpr
  env hcd := by
    rcases hcd with hcd | ⟨rfl, rfl⟩
    · exact h.env hcd
    · exact henv
  memo hcd w hw := by
    rcases hcd with hcd | ⟨rfl, rfl⟩
    · obtain ⟨v, hv, hvw⟩ := h.memo hcd w hw
      exact ⟨v, hv, hvw.mono (P.grows_addCell a b)⟩
    · cases hmemo.symm.trans hw
  cell_iff hcd hcd' := by
    rcases hcd with hcd | ⟨rfl, rfl⟩ <;> rcases hcd' with hcd' | ⟨rfl, rfl⟩
    · exact h.cell_iff hcd hcd'
    -- an old pair and the new one have nothing in common
    · exact ⟨fun heq => absurd (heq ▸ hcd) (hnew _), fun heq => absurd (heq ▸ hcd) (hnew' _)⟩
    · exact ⟨fun heq => absurd (heq ▸ hcd') (hnew _), fun heq => absurd (heq ▸ hcd') (hnew' _)⟩
    · exact iff_of_true rfl rfl
  made_lt := h.made_lt
  made_iff := h.made_iff

/-- Two functions may be paired, if neither of them is paired yet. -/
theorem addMade (h : Trails H P σ τ) {m n : ℕ} (hm : m < σ.made) (hn : n < τ.made)
    (hnew : ∀ l, ¬P.made m l) (hnew' : ∀ k, ¬P.made k n) : Trails H (P.addMade m n) σ τ where
  ahead := h.ahead
  behind := h.behind
  global := h.global
  hasEnv := h.hasEnv
  lookup he x := optionRel_imp (fun _ _ => .mono (P.grows_addMade m n)) (h.lookup he x)
  lt := h.lt
  expr := h.expr
  env := h.env
  memo hab w hw := by
    obtain ⟨v, hv, hvw⟩ := h.memo hab w hw
    exact ⟨v, hv, hvw.mono (P.grows_addMade m n)⟩
  cell_iff := h.cell_iff
  made_lt hkl := by
    rcases hkl with hkl | ⟨rfl, rfl⟩
    · exact h.made_lt hkl
    · exact ⟨hm, hn⟩
  made_iff hkl hkl' := by
    rcases hkl with hkl | ⟨rfl, rfl⟩ <;> rcases hkl' with hkl' | ⟨rfl, rfl⟩
    · exact h.made_iff hkl hkl'
    · exact ⟨fun heq => absurd (heq ▸ hkl) (hnew _), fun heq => absurd (heq ▸ hkl) (hnew' _)⟩
    · exact ⟨fun heq => absurd (heq ▸ hkl') (hnew _), fun heq => absurd (heq ▸ hkl') (hnew' _)⟩
    · exact iff_of_true rfl rfl

/-- Two environments may be paired, if names stand for the same in them. -/
theorem addEnv (h : Trails H P σ τ) {inner inner' : Env} (hinner : σ.HasEnv inner)
    (hinner' : τ.HasEnv inner') (hlookup : ∀ x, Option.Rel (P.Values H) (σ.lookup inner x)
      (τ.lookup inner' x)) : Trails H (P.addEnv inner inner') σ τ where
  ahead := h.ahead
  behind := h.behind
  global := .inl h.global
  hasEnv he := by
    rcases he with he | ⟨rfl, rfl⟩
    · exact h.hasEnv he
    · exact ⟨hinner, hinner'⟩
  lookup he x := by
    refine optionRel_imp (fun _ _ => .mono (P.grows_addEnv inner inner')) ?_
    rcases he with he | ⟨rfl, rfl⟩
    · exact h.lookup he x
    · exact hlookup x
  lt := h.lt
  expr := h.expr
  env hab := .inl (h.env hab)
  memo hab w hw := by
    obtain ⟨v, hv, hvw⟩ := h.memo hab w hw
    exact ⟨v, hv, hvw.mono (P.grows_addEnv inner inner')⟩
  cell_iff := h.cell_iff
  made_lt := h.made_lt
  made_iff := h.made_iff

/-- Operators give the same for objects that correspond. -/
theorem combine_eq (h : Trails H P σ τ) {l l' r r' : Object} (hl : P.Objects H l l')
    (hr : P.Objects H r r') (op : BinaryOp) : op.combine l r = op.combine l' r' := by
  refine BinaryOp.combine_congr hl.similar hr.similar fun _ hleft hright => ?_
  -- only functions are told apart by their identities, and these are paired
  cases hl with
  | plain i j hc => cases hc.symm.trans hleft
  | function x hmade =>
    cases hr with
    | plain i j hc => cases hc.symm.trans hright
    | function y hmade' =>
      have hiff := h.made_iff hmade hmade'
      exact ⟨fun heq => congrArg Identity.made (hiff.1 (Identity.made.inj heq)),
        fun heq => congrArg Identity.made (hiff.2 (Identity.made.inj heq))⟩

end Trails

/-- The first store is ahead of the second one, and its ledger has evidence for every result that
only the first store has. -/
structure Leads (H : Expr → Expr → Prop) (L : Ledger) (P : Pairing) (σ τ : Store) : Prop
    extends Trails H P σ τ where
  certified : Certified σ L.own L.known
  owned : ∀ i c, L.own i = some c → i.In σ ∧ c ∈ L.known
  /-- The same thunks are marked in both stores. -/
  busy : ∀ {a b}, P.cell a b → (σ.cell a).busy = (τ.cell b).busy
  paired : ∀ a, (σ.cell a).busy = true → ∃ b, P.cell a b
  /-- What is owned is paired only after its owner has got its result in both stores. -/
  taken : ∀ {i j c}, P.Items i j → L.own i = some c →
    ∃ d w, P.cell c d ∧ (τ.cell d).memo = some w
  /-- Other results than those in the ledger are in both stores. -/
  late : ∀ a v, (σ.cell a).memo = some v →
    a ∈ L.known ∨ ∃ b w, P.cell a b ∧ (τ.cell b).memo = some w

namespace Leads

variable {H : Expr → Expr → Prop} {L : Ledger} {P : Pairing} {σ σ' τ τ' : Store}

/-- The relation is kept as both stores grow, if marks and results are those of thunks that
correspond. -/
theorem change (h : Leads H L P σ τ) (hσ : σ.Unfolds σ') (hσ' : σ'.Sane) (hτ : τ.Unfolds τ')
    (hτ' : τ'.Sane) (hmemo : ∀ {a b}, P.cell a b → ∀ w, (τ'.cell b).memo = some w →
      ∃ v, (σ'.cell a).memo = some v ∧ P.Values H v w)
    (hlate : ∀ a v, (σ'.cell a).memo = some v → (σ.cell a).memo = some v ∨
      ∃ b w, P.cell a b ∧ (τ'.cell b).memo = some w)
    (hbusy : ∀ {a b}, P.cell a b → (σ'.cell a).busy = (τ'.cell b).busy)
    (hpaired : ∀ a, (σ'.cell a).busy = true → ∃ b, P.cell a b) : Leads H L P σ' τ' where
  toTrails := h.toTrails.grow hσ hσ' hτ hτ' hmemo
  certified := h.certified.mono h.ahead.rooted hσ.toPersists fun _ _ h => h
  owned i c hi := ⟨(h.owned i c hi).1.mono hσ.toPersists, (h.owned i c hi).2⟩
  busy := hbusy
  paired := hpaired
  taken hij hi := by
    obtain ⟨d, w, hd, hw⟩ := h.taken hij hi
    exact ⟨d, w, hd, hτ.memo d w hw⟩
  late a v hv := by
    rcases hlate a v hv with hv | hpair
    · refine (h.late a v hv).imp_right ?_
      rintro ⟨b, w, hab, hw⟩
      exact ⟨b, w, hab, hτ.memo b w hw⟩
    · exact .inr hpair

/-- The relation is kept as both stores grow, if neither gets new results. -/
theorem grow (h : Leads H L P σ τ) (hσ : σ.Evolves σ') (hσ' : σ'.Sane) (hτ : τ.Evolves τ')
    (hτ' : τ'.Sane) (hmemo : ∀ a v, (σ'.cell a).memo = some v → (σ.cell a).memo = some v)
    (hmemo' : ∀ b w, (τ'.cell b).memo = some w → (τ.cell b).memo = some w) :
    Leads H L P σ' τ' := by
  refine h.change hσ.unfolds hσ' hτ.unfolds hτ'
    (h.toTrails.grow_of_memo hσ.unfolds hσ' hτ.unfolds hτ' hmemo').memo
    (fun a v hv => .inl (hmemo a v hv)) ?_ ?_
  · intro a b hab
    rw [hσ.extension.busy, hτ.extension.busy]
    exact h.busy hab
  · exact fun a ha => h.paired a ((hσ.extension.busy a).symm.trans ha)

/-- New thunks may be paired. -/
theorem addCell (h : Leads H L P σ τ) {a b : CellId} (ha : a < σ.cells.size)
    (hb : b < τ.cells.size) (hexpr : Swaps H (σ.cell a).expr (τ.cell b).expr)
    (henv : P.env (σ.cell a).env (τ.cell b).env) (hmemo : (τ.cell b).memo = none)
    (hbusy : (σ.cell a).busy = (τ.cell b).busy) (hnew : ∀ d, ¬P.cell a d)
    (hnew' : ∀ c, ¬P.cell c b) (hown : L.own (.cell a) = none) :
    Leads H L (P.addCell a b) σ τ where
  toTrails := h.toTrails.addCell ha hb hexpr henv hmemo hnew hnew'
  certified := h.certified
  owned := h.owned
  busy hcd := by
    rcases hcd with hcd | ⟨rfl, rfl⟩
    · exact h.busy hcd
    · exact hbusy
  paired c hc := by
    obtain ⟨d, hcd⟩ := h.paired c hc
    exact ⟨d, .inl hcd⟩
  taken hij hi := by
    obtain ⟨d, w, hd, hw⟩ : ∃ d w, P.cell _ d ∧ (τ.cell d).memo = some w := by
      cases hij with
      | cell hab =>
        rcases hab with hab | ⟨rfl, rfl⟩
        · exact h.taken (.cell hab) hi
        · cases hown.symm.trans hi
      | object hmn => exact h.taken (.object hmn) hi
    exact ⟨d, w, .inl hd, hw⟩
  late c v hv := by
    refine (h.late c v hv).imp_right ?_
    rintro ⟨d, w, hcd, hw⟩
    exact ⟨d, w, .inl hcd, hw⟩

/-- New functions may be paired. -/
theorem addMade (h : Leads H L P σ τ) {m n : ℕ} (hm : m < σ.made) (hn : n < τ.made)
    (hnew : ∀ l, ¬P.made m l) (hnew' : ∀ k, ¬P.made k n) (hown : L.own (.object m) = none) :
    Leads H L (P.addMade m n) σ τ where
  toTrails := h.toTrails.addMade hm hn hnew hnew'
  certified := h.certified
  owned := h.owned
  busy := h.busy
  paired := h.paired
  taken hij hi := by
    cases hij with
    | cell hab => exact h.taken (.cell hab) hi
    | object hmn =>
      rcases hmn with hmn | ⟨rfl, rfl⟩
      · exact h.taken (.object hmn) hi
      · cases hown.symm.trans hi
  late := h.late

/-- Two environments may be paired, if names stand for values that correspond in both. -/
theorem addEnv (h : Leads H L P σ τ) {inner inner' : Env} (hinner : σ.HasEnv inner)
    (hinner' : τ.HasEnv inner') (hlookup : ∀ x, Option.Rel (P.Values H) (σ.lookup inner x)
      (τ.lookup inner' x)) : Leads H L (P.addEnv inner inner') σ τ where
  toTrails := h.toTrails.addEnv hinner hinner' hlookup
  certified := h.certified
  owned := h.owned
  busy := h.busy
  paired := h.paired
  taken hij hi := by
    cases hij with
    | cell hab => exact h.taken (.cell hab) hi
    | object hmn => exact h.taken (.object hmn) hi
  late := h.late

/-- What is not in the store is not owned. -/
theorem unowned (h : Leads H L P σ τ) {i : Item} (hi : ¬i.In σ) : L.own i = none := by
  rw [Option.eq_none_iff_forall_ne_some]
  exact fun c hc => hi (h.owned i c hc).1

/-! ### What evaluation adds to the stores -/

/-- Both runs may make an object. -/
theorem newObject (h : Leads H L P σ τ) (c c' : Content) :
    Leads H L P (σ.newObject c).2 (τ.newObject c').2 :=
  h.grow (σ.evolves_newObject c) (h.ahead.newObject c) (τ.evolves_newObject c')
    (h.behind.newObject c') (fun _ _ h => h) fun _ _ h => h

/-- Both runs may note that an operator was applied. -/
theorem noteCombined (h : Leads H L P σ τ) (op : BinaryOp) (l l' r r' : Object) :
    Leads H L P (σ.note (.combined op l r)) (τ.note (.combined op l' r')) :=
  h.grow (σ.evolves_note _) (h.ahead.noteCombined op l r) (τ.evolves_note _)
    (h.behind.noteCombined op l' r') (fun _ _ h => h) fun _ _ h => h

/-- Functions that are made at the same time correspond. -/
theorem newFunction (h : Leads H L P σ τ) (c c' : Content) :
    Leads H L (P.addMade σ.made τ.made) (σ.newObject c).2 (τ.newObject c').2 :=
  (h.newObject c c').addMade (Nat.lt_succ_self _) (Nat.lt_succ_self _)
    (fun _ hmn => Nat.lt_irrefl _ (h.made_lt hmn).1)
    (fun _ hmn => Nat.lt_irrefl _ (h.made_lt hmn).2) (h.unowned (Nat.lt_irrefl _))

/-- Thunks that are made at the same time correspond. -/
theorem newThunk (h : Leads H L P σ τ) {e e' : Expr} (he : Swaps H e e') {env env' : Env}
    (henv : P.env env env') :
    Leads H L (P.addCell σ.cells.size τ.cells.size) (σ.newThunk e env).2
      (τ.newThunk e' env').2 := by
  obtain ⟨hhas, hhas'⟩ := h.hasEnv henv
  have hgrow := h.grow (Store.evolves_newThunk e hhas) (h.ahead.newThunk e hhas)
    (Store.evolves_newThunk e' hhas') (h.behind.newThunk e' hhas') (fun _ _ => memo_of_newThunk)
    fun _ _ => memo_of_newThunk
  refine hgrow.addCell (by simp) (by simp) ?_ ?_ ?_ ?_
    (fun _ hcd => Nat.lt_irrefl _ (h.lt hcd).1) (fun _ hcd => Nat.lt_irrefl _ (h.lt hcd).2)
    (h.unowned (Nat.lt_irrefl _))
  all_goals rw [Store.cell_newThunk_self]
  · rwa [Store.cell_newThunk_self]
  · rwa [Store.cell_newThunk_self]
  · rw [Store.cell_newThunk_self]

end Leads

/-- Parameters are looked up alike in frames that bind them to thunks that correspond. -/
theorem Trails.lookup_inner {H : Expr → Expr → Prop} {P : Pairing} {σ τ : Store}
    (h : Trails H P σ τ) {env env' : Env} (henv : P.env env env') {a b : CellId}
    (hab : P.cell a b) {f g : FrameId} {x : String} (hf : σ.frame f = [(x, .thunk a)])
    (hg : τ.frame g = [(x, .thunk b)]) (y : String) :
    Option.Rel (P.Values H) (σ.lookup (env.inner f) y) (τ.lookup (env'.inner g) y) := by
  rw [Store.lookup_inner hf, Store.lookup_inner hg]
  by_cases hy : (y == x) = true
  · rw [if_pos hy, if_pos hy]
    exact .some (.thunk hab)
  · rw [if_neg hy, if_neg hy]
    exact h.lookup henv y

namespace Leads

variable {H : Expr → Expr → Prop} {L : Ledger} {P : Pairing} {σ τ : Store} {a b : CellId}

/-- Frames that are added for calls of functions that correspond give environments that
correspond. -/
theorem extendFrame (h : Leads H L P σ τ) {closure closure' : Env}
    (hclosure : P.env closure closure') (x : String) (hab : P.cell a b) {body body' : Expr}
    (hbody : Swaps H body body') :
    Leads H L ((P.addEnv (closure.inner σ.frames.size) (closure'.inner τ.frames.size)).addCell
      σ.cells.size τ.cells.size) (σ.extendFrame closure x a body)
      (τ.extendFrame closure' x b body') := by
  obtain ⟨hhas, hhas'⟩ := h.hasEnv hclosure
  obtain ⟨hlt, hlt'⟩ := h.lt hab
  have hgrow := h.grow (Store.evolves_extendFrame h.ahead.rooted closure x a body)
    (h.ahead.extendFrame hhas x hlt body)
    (Store.evolves_extendFrame h.behind.rooted closure' x b body')
    (h.behind.extendFrame hhas' x hlt' body') (fun _ _ => memo_of_extendFrame)
    fun _ _ => memo_of_extendFrame
  have hcell := Store.cell_newThunk_self (σ.newFrame [(x, .thunk a)]).2 body
    (closure.inner σ.frames.size)
  have hcell' := Store.cell_newThunk_self (τ.newFrame [(x, .thunk b)]).2 body'
    (closure'.inner τ.frames.size)
  -- the environments are paired before the thunks that are to be evaluated in them
  have henv := hgrow.addEnv ((Store.hasEnv_extendFrame x a body closure _).2 (.inr rfl))
    ((Store.hasEnv_extendFrame x b body' closure' _).2 (.inr rfl))
    (hgrow.toTrails.lookup_inner hclosure hab
      ((Store.frame_extendFrame x a body closure _).trans (if_pos rfl))
      ((Store.frame_extendFrame x b body' closure' _).trans (if_pos rfl)))
  refine henv.addCell (thunkFor_extendFrame σ closure x a body).lt
    (thunkFor_extendFrame τ closure' x b body').lt ?_ ?_ ?_ ?_
    (fun _ hcd => Nat.lt_irrefl _ (h.lt hcd).1) (fun _ hcd => Nat.lt_irrefl _ (h.lt hcd).2)
    (h.unowned (Nat.lt_irrefl _))
  · rw [(thunkFor_extendFrame σ closure x a body).expr,
      (thunkFor_extendFrame τ closure' x b body').expr]
    exact hbody
  · rw [(thunkFor_extendFrame σ closure x a body).env,
      (thunkFor_extendFrame τ closure' x b body').env]
    exact .inr ⟨rfl, rfl⟩
  · exact congrArg Cell.memo hcell'
  · exact (congrArg Cell.busy hcell).trans (congrArg Cell.busy hcell').symm

/-- Thunks that correspond may be marked in both stores. -/
theorem marked (h : Leads H L P σ τ) (hab : P.cell a b) (hmemo : (σ.cell a).memo = none)
    (hmemo' : (τ.cell b).memo = none) (hbusy : (σ.cell a).busy = false) :
    Leads H L P (σ.marked a) (τ.marked b) := by
  obtain ⟨hlt, hlt'⟩ := h.lt hab
  have hbusy' : (τ.cell b).busy = false := (h.busy hab).symm.trans hbusy
  refine h.change (σ.unfolds_marked a) (h.ahead.marked hlt hmemo hbusy) (τ.unfolds_marked b)
    (h.behind.marked hlt' hmemo' hbusy') ?_ ?_ ?_ ?_
  · intro c d hcd w hw
    rw [Store.memo_marked] at hw ⊢
    exact h.memo hcd w hw
  · intro c v hv
    rw [Store.memo_marked] at hv
    exact .inl hv
  · intro c d hcd
    rw [Store.busy_marked hlt, Store.busy_marked hlt', if_congr (h.cell_iff hab hcd) rfl
      (h.busy hcd)]
  · intro c hc
    rw [Store.busy_marked hlt] at hc
    split at hc
    · next hac => exact ⟨b, hac ▸ hab⟩
    · exact h.paired c hc

/-- If a thunk fails in both stores, it is released in both. -/
theorem released (h : Leads H L P σ τ) (hab : P.cell a b) (hmemo : (σ.cell a).memo = none)
    (hmemo' : (τ.cell b).memo = none) (hbusy : (σ.cell a).busy = true) :
    Leads H L P (σ.released a) (τ.released b) := by
  obtain ⟨hlt, hlt'⟩ := h.lt hab
  have hbusy' : (τ.cell b).busy = true := (h.busy hab).symm.trans hbusy
  refine h.change (σ.unfolds_released a) (h.ahead.released hlt hmemo hbusy) (τ.unfolds_released b)
    (h.behind.released hlt' hmemo' hbusy') ?_ ?_ ?_ ?_
  · intro c d hcd w hw
    rw [Store.memo_released] at hw ⊢
    exact h.memo hcd w hw
  · intro c v hv
    rw [Store.memo_released] at hv
    exact .inl hv
  · intro c d hcd
    rw [Store.busy_released hlt, Store.busy_released hlt', if_congr (h.cell_iff hab hcd) rfl
      (h.busy hcd)]
  · intro c hc
    rw [Store.busy_released hlt] at hc
    split at hc
    · cases hc
    · exact h.paired c hc

/-- If a thunk gets results in both stores that correspond, they are kept in both. -/
theorem settled (h : Leads H L P σ τ) (hab : P.cell a b) (hmemo : (σ.cell a).memo = none)
    (hmemo' : (τ.cell b).memo = none) (hbusy : (σ.cell a).busy = true) {v w : Value}
    (hv : v.In σ) (hw : w.In τ) (hvw : P.Values H v w) :
    Leads H L P (σ.settled a v) (τ.settled b w) := by
  obtain ⟨hlt, hlt'⟩ := h.lt hab
  have hbusy' : (τ.cell b).busy = true := (h.busy hab).symm.trans hbusy
  have hσ := Store.unfolds_settled hmemo v
  refine h.change hσ (h.ahead.settled hlt hmemo hbusy hv) (Store.unfolds_settled hmemo' w)
    (h.behind.settled hlt' hmemo' hbusy' hw) ?_ ?_ ?_ ?_
  · intro c d hcd u hu
    rw [Store.memo_settled hlt'] at hu
    split at hu
    · next hbd =>
      -- the new result of the second store is the new one of the first store
      cases hu
      exact ⟨v, (Store.memo_settled hlt v c).trans (if_pos ((h.cell_iff hab hcd).2 hbd)), hvw⟩
    · obtain ⟨t, ht, htu⟩ := h.memo hcd u hu
      exact ⟨t, hσ.memo c t ht, htu⟩
  · -- the new result needs no evidence, because it is in both stores
    intro c u hu
    rw [Store.memo_settled hlt] at hu
    split at hu
    · next hac => exact .inr ⟨b, w, hac ▸ hab, (Store.memo_settled hlt' w b).trans (if_pos rfl)⟩
    · exact .inl hu
  · intro c d hcd
    rw [Store.busy_settled hlt, Store.busy_settled hlt', if_congr (h.cell_iff hab hcd) rfl
      (h.busy hcd)]
  · intro c hc
    rw [Store.busy_settled hlt] at hc
    split at hc
    · cases hc
    · exact h.paired c hc

end Leads

/-! ## A store and itself -/

/-- Everything in a store corresponds to itself. -/
def Pairing.diagonal (σ : Store) : Pairing where
  cell a b := a = b ∧ a < σ.cells.size
  env env env' := env = env' ∧ σ.HasEnv env
  made m n := m = n ∧ m < σ.made

/-- A store of which all results are accounted for is ahead of itself. -/
theorem Ledger.Audited.leads {L : Ledger} {σ : Store} (h : L.Audited σ) (H : Expr → Expr → Prop) :
    Leads H L (.diagonal σ) σ σ where
  ahead := h.sane
  behind := h.sane
  global := ⟨rfl, Store.hasEnv_global _⟩
  hasEnv := by
    rintro env _ ⟨rfl, henv⟩
    exact ⟨henv, henv⟩
  lookup := by
    rintro env _ ⟨rfl, henv⟩ x
    cases hx : σ.lookup env x with
    | none => exact .none
    | some v =>
      obtain ⟨a, ha, rfl⟩ := h.sane.rooted.lookup hx
      exact .some (.thunk ⟨rfl, ha⟩)
  lt := by
    rintro a _ ⟨rfl, ha⟩
    exact ⟨ha, ha⟩
  expr := by
    rintro a _ ⟨rfl, ha⟩
    exact .refl _
  env := by
    rintro a _ ⟨rfl, ha⟩
    exact ⟨rfl, Store.hasEnv_cell ha⟩
  memo := by
    rintro a _ ⟨rfl, -⟩ w hw
    refine ⟨w, hw, ?_⟩
    have hin := h.sane.rooted.memo a w hw
    rcases w with ⟨i, c⟩ | b
    · cases c with
      | function x body env =>
        -- functions are made, and so correspond by their numbers
        obtain ⟨n, rfl⟩ := h.certified.made h.sane.rooted (h.covers a _ hw) hw
        exact .object (.function x ⟨rfl, hin.made n rfl⟩ (.refl body)
          ⟨rfl, hin.closure x body env rfl⟩)
      | _ => exact .object (.plain i i rfl)
    · exact .thunk ⟨rfl, hin⟩
  cell_iff := by
    rintro a _ c _ ⟨rfl, -⟩ ⟨rfl, -⟩
    exact Iff.rfl
  made_lt := by
    rintro m _ ⟨rfl, hm⟩
    exact ⟨hm, hm⟩
  made_iff := by
    rintro m _ k _ ⟨rfl, -⟩ ⟨rfl, -⟩
    exact Iff.rfl
  certified := h.certified
  owned := h.owned
  busy := by
    rintro a _ ⟨rfl, -⟩
    rfl
  paired a ha := by
    refine ⟨a, rfl, ?_⟩
    by_contra hlt
    rw [Store.cell_of_size_le (Nat.not_lt.1 hlt)] at ha
    cases ha
  taken {i _ c} _ hi := by
    -- owners have results, and here each result is in both stores
    obtain ⟨hlt, w, hw⟩ := h.certified.memo (h.owned i c hi).2
    exact ⟨c, w, ⟨rfl, hlt⟩, hw⟩
  late a v hv := .inl (h.covers a v hv)

end CallByNeed
