import CallByNeed.Proofs.ReaderAccepts

/-!
# The trees that the reader builds

`Expr.Spells e ts` reads a tree back into its tokens, and `Expr.Proper e` says that every part of
the tree stands on a rung of the grammar on which it may stand, and that no function at the end of
a part could have gone on with what follows it.

Both are kept up by the reader. What a reading has read so far is again a list of tokens, spelled
by its trail and by what is open (`Reading.Spells`), and every token that is fed is added to it
(`Reading.spells_feed`). When the expression ends, the tree has the tokens that were read and is
proper (`Reading.spells_done`), and a proper tree is the tree of a derivation (`Expr.Spells.reads`).
-/

namespace CallByNeed

open Grammar

namespace Expr

/-- The rung of the grammar an expression stands on: 0 for conditionals, 1 to 6 for the operators
between operands, 7 for those before one, 8 for calls. Functions stand by themselves. -/
def rung : Expr → Nat
  | literal _ _ | name _ _ | paren _ _ | arrow _ _ _ => 9
  | call _ _ _ => 8
  | unary _ _ _ => 7
  | binary op _ _ _ => op.precedence
  | cond _ _ _ _ => 0

/-- Whether the expression ends with something that is complete in itself, so that what follows
does not become a part of it. -/
def closed : Expr → Bool
  | literal _ _ | name _ _ | paren _ _ | call _ _ _ => true
  | unary _ e _ => e.closed
  | binary _ _ r _ => r.closed
  | arrow _ _ _ | cond _ _ _ _ => false

/-- Every part stands where the grammar lets it stand, and what is followed by an operator, an
argument or a question mark is closed. -/
def Proper : Expr → Prop
  | literal _ _ | name _ _ => True
  | paren e _ | arrow _ e _ => e.Proper
  | call f a _ => 8 ≤ f.rung ∧ f.closed ∧ f.Proper ∧ a.Proper
  | unary _ e _ => 7 ≤ e.rung ∧ e.Proper
  | binary op l r _ =>
    op.precedence ≤ l.rung ∧ l.closed ∧ op.precedence < r.rung ∧ l.Proper ∧ r.Proper
  | cond c t e _ => 1 ≤ c.rung ∧ c.closed ∧ c.Proper ∧ t.Proper ∧ e.Proper

/-- The tokens of a tree. The parameter of a function may stand in parentheses. -/
inductive Spells : Expr → List TokenKind → Prop where
  | literal (c : Constant) (p : Option Location) : Spells (.literal c p) [c.token]
  | name (x : String) (p : Option Location) : Spells (.name x p) [.identifier x]
  | paren {e : Expr} {ts : List TokenKind} (p : Option Location) :
      Spells e ts →
      Spells (.paren e p) (.symbol .leftParen :: ts ++ [.symbol .rightParen])
  | arrow {x : String} {e : Expr} {hs ts : List TokenKind} (p : Option Location) :
      ArrowHead x hs → Spells e ts → Spells (.arrow x e p) (hs ++ ts)
  | call {f a : Expr} {ts us : List TokenKind} (p : Option Location) :
      Spells f ts → Spells a us →
      Spells (.call f a p) (ts ++ .symbol .leftParen :: us ++ [.symbol .rightParen])
  | unary (op : UnaryOp) {e : Expr} {ts : List TokenKind} (p : Option Location) :
      Spells e ts → Spells (.unary op e p) (.symbol op.symbol :: ts)
  | binary (op : BinaryOp) {l r : Expr} {ts us : List TokenKind} (p : Option Location) :
      Spells l ts → Spells r us →
      Spells (.binary op l r p) (ts ++ .symbol op.symbol :: us)
  | cond {c t e : Expr} {ts us vs : List TokenKind} (p : Option Location) :
      Spells c ts → Spells t us → Spells e vs →
      Spells (.cond c t e p) (ts ++ .symbol .question :: us ++ .symbol .colon :: vs)

end Expr

/-- Operators between operands bind less tightly than those before one. -/
theorem BinaryOp.precedence_lt_seven (op : BinaryOp) : op.precedence < 7 := by
  cases op <;> decide

/-- Operators bind more tightly than conditionals. -/
theorem BinaryOp.precedence_pos (op : BinaryOp) : 0 < op.precedence := by
  cases op <;> decide

/-! ## From proper trees to derivations -/

namespace Grammar

/-- The nonterminal of a rung. -/
def ofRung : Nat → Nonterminal
  | 0 => .expr
  | 1 => .chain .disjunction
  | 2 => .chain .conjunction
  | 3 => .chain .equality
  | 4 => .chain .relation
  | 5 => .chain .addition
  | 6 => .chain .multiplication
  | 7 => .unary
  | 8 => .call
  | _ => .primary

/-- The rung of an operator is that of its family. -/
theorem ofRung_precedence (op : BinaryOp) : ofRung op.precedence = .chain op.family := by
  cases op <;> rfl

/-- The next rung is that of the operands of the family. -/
theorem ofRung_precedence_succ (op : BinaryOp) :
    ofRung (op.precedence + 1) = operand op.family := by
  cases op <;> rfl

/-- What stands on a rung also stands on the next looser one. -/
theorem Reads.loosen {k : Nat} (hk : k ≤ 8) {e : Expr} {ts after : List TokenKind}
    (h : Reads (ofRung (k + 1)) e ts after) : Reads (ofRung k) e ts after := by
  match k, hk with
  | 0, _ => exact .plain h
  | 1, _ | 2, _ | 3, _ | 4, _ | 5, _ | 6, _ => exact .single h
  | 7, _ => exact .applied h
  | 8, _ => exact .callee h

/-- What stands on a rung also stands on all looser ones. -/
theorem Reads.loosenTo {j k : Nat} (hjk : j ≤ k) (hk : k ≤ 9) {e : Expr}
    {ts after : List TokenKind} (h : Reads (ofRung k) e ts after) :
    Reads (ofRung j) e ts after := by
  induction k with
  | zero =>
    obtain rfl := Nat.le_zero.1 hjk
    exact h
  | succ k ih =>
    rcases Nat.lt_or_eq_of_le hjk with hlt | rfl
    · exact ih (by omega) (by omega) (h.loosen (by omega))
    · exact h

/-- One more operation at the end. -/
theorem Derives.snocOperation {f : BinaryOp.Family} {op : BinaryOp} (hf : op.family = f)
    {ts us : List TokenKind} (h : Derives (.operations f) ts) (hu : Derives (operand f) us) :
    Derives (.operations f) (ts ++ .symbol op.symbol :: us) := by
  -- operations are a list that is built from the front, so the new one goes through all of them
  generalize hn : Nonterminal.operations f = n at h
  induction h with
  | noOperation g =>
    cases hn
    subst hf
    simpa using Derives.operation op hu (.noOperation _)
  | operation op' h₁ _ _ ih =>
    cases hn
    simpa using Derives.operation op' h₁ (ih rfl)
  | _ => cases hn

/-- One more argument at the end. -/
theorem Derives.snocArgument {ts us : List TokenKind} (h : Derives .arguments ts)
    (hu : Derives .expr us) :
    Derives .arguments (ts ++ .symbol .leftParen :: us ++ [.symbol .rightParen]) := by
  generalize hn : Nonterminal.arguments = n at h
  induction h with
  | noArgument => simpa using Derives.argument hu .noArgument
  | argument h₁ _ _ ih => simpa using Derives.argument h₁ (ih rfl)
  | _ => cases hn

/-- The tokens of a tree are derived from its nonterminal. -/
theorem Reads.derives {n : Nonterminal} {e : Expr} {ts after : List TokenKind}
    (h : Reads n e ts after) : Derives n ts := by
  induction h with
  | plain _ ih => exact .plain ih
  | conditional _ _ _ _ ihc iht ihe => exact .conditional ihc iht ihe
  | single _ ih => simpa using Derives.chain ih (.noOperation _)
  | operation op _ _ _ ihl ihr =>
    cases ihl with
    | chain h₁ h₂ => simpa using Derives.chain h₁ (h₂.snocOperation rfl ihr)
  | unary op _ _ ih => exact .unary op ih
  | applied _ ih => exact .applied ih
  | callee _ ih => simpa using Derives.call ih .noArgument
  | call _ _ _ ihf iha =>
    cases ihf with
    | call h₁ h₂ => simpa using Derives.call h₁ (h₂.snocArgument iha)
  | literal c _ => exact .literal c
  | arrow _ hx _ _ ih => exact .arrow hx ih
  | name x _ => exact .name x
  | group _ _ ih => exact .group ih

end Grammar

namespace Expr

/-- There are rungs up to the ninth. -/
theorem rung_le_nine (e : Expr) : e.rung ≤ 9 := by
  cases e with
  | binary op _ _ _ => exact Nat.le_trans (Nat.le_of_lt op.precedence_lt_seven) (by decide)
  | _ => simp [rung]

/-- A proper tree is the tree of a derivation of its tokens, if it is closed or followed by a token
that never goes on with an expression. -/
theorem Spells.reads {e : Expr} {ts : List TokenKind} (hs : e.Spells ts) (hp : e.Proper)
    (after : List TokenKind) (ha : e.closed ∨ Reading.Stops after) :
    Reads (ofRung e.rung) e ts after := by
  induction hs generalizing after with
  | literal c p => exact .literal c p
  | name x p => exact .name x p
  | paren p _ ih =>
    have h := ih hp (.symbol .rightParen :: after) (.inr (by simp [Reading.Stops]))
    exact .group p (h.loosenTo (Nat.zero_le _) (rung_le_nine _))
  | arrow p hx _ ih =>
    -- a function is not closed, so what follows stops its body
    have hstop : Reading.Stops after := ha.resolve_left (by simp [closed])
    have h := (ih hp after (.inr hstop)).loosenTo (Nat.zero_le _) (rung_le_nine _)
    exact .arrow p hx h (Reading.longest_of_stops h.derives hstop)
  | @call f a ts us p _ _ ihf iha =>
    obtain ⟨hf, hclosed, hpf, hpa⟩ := hp
    have h₁ := ihf hpf (.symbol .leftParen :: us ++ .symbol .rightParen :: after) (.inl hclosed)
    have h₂ := iha hpa (.symbol .rightParen :: after) (.inr (by simp [Reading.Stops]))
    exact .call p (h₁.loosenTo hf (rung_le_nine _))
      (h₂.loosenTo (Nat.zero_le _) (rung_le_nine _))
  | unary op p _ ih =>
    obtain ⟨hr, hpe⟩ := hp
    exact .unary op p ((ih hpe after ha).loosenTo hr (rung_le_nine _))
  | @binary op l r ts us p _ _ ihl ihr =>
    -- the left operand stands on the rung of the operator, the right one on a tighter one
    obtain ⟨hl, hclosed, hr, hpl, hpr⟩ := hp
    have h₁ := (ihl hpl (.symbol op.symbol :: us ++ after) (.inl hclosed)).loosenTo hl
      (rung_le_nine _)
    have h₂ := (ihr hpr after ha).loosenTo hr (rung_le_nine _)
    rw [ofRung_precedence] at h₁
    rw [Nat.succ_eq_add_one, ofRung_precedence_succ] at h₂
    have h := Reads.operation op p h₁ h₂
    rwa [← ofRung_precedence] at h
  | @cond c t e ts us vs p _ _ _ ihc iht ihe =>
    obtain ⟨hc, hclosed, hpc, hpt, hpe⟩ := hp
    have hstop : Reading.Stops after := ha.resolve_left (by simp [closed])
    have h₁ := (ihc hpc (.symbol .question :: us ++ .symbol .colon :: vs ++ after)
      (.inl hclosed)).loosenTo hc (rung_le_nine _)
    have h₂ := (iht hpt (.symbol .colon :: vs ++ after) (.inr (by simp [Reading.Stops]))).loosenTo
      (Nat.zero_le _) (rung_le_nine _)
    have h₃ := (ihe hpe after (.inr hstop)).loosenTo (Nat.zero_le _) (rung_le_nine _)
    exact .conditional p h₁ h₂ h₃

end Expr

/-! ## What a reading has read -/

namespace Trailing

/-- The rung of the expression, once it is complete. -/
def rung : Trailing → Nat
  | arrow _ _ => 9
  | unary _ _ => 7
  | binary op _ _ => op.precedence
  | alternate _ _ _ => 0

/-- The loosest rung on which the last operand may stand. -/
def operandRung : Trailing → Nat
  | arrow _ _ | alternate _ _ _ => 0
  | unary _ _ => 7
  | binary op _ _ => op.precedence + 1

/-- The parts that were read are proper, and those that an operator or a question mark follows are
closed. -/
def Proper : Trailing → Prop
  | arrow _ _ | unary _ _ => True
  | binary op l _ => op.precedence ≤ l.rung ∧ l.closed ∧ l.Proper
  | alternate c t _ => 1 ≤ c.rung ∧ c.closed ∧ c.Proper ∧ t.Proper

/-- The tokens up to the last operand. -/
inductive Spells : Trailing → List TokenKind → Prop where
  | arrow {x : String} {hs : List TokenKind} (p : Option Location) :
      ArrowHead x hs → Spells (.arrow x p) hs
  | unary (op : UnaryOp) (p : Option Location) : Spells (.unary op p) [.symbol op.symbol]
  | binary (op : BinaryOp) {l : Expr} {ts : List TokenKind} (p : Option Location) :
      l.Spells ts → Spells (.binary op l p) (ts ++ [.symbol op.symbol])
  | alternate {c t : Expr} {ts us : List TokenKind} (p : Option Location) :
      c.Spells ts → t.Spells us →
      Spells (.alternate c t p) (ts ++ .symbol .question :: us ++ [.symbol .colon])

variable {t : Trailing} {e : Expr}

/-- A completed part of the trail is on the rung of that part. -/
@[simp]
theorem rung_complete (t : Trailing) (e : Expr) : (t.complete e).rung = t.rung := by
  cases t <;> rfl

/-- A proper part of the trail, completed with a proper operand that fits, is proper. -/
theorem proper_complete (ht : t.Proper) (he : e.Proper) (h : t.operandRung ≤ e.rung) :
    (t.complete e).Proper := by
  cases t with
  | arrow x p => exact he
  | unary op p => exact ⟨h, he⟩
  | binary op l p => exact ⟨ht.1, ht.2.1, h, ht.2.2, he⟩
  | alternate c t p => exact ⟨ht.1, ht.2.1, ht.2.2.1, ht.2.2.2, he⟩

/-- A completed part of the trail is spelt as the part and then its operand. -/
theorem spells_complete {ts us : List TokenKind} (ht : t.Spells ts) (he : e.Spells us) :
    (t.complete e).Spells (ts ++ us) := by
  cases ht with
  | arrow p hx => exact .arrow p hx he
  | unary op p => exact .unary op p he
  | binary op p hl => simpa [complete] using Expr.Spells.binary op p hl he
  | alternate p hc ht => simpa [complete] using Expr.Spells.cond p hc ht he

/-- An operator before or between operands ends where its last operand does. -/
theorem closed_complete (ht : 0 < t.precedence) (he : e.closed) : (t.complete e).closed := by
  cases t with
  | arrow | alternate => simp [precedence] at ht
  | unary | binary => exact he

/-- The rung of an operator is how tightly it binds. -/
theorem rung_eq_precedence (ht : 0 < t.precedence) : t.rung = t.precedence := by
  cases t with
  | arrow | alternate => simp [precedence] at ht
  | unary | binary => rfl

/-- Whatever binds less tightly than an operator can have the operator's expression as its last
operand. -/
theorem operandRung_le_of_precedence_lt {k : Nat} (hk : k < 7) (h : t.precedence < k) :
    t.operandRung ≤ k := by
  cases t with
  | arrow | alternate => exact Nat.zero_le _
  | unary => exact absurd h (by simp only [precedence]; omega)
  | binary => exact h

/-- Every operand fits from the seventh rung on. -/
theorem operandRung_le_seven (t : Trailing) : t.operandRung ≤ 7 := by
  cases t with
  | binary op _ _ => exact op.precedence_lt_seven
  | _ => simp [operandRung]

end Trailing

/-- An expression of rung `k` may be the last operand of the innermost part of the trail. -/
def Fits (k : Nat) (trail : List Trailing) : Prop :=
  ∀ t ∈ trail.head?, t.operandRung ≤ k

/-- What stands by itself or is a call fits into every trail. -/
theorem fits_of_seven_le {k : Nat} (hk : 7 ≤ k) (trail : List Trailing) : Fits k trail :=
  fun t _ => Nat.le_trans t.operandRung_le_seven hk

/-- The tokens of a trail, whose innermost part comes first in the trail and last in the text. -/
inductive TrailSpells : List Trailing → List TokenKind → Prop where
  | nil : TrailSpells [] []
  | cons {t : Trailing} {trail : List Trailing} {ts us : List TokenKind} :
      TrailSpells trail ts → t.Spells us → t.Proper → Fits t.rung trail →
      TrailSpells (t :: trail) (ts ++ us)

/-- A completed trail has the tokens of the trail and of the operand. -/
theorem completeAll_spells {trail : List Trailing} {ts : List TokenKind}
    (ht : TrailSpells trail ts) {e : Expr} {us : List TokenKind} (he : e.Spells us)
    (hp : e.Proper) (hf : Fits e.rung trail) :
    (completeAll e trail).Spells (ts ++ us) ∧ (completeAll e trail).Proper := by
  induction ht generalizing e us with
  | nil => exact ⟨he, hp⟩
  | @cons t trail ts vs _ hts htp htf ih =>
    have hrung : t.operandRung ≤ e.rung := hf t rfl
    rw [List.append_assoc]
    exact ih (Trailing.spells_complete hts he) (Trailing.proper_complete htp hp hrung)
      (by rwa [Trailing.rung_complete])

/-- Completing a part of a trail keeps its tokens, and gives an operand that an operator of the
given precedence can follow. -/
theorem reduce_spells {p : Nat} (hpos : 0 < p) {trail : List Trailing} {ts : List TokenKind}
    (ht : TrailSpells trail ts) {e : Expr} {us : List TokenKind} (he : e.Spells us)
    (hp : e.Proper) (hc : e.closed) (hr : p ≤ e.rung) (hf : Fits e.rung trail) :
    ∃ ts' us', TrailSpells (reduce p e trail).2 ts' ∧ (reduce p e trail).1.Spells us' ∧
      ts' ++ us' = ts ++ us ∧ (reduce p e trail).1.Proper ∧ (reduce p e trail).1.closed ∧
      p ≤ (reduce p e trail).1.rung := by
  induction ht generalizing e us with
  | nil => exact ⟨[], us, .nil, he, rfl, hp, hc, hr⟩
  | @cons t trail ts vs ht hts htp htf ih =>
    rw [reduce]
    split
    · next hle =>
      -- the innermost part is completed and becomes the operand of the next one
      have hpos : 0 < t.precedence := Nat.lt_of_lt_of_le hpos hle
      have hrung : t.operandRung ≤ e.rung := hf t rfl
      rw [List.append_assoc]
      refine ih (Trailing.spells_complete hts he) (Trailing.proper_complete htp hp hrung)
        (Trailing.closed_complete hpos hc) ?_ (by rwa [Trailing.rung_complete])
      rwa [Trailing.rung_complete, Trailing.rung_eq_precedence hpos]
    · exact ⟨ts ++ vs, us, .cons ht hts htp htf, he, rfl, hp, hc, hr⟩

/-- An operator fits into what it leaves of a trail. -/
theorem fits_reduce {p : Nat} (hp : p < 7) (e : Expr) (trail : List Trailing) :
    Fits p (reduce p e trail).2 :=
  fun _ ht => Trailing.operandRung_le_of_precedence_lt hp (lt_of_mem_head?_reduce ht)

/-- A conditional fits into what a question mark leaves of a trail. -/
theorem fits_reduce_one (e : Expr) (trail : List Trailing) :
    Fits 0 (reduce 1 e trail).2 := by
  intro t ht
  have hlt : t.precedence < 1 := lt_of_mem_head?_reduce ht
  cases t with
  | arrow | alternate => exact Nat.le_refl 0
  | unary => simp [Trailing.precedence] at hlt
  | binary op =>
    have hpos := op.precedence_pos
    simp only [Trailing.precedence] at hlt
    omega

/-- The tokens of what is open, the innermost level coming first in the list and last in the
text. -/
inductive LevelsSpell : List Level → List TokenKind → Prop where
  | nil : LevelsSpell [] []
  | group {trail : List Trailing} {outer : List Level} {ts us : List TokenKind}
      (p : Option Location) :
      LevelsSpell outer us → TrailSpells trail ts →
      LevelsSpell (⟨.group p, trail⟩ :: outer) (us ++ ts ++ [.symbol .leftParen])
  | argument {f : Expr} {trail : List Trailing} {outer : List Level} {ts us vs : List TokenKind}
      (p : Option Location) :
      LevelsSpell outer us → TrailSpells trail ts → f.Spells vs → f.Proper → f.closed →
      8 ≤ f.rung →
      LevelsSpell (⟨.argument f p, trail⟩ :: outer) (us ++ ts ++ vs ++ [.symbol .leftParen])
  | consequent {c : Expr} {trail : List Trailing} {outer : List Level} {ts us vs : List TokenKind}
      (p : Option Location) :
      LevelsSpell outer us → TrailSpells trail ts → c.Spells vs → c.Proper → c.closed →
      1 ≤ c.rung → Fits 0 trail →
      LevelsSpell (⟨.consequent c p, trail⟩ :: outer) (us ++ ts ++ vs ++ [.symbol .question])

namespace Reading

/-- The tokens that a reading has read. An operand that has just been completed is a call or stands
by itself. -/
inductive Spells : Reading → List TokenKind → Prop where
  | operand {trail : List Trailing} {outer : List Level} {ts us : List TokenKind} :
      LevelsSpell outer us → TrailSpells trail ts → Spells (operand trail outer) (us ++ ts)
  | operator {e : Expr} {trail : List Trailing} {outer : List Level} {ts us vs : List TokenKind} :
      LevelsSpell outer us → TrailSpells trail ts → e.Spells vs → e.Proper → e.closed →
      8 ≤ e.rung → Spells (operator e trail outer) (us ++ ts ++ vs)

/-- Nothing has been read at the start. -/
theorem spells_start : start.Spells [] :=
  .operand .nil .nil

/-- A token at which an operand is due is added to what was read. -/
theorem spells_feedOperand {trail : List Trailing} {outer : List Level} {ks : List TokenKind}
    (h : (operand trail outer).Spells ks) {t : Token} {r : Reading}
    (hr : (operand trail outer).feed t = .next r) : r.Spells (ks ++ [t.kind]) := by
  cases h with
  | operand houter htrail =>
    simp only [feed, Reading.feedOperand] at hr
    split at hr
    case h_1 x hk =>
      cases hr
      rw [hk]
      exact .operator houter htrail (.literal (.number x) _) trivial rfl (by simp [Expr.rung])
    case h_2 s hk =>
      cases hr
      rw [hk]
      exact .operator houter htrail (.literal (.string s) _) trivial rfl (by simp [Expr.rung])
    case h_3 x hk =>
      cases hr
      rw [hk]
      exact .operator houter htrail (.name x _) trivial rfl (by simp [Expr.rung])
    case h_4 hk =>
      cases hr
      rw [hk]
      exact .operator houter htrail (.literal (.boolean true) _) trivial rfl (by simp [Expr.rung])
    case h_5 hk =>
      cases hr
      rw [hk]
      exact .operator houter htrail (.literal (.boolean false) _) trivial rfl (by simp [Expr.rung])
    case h_6 hk =>
      cases hr
      rw [hk]
      simpa using Spells.operand (LevelsSpell.group _ houter htrail) .nil
    case h_7 s hk =>
      split at hr
      · next op hop =>
        cases hr
        obtain rfl := Symbol.unaryOp?_eq_some_iff.1 hop
        rw [hk, List.append_assoc]
        exact .operand houter
          (.cons htrail (.unary op _) trivial (fits_of_seven_le (Nat.le_refl 7) _))
      · cases hr
    case h_8 => cases hr

/-- A parameter is a name, alone or in parentheses. -/
theorem arrowHead_of_parameter? {e : Expr} {x : String} {p : Option Location}
    (hx : parameter? e = some (x, p)) {ts : List TokenKind} (he : e.Spells ts) :
    ArrowHead x (ts ++ [.symbol .arrow]) := by
  unfold parameter? at hx
  split at hx
  · cases hx
    cases he
    exact .bare
  · cases hx
    cases he with
    | paren _ he =>
      cases he
      exact .grouped
  · cases hx

/-- A token that does not go on with an operand leaves no reading behind. -/
theorem leave_ne_next {e : Expr} {trail : List Trailing} (outer : List Level) {r : Reading} :
    leave e trail outer ≠ .next r := by
  cases outer <;> simp [leave]

/-- The expression has ended only if nothing is open. -/
theorem leave_eq_done {e e' : Expr} {trail : List Trailing} {outer : List Level}
    (h : leave e trail outer = .done e') : outer = [] ∧ e' = completeAll e trail := by
  cases outer with
  | nil =>
    cases h
    exact ⟨rfl, rfl⟩
  | cons => cases h

/-- A token that follows an operand and goes on with the expression is added to what was read. -/
theorem spells_feedOperator {e : Expr} {trail : List Trailing} {outer : List Level}
    {ks : List TokenKind} (h : (operator e trail outer).Spells ks) {t : Token} {r : Reading}
    (hr : (operator e trail outer).feed t = .next r) : r.Spells (ks ++ [t.kind]) := by
  cases h with
  | @operator _ _ _ ts us vs houter htrail hs hp hc hrung =>
    -- for a closing token the whole trail is completed, for an operator only a part of it
    have hfits : Fits e.rung trail := fits_of_seven_le (by omega) trail
    have hall := completeAll_spells htrail hs hp hfits
    simp only [feed, feedOperator] at hr
    split at hr
    case h_1 hk =>
      cases hr
      rw [hk]
      simpa using Spells.operand (LevelsSpell.argument _ houter htrail hs hp hc hrung) .nil
    case h_2 hk =>
      rw [hk]
      split at hr
      · cases hr
        cases houter with
        | group _ houter htrail =>
          simpa using Spells.operator houter htrail (.paren _ hall.1) hall.2 rfl
            (by simp [Expr.rung])
      · cases hr
        cases houter with
        | argument _ houter htrail hf hfp hfc hfr =>
          simpa using Spells.operator houter htrail (.call _ hf hall.1) ⟨hfr, hfc, hfp, hall.2⟩ rfl
            (by simp [Expr.rung])
      · exact absurd hr (leave_ne_next _)
    case h_3 hk =>
      cases hr
      obtain ⟨ts', us', ht, hs, heq, hp, hc, hr⟩ :=
        reduce_spells Nat.one_pos htrail hs hp hc (by omega) hfits
      have h := Spells.operand
        (LevelsSpell.consequent (some t.location) houter ht hs hp hc hr (fits_reduce_one _ _)) .nil
      rw [hk, List.append_assoc us, ← heq]
      simpa using h
    case h_4 hk =>
      rw [hk]
      split at hr
      · cases hr
        cases houter with
        | consequent _ houter htrail hcs hcp hcc hcr hfit =>
          simpa using Spells.operand houter
            (.cons htrail (.alternate _ hcs hall.1) ⟨hcr, hcc, hcp, hall.2⟩ hfit)
      · exact absurd hr (leave_ne_next _)
    case h_5 hk =>
      rw [hk]
      split at hr
      · next x p hx =>
        cases hr
        rw [List.append_assoc, List.append_assoc]
        exact .operand houter (.cons htrail (.arrow p (arrowHead_of_parameter? hx hs)) trivial
          (fits_of_seven_le (by simp [Trailing.rung]) _))
      · exact absurd hr (leave_ne_next _)
    case h_6 s _ _ _ _ _ hk =>
      split at hr
      · next op hop =>
        cases hr
        obtain rfl := Symbol.binaryOp?_eq_some_iff.1 hop
        have hlt := op.precedence_lt_seven
        obtain ⟨ts', us', ht, hs, heq, hp, hc, hr⟩ :=
          reduce_spells op.precedence_pos htrail hs hp hc (by omega) hfits
        have h := Spells.operand houter
          (.cons ht (.binary op (some t.location) hs) ⟨hr, hc, hp⟩ (fits_reduce hlt _ _))
        rw [hk, List.append_assoc us, ← heq]
        simpa using h
      · exact absurd hr (leave_ne_next _)
    case h_7 => exact absurd hr (leave_ne_next _)

/-- Every token that goes on with the expression is added to what was read. -/
theorem spells_feed {r r' : Reading} {ks : List TokenKind} (h : r.Spells ks) {t : Token}
    (hr : r.feed t = .next r') : r'.Spells (ks ++ [t.kind]) := by
  cases r with
  | operand => exact spells_feedOperand h hr
  | operator => exact spells_feedOperator h hr

/-- An expression ends only after an operand, with nothing open. -/
theorem feed_eq_done {r : Reading} {t : Token} {e : Expr} (hr : r.feed t = .done e) :
    ∃ operand trail, r = operator operand trail [] ∧ e = completeAll operand trail := by
  cases r with
  | operand trail outer =>
    simp only [feed, Reading.feedOperand] at hr
    split at hr <;> try cases hr
    split at hr <;> cases hr
  | operator operand trail outer =>
    -- all tokens that do not go on with the expression leave it
    have hdone : leave operand trail outer = .done e := by
      simp only [feed, feedOperator] at hr
      split at hr
      case h_1 | h_3 => cases hr
      case h_2 =>
        split at hr
        · cases hr
        · cases hr
        · exact hr
      case h_4 | h_5 | h_6 =>
        split at hr
        · cases hr
        · exact hr
      case h_7 => exact hr
    obtain ⟨rfl, rfl⟩ := leave_eq_done hdone
    exact ⟨operand, trail, rfl, rfl⟩

/-- The expression that has ended before a token has the tokens that were read. -/
theorem spells_done {r : Reading} {ks : List TokenKind} (h : r.Spells ks) {t : Token} {e : Expr}
    (hr : r.feed t = .done e) : e.Spells ks ∧ e.Proper := by
  obtain ⟨operand, trail, rfl, rfl⟩ := feed_eq_done hr
  cases h with
  | operator houter htrail hs hp hc hrung =>
    cases houter
    exact completeAll_spells htrail hs hp (fits_of_seven_le (by omega) trail)

end Reading

end CallByNeed
