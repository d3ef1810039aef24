import CallByNeed.Proofs.ParserExact

/-!
# The reader follows proper trees

The tokens of a proper tree are read as that tree, up to places. The innermost operators of the
tree are still in the trail when its last token has been read, so the statement is about what the
trail becomes when they are completed (`Leaves`). If the tree is closed, they all bind at least as
tightly as the tree itself: this is what lets the next operator complete them. There is one lemma
for each form of tree (`Follows`), and `follows_of_spells` puts them together.
-/

namespace CallByNeed

open Grammar

/-- The tree without the places it was read from. -/
def Expr.unplaced : Expr → Expr
  | literal c _ => literal c none
  | name x _ => name x none
  | paren e _ => paren e.unplaced none
  | arrow x e _ => arrow x e.unplaced none
  | call f a _ => call f.unplaced a.unplaced none
  | unary op e _ => unary op e.unplaced none
  | binary op l r _ => binary op l.unplaced r.unplaced none
  | cond c t e _ => cond c.unplaced t.unplaced e.unplaced none

/-- The statement without the places it was read from. -/
def Statement.unplaced : Statement → Statement
  | declare x e _ => declare x e.unplaced none
  | output o e _ => output o e.unplaced none

/-- The inner parts of a trail are completed first. -/
theorem completeAll_append (e : Expr) (inner outer : List Trailing) :
    completeAll e (inner ++ outer) = completeAll (completeAll e inner) outer :=
  List.foldl_append

/-- A looser rung is harder to fit. -/
theorem Fits.mono {j k : Nat} {trail : List Trailing} (h : Fits j trail) (hjk : j ≤ k) :
    Fits k trail :=
  fun t ht => Nat.le_trans (h t ht) hjk

/-- What fits under an operator binds less tightly. -/
theorem Trailing.precedence_lt_of_operandRung_le {t : Trailing} {k : Nat} (hk : 0 < k)
    (hk' : k < 7) (h : t.operandRung ≤ k) : t.precedence < k := by
  cases t with
  | arrow | alternate => exact hk
  | unary => exact absurd h (by simp only [operandRung]; omega)
  | binary => exact h

/-- Where a conditional fits, nothing binds tightly. -/
theorem Trailing.precedence_eq_zero {t : Trailing} (h : t.operandRung ≤ 0) : t.precedence = 0 := by
  cases t with
  | arrow | alternate => rfl
  | unary | binary => simp [operandRung] at h

/-- Completing stops where the rest of the trail binds less tightly. -/
theorem reduce_append {p : Nat} {e : Expr} {inner trail : List Trailing}
    (hinner : ∀ t ∈ inner, p ≤ t.precedence) (htrail : ∀ t ∈ trail.head?, t.precedence < p) :
    reduce p e (inner ++ trail) = (completeAll e inner, trail) := by
  induction inner generalizing e with
  | nil =>
    cases trail with
    | nil => rfl
    | cons t trail => exact if_neg (Nat.not_le.2 (htrail t rfl))
  | cons t inner ih =>
    rw [List.cons_append, reduce, if_pos (hinner t List.mem_cons_self)]
    exact ih fun u hu => hinner u (List.mem_cons_of_mem t hu)

/-- No part of a trail binds as tightly as a call. -/
theorem eq_nil_of_eight_le {inner : List Trailing} (h : ∀ t ∈ inner, 8 ≤ t.precedence) :
    inner = [] := by
  cases inner with
  | nil => rfl
  | cons t inner =>
    have ht := h t List.mem_cons_self
    cases t with
    | arrow | alternate | unary => simp [Trailing.precedence] at ht
    | binary op =>
      have := op.precedence_lt_seven
      simp only [Trailing.precedence] at ht
      omega

namespace Reading

/-- The reading has read `e` after the trail: when the innermost parts are completed, `e` is the
last operand. If `e` is closed, these parts bind at least as tightly as `e`. -/
def Leaves (e : Expr) (trail : List Trailing) (outer : List Level) (r : Reading) : Prop :=
  ∃ last inner, r = operator last (inner ++ trail) outer ∧
    (completeAll last inner).unplaced = e.unplaced ∧
    (e.closed → ∀ t ∈ inner, e.rung ≤ t.precedence)

/-- Tokens of these kinds are read as `e`, after every trail into which `e` fits. -/
def Follows (e : Expr) (ks : List TokenKind) : Prop :=
  ∀ trail outer, Fits e.rung trail → (operand trail outer).Takes ks (Leaves e trail outer)

/-- An operand that is complete leaves nothing in the trail. -/
theorem leaves_operator {e e' : Expr} (h : e'.unplaced = e.unplaced) (trail : List Trailing)
    (outer : List Level) : Leaves e trail outer (operator e' trail outer) :=
  ⟨e', [], rfl, h, fun _ _ ht => absurd ht List.not_mem_nil⟩

/-- After an operand that belongs to the last part of the trail, that part has become one of those
to be completed. -/
theorem Leaves.pop {e whole : Expr} {t : Trailing} {trail : List Trailing} {outer : List Level}
    {r : Reading} (h : Leaves e (t :: trail) outer r)
    (hwhole : ∀ e', e'.unplaced = e.unplaced → (t.complete e').unplaced = whole.unplaced)
    (hclosed : whole.closed → e.closed ∧ whole.rung ≤ e.rung ∧ whole.rung ≤ t.precedence) :
    Leaves whole trail outer r := by
  obtain ⟨last, inner, rfl, he, hprec⟩ := h
  refine ⟨last, inner ++ [t], by simp, ?_, fun hc u hu => ?_⟩
  · rw [completeAll_append]
    exact hwhole _ he
  · obtain ⟨hec, hrung, ht⟩ := hclosed hc
    rcases List.mem_append.1 hu with hu | hu
    · exact Nat.le_trans hrung (hprec hec u hu)
    · exact List.mem_singleton.1 hu ▸ ht

namespace Follows

variable {e f a l r c t : Expr} {ks ls ms : List TokenKind} {p : Option Location}

/-- Within brackets the trail begins anew, and all of it belongs to the expression. -/
theorem within (h : Follows e ks) (outer : List Level) :
    (operand [] outer).Takes ks fun r => ∃ last trail, r = operator last trail outer ∧
      (completeAll last trail).unplaced = e.unplaced := by
  refine (h [] outer (by simp [Fits])).imp ?_
  rintro _ ⟨last, inner, rfl, he, -⟩
  exact ⟨last, inner, by rw [List.append_nil], he⟩

/-- A callee has nothing left in the trail. -/
theorem callee (h : Follows f ks) (hr : 8 ≤ f.rung) (hc : f.closed) (trail : List Trailing)
    (outer : List Level) :
    (operand trail outer).Takes ks fun r =>
      ∃ f', r = operator f' trail outer ∧ f'.unplaced = f.unplaced := by
  refine (h trail outer (fits_of_seven_le (by omega) trail)).imp ?_
  rintro _ ⟨last, inner, rfl, hf, hprec⟩
  obtain rfl := eq_nil_of_eight_le fun t ht => Nat.le_trans hr (hprec hc t ht)
  exact ⟨last, rfl, hf⟩

/-- A constant is read as such. -/
theorem literal (c : Constant) : Follows (.literal c p) [c.token] := fun _ _ _ =>
  takes_cons fun _ ht => ⟨_, feed_constant ht, takes_nil (leaves_operator rfl _ _)⟩

/-- A name is read as such. -/
theorem name (x : String) : Follows (.name x p) [.identifier x] := fun _ _ _ =>
  takes_cons fun _ ht => ⟨_, feed_identifier ht, takes_nil (leaves_operator rfl _ _)⟩

/-- An expression in parentheses is read as such. -/
theorem paren (h : Follows e ks) :
    Follows (.paren e p) (.symbol .leftParen :: ks ++ [.symbol .rightParen]) := by
  intro trail outer _
  refine takes_cons fun o ho => ⟨_, feed_group ho, ?_⟩
  refine (h.within _).append ?_
  rintro _ ⟨last, inner, rfl, he⟩
  refine takes_cons fun k hk => ⟨_, feed_groupClose hk, takes_nil (leaves_operator ?_ _ _)⟩
  rw [Expr.unplaced, Expr.unplaced, he]

/-- A function stays in the trail, as what follows may still belong to its body. -/
theorem arrow {x : String} (hx : ArrowHead x ks) (h : Follows e ls) :
    Follows (.arrow x e p) (ks ++ ls) := by
  intro trail outer _
  refine (takes_arrowHead hx trail outer).append ?_
  rintro _ ⟨q, rfl⟩
  refine (h (.arrow x q :: trail) outer (by simp [Fits, Trailing.operandRung])).imp fun r hr => ?_
  refine hr.pop (fun e' he' => ?_) fun hc => absurd hc (by simp [Expr.closed])
  rw [Trailing.complete, Expr.unplaced, Expr.unplaced, he']

/-- A call is read as such, if its callee needs no parentheses. -/
theorem call (hr : 8 ≤ f.rung) (hc : f.closed) (hf : Follows f ks) (ha : Follows a ls) :
    Follows (.call f a p) (ks ++ .symbol .leftParen :: ls ++ [.symbol .rightParen]) := by
  intro trail outer _
  rw [List.append_assoc]
  refine (hf.callee hr hc trail outer).append ?_
  rintro _ ⟨f', rfl, hf'⟩
  refine takes_cons fun o ho => ⟨_, feed_argument ho, ?_⟩
  refine (ha.within _).append ?_
  rintro _ ⟨last, inner, rfl, ha'⟩
  refine takes_cons fun k hk => ⟨_, feed_argumentClose hk, takes_nil (leaves_operator ?_ _ _)⟩
  rw [Expr.unplaced, Expr.unplaced, hf', ha']

/-- An operator before its operand stays in the trail. What is left of the operand binds more
tightly. -/
theorem unary {op : UnaryOp} (hr : 7 ≤ e.rung) (h : Follows e ks) :
    Follows (.unary op e p) (.symbol op.symbol :: ks) := by
  intro trail outer _
  refine takes_cons fun o ho => ⟨_, feed_unary ho, ?_⟩
  have hfits : Fits e.rung (.unary op (some o.location) :: trail) := by
    simpa [Fits, Trailing.operandRung] using hr
  refine (h _ outer hfits).imp fun r hleaves => ?_
  refine hleaves.pop (fun e' he' => ?_) fun hc => ⟨hc, hr, Nat.le_refl 7⟩
  rw [Trailing.complete, Expr.unplaced, Expr.unplaced, he']

/-- An operator between operands completes all of the left one and nothing else, and stays in the
trail. -/
theorem binary {op : BinaryOp} (hl : op.precedence ≤ l.rung) (hc : l.closed)
    (hr : op.precedence < r.rung) (hleft : Follows l ks) (hright : Follows r ls) :
    Follows (.binary op l r p) (ks ++ .symbol op.symbol :: ls) := by
  intro trail outer hfits
  refine (hleft trail outer (hfits.mono hl)).append ?_
  rintro _ ⟨last, inner, rfl, hl', hprec⟩
  have hreduce : reduce op.precedence last (inner ++ trail) = (completeAll last inner, trail) :=
    reduce_append (fun t ht => Nat.le_trans hl (hprec hc t ht)) fun t ht =>
      Trailing.precedence_lt_of_operandRung_le op.precedence_pos op.precedence_lt_seven
        (hfits t ht)
  refine takes_cons fun o ho => ⟨_, feed_binary ho, ?_⟩
  rw [hreduce]
  have hfits' : Fits r.rung (.binary op (completeAll last inner) (some o.location) :: trail) := by
    simpa [Fits, Trailing.operandRung, Nat.succ_le_iff] using hr
  refine (hright _ outer hfits').imp fun _ hleaves => ?_
  refine hleaves.pop (fun r' hr' => ?_) fun hclosed =>
    ⟨hclosed, Nat.le_of_lt hr, Nat.le_refl op.precedence⟩
  rw [Trailing.complete, Expr.unplaced, Expr.unplaced, hl', hr']

/-- The question mark completes all of the condition and nothing else. The other branch stays in the
trail, as what follows may still belong to it. -/
theorem cond (hr : 1 ≤ c.rung) (hc : c.closed) (hcond : Follows c ks) (ht : Follows t ls)
    (he : Follows e ms) :
    Follows (.cond c t e p) (ks ++ .symbol .question :: ls ++ .symbol .colon :: ms) := by
  intro trail outer hfits
  rw [List.append_assoc]
  refine (hcond trail outer (hfits.mono (Nat.zero_le _))).append ?_
  rintro _ ⟨last, inner, rfl, hc', hprec⟩
  have hreduce : reduce 1 last (inner ++ trail) = (completeAll last inner, trail) :=
    reduce_append (fun t ht => Nat.le_trans hr (hprec hc t ht)) fun t ht => by
      rw [Trailing.precedence_eq_zero (hfits t ht)]
      exact Nat.one_pos
  refine takes_cons fun q hq => ⟨_, feed_question hq, ?_⟩
  rw [hreduce]
  refine (ht.within _).append ?_
  rintro _ ⟨last₁, inner₁, rfl, ht'⟩
  refine takes_cons fun k hk => ⟨_, feed_colon hk, ?_⟩
  refine (he _ outer (by simp [Fits, Trailing.operandRung])).imp fun _ hleaves => ?_
  refine hleaves.pop (fun e' he' => ?_) fun hclosed => absurd hclosed (by simp [Expr.closed])
  rw [Trailing.complete, Expr.unplaced, Expr.unplaced, hc', ht', he']

end Follows

/-- The tokens of a proper tree are read as that tree. -/
theorem follows_of_spells {e : Expr} {ks : List TokenKind} (hs : e.Spells ks) (hp : e.Proper) :
    Follows e ks := by
  induction hs with
  | literal c p => exact .literal c
  | name x p => exact .name x
  | paren p _ ih => exact .paren (ih hp)
  | arrow p hx _ ih => exact .arrow hx (ih hp)
  | call p _ _ ihf iha =>
    obtain ⟨hr, hc, hf, ha⟩ := hp
    exact .call hr hc (ihf hf) (iha ha)
  | unary op p _ ih =>
    obtain ⟨hr, he⟩ := hp
    exact .unary hr (ih he)
  | binary op p _ _ ihl ihr =>
    obtain ⟨hl, hc, hr, hpl, hpr⟩ := hp
    exact .binary hl hc hr (ihl hpl) (ihr hpr)
  | cond p _ _ _ ihc iht ihe =>
    obtain ⟨hr, hc, hpc, hpt, hpe⟩ := hp
    exact .cond hr hc (ihc hpc) (iht hpt) (ihe hpe)

/-- The tokens of a proper tree are read from the start as that tree. -/
theorem completes_of_spells {e : Expr} {ks : List TokenKind} (hs : e.Spells ks) (hp : e.Proper) :
    Completes ks fun e' => e'.unplaced = e.unplaced :=
  (follows_of_spells hs hp).within []

end Reading

end CallByNeed
