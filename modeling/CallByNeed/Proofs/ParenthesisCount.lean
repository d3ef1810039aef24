import CallByNeed.Proofs.PrintedPairs

/-!
# Counting parentheses

Parentheses around functions apart, three numbers are compared:

* how many pairs the printer puts in a tree (`neededIn`), which is the same for trees that are
  alike;
* how many pairs there are in a tree (`Expr.groups`), which are at least those that the printer puts
  if the tree is proper (`Expr.neededIn_le_groups`);
* how many parentheses are opened among tokens where an operand is due (`openings`), which are at
  least the pairs in the tree that the tokens are read as (`Expr.groups_le_openings`).
-/

namespace CallByNeed

open Grammar

/-! ## Counting parentheses in trees -/

namespace Expr

/-- Whether the expression is a function, parentheses around it apart. -/
def isFunction : Expr → Bool
  | paren e _ => e.isFunction
  | arrow _ _ _ => true
  | literal _ _ | name _ _ | call _ _ _ | unary _ _ _ | binary _ _ _ _ | cond _ _ _ _ => false

/-- How many pairs of parentheses in the tree stand around something that is no function. -/
def groups : Expr → ℕ
  | literal _ _ | name _ _ => 0
  | paren e _ => (if e.isFunction then 0 else 1) + e.groups
  | arrow _ e _ | unary _ e _ => e.groups
  | call f a _ => f.groups + a.groups
  | binary _ l r _ => l.groups + r.groups
  | cond c t e _ => c.groups + (t.groups + e.groups)

end Expr

/-- How many of the pairs stand around something that is no function. -/
def neededIn (pairs : List PrintedPair) : ℕ :=
  pairs.countP fun pair => !pair.inner.isFunction

@[simp]
theorem neededIn_nil : neededIn [] = 0 :=
  rfl

/-- Needed pairs are counted part by part. -/
@[simp]
theorem neededIn_append (pairs pairs' : List PrintedPair) :
    neededIn (pairs ++ pairs') = neededIn pairs + neededIn pairs' :=
  List.countP_append

/-- A pair is needed or not wherever its text stands. -/
@[simp]
theorem neededIn_map_within (before after : String) (pairs : List PrintedPair) :
    neededIn (pairs.map (.within before after)) = neededIn pairs := by
  rw [neededIn, List.countP_map]
  rfl

/-- Where parentheses are wanted, they add a needed pair, unless they are those of a function. -/
@[simp]
theorem neededIn_wrapPairs (wanted : Bool) (e : Expr) (pairs : List PrintedPair) :
    neededIn (wrapPairs wanted e pairs) =
      (if wanted && !e.isFunction then 1 else 0) + neededIn pairs := by
  cases wanted with
  | false => simp [wrapPairs]
  | true =>
    have hmap := neededIn_map_within "(" ")" pairs
    rw [neededIn] at hmap
    rw [wrapPairs, if_pos rfl, neededIn, List.countP_cons, hmap, Nat.add_comm, Bool.true_and]

/-- Parentheses are put only around what stands higher in the grammar than it binds. -/
theorem wrapPairs_of_precedence_eq {e : Expr} {wanted : Bool}
    (hwanted : wanted = true → e.precedence < e.rung) (h : e.precedence = e.rung)
    (pairs : List PrintedPair) : wrapPairs wanted e pairs = pairs := by
  cases wanted with
  | false => rfl
  | true => exact absurd h (hwanted rfl).ne

namespace Expr

/-- In a proper tree every part that the printer puts in parentheses is in parentheses already,
functions apart. So the printer puts no more pairs around what is no function than there are. -/
theorem neededIn_le_groups {e : Expr} (he : e.Proper) (wanted : Bool)
    (hwanted : wanted = true → e.precedence < e.rung) :
    neededIn (wrapPairs wanted e e.pairs) ≤ e.groups := by
  -- a proper part that is printed in a pair is a group: its rung is above its precedence
  induction e generalizing wanted with
  | literal | name =>
    rw [wrapPairs_of_precedence_eq hwanted rfl]
    exact Nat.zero_le _
  | paren e p ih =>
    have hinner := ih he false (by simp)
    rw [neededIn_wrapPairs, isFunction, pairs, groups]
    rw [neededIn_wrapPairs, Bool.false_and, if_neg Bool.false_ne_true, Nat.zero_add] at hinner
    cases e.isFunction <;> cases wanted <;> simp <;> omega
  | arrow x e p ih =>
    have hbody := ih he false (by simp)
    rw [neededIn_wrapPairs, isFunction, pairs, neededIn_map_within, groups]
    simpa using hbody
  | call f a p ihf iha =>
    have hcallee := ihf he.2.2.1 (f.precedence < 8) fun h => (of_decide_eq_true h).trans_le he.1
    have hargument := iha he.2.2.2 false (by simp)
    rw [wrapPairs_of_precedence_eq hwanted rfl, pairs, neededIn_append, neededIn_map_within,
      neededIn_map_within, groups]
    exact Nat.add_le_add hcallee hargument
  | unary op e p ih =>
    have hoperand := ih he.2 (e.precedence < 7) fun h => (of_decide_eq_true h).trans_le he.1
    rw [wrapPairs_of_precedence_eq hwanted rfl, pairs, neededIn_map_within, groups]
    exact hoperand
  | binary op l r p ihl ihr =>
    obtain ⟨hl, -, hr, hpl, hpr⟩ := he
    have hleft := ihl hpl (l.precedence < op.precedence) fun h => (of_decide_eq_true h).trans_le hl
    have hright := ihr hpr (r.precedence ≤ op.precedence) fun h => (of_decide_eq_true h).trans_lt hr
    rw [wrapPairs_of_precedence_eq hwanted rfl, pairs, neededIn_append, neededIn_map_within,
      neededIn_map_within, groups]
    exact Nat.add_le_add hleft hright
  | cond c t e p ihc iht ihe =>
    obtain ⟨hc, -, hpc, hpt, hpe⟩ := he
    have hcondition := ihc hpc (c.precedence ≤ 0) fun h => (of_decide_eq_true h).trans_lt hc
    have hthen := iht hpt false (by simp)
    have helse := ihe hpe false (by simp)
    rw [wrapPairs_of_precedence_eq hwanted rfl, pairs, neededIn_append, neededIn_append,
      neededIn_map_within, neededIn_map_within, neededIn_map_within, groups]
    exact Nat.add_le_add hcondition (Nat.add_le_add hthen helse)

end Expr

/-! ## Programs that are alike -/

namespace Expr

/-- Erasing keeps how tightly an expression binds. -/
theorem precedence_erase (e : Expr) : e.erase.precedence = e.precedence := by
  induction e <;> simp_all [erase, precedence]

/-- Erasing keeps which expressions are functions. -/
theorem isFunction_erase (e : Expr) : e.erase.isFunction = e.isFunction := by
  induction e <;> simp_all [erase, isFunction]

/-- Erasing keeps which pairs are needed. -/
theorem neededIn_pairs_erase (e : Expr) : neededIn e.erase.pairs = neededIn e.pairs := by
  induction e <;> simp_all [erase, pairs, precedence_erase, isFunction_erase]

/-- Expressions that are alike bind equally tightly. -/
theorem precedence_eq_of_alike {e f : Expr} (h : e.alike f) : e.precedence = f.precedence := by
  fun_induction alike e f <;> simp_all [precedence]

/-- Of two expressions that are alike, both are functions or none. -/
theorem isFunction_eq_of_alike {e f : Expr} (h : e.alike f) : e.isFunction = f.isFunction := by
  fun_induction alike e f <;> simp_all [isFunction]

/-- A part counts the same in trees that are alike. -/
theorem neededIn_wrapPairs_eq_of_alike {e f : Expr} (h : e.alike f) (wanted : Bool)
    (hneeded : neededIn e.pairs = neededIn f.pairs) :
    neededIn (wrapPairs wanted e e.pairs) = neededIn (wrapPairs wanted f f.pairs) := by
  rw [neededIn_wrapPairs, neededIn_wrapPairs, isFunction_eq_of_alike h, hneeded]

/-- The printer puts as many pairs in trees that are alike. -/
theorem neededIn_pairs_eq_of_alike {e f : Expr} (h : e.alike f) :
    neededIn e.pairs = neededIn f.pairs := by
  fun_induction alike e f with
  | case1 | case2 => rfl
  | case3 e _ f _ ih => exact ih h
  | case4 x e _ y f _ ih =>
    rw [Bool.and_eq_true] at h
    simpa only [pairs, neededIn_map_within] using ih h.2
  | case5 f a _ g b _ ihf iha =>
    rw [Bool.and_eq_true] at h
    simp only [pairs, neededIn_append, neededIn_map_within, precedence_eq_of_alike h.1,
      neededIn_wrapPairs_eq_of_alike h.1 _ (ihf h.1), iha h.2]
  | case6 o e _ p f _ ih =>
    rw [Bool.and_eq_true] at h
    simp only [pairs, neededIn_map_within, precedence_eq_of_alike h.2,
      neededIn_wrapPairs_eq_of_alike h.2 _ (ih h.2)]
  | case7 o l r _ p k s _ ihl ihr =>
    rw [Bool.and_eq_true, Bool.and_eq_true, beq_iff_eq] at h
    obtain ⟨⟨rfl, hl⟩, hr⟩ := h
    simp only [pairs, neededIn_append, neededIn_map_within, precedence_eq_of_alike hl,
      precedence_eq_of_alike hr, neededIn_wrapPairs_eq_of_alike hl _ (ihl hl),
      neededIn_wrapPairs_eq_of_alike hr _ (ihr hr)]
  | case8 c t e _ d u f _ ihc iht ihe =>
    rw [Bool.and_eq_true, Bool.and_eq_true] at h
    obtain ⟨⟨hc, ht⟩, he⟩ := h
    simp only [pairs, neededIn_append, neededIn_map_within, precedence_eq_of_alike hc,
      neededIn_wrapPairs_eq_of_alike hc _ (ihc hc), iht ht, ihe he]
  | case9 => cases h

end Expr

/-- How many pairs the printer puts in statements, those around functions apart. -/
def neededTotal (ss : List Statement) : ℕ :=
  (ss.map fun s => neededIn s.expr.pairs).sum

/-- The needed pairs of a statement are those of its expression. -/
theorem Statement.neededIn_pairs (s : Statement) : neededIn s.pairs = neededIn s.expr.pairs := by
  cases s <;> exact neededIn_map_within _ _ _

/-- The needed pairs of a program are those of its statements. -/
theorem neededIn_pairsIn (ss : List Statement) : neededIn (pairsIn ss) = neededTotal ss := by
  fun_induction pairsIn ss with
  | case1 => rfl
  | case2 s => simp [neededTotal, s.neededIn_pairs]
  | case3 s t ss ih =>
    rw [neededIn_append, neededIn_map_within, neededIn_map_within, s.neededIn_pairs, ih]
    rfl

/-- Statements that are alike have expressions that are alike. -/
theorem Statement.alike_expr {s t : Statement} (h : s.alike t) : s.expr.alike t.expr := by
  cases s with
  | declare x e p =>
    cases t with
    | declare y f q => exact (Bool.and_eq_true_iff.1 h).2
    | output => cases h
  | output o e p =>
    cases t with
    | declare => cases h
    | output u f q => exact (Bool.and_eq_true_iff.1 h).2

/-- Erasing keeps the number of needed pairs of a program. -/
theorem neededTotal_erase (ss : List Statement) :
    neededTotal (ss.map Statement.erase) = neededTotal ss := by
  have hexpr : ∀ s : Statement, s.erase.expr = s.expr.erase := fun s => by cases s <;> rfl
  simp [neededTotal, Function.comp_def, hexpr, Expr.neededIn_pairs_erase]

/-- Programs that are alike need the same number of pairs. -/
theorem neededTotal_eq_of_alike {ss ts : List Statement} (h : Program.alike.go ss ts) :
    neededTotal ss = neededTotal ts := by
  induction ss generalizing ts with
  | nil =>
    cases ts with
    | nil => rfl
    | cons => cases h
  | cons s ss ih =>
    cases ts with
    | nil => cases h
    | cons t ts =>
      rw [Program.alike.go, Bool.and_eq_true] at h
      rw [neededTotal, neededTotal, List.map_cons, List.map_cons, List.sum_cons, List.sum_cons,
        Expr.neededIn_pairs_eq_of_alike (Statement.alike_expr h.1)]
      exact congrArg _ (ih h.2)

/-! ## Counting parentheses among tokens -/

/-- Whether a token completes an operand, so that a parenthesis behind it opens an argument. The
words that open an output statement stand before an argument too. -/
@[simp]
def TokenKind.endsOperand : TokenKind → Bool
  | .number _ | .string _ | .identifier _ => true
  | .symbol .true_ | .symbol .false_ | .symbol .rightParen => true
  | .symbol .consoleLog | .symbol .inspectExpanded => true
  | _ => false

/-- Whether the tokens start with a parameter and the arrow behind it. -/
def startsFunction : List TokenKind → Bool
  | .identifier _ :: .symbol .arrow :: _ => true
  | _ => false

/-- How many parentheses are opened where an operand is due, those around functions apart. Whether
one is due before the first token is told, and before the others it is told by the token before. -/
def openings (due : Bool) : List TokenKind → ℕ
  | [] => 0
  | k :: ks =>
    (if due && k = .symbol .leftParen && !startsFunction ks then 1 else 0) +
      openings (!k.endsOperand) ks

/-- Where an operand is due, a parenthesis counts unless a function stands in it. -/
@[simp]
theorem openings_group (ks : List TokenKind) :
    openings true (.symbol .leftParen :: ks) =
      (if startsFunction ks then 0 else 1) + openings true ks := by
  cases h : startsFunction ks <;> simp [openings, h]

/-- A parenthesis after an operand belongs to a call and does not count. -/
@[simp]
theorem openings_argument (ks : List TokenKind) :
    openings false (.symbol .leftParen :: ks) = openings true ks := by
  simp [openings]

/-- Other tokens only tell whether an operand is due behind them. -/
theorem openings_of_ne {k : TokenKind} (hk : k ≠ .symbol .leftParen) (due : Bool)
    (ks : List TokenKind) : openings due (k :: ks) = openings (!k.endsOperand) ks := by
  simp [openings, hk]

/-- No other sign counts. -/
@[simp]
theorem openings_symbol {s : Symbol} (hs : s ≠ .leftParen) (due : Bool) (ks : List TokenKind) :
    openings due (.symbol s :: ks) = openings (!(TokenKind.symbol s).endsOperand) ks :=
  openings_of_ne (by simpa using hs) due ks

@[simp]
theorem openings_identifier (x : String) (due : Bool) (ks : List TokenKind) :
    openings due (.identifier x :: ks) = openings false ks :=
  openings_of_ne (by simp) due ks

@[simp]
theorem openings_token (c : Constant) (due : Bool) (ks : List TokenKind) :
    openings due (c.token :: ks) = openings false ks := by
  cases c with
  | boolean b => cases b <;> exact openings_symbol (by decide) due ks
  | _ => exact openings_of_ne (by simp [Constant.token]) due ks

/-- After an operator before its operand, the operand is due. -/
@[simp]
theorem openings_unary (op : UnaryOp) (due : Bool) (ks : List TokenKind) :
    openings due (.symbol op.symbol :: ks) = openings true ks := by
  cases op <;> exact openings_symbol (by decide) due ks

/-- After an operator between operands, the right one is due. -/
@[simp]
theorem openings_binary (op : BinaryOp) (due : Bool) (ks : List TokenKind) :
    openings due (.symbol op.symbol :: ks) = openings true ks := by
  cases op <;> exact openings_symbol (by decide) due ks

/-- The word of an output statement counts as an operand, so its parenthesis does not count. -/
@[simp]
theorem openings_output (o : Output) (due : Bool) (ks : List TokenKind) :
    openings due (.symbol o.symbol :: ks) = openings false ks := by
  cases o <;> exact openings_symbol (by decide) due ks

/-! ### What is read from tokens -/

namespace Expr

/-- What is closed is no function. -/
theorem ne_arrow_of_closed {e : Expr} (h : e.closed) (x : String) (body : Expr)
    (p : Option Location) : e ≠ arrow x body p := by
  rintro rfl
  cases h

/-- The tokens of a proper tree start like those of a function only if it is one. -/
theorem startsFunction_eq_false {e : Expr} {ks : List TokenKind} (hs : e.Spells ks) (hp : e.Proper)
    (he : ∀ x body p, e ≠ arrow x body p) {rest : List TokenKind}
    (hrest : rest.head? ≠ some (.symbol .arrow)) : startsFunction (ks ++ rest) = false := by
  induction hs generalizing rest with
  | literal c p =>
    cases c with
    | boolean b => cases b <;> rfl
    | _ => rfl
  | name x p =>
    -- an arrow can only come from behind the name
    unfold startsFunction
    split
    · next heq =>
      obtain ⟨-, rfl⟩ := List.cons.inj heq
      exact absurd rfl hrest
    · rfl
  | paren | unary => rfl
  | arrow p => exact absurd rfl (he _ _ p)
  | call p _ _ ihf _ =>
    rw [List.append_assoc, List.append_assoc]
    exact ihf hp.2.2.1 (ne_arrow_of_closed hp.2.1) (by simp)
  | binary op p _ _ ihl _ =>
    rw [List.append_assoc]
    refine ihl hp.2.2.2.1 (ne_arrow_of_closed hp.2.1) ?_
    cases op <;> simp [BinaryOp.symbol]
  | cond p _ _ _ ihc _ _ =>
    rw [List.append_assoc, List.append_assoc]
    exact ihc hp.2.2.1 (ne_arrow_of_closed hp.2.1) (by simp)

/-- Every pair of parentheses around something that is no function is opened where an operand is
due. -/
theorem groups_le_openings {e : Expr} {ks : List TokenKind} (hs : e.Spells ks) (hp : e.Proper)
    (rest : List TokenKind) (hrest : rest.head? ≠ some (.symbol .arrow)) :
    e.groups + openings false rest ≤ openings true (ks ++ rest) := by
  induction hs generalizing rest with
  | literal | name => simp [groups]
  | @paren e ts p hs ih =>
    have hinner := ih hp (.symbol .rightParen :: rest) (by simp)
    -- tokens that do not spell a function never start as one, so the parenthesis is counted
    have hopened : (if e.isFunction then 0 else 1) ≤
        if startsFunction (ts ++ .symbol .rightParen :: rest) then 0 else 1 := by
      cases hfun : e.isFunction with
      | true => simp
      | false =>
        have hne : ∀ x body p, e ≠ arrow x body p := by
          rintro x body p rfl
          cases hfun
        have hstarts : startsFunction (ts ++ .symbol .rightParen :: rest) = false :=
          startsFunction_eq_false hs hp hne (by simp)
        simp [hstarts]
    simp only [groups, List.cons_append, List.append_assoc, List.nil_append, openings_group]
    simp only [openings_symbol, ne_eq, reduceCtorEq, not_false_eq_true, TokenKind.endsOperand,
      Bool.not_true] at hinner
    omega
  | arrow p hx _ ih =>
    have hbody := ih hp rest hrest
    cases hx with
    | bare => simpa [groups] using hbody
    | grouped =>
      simp [groups]
      omega
  | @call f a ts us p _ _ ihf iha =>
    have hcallee :=
      ihf hp.2.2.1 (.symbol .leftParen :: us ++ .symbol .rightParen :: rest) (by simp)
    have hargument := iha hp.2.2.2 (.symbol .rightParen :: rest) (by simp)
    simp [groups] at hcallee hargument ⊢
    omega
  | unary op p _ ih => simpa [groups] using ih hp.2 rest hrest
  | @binary op l r ts us p _ _ ihl ihr =>
    have hleft := ihl hp.2.2.2.1 (.symbol op.symbol :: us ++ rest)
      (by cases op <;> simp [BinaryOp.symbol])
    have hright := ihr hp.2.2.2.2 rest hrest
    simp [groups] at hleft hright ⊢
    omega
  | @cond c t e ts us vs p _ _ _ ihc iht ihe =>
    have hcondition := ihc hp.2.2.1
      (.symbol .question :: us ++ .symbol .colon :: vs ++ rest) (by simp)
    have hthen := iht hp.2.2.2.1 (.symbol .colon :: vs ++ rest) (by simp)
    have helse := ihe hp.2.2.2.2 rest hrest
    simp [groups] at hcondition hthen helse ⊢
    omega

end Expr

/-- The tree of a derivation has the tokens that were derived. -/
theorem Grammar.Reads.spells {n : Nonterminal} {e : Expr} {ks after : List TokenKind}
    (h : Reads n e ks after) : e.Spells ks := by
  induction h with
  | plain _ ih | single _ ih | applied _ ih | callee _ ih => exact ih
  | conditional p _ _ _ ihc iht ihe => exact .cond p ihc iht ihe
  | operation op p _ _ ihl ihr => exact .binary op p ihl ihr
  | unary op p _ ih => exact .unary op p ih
  | call p _ _ ihf iha => exact .call p ihf iha
  | literal c p => exact .literal c p
  | arrow p hx _ _ ih => exact .arrow p hx ih
  | name x p => exact .name x p
  | group p _ ih => exact .paren p ih

/-- How many pairs of parentheses there are in statements, those around functions apart. -/
def groupTotal (ss : List Statement) : ℕ :=
  (ss.map fun s => s.expr.groups).sum

/-- The tokens of statements have enough openings for all the pairs in them. -/
theorem Grammar.ReadsProgram.groupTotal_le {ss : List Statement} {ks : List TokenKind}
    (h : ReadsProgram ss ks) (hss : ∀ s ∈ ss, s.expr.Proper) :
    groupTotal ss ≤ openings true ks := by
  induction h with
  | nil => exact Nat.zero_le _
  | @declare x e ts us ss p he _ ih =>
    obtain ⟨hproper, hss⟩ := List.forall_mem_cons.1 hss
    have hexpr := Expr.groups_le_openings he.spells hproper (.symbol .semicolon :: us) (by simp)
    have hrest := ih hss
    simp [groupTotal, Statement.expr] at hexpr hrest ⊢
    omega
  | @output o e ts us ss p he _ ih =>
    obtain ⟨hproper, hss⟩ := List.forall_mem_cons.1 hss
    have hexpr := Expr.groups_le_openings he.spells hproper
      (.symbol .rightParen :: .symbol .semicolon :: us) (by simp)
    have hrest := ih hss
    simp [groupTotal, Statement.expr] at hexpr hrest ⊢
    omega

/-- The printer puts no more pairs in proper statements than there are, those around functions
apart. -/
theorem neededTotal_le_groupTotal {ss : List Statement} (hss : ∀ s ∈ ss, s.expr.Proper) :
    neededTotal ss ≤ groupTotal ss := by
  refine List.sum_le_sum fun s hs => ?_
  simpa [wrapPairs] using Expr.neededIn_le_groups (hss s hs) false (by simp)

/-! ### What is read is proper -/

/-- The expression of a statement that a token completes is proper. -/
theorem Phase.proper_of_step {phase phase' : Phase} {ks : List TokenKind} (h : phase.Spells ks)
    {t : Token} {s : Statement} (ht : phase.step t = .ok (phase', some s)) : s.expr.Proper := by
  cases h with
  | between =>
    simp only [step] at ht
    split at ht <;> cases ht
  | letWord p =>
    simp only [step] at ht
    split at ht <;> cases ht
  | letName x p =>
    simp only [step] at ht
    split at ht <;> cases ht
  | outputWord o p =>
    simp only [step] at ht
    split at ht <;> cases ht
  | declare p hr =>
    simp only [step] at ht
    split at ht
    · cases ht
    · cases ht
    · next hfeed =>
      split at ht
      · cases ht
        exact (Reading.spells_done hr hfeed).2
      · cases ht
  | output p hr =>
    simp only [step] at ht
    split at ht
    · cases ht
    · cases ht
    · split at ht <;> cases ht
  | outputClosed p hs hp =>
    simp only [step] at ht
    split at ht
    · cases ht
      exact hp
    · cases ht

/-- The expressions of all statements that are read are proper. -/
theorem proper_of_parseFrom {phase : Phase} {ks : List TokenKind} (h : phase.Spells ks)
    {tokens : List Token} {ss : List Statement} (hss : parseFrom phase tokens = .ok ss) :
    ∀ s ∈ ss, s.expr.Proper := by
  induction tokens generalizing phase ks ss with
  | nil => cases hss
  | cons t tokens ih =>
    rw [parseFrom] at hss
    split at hss
    · cases hss
      simp
    · split at hss
      · cases hss
      · next phase' completed hstep =>
        have haccepted := Phase.accepted_step h hstep
        split at hss
        · cases hss
        · next statements hrest =>
          cases hss
          cases completed with
          | none => simpa using ih haccepted hrest
          | some s =>
            obtain ⟨rfl, -⟩ := haccepted
            simpa using ⟨Phase.proper_of_step h hstep, ih .between hrest⟩

end CallByNeed
