import CallByNeed.Proofs.Grammar
import Mathlib.Tactic.Common

/-!
# The reader accepts what the grammar derives

A `Reading` takes one token at a time. Whether it can go on depends only on whether an operand is
due and on what is open, never on the trail: so a phrase that the grammar derives is read from any
trail, and leaves what was open as it was. There is one lemma for each rule of the grammar, about
phrases that begin with an operand (`Begins`) or go on after one (`GoesOn`); `accepts_of_derives`
puts them together.

Together with the fact that a closing token never goes on with an expression outside of which
nothing is open, this bounds how far an expression can reach (`longest_of_stops`).
-/

namespace CallByNeed

/-- The symbols for operators between operands are those that the reader takes for them. -/
theorem Symbol.binaryOp?_eq_some_iff {s : Symbol} {op : BinaryOp} :
    s.binaryOp? = some op ↔ s = op.symbol := by
  cases s <;> cases op <;> simp [Symbol.binaryOp?, BinaryOp.symbol]

/-- The symbols for operators before an operand are those that the reader takes for them. -/
theorem Symbol.unaryOp?_eq_some_iff {s : Symbol} {op : UnaryOp} :
    s.unaryOp? = some op ↔ s = op.symbol := by
  cases s <;> cases op <;> simp [Symbol.unaryOp?, UnaryOp.symbol]

namespace Reading

/-- The reading after a list of tokens, if all of them belong to the expression. -/
def feedAll (r : Reading) : List Token → Option Reading
  | [] => some r
  | t :: ts =>
    match r.feed t with
    | .next r => r.feedAll ts
    | .done _ | .stuck _ => none

@[simp]
theorem feedAll_nil (r : Reading) : r.feedAll [] = some r :=
  rfl

/-- A token that belongs to the expression is fed first. -/
theorem feedAll_cons_of_next {r r' : Reading} {t : Token} (h : r.feed t = .next r')
    (ts : List Token) : r.feedAll (t :: ts) = r'.feedAll ts := by
  rw [feedAll, h]

/-- Feeding two lists is feeding one after the other. -/
theorem feedAll_append (r : Reading) (ts us : List Token) :
    r.feedAll (ts ++ us) = (r.feedAll ts).bind fun r => r.feedAll us := by
  induction ts generalizing r with
  | nil => rfl
  | cons t ts ih =>
    rw [List.cons_append, feedAll, feedAll]
    cases r.feed t with
    | next r' => exact ih r'
    | done e => rfl
    | stuck x => rfl

/-- If the first list is read, the second is fed to what it leaves. -/
theorem feedAll_append_of_some {r r' : Reading} {ts : List Token} (h : r.feedAll ts = some r')
    (us : List Token) : r.feedAll (ts ++ us) = r'.feedAll us := by
  rw [feedAll_append, h, Option.bind_some]

/-! ## One token at a time -/

section Tokens

variable {trail : List Trailing} {outer : List Level} {e : Expr} {t : Token}

/-- A constant is an operand. -/
theorem feed_constant {c : Constant} (h : t.kind = c.token) :
    (operand trail outer).feed t =
      .next (operator (.literal c (some t.location)) trail outer) := by
  obtain ⟨kind, place⟩ := t
  subst h
  rcases c with x | s | (_ | _) <;> rfl

/-- A name is an operand. -/
theorem feed_identifier {x : String} (h : t.kind = .identifier x) :
    (operand trail outer).feed t = .next (operator (.name x (some t.location)) trail outer) := by
  obtain ⟨kind, place⟩ := t
  subst h
  rfl

/-- Where an operand is due, a parenthesis opens a group. -/
theorem feed_group (h : t.kind = .symbol .leftParen) :
    (operand trail outer).feed t =
      .next (operand [] (⟨.group (some t.location), trail⟩ :: outer)) := by
  obtain ⟨kind, place⟩ := t
  subst h
  rfl

/-- An operator before its operand joins the trail. -/
theorem feed_unary {op : UnaryOp} (h : t.kind = .symbol op.symbol) :
    (operand trail outer).feed t =
      .next (operand (.unary op (some t.location) :: trail) outer) := by
  obtain ⟨kind, place⟩ := t
  subst h
  cases op <;> rfl

/-- After an operand, a parenthesis opens an argument. -/
theorem feed_argument (h : t.kind = .symbol .leftParen) :
    (operator e trail outer).feed t =
      .next (operand [] (⟨.argument e (some t.location), trail⟩ :: outer)) := by
  obtain ⟨kind, place⟩ := t
  subst h
  rfl

/-- A closing parenthesis completes the group. -/
theorem feed_groupClose {p : Option Location} {ts : List Trailing}
    (h : t.kind = .symbol .rightParen) :
    (operator e trail (⟨.group p, ts⟩ :: outer)).feed t =
      .next (operator (.paren (completeAll e trail) p) ts outer) := by
  obtain ⟨kind, place⟩ := t
  subst h
  rfl

/-- A closing parenthesis completes the call. -/
theorem feed_argumentClose {f : Expr} {p : Option Location} {ts : List Trailing}
    (h : t.kind = .symbol .rightParen) :
    (operator e trail (⟨.argument f p, ts⟩ :: outer)).feed t =
      .next (operator (.call f (completeAll e trail) p) ts outer) := by
  obtain ⟨kind, place⟩ := t
  subst h
  rfl

/-- A question mark turns what binds more tightly into a condition. -/
theorem feed_question (h : t.kind = .symbol .question) :
    (operator e trail outer).feed t =
      .next (operand []
        (⟨.consequent (reduce 1 e trail).1 (some t.location), (reduce 1 e trail).2⟩ :: outer)) := by
  obtain ⟨kind, place⟩ := t
  subst h
  rfl

/-- A colon completes the first branch of a conditional. -/
theorem feed_colon {c : Expr} {p : Option Location} {ts : List Trailing}
    (h : t.kind = .symbol .colon) :
    (operator e trail (⟨.consequent c p, ts⟩ :: outer)).feed t =
      .next (operand (.alternate c (completeAll e trail) p :: ts) outer) := by
  obtain ⟨kind, place⟩ := t
  subst h
  rfl

/-- An operator between operands completes what binds at least as tightly. -/
theorem feed_binary {op : BinaryOp} (h : t.kind = .symbol op.symbol) :
    (operator e trail outer).feed t =
      .next (operand
        (.binary op (reduce op.precedence e trail).1 (some t.location) ::
          (reduce op.precedence e trail).2) outer) := by
  obtain ⟨kind, place⟩ := t
  subst h
  cases op <;> rfl

/-- An arrow turns a parameter into a function without its body. -/
theorem feed_arrow {x : String} {p : Option Location} (hx : parameter? e = some (x, p))
    (h : t.kind = .symbol .arrow) :
    (operator e trail outer).feed t = .next (operand (.arrow x p :: trail) outer) := by
  simp [feed, feedOperator, h, hx]

end Tokens

/-! ## Several tokens -/

/-- Tokens of these kinds belong to the expression, one after the other, and lead to a reading of
which `Q` holds. -/
def Takes (r : Reading) (ks : List TokenKind) (Q : Reading → Prop) : Prop :=
  ∀ ts : List Token, ts.map Token.kind = ks → ∃ r', r.feedAll ts = some r' ∧ Q r'

section Takes

variable {r : Reading} {ks ls : List TokenKind} {P Q : Reading → Prop}

/-- Nothing need be read. -/
theorem takes_nil (h : Q r) : r.Takes [] Q := by
  intro ts hts
  obtain rfl := List.map_eq_nil_iff.1 hts
  exact ⟨r, rfl, h⟩

/-- One token is read, and then the others. -/
theorem takes_cons {k : TokenKind}
    (h : ∀ t : Token, t.kind = k → ∃ r', r.feed t = .next r' ∧ r'.Takes ks Q) :
    r.Takes (k :: ks) Q := by
  intro ts hts
  obtain ⟨t, ts, rfl, ht, hts⟩ := List.map_eq_cons_iff.1 hts
  obtain ⟨r', hfeed, hr'⟩ := h t ht
  rw [feedAll_cons_of_next hfeed]
  exact hr' ts hts

/-- What is known of the reading may be weakened. -/
theorem Takes.imp (h : r.Takes ks P) (hPQ : ∀ r', P r' → Q r') : r.Takes ks Q := by
  intro ts hts
  obtain ⟨r', hfeed, hr'⟩ := h ts hts
  exact ⟨r', hfeed, hPQ r' hr'⟩

/-- Some tokens are read, and then the others. -/
theorem Takes.append (h : r.Takes ks P) (h' : ∀ r', P r' → r'.Takes ls Q) :
    r.Takes (ks ++ ls) Q := by
  intro ts hts
  obtain ⟨ts, us, rfl, hts, hus⟩ := List.map_eq_append_iff.1 hts
  obtain ⟨r', hfeed, hr'⟩ := h ts hts
  rw [feedAll_append_of_some hfeed]
  exact h' r' hr' us hus

end Takes

/-! ## Phrases -/

/-- The phrase is read where an operand is due, whatever the trail is. What is open stays open. -/
def Begins (ks : List TokenKind) : Prop :=
  ∀ trail outer, (operand trail outer).Takes ks fun r => ∃ e trail', r = operator e trail' outer

/-- The phrase is read after an operand, whatever that and the trail are. What is open stays
open. -/
def GoesOn (ks : List TokenKind) : Prop :=
  ∀ e trail outer, (operator e trail outer).Takes ks fun r =>
    ∃ e' trail', r = operator e' trail' outer

section Phrases

variable {ks ls ms : List TokenKind}

open Grammar in
/-- The head of a function leaves the reader where the body is due. -/
theorem takes_arrowHead {x : String} (h : ArrowHead x ks) (trail : List Trailing)
    (outer : List Level) :
    (operand trail outer).Takes ks fun r => ∃ p, r = operand (.arrow x p :: trail) outer := by
  cases h with
  | bare =>
    refine takes_cons fun t ht => ⟨_, feed_identifier ht, ?_⟩
    exact takes_cons fun u hu => ⟨_, feed_arrow rfl hu, takes_nil ⟨_, rfl⟩⟩
  | grouped =>
    refine takes_cons fun t ht => ⟨_, feed_group ht, ?_⟩
    refine takes_cons fun u hu => ⟨_, feed_identifier hu, ?_⟩
    refine takes_cons fun v hv => ⟨_, feed_groupClose hv, ?_⟩
    exact takes_cons fun w hw => ⟨_, feed_arrow rfl hw, takes_nil ⟨_, rfl⟩⟩

namespace Begins

/-- A constant is an operand. -/
theorem literal (c : Constant) : Begins [c.token] := fun _ _ =>
  takes_cons fun _ ht => ⟨_, feed_constant ht, takes_nil ⟨_, _, rfl⟩⟩

/-- A name is an operand. -/
theorem name (x : String) : Begins [.identifier x] := fun _ _ =>
  takes_cons fun _ ht => ⟨_, feed_identifier ht, takes_nil ⟨_, _, rfl⟩⟩

/-- What stands in parentheses has a trail of its own. -/
theorem group (h : Begins ks) : Begins (.symbol .leftParen :: ks ++ [.symbol .rightParen]) := by
  intro trail outer
  refine takes_cons fun o ho => ⟨_, feed_group ho, ?_⟩
  refine (h _ _).append ?_
  rintro _ ⟨e, trail₁, rfl⟩
  exact takes_cons fun c hc => ⟨_, feed_groupClose hc, takes_nil ⟨_, _, rfl⟩⟩

open Grammar in
/-- The body of a function is read after its head. -/
theorem arrow {x : String} (hx : ArrowHead x ks) (h : Begins ls) : Begins (ks ++ ls) := by
  intro trail outer
  refine (takes_arrowHead hx trail outer).append ?_
  rintro _ ⟨p, rfl⟩
  exact h _ _

/-- An operand is read after the operator before it. -/
theorem unary (op : UnaryOp) (h : Begins ks) : Begins (.symbol op.symbol :: ks) := fun _ _ =>
  takes_cons fun _ ho => ⟨_, feed_unary ho, h _ _⟩

/-- An operand is read, and then what goes on after it. -/
theorem append (h : Begins ks) (h' : GoesOn ls) : Begins (ks ++ ls) := by
  intro trail outer
  refine (h trail outer).append ?_
  rintro _ ⟨e, trail₁, rfl⟩
  exact h' e trail₁ outer

/-- The condition and both branches of a conditional are read one after the other. -/
theorem conditional (hc : Begins ks) (ht : Begins ls) (he : Begins ms) :
    Begins (ks ++ .symbol .question :: ls ++ .symbol .colon :: ms) := by
  intro trail outer
  rw [List.append_assoc]
  refine (hc trail outer).append ?_
  rintro _ ⟨c, trail₁, rfl⟩
  -- the question mark completes a part of the trail, and keeps the rest for the other branch
  refine takes_cons fun q hq => ⟨_, feed_question hq, ?_⟩
  refine (ht _ _).append ?_
  rintro _ ⟨t, trail₂, rfl⟩
  exact takes_cons fun k hk => ⟨_, feed_colon hk, he _ _⟩

end Begins

namespace GoesOn

/-- Nothing need go on after an operand. -/
theorem nil : GoesOn [] := fun e trail _ =>
  takes_nil ⟨e, trail, rfl⟩

/-- The operator completes a part of the trail, and the right operand is read after the rest. -/
theorem operation (op : BinaryOp) (h : Begins ks) (h' : GoesOn ls) :
    GoesOn (.symbol op.symbol :: ks ++ ls) := by
  intro e trail outer
  refine takes_cons fun o ho => ⟨_, feed_binary ho, ?_⟩
  exact h.append h' _ _

/-- The argument has a trail of its own, and the old one goes on behind the parenthesis. -/
theorem argument (h : Begins ks) (h' : GoesOn ls) :
    GoesOn (.symbol .leftParen :: ks ++ .symbol .rightParen :: ls) := by
  intro f trail outer
  refine takes_cons fun o ho => ⟨_, feed_argument ho, ?_⟩
  refine (h _ _).append ?_
  rintro _ ⟨a, trail₁, rfl⟩
  exact takes_cons fun c hc => ⟨_, feed_argumentClose hc, h' _ _ _⟩

end GoesOn

end Phrases

/-- What the reader does with a phrase of a nonterminal within expressions. -/
def Accepts : Grammar.Nonterminal → List TokenKind → Prop
  | .program, _ | .statement, _ => True
  | .operations _, ks | .arguments, ks => GoesOn ks
  | .expr, ks | .chain _, ks | .unary, ks | .call, ks | .primary, ks => Begins ks

/-- The rungs below that of a family are read where an operand is due. -/
theorem accepts_operand {f : BinaryOp.Family} {ks : List TokenKind} :
    Accepts (Grammar.operand f) ks ↔ Begins ks := by
  cases f <;> rfl

open Grammar in
/-- Every phrase that the grammar derives is read. The induction follows the derivation; the trail
is arbitrary in each step, which is why the ambiguity of the grammar does no harm here. -/
theorem accepts_of_derives {n : Nonterminal} {ks : List TokenKind} (h : Derives n ks) :
    Accepts n ks := by
  induction h with
  | noStatement | statements | declaration | output => trivial
  | plain _ ih => exact ih
  | conditional _ _ _ ihc iht ihe => exact Begins.conditional ihc iht ihe
  | chain _ _ ih₁ ih₂ => exact Begins.append (accepts_operand.1 ih₁) ih₂
  | noOperation f => exact GoesOn.nil
  | operation op _ _ ih₁ ih₂ => exact GoesOn.operation op (accepts_operand.1 ih₁) ih₂
  | unary op _ ih => exact Begins.unary op ih
  | applied _ ih => exact ih
  | call _ _ ih₁ ih₂ => exact Begins.append ih₁ ih₂
  | noArgument => exact GoesOn.nil
  | argument _ _ ih₁ ih₂ => exact GoesOn.argument ih₁ ih₂
  | literal c => exact Begins.literal c
  | arrow hx _ ih => exact Begins.arrow hx ih
  | name x => exact Begins.name x
  | group _ ih => exact Begins.group ih

/-- Tokens of these kinds are read from the start as an expression of which `P` holds. -/
def Completes (ks : List TokenKind) (P : Expr → Prop) : Prop :=
  start.Takes ks fun r => ∃ e trail, r = operator e trail [] ∧ P (completeAll e trail)

/-- Tokens from which an expression is derived are read as one. -/
theorem completes_of_derives {ks : List TokenKind} (h : Grammar.Derives .expr ks) :
    Completes ks fun _ => True := by
  have hbegins : Begins ks := accepts_of_derives h
  refine (hbegins [] []).imp ?_
  rintro _ ⟨e, trail, rfl⟩
  exact ⟨e, trail, rfl, trivial⟩

/-! ## Where an expression ends -/

/-- Nothing follows, or a token that never goes on with an expression. -/
def Stops (after : List TokenKind) : Prop :=
  ∀ k ∈ after.head?, k = .symbol .rightParen ∨ k = .symbol .colon ∨ k = .symbol .semicolon

/-- With nothing open, a token that never goes on with an expression ends it. -/
theorem feedAll_stop {t : Token}
    (h : t.kind = .symbol .rightParen ∨ t.kind = .symbol .colon ∨ t.kind = .symbol .semicolon)
    (e : Expr) (trail : List Trailing) (ts : List Token) :
    (operator e trail []).feedAll (t :: ts) = none := by
  rcases h with h | h | h <;> simp [feedAll, feed, feedOperator, h, leave, Symbol.binaryOp?]

open Grammar in
/-- An expression that is followed by nothing, or by a token that never goes on with one, is the
longest that starts there: a longer one would be read, but the reader stops at that token. -/
theorem longest_of_stops {ks after : List TokenKind} (hks : Derives .expr ks)
    (hafter : Stops after) : Longest ks after := by
  intro us hus hd
  by_contra hlen
  obtain ⟨rest, hrest⟩ : ks <+: us :=
    List.prefix_of_prefix_length_le (List.prefix_append ks after) hus (by omega)
  subst hrest
  obtain ⟨k, rest, rfl⟩ : ∃ k rest', rest = k :: rest' :=
    List.exists_cons_of_ne_nil fun h => hlen (by simp [h])
  -- the longer expression goes on with the token that stops the reader
  have hk : k ∈ after.head? := by
    obtain ⟨tail, htail⟩ := (List.prefix_append_right_inj ks).1 hus
    simp [← htail]
  -- any tokens of these kinds will do
  let token : TokenKind → Token := fun k => ⟨k, .first 0⟩
  have hkinds (ks : List TokenKind) : (ks.map token).map Token.kind = ks := by
    simp [token, Function.comp_def]
  obtain ⟨_, h₁, e, trail, rfl, -⟩ := completes_of_derives hks _ (hkinds ks)
  obtain ⟨_, h₂, -⟩ := completes_of_derives hd _ (hkinds _)
  rw [List.map_append, feedAll_append_of_some h₁, List.map_cons,
    feedAll_stop (hafter k hk)] at h₂
  cases h₂

end Reading

end CallByNeed
