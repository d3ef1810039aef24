import CallByNeed.Proofs.PrintedTrees

/-!
# The tokens of printed expressions

`Prints text ks` says that a text, with something behind it that cannot go on with it, is cut into
the tokens `ks`. Every well-formed expression prints as some tokens (`Expr.printsAs`). If its
numbers are all plain, these are the tokens of the printed tree. If not, each number that is not
plain brings in one identifier, the `e` before its exponent or `Infinity`, which no tree accounts
for: this is why such a text is not read as the expression it was printed from.
-/

namespace CallByNeed

open Lexeme

/-! ## Texts and tokens -/

/-- What follows an expression in a printed text. -/
def Follows (rest : List Char) : Prop :=
  ∃ c cs, rest = c :: cs ∧ c ∈ [' ', '(', ')', ';']

namespace Follows

/-- A blank may follow an expression. -/
theorem space (cs : List Char) : Follows (' ' :: cs) :=
  ⟨' ', cs, rfl, by decide⟩

/-- An opening parenthesis may follow an expression. -/
theorem leftParen (cs : List Char) : Follows ('(' :: cs) :=
  ⟨'(', cs, rfl, by decide⟩

/-- A closing parenthesis may follow an expression. -/
theorem rightParen (cs : List Char) : Follows (')' :: cs) :=
  ⟨')', cs, rfl, by decide⟩

/-- A semicolon may follow an expression. -/
theorem semicolon (cs : List Char) : Follows (';' :: cs) :=
  ⟨';', cs, rfl, by decide⟩

variable {rest : List Char}

/-- What follows an expression does not go on with a word. -/
theorem endsWord (h : Follows rest) : EndsWord rest := by
  obtain ⟨c, cs, rfl, hc⟩ := h
  rintro d hd
  cases hd
  fin_cases hc <;> decide

/-- What follows an expression does not go on with a number. -/
theorem endsNumeral (h : Follows rest) : EndsNumeral rest := by
  obtain ⟨c, cs, rfl, hc⟩ := h
  rintro d hd
  cases hd
  fin_cases hc <;> decide

end Follows

/-- Whether a token is an identifier. -/
def TokenKind.isIdentifier : TokenKind → Bool
  | .identifier _ => true
  | _ => false

/-- How many of the tokens are identifiers. -/
def identifiersIn (ks : List TokenKind) : ℕ :=
  ks.countP TokenKind.isIdentifier

@[simp]
theorem identifiersIn_nil : identifiersIn [] = 0 :=
  rfl

/-- Identifiers are counted part by part. -/
@[simp]
theorem identifiersIn_append (ks us : List TokenKind) :
    identifiersIn (ks ++ us) = identifiersIn ks + identifiersIn us :=
  List.countP_append

@[simp]
theorem identifiersIn_symbol (s : Symbol) (ks : List TokenKind) :
    identifiersIn (.symbol s :: ks) = identifiersIn ks :=
  List.countP_cons_of_neg Bool.false_ne_true

@[simp]
theorem identifiersIn_identifier (x : String) (ks : List TokenKind) :
    identifiersIn (.identifier x :: ks) = identifiersIn ks + 1 :=
  List.countP_cons_of_pos rfl

@[simp]
theorem identifiersIn_token (c : Constant) (ks : List TokenKind) :
    identifiersIn (c.token :: ks) = identifiersIn ks :=
  List.countP_cons_of_neg (by cases c with | boolean b => cases b <;> decide | _ => exact nofun)

/-- The text is cut into these tokens if nothing goes on with it, and it can stand behind an
operator. -/
structure Prints (text : List Char) (ks : List TokenKind) : Prop where
  /-- The text does not start with an equals sign. -/
  head : ∃ c t, text = c :: t ∧ c ≠ '='
  /-- The tokens of the text come before those of what follows it. -/
  lexes : ∀ {rest : List Char} {ks' : List TokenKind}, Follows rest → LexesTo rest ks' →
    LexesTo (text ++ rest) (ks ++ ks')

namespace Prints

variable {text t u v : List Char} {ks ts us vs : List TokenKind}

/-- No printed text begins with an equals sign, so an exclamation mark before it stands alone. -/
theorem endsNot (h : Prints text ks) (rest : List Char) : EndsNot (text ++ rest) := by
  obtain ⟨c, t, rfl, hc⟩ := h.head
  rintro d hd
  cases hd
  exact hc

/-- A name is printed as one identifier. -/
theorem name {x : String} (hx : IsName x) : Prints x.toList [.identifier x] := by
  have hx := isName_iff.1 hx
  refine ⟨?_, fun hrest h => h.name hx hrest.endsWord⟩
  obtain ⟨c, t, hxt, hc, -, -⟩ := hx
  refine ⟨c, t, hxt, ?_⟩
  rintro rfl
  exact absurd hc (by decide)

/-- A text in quotes is printed as one token. -/
theorem quote (s : String) : Prints (CallByNeed.quote s).toList [.string s] :=
  ⟨⟨'"', _, toList_quote s, by decide⟩, fun _ h => h.quote s⟩

/-- A truth value is printed as one word. -/
theorem boolean (b : Bool) :
    Prints (Constant.boolean b).render.toList [(Constant.boolean b).token] := by
  cases b with
  | true =>
    exact ⟨⟨'t', _, rfl, by decide⟩, fun hrest h =>
      h.word (c := 't') (t := ['r', 'u', 'e']) rfl (by simp [continuesName]) hrest.endsWord⟩
  | false =>
    exact ⟨⟨'f', _, rfl, by decide⟩, fun hrest h =>
      h.word (c := 'f') (t := ['a', 'l', 's', 'e']) rfl (by simp [continuesName])
        hrest.endsWord⟩

/-- Digits with an optional fraction are printed as one number. -/
theorem numeral {whole part : List Char} (hne : whole ≠ []) (hwhole : ∀ c ∈ whole, c.isDigit)
    (hpart : ∀ c ∈ part, c.isDigit) :
    Prints (CallByNeed.numeral whole part)
      [.number ((numeralValue whole part).toFloat false)] := by
  refine ⟨?_, fun hrest h => h.numeral hne hwhole hpart hrest.endsNumeral⟩
  obtain ⟨c, whole, rfl⟩ := List.exists_cons_of_ne_nil hne
  refine ⟨c, _, rfl, ?_⟩
  rintro rfl
  exact absurd (hwhole '=' List.mem_cons_self) (by decide)

/-- A plain number is one token. -/
theorem number {x : Float} (hx : 0 ≤ x) (h : Number.Plain x) :
    Prints (Number.display x).toList [.number (Number.unsigned x)] := by
  obtain ⟨whole, part, htext, hne, hwhole, hpart, hvalue⟩ := Number.display_of_plain hx h
  rw [htext, ← hvalue]
  exact numeral hne hwhole hpart

/-- A number with an exponent is cut into four tokens, one of which is an identifier. -/
theorem exponent {text : List Char} (h : HasExponent text) :
    ∃ ks, Prints text ks ∧ identifiersIn ks = 1 := by
  obtain ⟨mantissa, v, sign, power, rfl, ⟨whole, part, rfl, hne, hwhole, hpart, -⟩, hsign,
    hpower, hdigits⟩ := h
  have hhead : ∃ c t, CallByNeed.numeral whole part ++ 'e' :: sign :: power = c :: t ∧ c ≠ '=' := by
    obtain ⟨c, t, htext, hc⟩ := (numeral hne hwhole hpart).head
    exact ⟨c, t ++ 'e' :: sign :: power, by rw [htext, List.cons_append], hc⟩
  have hpow : power = CallByNeed.numeral power [] := by simp [CallByNeed.numeral]
  -- the letter is a word of its own, because a sign follows it
  have hword : ∀ rest, EndsWord (sign :: power ++ rest) := by
    rintro rest c hc
    cases hc
    rcases hsign with rfl | rfl <;> decide
  refine ⟨[.number ((numeralValue whole part).toFloat false), .identifier "e",
    .symbol (if sign = '+' then .plus else .minus),
    .number ((numeralValue power []).toFloat false)], ⟨hhead, ?_⟩, rfl⟩
  intro rest ks' hrest h
  have hlast : LexesTo (CallByNeed.numeral power [] ++ rest) _ :=
    h.numeral hpower hdigits (by simp) hrest.endsNumeral
  rw [← hpow] at hlast
  have hsigned : LexesTo (sign :: power ++ rest)
      (.symbol (if sign = '+' then .plus else .minus) ::
        .number ((numeralValue power []).toFloat false) :: ks') := by
    rcases hsign with rfl | rfl
    · exact hlast.plus
    · exact hlast.minus
  have hletter := hsigned.word (c := 'e') (t := []) rfl (by simp) (hword rest)
  rw [List.append_assoc]
  refine hletter.numeral hne hwhole hpart ?_
  rintro c hc
  cases hc
  decide

/-- A number that is not plain brings in an identifier. -/
theorem notPlain {x : Float} (hx : 0 ≤ x) (h : ¬Number.Plain x) :
    ∃ ks, Prints (Number.display x).toList ks ∧ identifiersIn ks = 1 := by
  rcases Number.display_of_not_plain hx h with htext | hexp
  · rw [htext]
    exact ⟨_, name (by rfl), rfl⟩
  · exact exponent hexp

/-! ## Composed texts -/

/-- A text in parentheses, if they are wanted. -/
theorem parenthesize {text : String} (wanted : Bool) (h : Prints text.toList ks) :
    Prints (CallByNeed.parenthesize wanted text).toList
      (if wanted then .symbol .leftParen :: ks ++ [.symbol .rightParen] else ks) := by
  cases wanted with
  | false => exact h
  | true =>
    have htext : (CallByNeed.parenthesize true text).toList = '(' :: (text.toList ++ [')']) := by
      simp [CallByNeed.parenthesize]
    rw [htext]
    refine ⟨⟨'(', _, rfl, by decide⟩, fun hrest hks => ?_⟩
    have hinner := h.lexes (.rightParen _) hks.rightParen
    simpa using hinner.leftParen

/-- A function is printed as its parameter, an arrow and its body. -/
theorem arrow {x : String} (hx : IsName x) (h : Prints t ts) :
    Prints (x.toList ++ ' ' :: '=' :: '>' :: ' ' :: t)
      (.identifier x :: .symbol .arrow :: ts) := by
  obtain ⟨c, u, hxu, hc⟩ := (name hx).head
  refine ⟨⟨c, _, by rw [hxu, List.cons_append], hc⟩, fun hrest hks => ?_⟩
  have hbody := (h.lexes hrest hks).arrow.blank (c := ' ') rfl
  simpa using (name hx).lexes (.space _) hbody

/-- A call is printed as its callee and the argument in parentheses. -/
theorem call (hf : Prints t ts) (ha : Prints u us) :
    Prints (t ++ '(' :: u ++ [')'])
      (ts ++ .symbol .leftParen :: us ++ [.symbol .rightParen]) := by
  obtain ⟨c, w, rfl, hc⟩ := hf.head
  refine ⟨⟨c, _, rfl, hc⟩, fun hrest hks => ?_⟩
  have hargument := (ha.lexes (.rightParen _) hks.rightParen).leftParen
  simpa using hf.lexes (.leftParen _) hargument

/-- An operator before its operand is printed right before it. -/
theorem unary (op : UnaryOp) (h : Prints t ts) :
    Prints (op.text.toList ++ t) (.symbol op.symbol :: ts) := by
  refine ⟨?_, fun hrest hks => ?_⟩
  · cases op with
    | not => exact ⟨'!', t, rfl, by decide⟩
    | negate => exact ⟨'-', t, rfl, by decide⟩
  · rw [List.append_assoc]
    exact (h.lexes hrest hks).unary op (h.endsNot _)

/-- An operator between operands is printed with blanks around it. -/
theorem binary (op : BinaryOp) (hl : Prints t ts) (hr : Prints u us) :
    Prints (t ++ ' ' :: (op.text.toList ++ ' ' :: u)) (ts ++ .symbol op.symbol :: us) := by
  obtain ⟨c, w, rfl, hc⟩ := hl.head
  refine ⟨⟨c, _, rfl, hc⟩, fun hrest hks => ?_⟩
  have hright := ((hr.lexes hrest hks).binary op).blank (c := ' ') rfl
  simpa using hl.lexes (.space _) hright

/-- The condition and both branches of a conditional are printed with signs between them. -/
theorem cond (hc : Prints t ts) (ht : Prints u us) (he : Prints v vs) :
    Prints (t ++ ' ' :: '?' :: ' ' :: (u ++ ' ' :: ':' :: ' ' :: v))
      (ts ++ .symbol .question :: us ++ .symbol .colon :: vs) := by
  obtain ⟨c, w, rfl, hne⟩ := hc.head
  refine ⟨⟨c, _, rfl, hne⟩, fun hrest hks => ?_⟩
  have helse := (he.lexes hrest hks).colon.blank (c := ' ') rfl
  have hthen := (ht.lexes (.space _) helse).question.blank (c := ' ') rfl
  simpa using hc.lexes (.space _) hthen

/-- The text of a declaration, with what follows it. -/
theorem declare {x : String} (hx : IsName x) (h : Prints t ts) {rest : List Char}
    {ks' : List TokenKind} (hrest : LexesTo rest ks') :
    LexesTo ('l' :: 'e' :: 't' :: ' ' :: (x.toList ++ ' ' :: '=' :: ' ' :: (t ++ ';' :: rest)))
      (.symbol .let_ :: .identifier x :: .symbol .assign :: (ts ++ .symbol .semicolon :: ks')) := by
  have hexpr := (h.lexes (.semicolon _) hrest.semicolon).assign.blank (c := ' ') rfl
  have hname := ((name hx).lexes (.space _) hexpr).blank (c := ' ') rfl
  have hlet := hname.word (c := 'l') (t := ['e', 't']) rfl (by simp [Lexeme.continuesName])
    (Follows.space _).endsWord
  have hword : Lexeme.word ['l', 'e', 't'] = .symbol .let_ := rfl
  simpa [hword] using hlet

/-- The text of an output statement, with what follows it. -/
theorem output (o : Output) (h : Prints t ts) {rest : List Char} {ks' : List TokenKind}
    (hrest : LexesTo rest ks') :
    LexesTo (o.keyword.toList ++ '(' :: (t ++ ')' :: ';' :: rest))
      (.symbol o.symbol :: .symbol .leftParen ::
        (ts ++ .symbol .rightParen :: .symbol .semicolon :: ks')) :=
  (h.lexes (.rightParen _) hrest.semicolon.rightParen).leftParen.output o

end Prints

/-! ## Expressions -/

/-- The number of constants among these that are not plain. -/
def unplainCount (xs : List Float) : ℕ :=
  xs.countP fun x => ¬Number.Plain x

/-- Numbers that are not plain are counted part by part. -/
theorem unplainCount_append (xs ys : List Float) :
    unplainCount (xs ++ ys) = unplainCount xs + unplainCount ys :=
  List.countP_append

/-- No number is counted exactly if all are plain. -/
theorem unplainCount_eq_zero {xs : List Float} :
    unplainCount xs = 0 ↔ ∀ x ∈ xs, Number.Plain x := by
  simp [unplainCount, List.countP_eq_zero]

/-- The text prints as tokens in which `identifiers` identifiers stand, and if all the numbers are
plain they spell the tree. -/
def PrintsAs (text : String) (tree : Expr) (identifiers : ℕ) (numbers : List Float) : Prop :=
  ∃ ks, Prints text.toList ks ∧
    identifiersIn ks = identifiers + unplainCount numbers ∧
    (unplainCount numbers = 0 → tree.Spells ks)

/-- Parentheses around a text are parentheses around the tree. -/
theorem PrintsAs.parenthesize {text : String} {tree : Expr} {n : ℕ} {xs : List Float}
    (wanted : Bool) (h : PrintsAs text tree n xs) :
    PrintsAs (CallByNeed.parenthesize wanted text) (tree.wrap wanted) n xs := by
  obtain ⟨ks, hprints, hcount, hspells⟩ := h
  refine ⟨_, hprints.parenthesize wanted, ?_, fun hplain => ?_⟩
  · cases wanted with
    | false => exact hcount
    | true => simpa using hcount
  · cases wanted with
    | false => exact hspells hplain
    | true => exact .paren none (hspells hplain)

/-- The text of a constant. -/
theorem Constant.printsAs {c : Constant} (hc : c.WellFormed) :
    PrintsAs c.render (.literal c.unsigned none) 0 c.numbers := by
  cases c with
  | string s => exact ⟨_, Prints.quote s, rfl, fun _ => .literal _ _⟩
  | boolean b => exact ⟨_, Prints.boolean b, identifiersIn_token _ _, fun _ => .literal _ _⟩
  | number x =>
    by_cases h : Number.Plain x
    · refine ⟨_, Prints.number hc h, ?_, fun _ => .literal (.number (Number.unsigned x)) _⟩
      have hnone : unplainCount (Constant.number x).numbers = 0 := by
        simp [Constant.numbers, unplainCount, h]
      rw [hnone]
      exact identifiersIn_token (.number (Number.unsigned x)) []
    · -- these tokens do not spell the constant, but nothing is claimed about that here
      obtain ⟨ks, hprints, hcount⟩ := Prints.notPlain hc h
      have hone : unplainCount (Constant.number x).numbers = 1 := by
        simp [Constant.numbers, unplainCount, h]
      exact ⟨ks, hprints, by rw [hcount, hone], fun hplain => absurd hplain (by rw [hone]; decide)⟩

/-- The tokens of a printed expression. -/
theorem Expr.printsAs {e : Expr} (he : e.WellFormed) :
    PrintsAs e.render e.printed e.identifierCount e.numbers := by
  induction e with
  | literal c p => exact Constant.printsAs he
  | name x p => exact ⟨_, Prints.name he, rfl, fun _ => .name x none⟩
  | paren e p ih => exact ih he
  | arrow x e p ih =>
    obtain ⟨ks, hprints, hcount, hspells⟩ := ih he.2
    refine ⟨.identifier x :: .symbol .arrow :: ks, ?_, ?_,
      fun hplain => .arrow none .bare (hspells hplain)⟩
    · simpa [render] using hprints.arrow he.1
    · rw [identifiersIn_identifier, identifiersIn_symbol, hcount, identifierCount, numbers]
      omega
  | call f a p ihf iha =>
    -- the callee is printed in parentheses exactly where the printed tree has them
    obtain ⟨ks, hks, hkc, hkspells⟩ := (ihf he.1).parenthesize (f.precedence < 8)
    obtain ⟨us, hus, huc, huspells⟩ := iha he.2
    refine ⟨ks ++ .symbol .leftParen :: us ++ [.symbol .rightParen], ?_, ?_, fun hplain => ?_⟩
    · simpa [render] using hks.call hus
    · simp only [identifiersIn_append, identifiersIn_symbol, identifiersIn_nil, hkc, huc,
        identifierCount, numbers, unplainCount_append]
      omega
    · rw [numbers, unplainCount_append] at hplain
      exact .call none (hkspells (by omega)) (huspells (by omega))
  | unary op e p ih =>
    obtain ⟨ks, hks, hkc, hkspells⟩ := (ih he).parenthesize (e.precedence < 7)
    refine ⟨.symbol op.symbol :: ks, ?_, ?_, fun hplain => .unary op none (hkspells hplain)⟩
    · simpa [render] using hks.unary op
    · rw [identifiersIn_symbol, hkc, identifierCount, numbers]
  | binary op l r p ihl ihr =>
    obtain ⟨ks, hks, hkc, hkspells⟩ := (ihl he.1).parenthesize (l.precedence < op.precedence)
    obtain ⟨us, hus, huc, huspells⟩ := (ihr he.2).parenthesize (r.precedence ≤ op.precedence)
    refine ⟨ks ++ .symbol op.symbol :: us, ?_, ?_, fun hplain => ?_⟩
    · simpa [render] using hks.binary op hus
    · simp only [identifiersIn_append, identifiersIn_symbol, hkc, huc, identifierCount, numbers,
        unplainCount_append]
      omega
    · rw [numbers, unplainCount_append] at hplain
      exact .binary op none (hkspells (by omega)) (huspells (by omega))
  | cond c t e p ihc iht ihe =>
    obtain ⟨ks, hks, hkc, hkspells⟩ := (ihc he.1).parenthesize (c.precedence ≤ 0)
    obtain ⟨us, hus, huc, huspells⟩ := iht he.2.1
    obtain ⟨vs, hvs, hvc, hvspells⟩ := ihe he.2.2
    refine ⟨ks ++ .symbol .question :: us ++ .symbol .colon :: vs, ?_, ?_, fun hplain => ?_⟩
    · simpa [render] using hks.cond hus hvs
    · simp only [identifiersIn_append, identifiersIn_symbol, hkc, huc, hvc, identifierCount,
        numbers, unplainCount_append]
      omega
    · rw [numbers, unplainCount_append, unplainCount_append] at hplain
      exact .cond none (hkspells (by omega)) (huspells (by omega)) (hvspells (by omega))

end CallByNeed
