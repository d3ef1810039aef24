import CallByNeed.Proofs.FloatOrder
import CallByNeed.Proofs.Grammar
import CallByNeed.Program.Statement

/-!
# The tokens of a text

`LexesTo cs ks` says that the characters `cs` are cut into tokens of the kinds `ks`. A text is
taken apart from the left, one token at a time, so there is one lemma for each kind of token, about
the text of the token with some more text behind it. What may follow a token depends on its kind:
`EndsWord` and `EndsNumeral` say of a text that it does not go on with the word or the numeral
before it.

A name is a text that is read as one identifier (`IsName`), and these are all the identifiers there
are: every token is `TokenKind.Sound`.
-/

namespace CallByNeed

open Lexeme

/-- The characters are cut into tokens of these kinds, wherever they stand. -/
def LexesTo (cs : List Char) (ks : List TokenKind) : Prop :=
  ∀ location, ∃ ts, lexFrom location 0 cs = .ok ts ∧ ts.map Token.kind = ks

namespace LexesTo

/-- The end of a text is the end of its tokens. -/
theorem nil : LexesTo [] [.eof] :=
  fun _ => ⟨_, rfl, rfl⟩

/-- White space makes no token. -/
theorem blank {c : Char} {cs : List Char} {ks : List TokenKind} (hc : Text.isBlank c)
    (h : LexesTo cs ks) : LexesTo (c :: cs) ks := by
  intro location
  obtain ⟨ts, hts, hks⟩ := h (location.next c)
  exact ⟨ts, by rw [lexFrom, if_pos hc, hts], hks⟩

/-- A token, and those behind it. -/
theorem token {c : Char} {t rest : List Char} {kind : TokenKind} {ks : List TokenKind}
    (hblank : Text.isBlank c = false) (hcomment : commentLength (c :: (t ++ rest)) = 0)
    (hscan : scan (c :: (t ++ rest)) = .ok ⟨kind, t.length + 1⟩) (h : LexesTo rest ks) :
    LexesTo (c :: (t ++ rest)) (kind :: ks) := by
  intro location
  obtain ⟨ts, hts, hks⟩ := h ((location.next c).after t)
  refine ⟨⟨kind, location⟩ :: ts, ?_, by rw [List.map_cons, hks]⟩
  rw [lexFrom, hblank, hcomment, hscan]
  simp only [Bool.false_eq_true, if_false, Nat.add_sub_cancel]
  rw [lexFrom_inside, List.take_left, List.drop_left, hts]

end LexesTo

/-! ## Symbols -/

/-- A sign is found by the scanner as such. -/
theorem scan_of_symbol? {cs : List Char} {l : Lexeme} (h : symbol? cs = some l) :
    scan cs = .ok l := by
  unfold scan
  rw [h]
  rfl

/-- The text does not go on with the symbol `!`. -/
def EndsNot (rest : List Char) : Prop :=
  ∀ c ∈ rest.head?, c ≠ '='

namespace LexesTo

variable {rest : List Char} {ks : List TokenKind}

/-- A symbol that is read off the front of the text. -/
theorem symbol {s : Symbol} {c : Char} {t : List Char}
    (hscan : symbol? (c :: (t ++ rest)) = some ⟨.symbol s, t.length + 1⟩)
    (hcomment : commentLength (c :: (t ++ rest)) = 0) (hblank : Text.isBlank c = false)
    (h : LexesTo rest ks) : LexesTo (c :: (t ++ rest)) (.symbol s :: ks) :=
  token hblank hcomment (scan_of_symbol? hscan) h

/-- An opening parenthesis is a token by itself. -/
theorem leftParen (h : LexesTo rest ks) : LexesTo ('(' :: rest) (.symbol .leftParen :: ks) :=
  symbol (t := []) rfl rfl rfl h

/-- A closing parenthesis is a token by itself. -/
theorem rightParen (h : LexesTo rest ks) : LexesTo (')' :: rest) (.symbol .rightParen :: ks) :=
  symbol (t := []) rfl rfl rfl h

/-- A semicolon is a token by itself. -/
theorem semicolon (h : LexesTo rest ks) : LexesTo (';' :: rest) (.symbol .semicolon :: ks) :=
  symbol (t := []) rfl rfl rfl h

/-- A plus sign is a token by itself. -/
theorem plus (h : LexesTo rest ks) : LexesTo ('+' :: rest) (.symbol .plus :: ks) :=
  symbol (t := []) rfl rfl rfl h

/-- A minus sign is a token by itself. -/
theorem minus (h : LexesTo rest ks) : LexesTo ('-' :: rest) (.symbol .minus :: ks) :=
  symbol (t := []) rfl rfl rfl h

/-- An exclamation mark is a token by itself, unless an equals sign follows. -/
theorem not (hrest : EndsNot rest) (h : LexesTo rest ks) :
    LexesTo ('!' :: rest) (.symbol .not :: ks) := by
  refine symbol (t := []) ?_ rfl rfl h
  cases rest with
  | nil => rfl
  | cons c rest =>
    have hc : c ≠ '=' := hrest c rfl
    have hlength : "!".length = 1 := rfl
    simp [symbol?, Symbol.literal, Symbol.text, List.isPrefixOf, hc.symm, hlength]

/-- An operator before its operand. -/
theorem unary (op : UnaryOp) (hrest : EndsNot rest) (h : LexesTo rest ks) :
    LexesTo (op.text.toList ++ rest) (.symbol op.symbol :: ks) := by
  cases op with
  | not => exact h.not hrest
  | negate => exact h.minus

/-- An operator between its operands, with a space behind it. -/
theorem binary (op : BinaryOp) (h : LexesTo rest ks) :
    LexesTo (op.text.toList ++ ' ' :: rest) (.symbol op.symbol :: ks) := by
  have h := h.blank (c := ' ') rfl
  cases op with
  | or => exact h.symbol (c := '|') (t := ['|']) rfl rfl rfl
  | and => exact h.symbol (c := '&') (t := ['&']) rfl rfl rfl
  | equal => exact h.symbol (c := '=') (t := ['=', '=']) rfl rfl rfl
  | notEqual => exact h.symbol (c := '!') (t := ['=', '=']) rfl rfl rfl
  | lessOrEqual => exact h.symbol (c := '<') (t := ['=']) rfl rfl rfl
  | greaterOrEqual => exact h.symbol (c := '>') (t := ['=']) rfl rfl rfl
  | less => exact h.symbol (c := '<') (t := []) rfl rfl rfl
  | greater => exact h.symbol (c := '>') (t := []) rfl rfl rfl
  | add => exact h.symbol (c := '+') (t := []) rfl rfl rfl
  | subtract => exact h.symbol (c := '-') (t := []) rfl rfl rfl
  | multiply => exact h.symbol (c := '*') (t := []) rfl rfl rfl
  | divide => exact h.symbol (c := '/') (t := []) rfl rfl rfl
  | modulo => exact h.symbol (c := '%') (t := []) rfl rfl rfl

/-- An equals sign and a greater-than sign make an arrow, together. -/
theorem arrow (h : LexesTo rest ks) :
    LexesTo ('=' :: '>' :: ' ' :: rest) (.symbol .arrow :: ks) :=
  (h.blank (c := ' ') rfl).symbol (t := ['>']) rfl rfl rfl

/-- An equals sign before a blank assigns. -/
theorem assign (h : LexesTo rest ks) : LexesTo ('=' :: ' ' :: rest) (.symbol .assign :: ks) :=
  (h.blank (c := ' ') rfl).symbol (t := []) rfl rfl rfl

/-- A question mark before a blank is a token. -/
theorem question (h : LexesTo rest ks) :
    LexesTo ('?' :: ' ' :: rest) (.symbol .question :: ks) :=
  (h.blank (c := ' ') rfl).symbol (t := []) rfl rfl rfl

/-- A colon before a blank is a token. -/
theorem colon (h : LexesTo rest ks) : LexesTo (':' :: ' ' :: rest) (.symbol .colon :: ks) :=
  (h.blank (c := ' ') rfl).symbol (t := []) rfl rfl rfl

/-- The word that opens an output statement. -/
theorem output (o : Output) (h : LexesTo rest ks) :
    LexesTo (o.keyword.toList ++ rest) (.symbol o.symbol :: ks) := by
  cases o with
  | value =>
    exact h.symbol (c := 'c') (t := ['o', 'n', 's', 'o', 'l', 'e', '.', 'l', 'o', 'g']) rfl rfl rfl
  | expansion =>
    exact h.symbol (c := 'i')
      (t := ['n', 's', 'p', 'e', 'c', 't', '.', 'e', 'x', 'p', 'a', 'n', 'd', 'e', 'd']) rfl rfl rfl

end LexesTo

/-! ## Words -/

/-- The text does not go on with a word before it. -/
def EndsWord (rest : List Char) : Prop :=
  ∀ c ∈ rest.head?, continuesName c = false ∧ c ≠ '.'

/-- What starts a name is a letter or an underscore. -/
theorem startsName_bounds {c : Char} (h : startsName c) :
    (65 ≤ c.toNat ∧ c.toNat ≤ 90) ∨ (97 ≤ c.toNat ∧ c.toNat ≤ 122) ∨ c.toNat = 95 := by
  simp only [startsName, Char.isAlpha, Char.isUpper, Char.isLower, Bool.or_eq_true,
    Bool.and_eq_true, decide_eq_true_eq, beq_iff_eq, ge_iff_le, UInt32.le_iff_toNat_le] at h
  rcases h with (h | h) | rfl
  · exact .inl h
  · exact .inr (.inl h)
  · exact .inr (.inr rfl)

/-- The digits are those with codes from 48 to 57. -/
theorem isDigit_bounds {c : Char} : c.isDigit = true ↔ 48 ≤ c.toNat ∧ c.toNat ≤ 57 := by
  simp only [Char.isDigit, Bool.and_eq_true, decide_eq_true_eq, ge_iff_le,
    UInt32.le_iff_toNat_le]
  rfl

/-- Letters and digits are no white space. -/
theorem isBlank_eq_false {c : Char} (h : 48 ≤ c.toNat ∧ c.toNat ≤ 122) :
    Text.isBlank c = false := by
  unfold Text.isBlank
  simp only [Bool.or_eq_false_iff, Bool.and_eq_false_iff, decide_eq_false_iff_not,
    beq_eq_false_iff_ne]
  omega

/-- A comment starts with a slash. -/
theorem commentLength_of_ne {c : Char} (hc : c ≠ '/') (cs : List Char) :
    commentLength (c :: cs) = 0 := by
  simp [commentLength, hc]

/-- Letters and digits start no comment. -/
theorem commentLength_eq_zero {c : Char} (h : 48 ≤ c.toNat) (cs : List Char) :
    commentLength (c :: cs) = 0 := by
  refine commentLength_of_ne ?_ cs
  rintro rfl
  exact absurd h (by decide)

/-- No symbol but the two with a dot starts with a letter or a digit. -/
theorem symbol?_eq_none {c : Char} {cs : List Char} (hc : c.isDigit ∨ startsName c)
    (hlog : ¬"console.log".toList.isPrefixOf (c :: cs))
    (hexp : ¬"inspect.expanded".toList.isPrefixOf (c :: cs)) : symbol? (c :: cs) = none := by
  -- apart from these two, symbols start with characters outside the ranges of letters and digits
  have hne : ∀ d : Char, d.toNat < 48 ∨ 58 ≤ d.toNat ∧ d.toNat ≤ 64 ∨ 122 < d.toNat →
      (d == c) = false := by
    rintro d hd
    rw [beq_eq_false_iff_ne]
    rintro rfl
    rcases hc with hc | hc
    · rw [isDigit_bounds] at hc
      omega
    · have := startsName_bounds hc
      omega
  have hstart : ∀ (d : Char) (ds : List Char),
      d.toNat < 48 ∨ 58 ≤ d.toNat ∧ d.toNat ≤ 64 ∨ 122 < d.toNat →
      ¬(d :: ds).isPrefixOf (c :: cs) = true := by
    intro d ds hd
    rw [List.isPrefixOf, hne d hd, Bool.false_and]
    exact Bool.false_ne_true
  rw [symbol?, Option.map_eq_none_iff, List.find?_eq_none]
  intro s hs
  cases s with
  | consoleLog => exact hlog
  | inspectExpanded => exact hexp
  | let_ | true_ | false_ => exact absurd hs (by decide)
  | _ => exact hstart _ _ (by decide)

/-- No symbol starts with a digit. -/
theorem symbol?_digit {c : Char} (hc : c.isDigit) (cs : List Char) : symbol? (c :: cs) = none := by
  have hne : ∀ d : Char, ¬d.isDigit → ∀ ds, ¬(d :: ds).isPrefixOf (c :: cs) := by
    intro d hd ds h
    rw [List.isPrefixOf, Bool.and_eq_true, beq_iff_eq] at h
    exact hd (h.1 ▸ hc)
  exact symbol?_eq_none (.inl hc) (hne _ (by decide) _) (hne _ (by decide) _)

/-- A word does not become longer by what ends it, not even a symbol with a dot. -/
theorem not_isPrefixOf_word {t rest w v : List Char} (ht : ∀ c ∈ t, continuesName c)
    (hrest : EndsWord rest) (hw : w.all continuesName) :
    ¬(w ++ '.' :: v).isPrefixOf (t ++ rest) := by
  rw [List.isPrefixOf_iff_prefix]
  rintro ⟨u, hu⟩
  -- behind its name characters, the text goes on with the dot
  have hdrop := congrArg (List.dropWhile continuesName) hu
  rw [List.append_assoc, List.dropWhile_append_of_pos (List.all_eq_true.1 hw),
    List.dropWhile_append_of_pos ht, List.cons_append,
    List.dropWhile_cons_of_neg (by decide)] at hdrop
  cases rest with
  | nil => cases hdrop
  | cons d rest =>
    obtain ⟨hd, hdot⟩ := hrest d rfl
    rw [List.dropWhile_cons_of_neg (by simp [hd])] at hdrop
    exact hdot (List.cons.inj hdrop).1.symm

/-- What may begin a name may go on with it. -/
theorem continuesName_of_startsName {c : Char} (h : startsName c) : continuesName c := by
  simp only [startsName, Bool.or_eq_true] at h
  simp only [continuesName, Char.isAlphanum, Bool.or_eq_true]
  tauto

/-- No number starts as a name does. -/
theorem number?_eq_none {c : Char} (h : startsName c) (cs : List Char) :
    number? (c :: cs) = none := by
  have hdigit : c.isDigit = false := by
    have := startsName_bounds h
    rw [Bool.eq_false_iff, ne_eq, isDigit_bounds]
    omega
  simp [number?, hdigit]

/-- A word is read off the front of the text. -/
theorem scan_word {c : Char} {t rest : List Char} (hc : startsName c)
    (ht : ∀ d ∈ t, continuesName d) (hrest : EndsWord rest) :
    scan (c :: (t ++ rest)) = .ok ⟨word (c :: t), t.length + 1⟩ := by
  have hcontinues : ∀ d ∈ c :: t, continuesName d :=
    List.forall_mem_cons.2 ⟨continuesName_of_startsName hc, ht⟩
  have hsymbol : symbol? (c :: (t ++ rest)) = none :=
    symbol?_eq_none (.inr hc)
      (not_isPrefixOf_word (w := "console".toList) hcontinues hrest rfl)
      (not_isPrefixOf_word (w := "inspect".toList) hcontinues hrest rfl)
  have htake : (t ++ rest).takeWhile continuesName = t := by
    rw [List.takeWhile_append_of_pos ht]
    cases rest with
    | nil => simp
    | cons d rest => simp [(hrest d rfl).1]
  unfold scan
  rw [hsymbol, number?_eq_none hc, word?, if_pos hc, htake]
  rfl

/-- A word, and the tokens behind it. -/
theorem LexesTo.word {c : Char} {t rest : List Char} {ks : List TokenKind} (hc : startsName c)
    (ht : ∀ d ∈ t, continuesName d) (hrest : EndsWord rest) (h : LexesTo rest ks) :
    LexesTo (c :: (t ++ rest)) (Lexeme.word (c :: t) :: ks) := by
  have := startsName_bounds hc
  exact token (isBlank_eq_false (by omega)) (commentLength_eq_zero (by omega) _)
    (scan_word hc ht hrest) h

/-! ## Numerals -/

/-- The text does not go on with a numeral before it. -/
def EndsNumeral (rest : List Char) : Prop :=
  ∀ c ∈ rest.head?, c.isDigit = false ∧ c ≠ '.'

/-- The digits before and after a decimal point, which is left out if none follow it. -/
def numeral (whole part : List Char) : List Char :=
  whole ++ if part.isEmpty then [] else '.' :: part

/-- The decimal number that a numeral writes. -/
def numeralValue (whole part : List Char) : Decimal :=
  ⟨digitsValue (whole ++ part), -part.length⟩

/-- The digits at the beginning of a text end where something else follows. -/
theorem takeWhile_isDigit {ds rest : List Char} (hds : ∀ c ∈ ds, c.isDigit)
    (hrest : ∀ c ∈ rest.head?, c.isDigit = false) :
    (ds ++ rest).takeWhile Char.isDigit = ds := by
  rw [List.takeWhile_append_of_pos hds]
  cases rest with
  | nil => simp
  | cons d rest => simp [hrest d rfl]

/-- A numeral is read with all its digits. -/
theorem number?_numeral {whole part rest : List Char} (hne : whole ≠ [])
    (hwhole : ∀ c ∈ whole, c.isDigit) (hpart : ∀ c ∈ part, c.isDigit)
    (hrest : EndsNumeral rest) :
    number? (numeral whole part ++ rest) =
      some ⟨.number ((numeralValue whole part).toFloat false), (numeral whole part).length⟩ := by
  unfold number? numeral
  rw [List.append_assoc]
  -- without digits behind it there is no decimal point, and what follows must not look like one
  rcases part with _ | ⟨d, part⟩
  · have htake : (whole ++ rest).takeWhile Char.isDigit = whole :=
      takeWhile_isDigit hwhole fun c hc => (hrest c hc).1
    have hfraction : fraction rest = [] := by
      unfold fraction
      split
      · next heq => exact absurd rfl (hrest '.' rfl).2
      · rfl
    simp [htake, hne, hfraction, numeralValue]
  · have htake : (whole ++ ('.' :: d :: part ++ rest)).takeWhile Char.isDigit = whole :=
      takeWhile_isDigit hwhole (by simp)
    have hfraction : fraction ('.' :: d :: part ++ rest) = d :: part :=
      takeWhile_isDigit hpart fun c hc => (hrest c hc).1
    simp only [List.isEmpty_cons, Bool.false_eq_true, if_false, htake, List.drop_left, hfraction,
      List.isEmpty_eq_false_iff.2 hne, List.length_append, List.length_cons]
    rfl

/-- A number is found by the scanner as such. -/
theorem scan_of_number? {c : Char} {cs : List Char} {l : Lexeme} (hc : c.isDigit)
    (h : number? (c :: cs) = some l) : scan (c :: cs) = .ok l := by
  unfold scan
  rw [symbol?_digit hc, h]
  rfl

/-- A numeral, and the tokens behind it. -/
theorem LexesTo.numeral {whole part rest : List Char} {ks : List TokenKind} (hne : whole ≠ [])
    (hwhole : ∀ c ∈ whole, c.isDigit) (hpart : ∀ c ∈ part, c.isDigit)
    (hrest : EndsNumeral rest) (h : LexesTo rest ks) :
    LexesTo (CallByNeed.numeral whole part ++ rest)
      (.number ((numeralValue whole part).toFloat false) :: ks) := by
  have hnumber := number?_numeral hne hwhole hpart hrest
  obtain ⟨c, whole, rfl⟩ := List.exists_cons_of_ne_nil hne
  have hc : c.isDigit := hwhole c List.mem_cons_self
  have hbounds := isDigit_bounds.1 hc
  rw [CallByNeed.numeral, List.cons_append, List.cons_append] at hnumber ⊢
  exact token (isBlank_eq_false (by omega)) (commentLength_eq_zero (by omega) _)
    (scan_of_number? hc hnumber) h

/-! ## Quoted texts -/

/-- A character between quotes. -/
def quoteChar (c : Char) : List Char :=
  if c = '\\' then ['\\', '\\']
  else if c = '"' then ['\\', '"']
  else if c = '\n' then ['\\', 'n']
  else [c]

/-- A text in quotes is written with its special characters escaped. -/
theorem toList_quote (s : String) :
    (quote s).toList = '"' :: (s.toList.flatMap quoteChar ++ ['"']) :=
  String.toList_ofList

/-- What is written between quotes is read back up to the closing one. -/
theorem quoted?_flatMap (cs rest : List Char) :
    quoted? (cs.flatMap quoteChar ++ '"' :: rest) =
      some (cs, (cs.flatMap quoteChar).length + 1) := by
  induction cs with
  | nil => rfl
  | cons c cs ih =>
    -- three characters are escaped, and all others stand for themselves
    rw [List.flatMap_cons, List.append_assoc]
    by_cases hback : c = '\\'
    · subst hback
      simp [quoteChar, quoted?, ih, unescape]
    by_cases hmark : c = '"'
    · subst hmark
      simp [quoteChar, quoted?, ih, unescape]
    by_cases hfeed : c = '\n'
    · subst hfeed
      simp [quoteChar, quoted?, ih, unescape]
    have hplain : quoteChar c = [c] := by simp [quoteChar, hback, hmark, hfeed]
    rw [hplain]
    simp [quoted?, ih, hback]

/-- A text in quotes is found by the scanner as such. -/
theorem scan_of_quoted? {cs value : List Char} {n : ℕ} (h : quoted? cs = some (value, n)) :
    scan ('"' :: cs) = .ok ⟨.string (String.ofList value), n + 1⟩ := by
  have hother : (symbol? ('"' :: cs) <|> number? ('"' :: cs) <|> word? ('"' :: cs)) = none := rfl
  unfold scan
  rw [hother]
  simp only [h]

/-- A quoted text, and the tokens behind it. -/
theorem LexesTo.quote (s : String) {rest : List Char} {ks : List TokenKind}
    (h : LexesTo rest ks) : LexesTo ((CallByNeed.quote s).toList ++ rest) (.string s :: ks) := by
  rw [toList_quote, List.cons_append]
  refine token rfl rfl ?_ h
  rw [List.append_assoc, List.singleton_append, scan_of_quoted? (quoted?_flatMap s.toList rest),
    String.ofList_toList]
  simp

/-! ## Names -/

/-- A text that is read as one identifier. -/
def IsName (x : String) : Prop :=
  (tokenize 0 x).map (List.map Token.kind) = .ok [.identifier x, .eof]

/-- The form of a name: a letter or underscore, more of them or digits behind it, and no reserved
word. -/
def NameText (x : String) : Prop :=
  ∃ c t, x.toList = c :: t ∧ startsName c ∧ (∀ d ∈ t, continuesName d) ∧
    word (c :: t) = .identifier x

/-- A token that the language writes: identifiers are names, and numbers have no sign. -/
def TokenKind.Sound : TokenKind → Prop
  | .identifier x => NameText x
  | .number x => ∃ d : Decimal, x = d.toFloat false
  | _ => True

/-- A word is read as it is written. -/
theorem sound_word {c : Char} {t : List Char} (hc : startsName c)
    (ht : ∀ d ∈ t, continuesName d) : (word (c :: t)).Sound := by
  cases hfind : Symbol.reserved.find? fun s => s.text.toList == c :: t with
  | some s =>
    rw [word, hfind]
    trivial
  | none =>
    have hword : word (c :: t) = .identifier (String.ofList (c :: t)) := by rw [word, hfind]
    rw [hword]
    exact ⟨c, t, String.toList_ofList, hc, ht, hword⟩

/-- What the token at the front of a text can be. -/
theorem scan_cases {cs : List Char} {l : Lexeme} (h : scan cs = .ok l) :
    symbol? cs = some l ∨ number? cs = some l ∨ word? cs = some l ∨
      ∃ rest value n, cs = '"' :: rest ∧ quoted? rest = some (value, n) ∧
        l = ⟨.string (String.ofList value), n + 1⟩ := by
  unfold scan at h
  cases hsymbol : symbol? cs with
  | some l' =>
    rw [hsymbol] at h
    cases h
    exact .inl rfl
  | none =>
    cases hnumber : number? cs with
    | some l' =>
      rw [hsymbol, hnumber] at h
      cases h
      exact .inr (.inl rfl)
    | none =>
      cases hword : word? cs with
      | some l' =>
        rw [hsymbol, hnumber, hword] at h
        cases h
        exact .inr (.inr (.inl rfl))
      | none =>
        rw [hsymbol, hnumber, hword] at h
        refine .inr (.inr (.inr ?_))
        simp only [Option.orElse_eq_orElse, Option.orElse_none] at h
        split at h
        · split at h
          · next hquoted =>
            cases h
            exact ⟨_, _, _, rfl, hquoted, rfl⟩
          · cases h
        · cases h
        · cases h

/-- The token at the front of a text is sound, and it is not the end of the input. -/
theorem sound_scan {cs : List Char} {l : Lexeme} (h : scan cs = .ok l) :
    l.kind.Sound ∧ l.kind ≠ .eof := by
  rcases scan_cases h with h | h | h | ⟨-, value, -, -, -, rfl⟩
  · obtain ⟨s, -, rfl⟩ := Option.map_eq_some_iff.1 h
    exact ⟨trivial, TokenKind.noConfusion⟩
  · unfold number? at h
    dsimp only at h
    split at h
    · cases h
    · cases h
      exact ⟨⟨_, rfl⟩, TokenKind.noConfusion⟩
  · cases cs with
    | nil => cases h
    | cons c cs =>
      rw [word?] at h
      split at h
      · next hc =>
        cases h
        refine ⟨sound_word hc fun d hd => List.mem_takeWhile_imp hd, ?_⟩
        unfold word
        dsimp only
        split <;> exact TokenKind.noConfusion
      · cases h
  · exact ⟨trivial, TokenKind.noConfusion⟩

/-- The end of the input is the last token, and only that. All other tokens are sound. -/
theorem exists_end_of_lexFrom {location : Location} {n : Nat} {cs : List Char} {ts : List Token}
    (h : lexFrom location n cs = .ok ts) :
    ∃ front last, ts = front ++ [last] ∧ last.kind = .eof ∧
      ∀ t ∈ front, t.kind.Sound ∧ t.kind ≠ .eof := by
  -- characters inside a token, white space and comments are skipped, and each other one starts a
  -- token
  induction cs generalizing location n ts with
  | nil =>
    rw [lexFrom] at h
    cases h
    exact ⟨[], _, rfl, rfl, by simp⟩
  | cons c cs ih =>
    cases n with
    | succ n =>
      rw [lexFrom] at h
      exact ih h
    | zero =>
      rw [lexFrom] at h
      split at h
      · exact ih h
      · split at h
        · exact ih h
        · split at h
          · cases h
          · next l hscan =>
            split at h
            · cases h
            · next ts' hts =>
              cases h
              obtain ⟨front, last, rfl, hlast, hfront⟩ := ih hts
              refine ⟨_ :: front, last, rfl, hlast, ?_⟩
              intro t ht
              rcases List.mem_cons.1 ht with rfl | ht
              · exact sound_scan hscan
              · exact hfront t ht

/-- All tokens of a text are sound. -/
theorem sound_of_lexFrom {location : Location} {n : Nat} {cs : List Char} {ts : List Token}
    (h : lexFrom location n cs = .ok ts) : ∀ t ∈ ts, t.kind.Sound := by
  obtain ⟨front, last, rfl, hlast, hfront⟩ := exists_end_of_lexFrom h
  intro t ht
  rcases List.mem_append.1 ht with ht | ht
  · exact (hfront t ht).1
  · rw [List.mem_singleton.1 ht, hlast]
    trivial

/-- A text of the form of a name is read as one word. -/
theorem LexesTo.name {x : String} (hx : NameText x) {rest : List Char} {ks : List TokenKind}
    (hrest : EndsWord rest) (h : LexesTo rest ks) :
    LexesTo (x.toList ++ rest) (.identifier x :: ks) := by
  obtain ⟨c, t, hxt, hc, ht, hword⟩ := hx
  rw [hxt, ← hword]
  exact h.word hc ht hrest

/-- The names are the texts of that form. -/
theorem isName_iff {x : String} : IsName x ↔ NameText x := by
  unfold IsName tokenize
  constructor
  · intro h
    cases hlex : lexFrom (.first 0) 0 x.toList with
    | error e =>
      rw [hlex] at h
      cases h
    | ok ts =>
      rw [hlex] at h
      -- the one identifier is sound, and that is the form of a name
      have hkinds : ts.map Token.kind = [.identifier x, .eof] := Except.ok.inj h
      obtain ⟨t, ts, rfl, ht, -⟩ := List.map_eq_cons_iff.1 hkinds
      have hsound := sound_of_lexFrom hlex t List.mem_cons_self
      rwa [ht] at hsound
  · intro hx
    have hlex : LexesTo (x.toList ++ []) [.identifier x, .eof] :=
      LexesTo.name hx (by simp [EndsWord]) .nil
    obtain ⟨ts, hts, hks⟩ := hlex (.first 0)
    rw [List.append_nil] at hts
    rw [hts, ← hks]
    rfl

end CallByNeed
