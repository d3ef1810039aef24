import CallByNeed.Proofs.JoinedTexts
import Mathlib.Data.List.Infix
import Mathlib.Data.List.Induction

/-!
# A text is tiled by its tokens

`TokenKind.Written` says how each token is written, class by class and without any reference to the
reader. A text that can be cut into tokens consists of the texts of its tokens with gaps between
them, and each of these texts is the longest one that starts where it does (`Tiles`). A token's
place is found by counting the line feeds before it and the characters since the last one
(`Location.behind`).

## Main results

* `exists_written_of_scan` and `exists_scan_of_written`: what is read off the front of a text is the
  text of a token, and no token's text at the front is longer;
* `tokenize_eq_ok_iff_tiles`: reading gives some tokens exactly if they tile the text.
-/

namespace CallByNeed

open Lexeme

/-! ## Places -/

/-- The place behind some characters of a text: one line for each line feed, and one column for each
character behind the last line feed. -/
def Location.behind (text : ℕ) (cs : List Char) : Location :=
  ⟨text, 1 + cs.count '\n', 1 + (cs.reverse.takeWhile (· != '\n')).length⟩

/-- Walking through characters counts lines and columns. -/
theorem Location.after_first (text : ℕ) (cs : List Char) :
    (Location.first text).after cs = .behind text cs := by
  induction cs using List.reverseRecOn with
  | nil => rfl
  | append_singleton cs c ih =>
    rw [after_append, ih, after_cons, after_nil, next]
    by_cases hc : c = '\n'
    · simp [behind, hc, Int.add_assoc]
    · simp only [behind, hc, if_false, List.reverse_append, List.reverse_singleton,
        List.singleton_append, List.count_append]
      simp [hc, Int.add_comm]

/-! ## How tokens are written -/

/-- What stands between two quotes, and what that stands for. A backslash together with the
character behind it, even a line feed, stands for one character. -/
inductive QuotedText : List Char → List Char → Prop where
  | nil : QuotedText [] []
  | plain {c : Char} {text value : List Char} : c ≠ '"' → c ≠ '\\' → c ≠ '\n' →
      QuotedText text value → QuotedText (c :: text) (c :: value)
  | escaped (c : Char) {text value : List Char} : QuotedText text value →
      QuotedText ('\\' :: c :: text) (unescape c :: value)

/-- How a token is written: a symbol in one way only, an identifier as any name that is not
reserved, a number as digits with or without a fraction, and a text between quotes. The end of the
input is not written. -/
inductive TokenKind.Written : TokenKind → List Char → Prop where
  | symbol (s : Symbol) : Written (.symbol s) s.text.toList
  | identifier {c : Char} {cs : List Char} : startsName c → (∀ d ∈ cs, continuesName d) →
      (∀ s ∈ Symbol.reserved, s.text.toList ≠ c :: cs) →
      Written (.identifier (String.ofList (c :: cs))) (c :: cs)
  | number {whole part : List Char} : whole ≠ [] → (∀ c ∈ whole, c.isDigit) →
      (∀ c ∈ part, c.isDigit) →
      Written
        (.number (Decimal.toFloat false ⟨Nat.ofDigitChars 10 (whole ++ part) 0, -part.length⟩))
        (numeral whole part)
  | string {text value : List Char} : QuotedText text value →
      Written (.string (String.ofList value)) ('"' :: (text ++ ['"']))

/-- The text of a token is the longest one that starts where it does. -/
structure TokenKind.Longest (kind : TokenKind) (lexeme rest : List Char) : Prop where
  written : kind.Written lexeme
  le : ∀ kind' lexeme', TokenKind.Written kind' lexeme' → lexeme' <+: lexeme ++ rest →
    lexeme'.length ≤ lexeme.length

/-! ## Quoted texts -/

/-- A quoted text is read up to its closing quote. -/
theorem QuotedText.quoted? {text value : List Char} (h : QuotedText text value)
    (rest : List Char) :
    Lexeme.quoted? (text ++ '"' :: rest) = some (value, text.length + 1) := by
  induction h with
  | nil => rfl
  | plain hquote hback hfeed _ ih =>
    rw [List.cons_append, quoted?_cons hquote hfeed hback, ih]
    rfl
  | escaped c _ ih =>
    rw [List.cons_append, List.cons_append, Lexeme.quoted?, ih]
    rfl

/-- What is read as a quoted text is one. -/
theorem exists_quotedText {cs value : List Char} {n : ℕ} (h : quoted? cs = some (value, n)) :
    ∃ text rest, cs = text ++ '"' :: rest ∧ QuotedText text value ∧ n = text.length + 1 := by
  induction cs using quoted?.induct generalizing value n with
  | case1 | case2 | case4 => cases h
  | case3 cs =>
    cases h
    exact ⟨[], cs, rfl, .nil, rfl⟩
  | case5 c cs ih =>
    rw [quoted?, Option.map_eq_some_iff] at h
    obtain ⟨⟨value', n'⟩, hcs, heq⟩ := h
    cases heq
    obtain ⟨text, rest, rfl, htext, rfl⟩ := ih hcs
    exact ⟨'\\' :: c :: text, rest, rfl, .escaped c htext, rfl⟩
  | case6 c cs hlast hquote hfeed hescape ih =>
    have hback : c ≠ '\\' := by
      rintro rfl
      -- behind a backslash there is either nothing or the character that it escapes
      cases cs with
      | nil => exact hlast rfl rfl
      | cons d cs => exact hescape d cs rfl rfl
    rw [quoted?_cons hquote hfeed hback, Option.map_eq_some_iff] at h
    obtain ⟨⟨value', n'⟩, hcs, heq⟩ := h
    cases heq
    obtain ⟨text, rest, rfl, htext, rfl⟩ := ih hcs
    exact ⟨c :: text, rest, rfl, .plain hquote hback hfeed htext, rfl⟩

/-! ## What is read is written -/

/-- A word is written as a reserved symbol or as an identifier. -/
theorem written_word {c : Char} {cs : List Char} (hc : startsName c)
    (hcs : ∀ d ∈ cs, continuesName d) : (word (c :: cs)).Written (c :: cs) := by
  unfold word
  cases hfind : Symbol.reserved.find? fun s => s.text.toList == c :: cs with
  | some s =>
    have htext : s.text.toList = c :: cs := by simpa using List.find?_some hfind
    rw [← htext]
    exact .symbol s
  | none =>
    refine .identifier hc hcs fun s hs => ?_
    simpa using List.find?_eq_none.1 hfind s hs

/-- A fraction and the point before it are at the front of the text that they are read from. -/
theorem point_fraction_prefix (cs : List Char) :
    (if (fraction cs).isEmpty then [] else '.' :: fraction cs) <+: cs := by
  -- only a text that starts with a point has a fraction
  unfold fraction
  split
  · next cs =>
    split
    · exact List.nil_prefix
    · exact List.cons_prefix_cons.2 ⟨rfl, List.takeWhile_prefix _⟩
  · exact List.nil_prefix

/-- A fraction consists of digits. -/
theorem isDigit_of_mem_fraction {cs : List Char} : ∀ c ∈ fraction cs, c.isDigit := by
  unfold fraction
  split
  · exact fun c hc => List.mem_takeWhile_imp hc
  · simp

/-- What is read as a number is a numeral. -/
theorem exists_numeral {cs : List Char} {l : Lexeme} (h : number? cs = some l) :
    ∃ whole part rest, cs = numeral whole part ++ rest ∧ l.kind.Written (numeral whole part) ∧
      l.length = (numeral whole part).length := by
  unfold number? at h
  dsimp only at h
  split at h
  · cases h
  · next hwhole =>
    cases h
    -- first all digits, and then a fraction of what is behind them
    obtain ⟨rest, hrest⟩ := point_fraction_prefix (cs.drop (cs.takeWhile Char.isDigit).length)
    refine ⟨_, _, rest, ?_, .number (by simpa using hwhole)
      (fun c hc => List.mem_takeWhile_imp hc) isDigit_of_mem_fraction, ?_⟩
    · rw [numeral, List.append_assoc, hrest]
      exact (List.prefix_iff_eq_append.1 (List.takeWhile_prefix _)).symm
    · rw [numeral, List.length_append]
      split <;> simp

/-- What is read off the front of a text is the text of the token. -/
theorem exists_written_of_scan {cs : List Char} {l : Lexeme} (h : scan cs = .ok l) :
    ∃ lexeme rest, cs = lexeme ++ rest ∧ l.kind.Written lexeme ∧ l.length = lexeme.length := by
  rcases scan_cases h with h | h | h | ⟨cs, value, n, rfl, hquoted, rfl⟩
  · obtain ⟨s, hs, rfl⟩ := Option.map_eq_some_iff.1 h
    have hfront : s.text.toList.isPrefixOf cs = true := by simpa using List.find?_some hs
    obtain ⟨rest, rfl⟩ := List.isPrefixOf_iff_prefix.1 hfront
    exact ⟨_, rest, rfl, .symbol s, String.length_toList.symm⟩
  · obtain ⟨whole, part, rest, hcs, hwritten, hlength⟩ := exists_numeral h
    exact ⟨_, rest, hcs, hwritten, hlength⟩
  · cases cs with
    | nil => cases h
    | cons c cs =>
      rw [word?] at h
      split at h
      · next hc =>
        cases h
        exact ⟨_, cs.dropWhile continuesName,
          by rw [List.cons_append, List.takeWhile_append_dropWhile],
          written_word hc fun d hd => List.mem_takeWhile_imp hd, rfl⟩
      · cases h
  · obtain ⟨text, rest, rfl, htext, rfl⟩ := exists_quotedText hquoted
    exact ⟨_, rest, by simp, .string htext, by simp⟩

/-! ## What is written is read -/

/-- The text of a token, without anything behind it, is read as that token. -/
theorem TokenKind.Written.scan {kind : TokenKind} {cs : List Char} (h : kind.Written cs) :
    Lexeme.scan cs = .ok ⟨kind, cs.length⟩ := by
  cases h with
  | symbol s => cases s <;> rfl
  | @identifier c cs hc hcs hreserved =>
    have hfind : Symbol.reserved.find? (fun s => s.text.toList == c :: cs) = none := by
      rw [List.find?_eq_none]
      simpa using hreserved
    have hends : EndsWord [] := by simp [EndsWord]
    have hscan := scan_word hc hcs hends
    rw [List.append_nil, word, hfind] at hscan
    exact hscan
  | @number whole part hne hwhole hpart =>
    have hends : EndsNumeral [] := by simp [EndsNumeral]
    have hnumber := number?_numeral hne hwhole hpart hends
    obtain ⟨c, whole, rfl⟩ := List.exists_cons_of_ne_nil hne
    rw [List.append_nil, numeral, List.cons_append] at hnumber
    exact scan_of_number? (hwhole c List.mem_cons_self) hnumber
  | @string text value htext =>
    rw [scan_of_quoted? (htext.quoted? [])]
    simp

/-- A text is that of one token only. -/
theorem TokenKind.Written.unique {kind kind' : TokenKind} {cs : List Char} (h : kind.Written cs)
    (h' : kind'.Written cs) : kind = kind' := by
  have hscan := h.scan.symm.trans h'.scan
  simpa using hscan

/-- No symbol that is tried before another one is a part of it. -/
theorem pairwise_literal :
    Symbol.literal.Pairwise fun s t => s.text.toList.isPrefixOf t.text.toList = false := by
  decide

/-- If a symbol stands at the front of a text, then one that is at least as long is read. -/
theorem exists_symbol?_of_prefix {s : Symbol} (hs : s ∈ Symbol.literal) {cs : List Char}
    (h : s.text.toList <+: cs) : ∃ l, symbol? cs = some l ∧ s.text.length ≤ l.length := by
  cases hfind : Symbol.literal.find? fun s => s.text.toList.isPrefixOf cs with
  | none =>
    have hnone := List.find?_eq_none.1 hfind s hs
    exact absurd (List.isPrefixOf_iff_prefix.2 h) hnone
  | some s' =>
    refine ⟨⟨.symbol s', s'.text.length⟩, congrArg _ hfind, ?_⟩
    obtain ⟨hfront, before, behind, htable, hbefore⟩ := List.find?_eq_some_iff_append.1 hfind
    rw [List.isPrefixOf_iff_prefix] at hfront
    have hpairwise := pairwise_literal
    rw [htable] at hs hpairwise
    -- the one that is read stands before the other one in the table, or is the same
    rcases List.mem_append.1 hs with hs | hs
    · simpa [List.isPrefixOf_iff_prefix.2 h] using hbefore s hs
    rcases List.mem_cons.1 hs with rfl | hs
    · exact le_rfl
    have hpart := (List.pairwise_cons.1 (List.pairwise_append.1 hpairwise).2.1).1 s hs
    by_contra hlt
    rw [not_le, ← String.length_toList, ← String.length_toList] at hlt
    have hfront' := List.prefix_of_prefix_length_le hfront h hlt.le
    exact Bool.false_ne_true (hpart.symm.trans (List.isPrefixOf_iff_prefix.2 hfront'))

/-- A word does not reach behind a point. -/
theorem length_le_of_point {t cs w v : List Char} (ht : ∀ c ∈ t, continuesName c) (h : t <+: cs)
    (hpoint : w ++ '.' :: v <+: cs) : t.length ≤ w.length := by
  by_contra hlt
  have hpoint' : w ++ ['.'] <+: cs := by
    refine List.IsPrefix.trans ⟨v, ?_⟩ hpoint
    simp
  have hmem : w ++ ['.'] <+: t := by
    apply List.prefix_of_prefix_length_le hpoint' h
    simp only [List.length_append, List.length_singleton]
    omega
  exact absurd (ht '.' (hmem.mem (by simp))) (by decide)

/-- If a word stands at the front of a text, then a token that is at least as long is read. -/
theorem exists_scan_of_word {c : Char} {t cs : List Char} (hc : startsName c)
    (ht : ∀ d ∈ t, continuesName d) (h : c :: t <+: cs) :
    ∃ l, scan cs = .ok l ∧ t.length + 1 ≤ l.length := by
  have hword : ∀ d ∈ c :: t, continuesName d :=
    List.forall_mem_cons.2 ⟨continuesName_of_startsName hc, ht⟩
  -- the two symbols with a point are longer than the word before the point
  have hkeyword : ∀ (s : Symbol) (w v : List Char), s ∈ Symbol.literal →
      s.text.toList = w ++ '.' :: v → s.text.toList.isPrefixOf cs →
      ∃ l, scan cs = .ok l ∧ t.length + 1 ≤ l.length := by
    intro s w v hs htext hfront
    rw [List.isPrefixOf_iff_prefix] at hfront
    obtain ⟨l, hl, hle⟩ := exists_symbol?_of_prefix hs hfront
    have hpoint := length_le_of_point hword h (htext ▸ hfront)
    have hlength := congrArg List.length htext
    simp only [String.length_toList, List.length_append, List.length_cons] at hlength hpoint
    exact ⟨l, scan_of_symbol? hl, by omega⟩
  obtain ⟨rest, rfl⟩ := h
  by_cases hlog : "console.log".toList.isPrefixOf (c :: t ++ rest)
  · exact hkeyword .consoleLog "console".toList "log".toList (by decide) rfl hlog
  by_cases hexp : "inspect.expanded".toList.isPrefixOf (c :: t ++ rest)
  · exact hkeyword .inspectExpanded "inspect".toList "expanded".toList (by decide) rfl hexp
  -- otherwise the word is read, with all characters that go on with it
  rw [List.cons_append] at hlog hexp ⊢
  unfold scan
  rw [symbol?_eq_none (.inr hc) hlog hexp, number?_eq_none hc, word?, if_pos hc]
  refine ⟨_, rfl, ?_⟩
  rw [List.takeWhile_append_of_pos ht]
  simp

/-- If a numeral stands at the front of a text, then a number that is at least as long is read. -/
theorem exists_scan_of_numeral {whole part cs : List Char} (hne : whole ≠ [])
    (hwhole : ∀ c ∈ whole, c.isDigit) (hpart : ∀ c ∈ part, c.isDigit)
    (h : numeral whole part <+: cs) :
    ∃ l, scan cs = .ok l ∧ (numeral whole part).length ≤ l.length := by
  obtain ⟨rest, rfl⟩ := h
  obtain ⟨l, hl, hle⟩ : ∃ l, number? (numeral whole part ++ rest) = some l ∧
      (numeral whole part).length ≤ l.length := by
    unfold number? numeral
    rw [List.append_assoc]
    rcases part with _ | ⟨d, part⟩
    · -- more digits may follow, and a fraction
      have htake : (whole ++ rest).takeWhile Char.isDigit = whole ++ rest.takeWhile Char.isDigit :=
        List.takeWhile_append_of_pos hwhole
      simp [htake, hne, Nat.add_assoc]
    · -- the digits before the point are all there are, and more may follow the fraction
      have htake : (whole ++ ('.' :: d :: part ++ rest)).takeWhile Char.isDigit = whole :=
        takeWhile_isDigit hwhole (by simp)
      have hfraction : fraction ('.' :: d :: part ++ rest) =
          d :: part ++ rest.takeWhile Char.isDigit :=
        List.takeWhile_append_of_pos hpart
      simp only [List.isEmpty_cons, Bool.false_eq_true, if_false, htake, List.drop_left, hfraction,
        List.isEmpty_eq_false_iff.2 hne]
      refine ⟨_, rfl, ?_⟩
      simp
  obtain ⟨c, whole, rfl⟩ := List.exists_cons_of_ne_nil hne
  refine ⟨l, ?_, hle⟩
  rw [numeral, List.cons_append, List.cons_append] at hl ⊢
  exact scan_of_number? (hwhole c List.mem_cons_self) hl

/-- If the text of a token stands at the front of a text, then a token that is at least as long is
read. -/
theorem exists_scan_of_written {kind : TokenKind} {lexeme cs : List Char}
    (hwritten : kind.Written lexeme) (h : lexeme <+: cs) :
    ∃ l, scan cs = .ok l ∧ lexeme.length ≤ l.length := by
  cases hwritten with
  | symbol s =>
    by_cases hs : s ∈ Symbol.literal
    · obtain ⟨l, hl, hle⟩ := exists_symbol?_of_prefix hs h
      exact ⟨l, scan_of_symbol? hl, by rwa [String.length_toList]⟩
    -- the others are the reserved words
    cases s with
    | let_ => exact exists_scan_of_word (t := ['e', 't']) rfl (by simp [continuesName]) h
    | true_ => exact exists_scan_of_word (t := ['r', 'u', 'e']) rfl (by simp [continuesName]) h
    | false_ =>
      exact exists_scan_of_word (t := ['a', 'l', 's', 'e']) rfl (by simp [continuesName]) h
    | _ => exact absurd (by decide) hs
  | identifier hc hcs => exact exists_scan_of_word hc hcs h
  | number hne hwhole hpart => exact exists_scan_of_numeral hne hwhole hpart h
  | @string text value htext =>
    obtain ⟨rest, rfl⟩ := h
    have hscan := scan_of_quoted? (htext.quoted? rest)
    exact ⟨_, by simpa using hscan, by simp⟩

/-- Reading takes the longest text of a token. -/
theorem TokenKind.longest_iff_scan {kind : TokenKind} {lexeme rest : List Char} :
    kind.Longest lexeme rest ↔ scan (lexeme ++ rest) = .ok ⟨kind, lexeme.length⟩ := by
  constructor
  · intro h
    obtain ⟨l, hscan, hle⟩ := exists_scan_of_written h.written (List.prefix_append lexeme rest)
    obtain ⟨lexeme', rest', happend, hwritten, hlength⟩ := exists_written_of_scan hscan
    -- each of both is the longest, so they are the same
    have hle' := h.le _ _ hwritten (happend ▸ List.prefix_append lexeme' rest')
    obtain ⟨rfl, -⟩ := List.append_inj happend (by omega)
    rw [hscan, h.written.unique hwritten, ← hlength]
  · intro hscan
    obtain ⟨lexeme', rest', happend, hwritten, hlength⟩ := exists_written_of_scan hscan
    obtain ⟨rfl, -⟩ := List.append_inj happend hlength
    refine ⟨hwritten, fun kind' lexeme' hwritten' hfront => ?_⟩
    obtain ⟨l, hscan', hle⟩ := exists_scan_of_written hwritten' hfront
    obtain rfl := Except.ok.inj (hscan.symm.trans hscan')
    exact hle

/-! ## Gaps -/

/-- White space and comments, and what follows them. A comment reaches to just before the next line
feed, or to the end of the text. -/
inductive Gap : List Char → List Char → Prop where
  | nil (rest : List Char) : Gap [] rest
  | blank {c : Char} {gap rest : List Char} : Text.isBlank c → Gap gap rest → Gap (c :: gap) rest
  | comment {text gap rest : List Char} : '\n' ∉ text → (∀ c ∈ (gap ++ rest).head?, c = '\n') →
      Gap gap rest → Gap ('/' :: '/' :: (text ++ gap)) rest

/-- Two gaps next to each other are one. -/
theorem Gap.append {gap gap' rest : List Char} (h : Gap gap (gap' ++ rest)) (h' : Gap gap' rest) :
    Gap (gap ++ gap') rest := by
  generalize hall : gap' ++ rest = all at h
  induction h with
  | nil => exact h'
  | blank hc _ ih => exact .blank hc (ih hall)
  | comment htext hend _ ih =>
    subst hall
    rw [List.cons_append, List.cons_append, List.append_assoc]
    exact .comment htext (by simpa using hend) (ih rfl)

/-- A comment starts with two slashes, and only that does. -/
theorem commentLength_eq_zero_iff {cs : List Char} :
    commentLength cs = 0 ↔ ¬['/', '/'] <+: cs := by
  rcases cs with _ | ⟨c, _ | ⟨d, cs⟩⟩
  · simp [commentLength]
  · simp [commentLength, List.cons_prefix_cons]
  · by_cases hc : c = '/'
    · by_cases hd : d = '/'
      · simp [commentLength, hc, hd, List.cons_prefix_cons]
      · simp [commentLength, hd, List.cons_prefix_cons, Ne.symm hd]
    · simp [commentLength, hc, List.cons_prefix_cons, Ne.symm hc]

/-- The characters of a comment, if it ends where it has to. -/
theorem commentLength_comment {text rest : List Char} (htext : '\n' ∉ text)
    (hrest : ∀ c ∈ rest.head?, c = '\n') :
    commentLength ('/' :: '/' :: (text ++ rest)) = text.length + 1 + 1 := by
  have hinside : ∀ c ∈ text, (c != '\n') = true := by
    intro c hc
    rw [bne_iff_ne]
    rintro rfl
    exact htext hc
  have hends : rest.takeWhile (· != '\n') = [] := by
    cases rest with
    | nil => rfl
    | cons c rest => simp [hrest c rfl]
  rw [commentLength, List.takeWhile_append_of_pos hinside, hends, List.append_nil]
  omega

/-- Gaps give no tokens. -/
theorem lexFrom_gap {gap rest : List Char} (h : Gap gap rest) (l : Location) :
    lexFrom l 0 (gap ++ rest) = lexFrom (l.after gap) 0 rest := by
  induction h generalizing l with
  | nil => rfl
  | blank hc _ ih =>
    rw [List.cons_append, lexFrom, if_pos hc]
    exact ih (l.next _)
  | @comment text gap rest htext hend _ ih =>
    have hlength := commentLength_comment htext hend
    have hslash : ¬Text.isBlank '/' = true := by decide
    rw [List.cons_append, List.cons_append, List.append_assoc, lexFrom, if_neg hslash, hlength]
    dsimp only
    -- the rest of the comment is walked through
    rw [lexFrom_inside, List.take_succ_cons, List.drop_succ_cons, List.take_left, List.drop_left,
      ih, Location.after_cons, Location.after_cons, Location.after_cons, Location.after_append]

/-- Where there is white space or a comment, there is a gap. -/
theorem exists_gap {c : Char} {cs : List Char}
    (h : Text.isBlank c ∨ ['/', '/'] <+: c :: cs) :
    ∃ gap rest, gap ≠ [] ∧ c :: cs = gap ++ rest ∧ Gap gap rest := by
  rcases h with hc | ⟨cs', hcs'⟩
  · exact ⟨[c], cs, by simp, rfl, .blank hc (.nil cs)⟩
  · refine ⟨'/' :: '/' :: (cs'.takeWhile (· != '\n') ++ []), cs'.dropWhile (· != '\n'), by simp,
      ?_, .comment ?_ ?_ (.nil _)⟩
    · rw [← hcs', List.append_nil]
      simp
    · intro hmem
      simpa using List.mem_takeWhile_imp hmem
    · intro d hd
      have hnot := List.head?_dropWhile_not (· != '\n') cs'
      rw [List.nil_append] at hd
      rw [Option.mem_def.1 hd] at hnot
      simpa using hnot

/-! ## Tiles -/

/-- The characters behind the given ones are tiled by the texts of the tokens, with gaps before,
between and behind them. Each of the texts is as long as possible, and no gap could go on with it.
Each token is at the place where its text starts, and the last one marks the place where the text
ends. -/
inductive Tiles (text : ℕ) : List Char → List Char → List Token → Prop where
  | done {before gap : List Char} : Gap gap [] →
      Tiles text before gap [⟨.eof, .behind text (before ++ gap)⟩]
  | token {before gap lexeme rest : List Char} {kind : TokenKind} {ts : List Token} :
      Gap gap (lexeme ++ rest) → ¬['/', '/'] <+: lexeme ++ rest → kind.Longest lexeme rest →
      Tiles text (before ++ gap ++ lexeme) rest ts →
      Tiles text before (gap ++ (lexeme ++ rest)) (⟨kind, .behind text (before ++ gap)⟩ :: ts)

/-- The place behind two parts of a text is found part by part. -/
theorem Location.after_behind (text : ℕ) (cs ds : List Char) :
    (Location.behind text cs).after ds = .behind text (cs ++ ds) := by
  rw [← after_first, ← after_first, after_append]

/-- The text of a token does not start with white space. -/
theorem TokenKind.Written.exists_cons {kind : TokenKind} {lexeme : List Char}
    (h : kind.Written lexeme) : ∃ c t, lexeme = c :: t ∧ Text.isBlank c = false := by
  cases h with
  | symbol s => cases s <;> exact ⟨_, _, rfl, rfl⟩
  | @identifier c cs hc =>
    have := startsName_bounds hc
    exact ⟨c, cs, rfl, isBlank_eq_false (by omega)⟩
  | @number whole part hne hwhole =>
    obtain ⟨c, whole, rfl⟩ := List.exists_cons_of_ne_nil hne
    have := isDigit_bounds.1 (hwhole c List.mem_cons_self)
    exact ⟨c, _, rfl, isBlank_eq_false (by omega)⟩
  | string => exact ⟨_, _, rfl, rfl⟩

/-- The text of a token gives that token, if it is as long as possible. -/
theorem lexFrom_token {kind : TokenKind} {lexeme rest : List Char}
    (hlongest : kind.Longest lexeme rest) (hcomment : ¬['/', '/'] <+: lexeme ++ rest)
    (l : Location) :
    lexFrom l 0 (lexeme ++ rest) = (lexFrom (l.after lexeme) 0 rest).map (⟨kind, l⟩ :: ·) := by
  have hscan := TokenKind.longest_iff_scan.1 hlongest
  obtain ⟨c, t, rfl, hblank⟩ := hlongest.written.exists_cons
  have hzero := commentLength_eq_zero_iff.2 hcomment
  rw [List.cons_append] at hscan hzero ⊢
  rw [lexFrom, hblank, hzero, hscan]
  simp only [Bool.false_eq_true, if_false, List.length_cons, Nat.add_sub_cancel]
  rw [lexFrom_inside, List.take_left, List.drop_left, Location.after_cons]
  cases lexFrom ((l.next c).after t) 0 rest <;> rfl

/-- Tokens that tile a text are read from it. -/
theorem lexFrom_of_tiles {text : ℕ} {before cs : List Char} {ts : List Token}
    (h : Tiles text before cs ts) : lexFrom (.behind text before) 0 cs = .ok ts := by
  induction h with
  | @done before gap hgap =>
    have hlex := lexFrom_gap hgap (.behind text before)
    rw [List.append_nil] at hlex
    rw [hlex, Location.after_behind, lexFrom]
  | token hgap hcomment hlongest _ ih =>
    rw [lexFrom_gap hgap, lexFrom_token hlongest hcomment, Location.after_behind,
      Location.after_behind, ih]
    rfl

/-- A gap can be put before tiles. -/
theorem Tiles.gap {text : ℕ} {before gap cs : List Char} {ts : List Token} (hgap : Gap gap cs)
    (h : Tiles text (before ++ gap) cs ts) : Tiles text before (gap ++ cs) ts := by
  cases h with
  | @done _ gap' hgap' =>
    rw [List.append_assoc]
    refine .done (Gap.append ?_ hgap')
    rwa [List.append_nil]
  | token hgap' hcomment hlongest htiles =>
    rw [List.append_assoc, ← List.append_assoc gap]
    refine .token (hgap.append hgap') hcomment hlongest ?_
    rwa [← List.append_assoc before]

/-- The tokens that are read from a text tile it. -/
theorem tiles_of_lexFrom {text : ℕ} {before cs : List Char} {ts : List Token}
    (h : lexFrom (.behind text before) 0 cs = .ok ts) : Tiles text before cs ts := by
  -- by induction on the number of characters: gaps and tokens are taken off the front
  induction hn : cs.length using Nat.strong_induction_on generalizing before cs ts with
  | _ n ih =>
    cases cs with
    | nil =>
      rw [lexFrom] at h
      cases h
      have htiles : Tiles text before [] [⟨.eof, .behind text (before ++ [])⟩] := .done (.nil [])
      rwa [List.append_nil] at htiles
    | cons c cs =>
      by_cases hstart : Text.isBlank c ∨ ['/', '/'] <+: c :: cs
      · obtain ⟨gap, rest, hne, hcs, hgap⟩ := exists_gap hstart
        rw [hcs] at h hn ⊢
        rw [lexFrom_gap hgap, Location.after_behind] at h
        refine .gap hgap (ih rest.length ?_ h rfl)
        rw [← hn, List.length_append]
        have := List.length_pos_of_ne_nil hne
        omega
      · obtain ⟨hblank, hcomment⟩ := not_or.1 hstart
        cases hscan : scan (c :: cs) with
        | error cause =>
          rw [lexFrom, if_neg hblank, commentLength_eq_zero_iff.2 hcomment, hscan] at h
          cases h
        | ok lexeme =>
          obtain ⟨word, rest, hcs, hwritten, hlength⟩ := exists_written_of_scan hscan
          have hlongest : lexeme.kind.Longest word rest := by
            rw [TokenKind.longest_iff_scan, ← hcs, hscan, ← hlength]
          rw [hcs] at h hn hcomment ⊢
          rw [lexFrom_token hlongest hcomment, Location.after_behind] at h
          cases hrest : lexFrom (.behind text (before ++ word)) 0 rest with
          | error e =>
            rw [hrest] at h
            cases h
          | ok ts' =>
            rw [hrest] at h
            cases h
            obtain ⟨d, t, rfl, -⟩ := hwritten.exists_cons
            have htiles := ih rest.length (by rw [← hn]; simp) hrest rfl
            simpa using Tiles.token (.nil _) hcomment hlongest (by simpa using htiles)

/-- A text can be cut into tokens exactly if these tile it. So the text consists of gaps and of the
texts of the tokens, each of which is the longest text of a token at its place; and lines and
columns are counted in all of the text, within quotes and comments too. -/
theorem tokenize_eq_ok_iff_tiles (text : ℕ) (source : String) (ts : List Token) :
    tokenize text source = .ok ts ↔ Tiles text [] source.toList ts := by
  have hfirst : Location.first text = .behind text [] := Location.after_first text []
  rw [tokenize, hfirst]
  exact ⟨tiles_of_lexFrom, lexFrom_of_tiles⟩

-- a quoted text may go on behind a line feed, and what follows it is counted from there
example : tokenize 0 "\"a\\\nb\" c" =
    .ok [⟨.string "a\nb", ⟨0, 1, 1⟩⟩, ⟨.identifier "c", ⟨0, 2, 4⟩⟩, ⟨.eof, ⟨0, 2, 5⟩⟩] := by
  rfl

end CallByNeed
