import CallByNeed.Proofs.Tiling

/-!
# Where a text becomes unreadable

A text that cannot be cut into tokens has a first place from which nothing can be read: either no
white space, no comment and no token starts there (`NothingStarts`), or a quote is opened there that
is not closed (`OpenQuote`). What stands before that place can be read by itself. Cutting the text
there does not change how it is read, although reading looks ahead: a token that is the longest one
with the whole text behind it is so with less of the text behind it.

## Main results

* `exists_unreadable_of_lexFrom`: an error names the first unreadable place, and the text before it
  is cut into tokens;
* `lex_error_at_first_unreadable`: the same for a whole text, with the messages, and that every text
  without a tiling has such an error.
-/

namespace CallByNeed

open Lexeme

/-! ## Less text behind a token or a gap -/

/-- A token that is the longest one stays so if the text ends earlier. -/
theorem TokenKind.Longest.cut {kind : TokenKind} {lexeme before rest : List Char}
    (h : kind.Longest lexeme (before ++ rest)) : kind.Longest lexeme before := by
  refine ⟨h.written, fun kind' lexeme' hwritten hfront => h.le kind' lexeme' hwritten ?_⟩
  rw [← List.append_assoc]
  exact hfront.trans (List.prefix_append _ rest)

/-- A gap stays one if the text ends earlier. -/
theorem Gap.cut {gap before rest : List Char} (h : Gap gap (before ++ rest)) : Gap gap before := by
  generalize hall : before ++ rest = all at h
  induction h with
  | nil => exact .nil before
  | blank hc _ ih => exact .blank hc (ih hall)
  | @comment text gap all htext hend _ ih =>
    subst hall
    refine .comment htext (fun c hc => hend c ?_) (ih rfl)
    -- the comment ends before a line feed, or now it ends with the text
    rw [← List.append_assoc, List.head?_append_of_ne_nil]
    · exact hc
    · rintro hnil
      rw [hnil] at hc
      cases hc

/-! ## What cannot be read -/

/-- Neither white space nor a comment nor the text of any token is at the front. -/
structure NothingStarts (cs : List Char) : Prop where
  not_blank : ∀ c ∈ cs.head?, Text.isBlank c = false
  not_comment : ¬['/', '/'] <+: cs
  not_token : ∀ kind lexeme, TokenKind.Written kind lexeme → ¬lexeme <+: cs

/-- Behind an opening quote, the text ends before the closing one, or the line does. A character
behind a backslash neither closes the quote nor ends the line, and the text may end right behind a
backslash. -/
def OpenQuote (cs : List Char) : Prop :=
  ∃ text value rest, QuotedText text value ∧ cs = text ++ rest ∧
    (rest = [] ∨ rest = ['\\'] ∨ ∃ below, rest = '\n' :: below)

/-- What is wrong with a text from which nothing can be read. -/
inductive Unreadable : LexCause → List Char → Prop where
  | unexpected {c : Char} {cs : List Char} : NothingStarts (c :: cs) →
      Unreadable (.unexpected c) (c :: cs)
  | unterminated {cs : List Char} : OpenQuote cs → Unreadable .unterminated ('"' :: cs)

/-- What is not read as a quoted text is not closed. -/
theorem openQuote_of_quoted? {cs : List Char} (h : quoted? cs = none) : OpenQuote cs := by
  induction cs using quoted?.induct with
  | case1 => exact ⟨[], [], [], .nil, rfl, .inl rfl⟩
  | case2 => exact ⟨[], [], ['\\'], .nil, rfl, .inr (.inl rfl)⟩
  | case3 => cases h
  | case4 cs => exact ⟨[], [], '\n' :: cs, .nil, rfl, .inr (.inr ⟨cs, rfl⟩)⟩
  | case5 c cs ih =>
    rw [quoted?, Option.map_eq_none_iff] at h
    obtain ⟨text, value, rest, htext, rfl, hrest⟩ := ih h
    exact ⟨'\\' :: c :: text, _, rest, .escaped c htext, rfl, hrest⟩
  | case6 c cs hlast hquote hfeed hescape ih =>
    have hback : c ≠ '\\' := by
      rintro rfl
      -- behind a backslash there is either nothing or the character that it escapes
      cases cs with
      | nil => exact hlast rfl rfl
      | cons d cs => exact hescape d cs rfl rfl
    rw [quoted?_cons hquote hfeed hback, Option.map_eq_none_iff] at h
    obtain ⟨text, value, rest, htext, rfl, hrest⟩ := ih h
    exact ⟨c :: text, _, rest, .plain hquote hback hfeed htext, rfl, hrest⟩

/-- The cause of an error is that no token starts with the character at the front, or that the
quote there is not closed. -/
theorem scan_error_cases {c : Char} {cs : List Char} {cause : LexCause}
    (h : scan (c :: cs) = .error cause) :
    cause = .unexpected c ∨ c = '"' ∧ cause = .unterminated ∧ quoted? cs = none := by
  unfold scan at h
  split at h
  · cases h
  · split at h
    · next rest heq =>
      obtain ⟨rfl, rfl⟩ := List.cons.inj heq
      split at h
      · cases h
      · next hquoted =>
        cases h
        exact .inr ⟨rfl, rfl, hquoted⟩
    · next heq =>
      obtain ⟨rfl, -⟩ := List.cons.inj heq
      cases h
      exact .inl rfl
    · next heq => cases heq

/-- Where reading fails outside of gaps, nothing can be read. -/
theorem unreadable_of_scan {c : Char} {cs : List Char} {cause : LexCause}
    (hblank : Text.isBlank c = false) (hcomment : ¬['/', '/'] <+: c :: cs)
    (h : scan (c :: cs) = .error cause) : Unreadable cause (c :: cs) := by
  rcases scan_error_cases h with rfl | ⟨rfl, rfl, hquoted⟩
  · refine .unexpected ⟨by simpa using hblank, hcomment, fun kind lexeme hwritten hfront => ?_⟩
    -- a token at the front would have been read
    obtain ⟨l, hscan, -⟩ := exists_scan_of_written hwritten hfront
    cases hscan.symm.trans h
  · exact .unterminated (openQuote_of_quoted? hquoted)

/-! ## The first unreadable place -/

/-- An error names the first unreadable place, and what stands before it is cut into tokens. -/
theorem exists_unreadable_of_lexFrom {l : Location} {cs : List Char} {e : LexError}
    (h : lexFrom l 0 cs = .error e) :
    ∃ before rest front, cs = before ++ rest ∧ e.location = l.after before ∧
      lexFrom l 0 before = .ok (front ++ [⟨.eof, l.after before⟩]) ∧ Unreadable e.cause rest := by
  -- by induction on the number of characters: gaps and tokens are taken off the front
  induction hn : cs.length using Nat.strong_induction_on generalizing l cs with
  | _ n ih =>
    cases cs with
    | nil => cases h
    | cons c cs =>
      by_cases hstart : Text.isBlank c ∨ ['/', '/'] <+: c :: cs
      · obtain ⟨gap, behind, hne, hcs, hgap⟩ := exists_gap hstart
        have hpos := List.length_pos_of_ne_nil hne
        rw [hcs, lexFrom_gap hgap] at h
        rw [hcs, List.length_append] at hn
        obtain ⟨before, rest, front, rfl, hlocation, hlex, hrest⟩ := ih _ (by omega) h rfl
        refine ⟨gap ++ before, rest, front, ?_, ?_, ?_, hrest⟩
        · rw [hcs, List.append_assoc]
        · rw [hlocation, Location.after_append]
        · rw [lexFrom_gap hgap.cut, hlex, Location.after_append]
      · obtain ⟨hblank, hcomment⟩ := not_or.1 hstart
        cases hscan : scan (c :: cs) with
        | error cause =>
          -- this is the place: nothing stands before it
          rw [lexFrom, if_neg hblank, commentLength_eq_zero_iff.2 hcomment, hscan] at h
          cases h
          rw [Bool.not_eq_true] at hblank
          exact ⟨[], c :: cs, [], rfl, rfl, rfl, unreadable_of_scan hblank hcomment hscan⟩
        | ok lexeme =>
          obtain ⟨word, behind, hcs, hwritten, hlength⟩ := exists_written_of_scan hscan
          have hlongest : lexeme.kind.Longest word behind := by
            rw [TokenKind.longest_iff_scan, ← hcs, hscan, ← hlength]
          obtain ⟨d, t, rfl, -⟩ := hwritten.exists_cons
          rw [hcs] at h hn hcomment
          rw [lexFrom_token hlongest hcomment] at h
          cases hbehind : lexFrom (l.after (d :: t)) 0 behind with
          | ok ts =>
            rw [hbehind] at h
            cases h
          | error e' =>
            rw [hbehind] at h
            cases h
            rw [List.length_append, List.length_cons] at hn
            obtain ⟨before, rest, front, rfl, hlocation, hlex, hrest⟩ := ih _ (by omega) hbehind rfl
            -- the token is read in the same way if the text ends at the unreadable place
            have hcomment' : ¬['/', '/'] <+: d :: t ++ before := by
              intro hfront
              refine hcomment ?_
              rw [← List.append_assoc]
              exact hfront.trans (List.prefix_append _ rest)
            refine ⟨d :: t ++ before, rest, ⟨lexeme.kind, l⟩ :: front, ?_, ?_, ?_, hrest⟩
            · rw [hcs, List.append_assoc]
            · rw [hlocation, Location.after_append]
            · rw [lexFrom_token hlongest.cut hcomment', hlex, Location.after_append]
              rfl

/-- An error of reading a text is that of its first unreadable place: the text before the place is
cut into tokens, and ends where the error is. From the place on, either nothing can start, and the
message names the character there, or a quote is opened and not closed. -/
def LexError.AtFirstUnreadable (text : ℕ) (source : String) (e : LexError) : Prop :=
  ∃ k front,
    tokenize text (String.ofList (source.toList.take k)) = .ok (front ++ [⟨.eof, e.location⟩]) ∧
    ((∃ c, source.toList[k]? = some c ∧
        e.cause.message = "Unexpected character '" ++ String.singleton c ++ "'" ∧
        NothingStarts (source.toList.drop k)) ∨
      (source.toList[k]? = some '"' ∧ e.cause.message = "Unterminated string literal" ∧
        OpenQuote (source.toList.drop (k + 1))))

/-- Errors of reading are local. A text that cannot be cut into tokens has its error at the first
unreadable place, and every text that is not tiled by gaps and longest tokens has such an error. -/
theorem lex_error_at_first_unreadable (text : ℕ) (source : String) :
    (∀ e, tokenize text source = .error e → e.AtFirstUnreadable text source) ∧
      ((∀ ts, ¬Tiles text [] source.toList ts) →
        ∃ e, tokenize text source = .error e ∧ e.AtFirstUnreadable text source) := by
  have hlocal : ∀ e, tokenize text source = .error e → e.AtFirstUnreadable text source := by
    intro e he
    obtain ⟨before, rest, front, hsource, hlocation, hlex, hrest⟩ :=
      exists_unreadable_of_lexFrom he
    refine ⟨before.length, front, ?_, ?_⟩
    · rw [hsource, List.take_left, hlocation, tokenize, String.toList_ofList, hlex]
    · rw [hsource, List.getElem?_append_right le_rfl, Nat.sub_self, List.drop_left,
        ← List.drop_drop, List.drop_left]
      obtain ⟨cause, location⟩ := e
      cases hrest with
      | unexpected hnothing => exact .inl ⟨_, rfl, rfl, hnothing⟩
      | unterminated hopen => exact .inr ⟨rfl, rfl, hopen⟩
  refine ⟨hlocal, fun hnot => ?_⟩
  cases hlex : tokenize text source with
  | error e => exact ⟨e, rfl, hlocal e hlex⟩
  | ok ts => exact absurd (tiles_of_lexFrom (Location.after_first text [] ▸ hlex)) (hnot ts)

/-- A quote that is still open where the text ends, behind an escaped line feed, and a point that
belongs to no numeral, so that the text is not tiled. -/
theorem lex_error_at_first_unreadable_quote :
    (tokenize 0 "5 + \"a\\\n" = .error ⟨.unterminated, ⟨0, 1, 5⟩⟩ ∧
        LexError.AtFirstUnreadable 0 "5 + \"a\\\n" ⟨.unterminated, ⟨0, 1, 5⟩⟩) ∧
      (∀ ts, ¬Tiles 0 [] "5.".toList ts) ∧
        ∃ e, tokenize 0 "5." = .error e ∧ LexError.AtFirstUnreadable 0 "5." e := by
  have hquote : tokenize 0 "5 + \"a\\\n" = .error ⟨.unterminated, ⟨0, 1, 5⟩⟩ := by decide +kernel
  have hpoint : tokenize 0 "5." = .error ⟨.unexpected '.', ⟨0, 1, 2⟩⟩ := by decide +kernel
  have huntiled : ∀ ts, ¬Tiles 0 [] "5.".toList ts := by
    intro ts hts
    have hlex := lexFrom_of_tiles hts
    rw [← Location.after_first] at hlex
    cases hlex.symm.trans hpoint
  exact ⟨⟨hquote, (lex_error_at_first_unreadable 0 _).1 _ hquote⟩, huntiled,
    (lex_error_at_first_unreadable 0 _).2 huntiled⟩

end CallByNeed
