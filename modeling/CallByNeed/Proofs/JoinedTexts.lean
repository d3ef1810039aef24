import CallByNeed.Proofs.Lexemes
import CallByNeed.Proofs.Relocation

/-!
# Texts one below the other

Two texts with a line feed between them are one text. No token and no comment goes on behind a line
feed, a quoted text apart, and that one is closed if the first text can be cut into tokens. So the
tokens of the whole are those of the first text, without its end, and those of the second one,
further down (`lexFrom_append`), and what is wrong with the second text is wrong with the whole
(`tokenize_across_lineFeed`). Statements end before the end of a text, and so the statements of the
whole are those of both texts (`parse_append`).
-/

namespace CallByNeed

/-! ## What a line feed ends -/

section

variable (ds : List Char)

/-- What a line feed ends is not changed by what stands behind it. -/
theorem takeWhile_append_lineFeed {p : Char → Bool} (hp : p '\n' = false) (cs : List Char) :
    (cs ++ '\n' :: ds).takeWhile p = cs.takeWhile p := by
  induction cs with
  | nil => simp [hp]
  | cons c cs ih => rw [List.cons_append, List.takeWhile_cons, List.takeWhile_cons, ih]

/-- A word without line feeds is not found across one. -/
theorem isPrefixOf_append_lineFeed {w : List Char} (hw : '\n' ∉ w) (cs : List Char) :
    w.isPrefixOf (cs ++ '\n' :: ds) = w.isPrefixOf cs := by
  induction w generalizing cs with
  | nil => rfl
  | cons d w ih =>
    rw [List.mem_cons, not_or] at hw
    cases cs with
    | nil => simp [List.isPrefixOf, Ne.symm hw.1]
    | cons c cs => rw [List.cons_append, List.isPrefixOf, List.isPrefixOf, ih hw.2]

/-- A comment ends before the line does. -/
theorem commentLength_append_lineFeed (cs : List Char) :
    commentLength (cs ++ '\n' :: ds) = commentLength cs := by
  rcases cs with _ | ⟨c, _ | ⟨d, cs⟩⟩
  · rfl
  · by_cases hc : c = '/'
    · subst hc
      rfl
    · rw [List.cons_append, commentLength_of_ne hc, commentLength_of_ne hc]
  · by_cases hc : c = '/'
    · by_cases hd : d = '/'
      · subst hc hd
        rw [List.cons_append, List.cons_append, commentLength, commentLength,
          takeWhile_append_lineFeed ds (by decide)]
      · simp [commentLength, hd]
    · rw [List.cons_append, commentLength_of_ne hc, commentLength_of_ne hc]

/-- A comment is no longer than the text. -/
theorem commentLength_le (cs : List Char) : commentLength cs ≤ cs.length := by
  unfold commentLength
  split
  · next cs =>
    have hle := (List.takeWhile_prefix (l := cs) (· != '\n')).length_le
    simp only [List.length_cons]
    omega
  · exact Nat.zero_le _

end

namespace Lexeme

variable {cs : List Char} (ds : List Char)

/-- A sign is not changed by what stands behind a line feed. -/
theorem symbol?_append_lineFeed (cs : List Char) : symbol? (cs ++ '\n' :: ds) = symbol? cs := by
  have htext : ∀ s : Symbol, '\n' ∉ s.text.toList := by
    intro s
    cases s <;> decide
  unfold symbol?
  simp only [isPrefixOf_append_lineFeed ds (htext _)]

/-- A fraction is not changed by what stands behind a line feed. -/
theorem fraction_append_lineFeed (cs : List Char) : fraction (cs ++ '\n' :: ds) = fraction cs := by
  rcases cs with _ | ⟨c, cs⟩
  · rfl
  · by_cases hc : c = '.'
    · subst hc
      exact takeWhile_append_lineFeed ds (by decide) cs
    · simp [fraction, hc]

/-- A fraction and the point before it are a part of the text. -/
theorem length_fraction_le (cs : List Char) :
    (if (fraction cs).isEmpty then 0 else (fraction cs).length + 1) ≤ cs.length := by
  unfold fraction
  split
  · next cs =>
    have hle := (List.takeWhile_prefix (l := cs) Char.isDigit).length_le
    rw [List.length_cons]
    split <;> omega
  · exact Nat.zero_le _

/-- A number is not changed by what stands behind a line feed. -/
theorem number?_append_lineFeed (cs : List Char) : number? (cs ++ '\n' :: ds) = number? cs := by
  have hle := (List.takeWhile_prefix (l := cs) Char.isDigit).length_le
  unfold number?
  rw [takeWhile_append_lineFeed ds (by decide)]
  dsimp only
  rw [List.drop_append_of_le_length hle, fraction_append_lineFeed]

/-- A word is not changed by what stands behind a line feed. -/
theorem word?_append_lineFeed (cs : List Char) : word? (cs ++ '\n' :: ds) = word? cs := by
  cases cs with
  | nil => rfl
  | cons c cs => rw [List.cons_append, word?, word?, takeWhile_append_lineFeed ds (by decide)]

/-- Most characters of a quoted text stand for themselves. -/
theorem quoted?_cons {c : Char} (hquote : c ≠ '"') (hfeed : c ≠ '\n') (hback : c ≠ '\\')
    (cs : List Char) : quoted? (c :: cs) = (quoted? cs).map fun q => (c :: q.1, q.2 + 1) := by
  simp [quoted?, hback]

/-- A quoted text that is closed does not change, whatever follows, and it is a part of the text. -/
theorem quoted?_append {q : List Char × Nat} (h : quoted? cs = some q) :
    quoted? (cs ++ ds) = some q ∧ q.2 ≤ cs.length := by
  induction cs using quoted?.induct generalizing q with
  | case1 => cases h
  | case2 => cases h
  | case3 cs =>
    cases h
    exact ⟨rfl, by simp⟩
  | case4 cs => cases h
  | case5 c cs ih =>
    rw [quoted?, Option.map_eq_some_iff] at h
    obtain ⟨⟨value, n⟩, hcs, rfl⟩ := h
    obtain ⟨happend, hle⟩ := ih hcs
    refine ⟨?_, by simpa using hle⟩
    rw [List.cons_append, List.cons_append, quoted?, happend]
    rfl
  | case6 c cs hlast hquote hfeed hescape ih =>
    have hback : c ≠ '\\' := by
      intro hc
      cases cs with
      | nil => exact hlast hc rfl
      | cons d cs => exact hescape d cs hc rfl
    rw [quoted?_cons hquote hfeed hback, Option.map_eq_some_iff] at h
    obtain ⟨q, hcs, rfl⟩ := h
    obtain ⟨happend, hle⟩ := ih hcs
    refine ⟨?_, by simpa using hle⟩
    rw [List.cons_append, quoted?_cons hquote hfeed hback, happend]
    rfl

/-- A token is not changed by what stands behind a line feed. -/
theorem scan_append_lineFeed {l : Lexeme} (h : scan cs = .ok l) :
    scan (cs ++ '\n' :: ds) = .ok l := by
  unfold scan at h ⊢
  rw [symbol?_append_lineFeed, number?_append_lineFeed, word?_append_lineFeed]
  cases hfirst : symbol? cs <|> number? cs <|> word? cs with
  | some l' =>
    rw [hfirst] at h
    exact h
  | none =>
    rw [hfirst] at h
    dsimp only at h ⊢
    split at h
    · next rest =>
      split at h
      · next value n hquoted =>
        simp only [List.cons_append, (quoted?_append _ hquoted).1]
        exact h
      · cases h
    · cases h
    · cases h

/-- A token is a part of the text. -/
theorem length_le_of_scan {l : Lexeme} (h : scan cs = .ok l) : l.length ≤ cs.length := by
  rcases scan_cases h with h | h | h | ⟨rest, value, n, rfl, hquoted, rfl⟩
  · obtain ⟨s, hs, rfl⟩ := Option.map_eq_some_iff.1 h
    have hprefix : s.text.toList.isPrefixOf cs = true := by simpa using List.find?_some hs
    have hle := (List.isPrefixOf_iff_prefix.1 hprefix).length_le
    rwa [String.length_toList] at hle
  · unfold number? at h
    dsimp only at h
    split at h
    · cases h
    · cases h
      have hwhole := (List.takeWhile_prefix (l := cs) Char.isDigit).length_le
      have hpart := length_fraction_le (cs.drop (cs.takeWhile Char.isDigit).length)
      rw [List.length_drop] at hpart
      dsimp only
      omega
  · cases cs with
    | nil => cases h
    | cons c cs =>
      rw [word?] at h
      split at h
      · cases h
        simpa using (List.takeWhile_prefix (l := cs) continuesName).length_le
      · cases h
  · simpa using (quoted?_append [] hquoted).2

end Lexeme

/-! ## Tokens -/

/-- What stands below a text that can be cut into tokens is cut into tokens as if the text ended
before. -/
theorem lexFrom_append (ds : List Char) {l : Location} {n : Nat} {cs : List Char} {ts : List Token}
    (hn : n ≤ cs.length) (h : lexFrom l n cs = .ok ts) :
    ∃ front, ts = front ++ [⟨.eof, l.after cs⟩] ∧
      lexFrom l n (cs ++ '\n' :: ds) =
        (lexFrom ((l.after cs).next '\n') 0 ds).map (front ++ ·) := by
  induction cs generalizing l n ts with
  | nil =>
    -- the first text has ended outside of a token, and the line feed is white space
    obtain rfl := Nat.le_zero.1 hn
    cases h
    refine ⟨[], rfl, ?_⟩
    have hblank : Text.isBlank '\n' = true := by decide
    rw [List.nil_append, lexFrom, if_pos hblank, Location.after_nil]
    cases lexFrom (l.next '\n') 0 ds <;> rfl
  | cons c cs ih =>
    -- induction is on the characters, with how many of them belong to the token before
    cases n with
    | succ n => exact ih (Nat.le_of_succ_le_succ hn) h
    | zero =>
      rw [lexFrom] at h
      rw [List.cons_append, lexFrom]
      split at h
      · next hblank =>
        rw [if_pos hblank]
        exact ih (Nat.zero_le _) h
      · next hblank =>
        rw [if_neg hblank, ← List.cons_append, commentLength_append_lineFeed]
        have hcomment := commentLength_le (c :: cs)
        rw [List.length_cons] at hcomment
        cases hlength : commentLength (c :: cs) with
        | succ length =>
          -- a comment ends with its line, which is in the first text
          rw [hlength] at h hcomment
          exact ih (Nat.le_of_succ_le_succ hcomment) h
        | zero =>
          rw [hlength] at h
          dsimp only at h ⊢
          cases hscan : Lexeme.scan (c :: cs) with
          | error cause =>
            rw [hscan] at h
            cases h
          | ok lexeme =>
            -- the token at the front is the same, and the characters after it follow
            have hle := Lexeme.length_le_of_scan hscan
            rw [List.length_cons] at hle
            rw [hscan] at h
            rw [Lexeme.scan_append_lineFeed ds hscan]
            dsimp only at h ⊢
            cases hrest : lexFrom (l.next c) (lexeme.length - 1) cs with
            | error e =>
              rw [hrest] at h
              cases h
            | ok ts' =>
              rw [hrest] at h
              cases h
              obtain ⟨front, rfl, hlex⟩ := ih (by omega) hrest
              refine ⟨⟨lexeme.kind, l⟩ :: front, rfl, ?_⟩
              rw [hlex, Location.after_cons]
              cases lexFrom (((l.next c).after cs).next '\n') 0 ds <;> rfl

/-- Two texts one below the other are cut into the tokens of the first one, without its end, and
those of the second one at their places in the whole. -/
theorem tokenize_append {n m : Nat} {a : String} {front : List Token} {last : Token}
    {f : Location → Location} (ha : tokenize n a = .ok (front ++ [last]))
    (hnext : ∀ l c, f (l.next c) = (f l).next c)
    (hfirst : f (.first m) = ((Location.first n).after a.toList).next '\n') (b : String) :
    tokenize n (a ++ "\n" ++ b) =
      (((tokenize m b).map (List.map (.relocate f))).mapError (.relocate f)).map (front ++ ·) := by
  obtain ⟨front', heq, happend⟩ := lexFrom_append b.toList (Nat.zero_le _) ha
  obtain rfl : front = front' := (List.append_inj' heq rfl).1
  -- the second text is cut where it stands, which is as if it stood alone, moved
  have htext : (a ++ "\n" ++ b).toList = a.toList ++ '\n' :: b.toList := by simp
  rw [tokenize, htext, happend, ← hfirst]
  exact congrArg (Except.map (front ++ ·)) (lexFrom_relocate hnext (.first m) 0 b.toList)

namespace Location

/-- Each line feed leads to the next line. -/
theorem line_after (l : Location) (cs : List Char) :
    (l.after cs).line = l.line + cs.count '\n' := by
  induction cs generalizing l with
  | nil => simp
  | cons c cs ih =>
    rw [after_cons, ih, next]
    by_cases hc : c = '\n'
    · simp only [hc, if_true, List.count_cons_self]
      omega
    · rw [if_neg hc, List.count_cons_of_ne hc]

/-- The place that is `k` lines further down. -/
def down (k : Nat) (l : Location) : Location :=
  { l with line := l.line + k }

/-- Going on in a text is the same some lines further down. -/
theorem down_next (k : Nat) (l : Location) (c : Char) :
    (l.next c).down k = (l.down k).next c := by
  unfold next
  split
  · simp only [down]
    congr 1
    omega
  · rfl

/-- A text and a line feed lead to the first place that is further down by the lines of the text. -/
theorem down_first (n : Nat) (cs : List Char) :
    (first n).down (1 + cs.count '\n') = ((first n).after cs).next '\n' := by
  rw [next, if_pos rfl, text_after, line_after]
  simp only [first, down]
  congr 1
  omega

end Location

/-- Cutting into tokens is compositional across a line feed. Let the first text be cut into tokens.
Then the two texts with a line feed between them can be cut into tokens if and only if the second
one can. The tokens are those of the first text, without the end of the input, and behind them those
of the second text, each further down by one line and by as many as there are line feeds in the
first text. If the second text cannot be cut into tokens, the whole cannot for the same cause, at
the place that is further down in the same way. -/
theorem tokenize_across_lineFeed (n : Nat) (a b : String) (ts : List Token)
    (ha : tokenize n a = .ok ts) :
    let down := Location.down (1 + a.toList.count '\n')
    let whole := tokenize n (a ++ "\n" ++ b)
    ((∃ vs, whole = .ok vs) ↔ ∃ us, tokenize n b = .ok us) ∧
      ∃ front last, ts = front ++ [last] ∧ last.kind = .eof ∧ (∀ t ∈ front, t.kind ≠ .eof) ∧
        (∀ us, tokenize n b = .ok us →
          whole = .ok (front ++ us.map fun t => ⟨t.kind, down t.location⟩)) ∧
        ∀ e, tokenize n b = .error e → whole = .error ⟨e.cause, down e.location⟩ := by
  intro down whole
  obtain ⟨front, last, rfl, hlast, hfront⟩ := exists_end_of_lexFrom ha
  have hwhole := tokenize_append ha (Location.down_next _) (Location.down_first n a.toList) b
  have hok : ∀ us, tokenize n b = .ok us →
      whole = .ok (front ++ us.map fun t => ⟨t.kind, down t.location⟩) := by
    intro us hus
    rw [hus] at hwhole
    exact hwhole
  have herror : ∀ e, tokenize n b = .error e → whole = .error ⟨e.cause, down e.location⟩ := by
    intro e he
    rw [he] at hwhole
    exact hwhole
  refine ⟨⟨?_, ?_⟩, front, last, rfl, hlast, fun t ht => (hfront t ht).2, hok, herror⟩
  · -- an error in the second text would be one in the whole
    rintro ⟨vs, hvs⟩
    cases hb : tokenize n b with
    | error e => cases hvs.symm.trans (herror e hb)
    | ok us => exact ⟨us, rfl⟩
  · rintro ⟨us, hus⟩
    exact ⟨_, hok us hus⟩

/-- The first text has a line feed inside a quoted text and ends where a longer operator could have
gone on, and the second text goes on with it. A quote that is not closed is an error in both. -/
theorem tokenize_across_lineFeed_operator :
    let a := "\"p\\\nq\" <"
    tokenize 0 a = .ok [⟨.string "p\nq", ⟨0, 1, 1⟩⟩, ⟨.symbol .less, ⟨0, 2, 4⟩⟩,
        ⟨.eof, ⟨0, 2, 5⟩⟩] ∧
      tokenize 0 "= x" = .ok [⟨.symbol .assign, ⟨0, 1, 1⟩⟩, ⟨.identifier "x", ⟨0, 1, 3⟩⟩,
        ⟨.eof, ⟨0, 1, 4⟩⟩] ∧
      tokenize 0 (a ++ "\n" ++ "= x") = .ok [⟨.string "p\nq", ⟨0, 1, 1⟩⟩,
        ⟨.symbol .less, ⟨0, 2, 4⟩⟩, ⟨.symbol .assign, ⟨0, 3, 1⟩⟩, ⟨.identifier "x", ⟨0, 3, 3⟩⟩,
        ⟨.eof, ⟨0, 3, 4⟩⟩] ∧
      tokenize 0 "= \"x" = .error ⟨.unterminated, ⟨0, 1, 3⟩⟩ ∧
      tokenize 0 (a ++ "\n" ++ "= \"x") = .error ⟨.unterminated, ⟨0, 3, 3⟩⟩ := by
  intro a
  have ha : tokenize 0 a = .ok ([⟨.string "p\nq", ⟨0, 1, 1⟩⟩, ⟨.symbol .less, ⟨0, 2, 4⟩⟩] ++
      [⟨.eof, ⟨0, 2, 5⟩⟩]) := by decide +kernel
  have hx : tokenize 0 "= x" = .ok [⟨.symbol .assign, ⟨0, 1, 1⟩⟩, ⟨.identifier "x", ⟨0, 1, 3⟩⟩,
      ⟨.eof, ⟨0, 1, 4⟩⟩] := by decide +kernel
  have hquote : tokenize 0 "= \"x" = .error ⟨.unterminated, ⟨0, 1, 3⟩⟩ := by decide +kernel
  obtain ⟨-, front, last, hfront, -, -, hok, -⟩ := tokenize_across_lineFeed 0 a "= x" _ ha
  obtain ⟨-, _, _, -, -, -, -, herror⟩ := tokenize_across_lineFeed 0 a "= \"x" _ ha
  obtain rfl := (List.append_inj' hfront rfl).1
  -- there is one line feed in the first text, and one behind it
  have hlines : 1 + a.toList.count '\n' = 2 := by decide +kernel
  rw [hlines] at hok herror
  exact ⟨ha, hx, hok _ hx, hquote, herror _ hquote⟩

/-! ## Statements -/

/-- Tokens that are read as statements leave the reader between two statements, and so more tokens
can follow. -/
theorem parseFrom_append {phase : Phase} {front : List Token} {last : Token} {ss : List Statement}
    (hfront : ∀ t ∈ front, t.kind ≠ .eof) (hlast : last.kind = .eof)
    (h : parseFrom phase (front ++ [last]) = .ok ss) (rest : List Token) :
    parseFrom phase (front ++ rest) = (parseFrom .between rest).map (ss ++ ·) := by
  induction front generalizing phase ss with
  | nil =>
    -- the end of the input is accepted between statements only
    rw [List.nil_append, parseFrom] at h
    split at h
    · next hend =>
      cases h
      rw [hend.1, List.nil_append]
      cases parseFrom .between rest <;> rfl
    · obtain ⟨e, he⟩ := phase.step_eof hlast
      rw [he] at h
      cases h
  | cons t front ih =>
    obtain ⟨ht, hfront⟩ := List.forall_mem_cons.1 hfront
    have hend : ¬(phase = .between ∧ t.kind = .eof) := fun hend => ht hend.2
    rw [List.cons_append, parseFrom, if_neg hend] at h ⊢
    cases hstep : phase.step t with
    | error e =>
      rw [hstep] at h
      cases h
    | ok q =>
      obtain ⟨phase', completed⟩ := q
      rw [hstep] at h
      dsimp only at h ⊢
      cases hrest : parseFrom phase' (front ++ [last]) with
      | error e =>
        rw [hrest] at h
        cases h
      | ok ss' =>
        rw [hrest] at h
        cases h
        rw [ih hfront hrest]
        cases parseFrom .between rest with
        | error e => rfl
        | ok statements => simp [Except.map]

/-- The place in a text that stands below the place `l`. -/
def Location.below (l : Location) (place : Location) : Location :=
  ⟨l.text, l.line + place.line, place.column⟩

/-- Going on below a place is going on from it. -/
theorem Location.below_next (l place : Location) (c : Char) :
    l.below (place.next c) = (l.below place).next c := by
  unfold next
  split
  · simp [below, Int.add_assoc]
  · rfl

/-- The tokens of a text end the input. -/
theorem parseTokens_of_lexFrom {l : Location} {n : Nat} {cs : List Char} {ts : List Token}
    (h : lexFrom l n cs = .ok ts) : parseTokens ts = parseFrom .between ts := by
  obtain ⟨front, last, rfl, hlast, -⟩ := exists_end_of_lexFrom h
  rw [parseTokens, if_pos (by simp [hlast])]

/-- Two texts one below the other are read as the statements of both. -/
theorem parse_append {n m : Nat} {a b : String} {p q : Program} (ha : parse n a = .ok p)
    (hb : parse m b = .ok q) :
    parse n (a ++ "\n" ++ b) = .ok ⟨p.statements ++
      q.statements.map (.relocate ((Location.first n).after a.toList).below), a ++ "\n" ++ b⟩ := by
  obtain ⟨ts, hts, hss, -⟩ := parse_eq_ok_iff.1 ha
  obtain ⟨us, hus, huu, -⟩ := parse_eq_ok_iff.1 hb
  rw [parseTokens_of_lexFrom hts] at hss
  rw [parseTokens_of_lexFrom hus] at huu
  -- the tokens of the second text follow those of the first one
  obtain ⟨front, last, rfl, hlast, hfront⟩ := exists_end_of_lexFrom hts
  have htokens : tokenize n (a ++ "\n" ++ b) =
      .ok (front ++ us.map (.relocate ((Location.first n).after a.toList).below)) := by
    rw [tokenize_append hts (Location.below_next _) rfl, hus]
    rfl
  refine parse_eq_ok_iff.2 ⟨_, htokens, ?_, rfl⟩
  -- the reader is between two statements when it comes to them
  rw [parseTokens_of_lexFrom htokens, parseFrom_append (fun t ht => (hfront t ht).2) hlast hss]
  have hrest := parseFrom_relocate ((Location.first n).after a.toList).below .between us
  rw [huu] at hrest
  exact congrArg (Except.map (p.statements ++ ·)) hrest

end CallByNeed
