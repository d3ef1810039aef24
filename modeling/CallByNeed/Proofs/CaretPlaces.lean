import CallByNeed.Proofs.ErrorPlaces
import CallByNeed.Proofs.TextLines

/-!
# The caret is under the right character

An error about a text tells a place in it, and `Diagnostic.excerpt` shows the line of that place
with a caret below. A place is a line and a column, which are counted while the text is cut into
tokens. Here they are tied to an offset into the text: the start of a token, or the character at
which no token can be read (`Tiles.exists_start`, `exists_start_of_lexFrom`). The excerpt then shows
the line around that offset, and the caret is below the character there
(`Diagnostic.lines_excerpt`).
-/

namespace CallByNeed

open Lexeme

/-! ## Where errors start -/

/-- The token stands at the front of the characters: its text does, or it is the end and there are
no more. -/
def TokenKind.StartsOff (kind : TokenKind) (cs : List Char) : Prop :=
  kind = .eof ∧ cs = [] ∨ ∃ lexeme, kind.Written lexeme ∧ lexeme <+: cs

/-- The cause stands at the front of the characters: the character that starts no token, or the
quote that is not closed. -/
def LexCause.StartsOff : LexCause → List Char → Prop
  | .unexpected c, cs => cs.head? = some c
  | .unterminated, cs => cs.head? = some '"'

/-- A token is at the place where it starts. -/
theorem Tiles.exists_start {text : ℕ} {before cs : List Char} {ts : List Token}
    (h : Tiles text before cs ts) {t : Token} (ht : t ∈ ts) :
    ∃ front rest, cs = front ++ rest ∧ t.location = .behind text (before ++ front) ∧
      t.kind.StartsOff rest := by
  induction h with
  | @done before gap =>
    rw [List.mem_singleton.1 ht]
    exact ⟨gap, [], by simp, rfl, .inl ⟨rfl, rfl⟩⟩
  | @token before gap lexeme rest kind ts _ _ hlongest _ ih =>
    rcases List.mem_cons.1 ht with rfl | ht
    · exact ⟨gap, lexeme ++ rest, rfl, rfl,
        .inr ⟨lexeme, hlongest.written, List.prefix_append lexeme rest⟩⟩
    · obtain ⟨front, rest', rfl, hlocation, hstarts⟩ := ih ht
      refine ⟨gap ++ lexeme ++ front, rest', by simp, ?_, hstarts⟩
      rw [hlocation]
      simp

/-- Where no token can be read, there is a character that starts none, or a quote. -/
theorem LexCause.startsOff_of_scan {cs : List Char} (hne : cs ≠ []) {cause : LexCause}
    (h : scan cs = .error cause) : cause.StartsOff cs := by
  unfold scan at h
  split at h
  · cases h
  · split at h
    · split at h <;> cases h
      rfl
    · cases h
      rfl
    · exact absurd rfl hne

/-- If a text cannot be cut into tokens, the place that is told is that of the cause. -/
theorem exists_start_of_lexFrom {text n : ℕ} {before cs : List Char} {e : LexError}
    (h : lexFrom (.behind text before) n cs = .error e) :
    ∃ front rest, cs = front ++ rest ∧ e.location = .behind text (before ++ front) ∧
      e.cause.StartsOff rest := by
  -- the characters before the failure are walked through one by one
  induction cs generalizing before n with
  | nil => cases n <;> cases h
  | cons c cs ih =>
    have hnext : (Location.behind text before).next c = .behind text (before ++ [c]) :=
      Location.after_behind text before [c]
    have hrest : ∀ n, lexFrom ((Location.behind text before).next c) n cs = .error e →
        ∃ front rest, c :: cs = front ++ rest ∧ e.location = .behind text (before ++ front) ∧
          e.cause.StartsOff rest := by
      intro n h
      rw [hnext] at h
      obtain ⟨front, rest, rfl, hlocation, hstarts⟩ := ih h
      exact ⟨c :: front, rest, rfl, by simpa using hlocation, hstarts⟩
    cases n with
    | succ n => exact hrest n h
    | zero =>
      rw [lexFrom] at h
      split at h
      · exact hrest 0 h
      · split at h
        · exact hrest _ h
        · split at h
          · next cause hscan =>
            cases h
            exact ⟨[], c :: cs, rfl, by simp, LexCause.startsOff_of_scan (by simp) hscan⟩
          · split at h
            · next herror =>
              cases h
              exact hrest _ herror
            · cases h

/-- If tokens do not form a program, one of them is in the way. -/
theorem found_mem_of_parseFrom {phase : Phase} {ts : List Token} {e : ParseError}
    (h : parseFrom phase ts = .error (.misplaced e)) : e.found ∈ ts := by
  induction ts generalizing phase with
  | nil => cases h
  | cons t ts ih =>
    rw [parseFrom] at h
    split at h
    · cases h
    · split at h
      · next hstep =>
        cases h
        rw [Phase.found_of_step hstep]
        exact List.mem_cons_self
      · split at h
        · next hrest =>
          cases h
          exact List.mem_cons_of_mem _ (ih hrest)
        · cases h

/-- What an error about a text points to, if it starts with the given characters: what starts no
token, or a token. -/
inductive Diagnostic.PointsTo (source : String) (d : Diagnostic) (cs : List Char) : Prop where
  | cause (cause : LexCause) : d.kind = .lex → d.message = cause.message → cause.StartsOff cs →
      PointsTo source d cs
  | token {ts : List Token} {t : Token} : d.kind = .parse ∨ d.kind = .runtime →
      tokenize 0 source = .ok ts → t ∈ ts → d.location = some t.location → t.kind.StartsOff cs →
      PointsTo source d cs

/-- An error is about a text, points to some characters of it, and tells the line and the column
behind all characters before these. -/
structure Diagnostic.Finds (source : String) (d : Diagnostic) : Prop where
  about : d.source = some source
  points : ∃ before rest, source.toList = before ++ rest ∧
    d.location = some (.behind 0 before) ∧ d.PointsTo source rest

section

variable {source : String} {d : Diagnostic}

/-- An error at the place of a token points to it. -/
theorem finds_of_token {ts : List Token} {t : Token} (hts : tokenize 0 source = .ok ts)
    (ht : t ∈ ts) (hsource : d.source = some source) (hkind : d.kind = .parse ∨ d.kind = .runtime)
    (hlocation : d.location = some t.location) : d.Finds source := by
  have htiles : Tiles 0 [] source.toList ts := tiles_of_lexFrom hts
  obtain ⟨front, rest, happend, hplace, hstarts⟩ := htiles.exists_start ht
  exact ⟨hsource, front, rest, happend, hlocation.trans (congrArg some hplace),
    .token hkind hts ht hlocation hstarts⟩

/-- The error of a text that cannot be read points to the reason. -/
theorem finds_of_parse {e : ReadFailure} (hparse : parse 0 source = .error e)
    (h : Failure.ofRead (some source) e = .diagnosed d) : d.Finds source := by
  unfold parse at hparse
  cases hts : tokenize 0 source with
  | error cause =>
    rw [hts] at hparse
    cases hparse
    cases h
    have hlex : lexFrom (.behind 0 []) 0 source.toList = .error cause := hts
    obtain ⟨front, rest, happend, hlocation, hstarts⟩ := exists_start_of_lexFrom hlex
    exact ⟨rfl, front, rest, happend, congrArg some hlocation, .cause cause.cause rfl rfl hstarts⟩
  | ok ts =>
    rw [hts] at hparse
    dsimp only at hparse
    rw [parseTokens_of_lexFrom hts] at hparse
    cases hfrom : parseFrom .between ts with
    | ok => rw [hfrom] at hparse; cases hparse
    | error failure =>
      rw [hfrom] at hparse
      cases hparse
      cases failure with
      | endless => cases h
      | misplaced e =>
        cases h
        exact finds_of_token hts (found_mem_of_parseFrom hfrom) rfl (.inl rfl) rfl

/-- The error of a text that is run on its own points into it. -/
theorem finds_of_runText (limits : Limits)
    (h : (runText limits .global 0 source .empty).1.failure = some (.diagnosed d)) :
    d.Finds source := by
  have honly : [source][0]? = some source := rfl
  have hordinary := (ordinary_of_runText honly Store.ok_empty limits).2 _ h
  unfold runText at h
  cases hparse : parse 0 source with
  | error e =>
    rw [hparse] at h
    exact finds_of_parse hparse (Option.some.inj h)
  | ok p =>
    rw [hparse] at h
    obtain ⟨stop, -, hstop⟩ := Option.map_eq_some_iff.1 h
    have hkind : d.kind = .runtime := by
      cases stop <;> cases hstop
      rfl
    cases hordinary with
    | lex | parse => cases hkind
    | @runtime message l hpoints =>
      obtain ⟨origin, ts, horigin, hts, t, ht, rfl⟩ := hpoints
      -- the only text is the one that is run
      obtain ⟨htext, rfl⟩ : t.location.text = 0 ∧ origin = source := by
        simpa [List.getElem?_cons, eq_comm] using horigin
      rw [htext] at hts
      exact finds_of_token hts ht rfl (.inr rfl) rfl

end

/-! ## What is shown -/

/-- The number of a line is written in digits. -/
theorem isDigit_of_mem_repr {n : ℕ} {c : Char} (h : c ∈ (n : ℤ).repr.toList) :
    c.isDigit = true := by
  have hrepr : (n : ℤ).repr.toList = Nat.toDigits 10 n := by
    change n.repr.toList = _
    rw [Nat.repr, String.toList_ofList]
  exact Nat.isDigit_of_mem_toDigits (by decide) (by decide) (hrepr ▸ h)

/-- What is only at the end of a list is found there. -/
theorem getElem?_append_singleton_iff {l : List Char} {c : Char} (h : c ∉ l) (j : ℕ) :
    (l ++ [c])[j]? = some c ↔ j = l.length := by
  constructor
  · intro hj
    rcases Nat.lt_trichotomy j l.length with hlt | heq | hgt
    · rw [List.getElem?_append_left hlt] at hj
      exact absurd (List.mem_of_getElem? hj) h
    · exact heq
    · rw [List.getElem?_eq_none (by simp; omega)] at hj
      cases hj
  · rintro rfl
    simp

namespace Diagnostic

/-- What stands before the line of a place. -/
def gutter (l : Location) : String :=
  "  " ++ l.line.repr ++ " | "

/-- What stands before the caret. -/
def lead (l : Location) : List Char :=
  List.replicate ((gutter l).length - 2) ' ' ++ ['|', ' '] ++
    List.replicate (l.column - 1).toNat ' '

/-- An excerpt is the line behind its gutter, and below it the caret behind its lead. -/
theorem excerpt_eq {d : Diagnostic} {l : Location} {line : String} (hl : d.location = some l)
    (hline : d.sourceLine = some line) :
    d.excerpt false =
      some ("\n".intercalate [gutter l ++ line, String.ofList (lead l ++ ['^'])]) := by
  unfold excerpt
  rw [hline, hl]
  simp only [Style.paint, gutter, lead, String.intercalate_cons_cons, String.intercalate_singleton,
    String.ofList_append, String.append_assoc]
  rfl

/-- The caret is as far to the right as its column, counted behind the gutter. -/
theorem length_lead (l : Location) :
    (lead l).length = (gutter l).length + (l.column - 1).toNat := by
  have hgutter : 2 ≤ (gutter l).length := by
    have hblanks : "  ".length = 2 := rfl
    rw [gutter, String.length_append, String.length_append, hblanks]
    omega
  simp only [lead, List.length_append, List.length_replicate, List.length_cons, List.length_nil]
  omega

/-- Only blanks and a bar stand before the caret. -/
theorem not_mem_lead {c : Char} (hblank : c ≠ ' ') (hbar : c ≠ '|') (l : Location) :
    c ∉ lead l := by
  simp [lead, hblank, hbar]

/-- There is no line feed in the number of a line. -/
theorem feed_not_mem_gutter {l : Location} {n : ℕ} (hl : l.line = n) :
    '\n' ∉ (gutter l).toList := by
  have hrepr : '\n' ∉ l.line.repr.toList := by
    rw [hl]
    intro h
    exact absurd (isDigit_of_mem_repr h) (by decide)
  simp [gutter, hrepr]

variable {d : Diagnostic} {source : String} {text : ℕ} {before rest : List Char}

/-- The line that is shown is the one around the place. -/
theorem sourceLine_eq (hsource : d.source = some source) (happend : source.toList = before ++ rest)
    (hlocation : d.location = some (.behind text before)) :
    ∃ line, d.sourceLine = some line ∧ (Text.lines source)[before.count '\n']? = some line ∧
      line.toList =
        (before.reverse.takeWhile (· != '\n')).reverse ++ rest.takeWhile (· != '\n') := by
  have hline : (Text.lines source)[before.count '\n']? = some (String.ofList
      ((before.reverse.takeWhile (· != '\n')).reverse ++ rest.takeWhile (· != '\n'))) := by
    rw [Text.lines, happend, List.getElem?_map, Text.getElem?_splitLines, Option.map_some]
  refine ⟨_, ?_, hline, by simp⟩
  have hpos : 0 < (Location.behind text before).line := by
    simp only [Location.behind]
    omega
  have hindex : ((Location.behind text before).line - 1).toNat = before.count '\n' := by
    simp only [Location.behind]
    omega
  unfold sourceLine
  rw [hsource, hlocation]
  dsimp only
  rw [if_pos hpos, hindex, List.getD_eq_getElem?_getD, hline, Option.getD_some]

/-- The excerpt has two lines. The first one ends in the line around the place, and the caret in the
second one is below the first character behind the place. -/
theorem lines_excerpt (hsource : d.source = some source) (happend : source.toList = before ++ rest)
    (hlocation : d.location = some (.behind text before)) :
    ∃ shown first second line, d.excerpt false = some shown ∧
      Text.lines shown = [first, second] ∧
      (Text.lines source)[before.count '\n']? = some line ∧ line.toList <:+ first.toList ∧
      ∃ i ≤ first.length, (∀ j, second.toList[j]? = some '^' ↔ j = i) ∧
        first.toList.drop i = rest.takeWhile (· != '\n') := by
  obtain ⟨line, hline, hlines, hchars⟩ := sourceLine_eq hsource happend hlocation
  set l := Location.behind text before with hl
  have hcolumn : (lead l).length =
      ((gutter l).toList ++ (before.reverse.takeWhile (· != '\n')).reverse).length := by
    rw [length_lead, List.length_append, List.length_reverse, String.length_toList, hl]
    simp only [Location.behind]
    omega
  have hfirst : (gutter l ++ line).toList = (gutter l).toList ++
      (before.reverse.takeWhile (· != '\n')).reverse ++ rest.takeWhile (· != '\n') := by
    rw [String.toList_append, hchars, List.append_assoc]
  refine ⟨_, gutter l ++ line, String.ofList (lead l ++ ['^']), line, excerpt_eq hlocation hline,
    Text.lines_intercalate (by simp) ?_, hlines, ?_, (lead l).length, ?_, fun j => ?_, ?_⟩
  · -- neither the line nor what stands around it holds a line feed
    have hmem : line.toList ∈ Text.splitLines source.toList := by
      obtain ⟨cs, hcs, rfl⟩ := List.mem_map.1 (List.mem_of_getElem? hlines)
      simpa using hcs
    have hgutter : '\n' ∉ (gutter l).toList :=
      feed_not_mem_gutter (n := 1 + before.count '\n') (by simp [hl, Location.behind])
    simp [hgutter, Text.not_mem_of_mem_splitLines hmem, not_mem_lead]
  · rw [String.toList_append]
    exact List.suffix_append _ _
  · rw [hcolumn, ← String.length_toList, hfirst]
    exact (List.prefix_append _ _).length_le
  · rw [String.toList_ofList]
    exact getElem?_append_singleton_iff (not_mem_lead (by decide) (by decide) l) j
  · rw [hfirst, hcolumn, List.drop_left]

end Diagnostic

/-- If a text that is run on its own fails with an error, the error is about that text, and there is
an offset into the text that it points to: the start of a token, or the character or quote at which
no token can be read. The place of the error is the line and the column of that offset. The excerpt
has two lines. The first one ends in the line of the text with the offset in it. In the second one
there is one caret, and from there on the first line is what the text has from the offset on, up to
the end of its line; so the caret is below the character at the offset, or one behind the end of the
line if there is none. -/
theorem caret_under_character (limits : Limits) (source : String) {d : Diagnostic}
    (h : (runText limits .global 0 source .empty).1.failure = some (.diagnosed d)) :
    d.source = some source ∧
    ∃ k ≤ source.length, d.location = some (.behind 0 (source.toList.take k)) ∧
      d.PointsTo source (source.toList.drop k) ∧
      ∃ shown first second line, d.excerpt false = some shown ∧
        Text.lines shown = [first, second] ∧
        (Text.lines source)[(source.toList.take k).count '\n']? = some line ∧
        line.toList <:+ first.toList ∧
        ∃ i ≤ first.length, (∀ j, second.toList[j]? = some '^' ↔ j = i) ∧
          first.toList.drop i = (source.toList.drop k).takeWhile (· != '\n') := by
  obtain ⟨habout, before, rest, happend, hlocation, hpoints⟩ := finds_of_runText limits h
  obtain ⟨htake, hdrop⟩ : source.toList.take before.length = before ∧
      source.toList.drop before.length = rest := by
    simp [happend]
  refine ⟨habout, before.length, ?_, ?_⟩
  · rw [← String.length_toList, happend]
    exact (List.prefix_append _ _).length_le
  · rw [htake, hdrop]
    exact ⟨hlocation, hpoints, Diagnostic.lines_excerpt habout happend hlocation⟩

/-- The operator that fails stands behind a quoted text with a line feed in it. -/
theorem caret_under_character_quoted :
    let source := "let x = \"a\\\nb\" - 1;\nconsole.log(x);"
    let d : Diagnostic :=
      ⟨.runtime, "'-' operator requires numbers, got string", some ⟨0, 2, 4⟩, some source⟩
    (runText ⟨9, 9⟩ .global 0 source .empty).1.failure = some (.diagnosed d) ∧
      ∃ k ≤ source.length, d.location = some (.behind 0 (source.toList.take k)) ∧
        ∃ (shown first second line : String), d.excerpt false = some shown ∧
          Text.lines shown = [first, second] ∧ line.toList <:+ first.toList ∧
          ∃ i ≤ first.length, (∀ j, second.toList[j]? = some '^' ↔ j = i) ∧
            first.toList.drop i = (source.toList.drop k).takeWhile (· != '\n') := by
  intro source d
  have h : (runText ⟨9, 9⟩ .global 0 source .empty).1.failure = some (.diagnosed d) := by
    decide +kernel
  clear_value source
  obtain ⟨-, k, hk, hlocation, -, shown, first, second, line, hshown, hlines, -, hline, hcaret⟩ :=
    caret_under_character _ source h
  exact ⟨h, k, hk, hlocation, shown, first, second, line, hshown, hlines, hline, hcaret⟩

end CallByNeed
