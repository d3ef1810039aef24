import CallByNeed.Proofs.ErrorPlaces
import CallByNeed.Proofs.RoundTrip
import CallByNeed.Proofs.Tiling

/-!
# Layout does not matter

A `Word` is the text of one token, and a `Separator` is white space and comments, white space first.
An `Arrangement` of words puts a separator between each two of them. Whatever separators are chosen,
the text is cut into the tokens of the words: what a separator starts with goes on with no word and
starts no comment behind a slash (`TokenKind.Written.longest`, `TokenKind.Written.not_comment`), and
so each word is the longest token at its place.

The reader sees the kinds of tokens only, and so all arrangements of the same words are read as the
same program, or are refused with the same message (`readAlike_of_lexesTo`).

## Main results

* `lexesTo_arrange`: the tokens of an arrangement;
* `layout_irrelevant`: tokens and programs of the arrangements of the same words.
-/

namespace CallByNeed

open Lexeme

/-! ## Words -/

/-- The text of a token: a symbol, a name that is not reserved, digits with or without a fraction,
or any text in quotes. -/
inductive Word where
  | symbol (s : Symbol)
  | name (c : Char) (cs : List Char) (starts : startsName c) (continues : ∀ d ∈ cs, continuesName d)
      (free : ∀ s ∈ Symbol.reserved, s.text.toList ≠ c :: cs)
  | numeral (whole part : List Char) (nonempty : whole ≠ []) (digits : ∀ c ∈ whole, c.isDigit)
      (places : ∀ c ∈ part, c.isDigit)
  | quoted (s : String)

namespace Word

/-- How the word is written. A text in quotes is written as programs are printed. -/
def text : Word → List Char
  | symbol s => s.text.toList
  | name c cs _ _ _ => c :: cs
  | numeral whole part _ _ _ => whole ++ if part.isEmpty then [] else '.' :: part
  | quoted s => (quote s).toList

/-- The token that the word stands for. -/
def kind : Word → TokenKind
  | symbol s => .symbol s
  | name c cs _ _ _ => .identifier (String.ofList (c :: cs))
  | numeral whole part _ _ _ =>
    .number (Decimal.toFloat false ⟨Nat.ofDigitChars 10 (whole ++ part) 0, -part.length⟩)
  | quoted s => .string s

end Word

/-- The characters of a printed text between its quotes stand for that text. -/
theorem quotedText_flatMap (cs : List Char) : QuotedText (cs.flatMap quoteChar) cs := by
  induction cs with
  | nil => exact .nil
  | cons c cs ih =>
    rw [List.flatMap_cons]
    -- three characters are escaped, and all others stand for themselves
    by_cases hback : c = '\\'
    · subst hback
      exact .escaped '\\' ih
    by_cases hquote : c = '"'
    · subst hquote
      exact .escaped '"' ih
    by_cases hfeed : c = '\n'
    · subst hfeed
      exact .escaped 'n' ih
    have hplain : quoteChar c = [c] := by simp [quoteChar, hback, hquote, hfeed]
    rw [hplain]
    exact .plain hquote hback hfeed ih

/-- A word is one way to write its token. -/
theorem Word.written (w : Word) : w.kind.Written w.text := by
  cases w with
  | symbol s => exact .symbol s
  | name c cs hc hcs hfree => exact .identifier hc hcs hfree
  | numeral whole part hne hwhole hpart => exact .number hne hwhole hpart
  | quoted s =>
    have hwritten := TokenKind.Written.string (quotedText_flatMap s.toList)
    rw [String.ofList_toList] at hwritten
    rw [text, toList_quote]
    exact hwritten

/-! ## What white space ends -/

namespace TokenKind

/-- Only a quoted text has white space in it. -/
theorem Written.not_blank {kind : TokenKind} {lexeme : List Char} (h : kind.Written lexeme) :
    (∀ c ∈ lexeme, Text.isBlank c = false) ∨ lexeme.head? = some '"' := by
  have hdigit : ∀ c : Char, c.isDigit → Text.isBlank c = false := fun c hc => by
    have := isDigit_bounds.1 hc
    exact isBlank_eq_false (by omega)
  cases h with
  | symbol s =>
    have hall : s.text.toList.all (fun c => !Text.isBlank c) = true := by cases s <;> rfl
    exact .inl fun c hc => by simpa using List.all_eq_true.1 hall c hc
  | @identifier c cs hc hcs =>
    refine .inl fun d hd => ?_
    -- names consist of digits and of what starts names
    have hcontinues : ∀ d ∈ c :: cs, continuesName d :=
      List.forall_mem_cons.2 ⟨continuesName_of_startsName hc, hcs⟩
    have hd := hcontinues d hd
    simp only [continuesName, Char.isAlphanum, Bool.or_eq_true] at hd
    have hstarts : startsName d → Text.isBlank d = false := fun hd => by
      have := startsName_bounds hd
      exact isBlank_eq_false (by omega)
    rcases hd with (hd | hd) | hd
    · exact hstarts (by rw [startsName, hd, Bool.true_or])
    · exact hdigit d hd
    · exact hstarts (by rw [startsName, hd, Bool.or_true])
  | @number whole part hne hwhole hpart =>
    refine .inl fun c hc => ?_
    rw [numeral, List.mem_append] at hc
    rcases hc with hc | hc
    · exact hdigit c (hwhole c hc)
    · split at hc
      · cases hc
      · rcases List.mem_cons.1 hc with rfl | hc
        · decide
        · exact hdigit c (hpart c hc)
  | string => exact .inr rfl

/-- A token cannot go on with white space, a quoted text apart, which ends with its quote. -/
theorem Written.longest {kind : TokenKind} {lexeme rest : List Char} (h : kind.Written lexeme)
    (hrest : ∀ c ∈ rest.head?, Text.isBlank c) : kind.Longest lexeme rest := by
  by_cases hquote : lexeme.head? = some '"'
  · -- only quoted texts start with a quote, and they are read up to the closing one
    cases h with
    | symbol s => exact absurd hquote (by cases s <;> decide)
    | identifier hc =>
      obtain rfl := Option.some.inj hquote
      exact absurd hc (by decide)
    | @number whole part hne hwhole =>
      obtain ⟨c, whole, rfl⟩ := List.exists_cons_of_ne_nil hne
      obtain rfl := Option.some.inj hquote
      exact absurd (hwhole '"' List.mem_cons_self) (by decide)
    | string htext =>
      rw [longest_iff_scan]
      have hscan := scan_of_quoted? (htext.quoted? rest)
      simpa using hscan
  · refine ⟨h, fun kind' lexeme' hwritten hfront => ?_⟩
    by_contra hlt
    rw [not_le] at hlt
    -- a longer token would have the character behind this one in it, which is white space
    obtain ⟨t, ht⟩ := List.prefix_of_prefix_length_le (List.prefix_append lexeme rest) hfront hlt.le
    subst ht
    obtain ⟨c, t, rfl⟩ : ∃ c t', t = c :: t' := by
      apply List.exists_cons_of_ne_nil
      rintro rfl
      simp at hlt
    have hc : c ∈ rest.head? := by
      obtain ⟨r, hr⟩ := hfront
      rw [List.append_assoc] at hr
      rw [← List.append_cancel_left hr]
      rfl
    rcases hwritten.not_blank with hnone | hhead
    · exact Bool.false_ne_true ((hnone c (by simp)).symm.trans (hrest c hc))
    · -- and a quoted text would start as this one does
      obtain ⟨d, u, rfl, -⟩ := h.exists_cons
      exact hquote hhead

/-- A slash before white space starts no comment. -/
theorem Written.not_comment {kind : TokenKind} {lexeme rest : List Char} (h : kind.Written lexeme)
    (hrest : ∀ c ∈ rest.head?, Text.isBlank c) : ¬['/', '/'] <+: lexeme ++ rest := by
  intro hcomment
  -- the two slashes would be the slash and what follows it
  have hslash : lexeme.head? = some '/' := by
    obtain ⟨c, t, rfl, -⟩ := h.exists_cons
    rw [List.cons_append, List.cons_prefix_cons] at hcomment
    exact congrArg some hcomment.1.symm
  cases h with
  | symbol s =>
    cases s with
    | slash =>
      cases rest with
      | nil => exact absurd hcomment (by decide)
      | cons c rest =>
        obtain rfl : '/' = c := by simpa [Symbol.text, List.cons_prefix_cons] using hcomment
        exact absurd (hrest '/' rfl) (by decide)
    | _ => exact absurd hslash (by decide)
  | identifier hc =>
    obtain rfl := Option.some.inj hslash
    exact absurd hc (by decide)
  | @number whole part hne hwhole =>
    obtain ⟨c, whole, rfl⟩ := List.exists_cons_of_ne_nil hne
    obtain rfl := Option.some.inj hslash
    exact absurd (hwhole '/' List.mem_cons_self) (by decide)
  | string => exact absurd hslash (by simp)

end TokenKind

/-! ## Arrangements of words -/

/-- White space, and comments that end with their line. -/
inductive Spacing : List Char → Prop where
  | nil : Spacing []
  | blank {c : Char} {cs : List Char} : Text.isBlank c → Spacing cs → Spacing (c :: cs)
  | comment {text cs : List Char} : '\n' ∉ text → Spacing cs →
      Spacing ('/' :: '/' :: (text ++ '\n' :: cs))

/-- What may stand between two words: white space and comments, white space first. -/
structure Separator where
  /-- The characters. -/
  chars : List Char
  spacing : Spacing chars
  blank : ∃ c, chars.head? = some c ∧ Text.isBlank c

/-- A way to write any number of words one behind the other. -/
structure Arrangement where
  /-- What stands before the first word. -/
  before : List Char
  spacing : Spacing before
  /-- The separators between words, in order. -/
  between : ℕ → Separator
  /-- The separator behind the last word, if there is one. -/
  behind : Option Separator

/-- The words with separators between them, the first of which is the `i`-th one. -/
def Word.join (between : ℕ → Separator) (i : ℕ) : List Word → List Char
  | [] => []
  | [w] => w.text
  | w :: ws => w.text ++ ((between i).chars ++ join between (i + 1) ws)

/-- The characters behind the last word. -/
def Arrangement.rest (a : Arrangement) : List Char :=
  (a.behind.map Separator.chars).getD []

/-- The text of the words in an arrangement. -/
def Arrangement.text (a : Arrangement) (ws : List Word) : String :=
  String.ofList (a.before ++ (Word.join a.between 0 ws ++ a.rest))

/-- Spacing is a gap, whatever follows. -/
theorem Spacing.gap {cs : List Char} (h : Spacing cs) (rest : List Char) : Gap cs rest := by
  induction h with
  | nil => exact .nil rest
  | blank hc _ ih => exact .blank hc ih
  | comment htext _ ih =>
    refine .comment htext ?_ (.blank (by decide) ih)
    simp

/-- Spacing makes no token. -/
theorem LexesTo.spacing {cs rest : List Char} {ks : List TokenKind} (hcs : Spacing cs)
    (h : LexesTo rest ks) : LexesTo (cs ++ rest) ks := by
  intro l
  rw [lexFrom_gap (hcs.gap rest)]
  exact h (l.after cs)

/-- A word before white space, or at the end, is its token. -/
theorem LexesTo.wordBefore (w : Word) {rest : List Char} {ks : List TokenKind}
    (hrest : ∀ c ∈ rest.head?, Text.isBlank c) (h : LexesTo rest ks) :
    LexesTo (w.text ++ rest) (w.kind :: ks) := by
  intro l
  obtain ⟨ts, hts, hks⟩ := h (l.after w.text)
  refine ⟨⟨w.kind, l⟩ :: ts, ?_, by rw [List.map_cons, hks]⟩
  rw [lexFrom_token (w.written.longest hrest) (w.written.not_comment hrest), hts]
  rfl

/-- Words with separators between them are their tokens. -/
theorem lexesTo_join (between : ℕ → Separator) (i : ℕ) (ws : List Word) {rest : List Char}
    {ks : List TokenKind} (hrest : ∀ c ∈ rest.head?, Text.isBlank c) (h : LexesTo rest ks) :
    LexesTo (Word.join between i ws ++ rest) (ws.map Word.kind ++ ks) := by
  induction ws generalizing i with
  | nil => exact h
  | cons w ws ih =>
    cases ws with
    | nil => exact .wordBefore w hrest h
    | cons w' ws =>
      rw [Word.join, List.append_assoc, List.append_assoc]
      · refine .wordBefore w ?_ (.spacing (between i).spacing (ih (i + 1)))
        -- a separator follows, and it starts with white space
        obtain ⟨c, hc, hblank⟩ := (between i).blank
        rw [List.head?_append, hc]
        simpa using hblank
      · exact List.cons_ne_nil _ _

/-- An arrangement of words is cut into their tokens. -/
theorem lexesTo_arrange (a : Arrangement) (ws : List Word) :
    LexesTo (a.text ws).toList (ws.map Word.kind ++ [.eof]) := by
  rw [Arrangement.text, String.toList_ofList]
  refine .spacing a.spacing (lexesTo_join a.between 0 ws ?_ ?_)
  · unfold Arrangement.rest
    cases a.behind with
    | none => simp
    | some s =>
      obtain ⟨c, hc, hblank⟩ := s.blank
      simpa [hc] using hblank
  · unfold Arrangement.rest
    cases a.behind with
    | none => exact .nil
    | some s => simpa using LexesTo.spacing s.spacing .nil

/-! ## Programs of tokens of the same kinds -/

/-- Other places do not matter without places. -/
theorem Expr.unplaced_relocate (f : Location → Location) (e : Expr) :
    (e.relocate f).unplaced = e.unplaced := by
  induction e <;> simp_all [relocate, unplaced]

/-- Other places do not matter to a statement without places. -/
theorem Statement.unplaced_relocate (f : Location → Location) (s : Statement) :
    (s.relocate f).unplaced = s.unplaced := by
  cases s <;> simp [relocate, unplaced, Expr.unplaced_relocate]

/-- Trees that can be written and differ in places only are alike. -/
theorem Expr.alike_of_unplaced {e f : Expr} (he : e.WellFormed) (h : e.unplaced = f.unplaced) :
    e.alike f := by
  induction e generalizing f with
  | literal c p =>
    cases f <;> simp only [unplaced, reduceCtorEq, literal.injEq, and_true] at h
    subst h
    -- no number that can be written differs from itself
    cases c with
    | number x =>
      refine Binary64.beq_self_of_shape fun hnan => ?_
      have hx := Binary64.shape_of_nonneg he
      rw [hnan] at hx
      simp at hx
    | string | boolean => simp [alike, Constant.alike]
  | name x p => cases f <;> simp_all [unplaced, alike]
  | paren e p ih | arrow x e p ih | unary op e p ih =>
    cases f <;> simp_all [unplaced, alike, WellFormed]
  | call g a p ihg iha => cases f <;> simp_all [unplaced, alike, WellFormed]
  | binary op l r p ihl ihr => cases f <;> simp_all [unplaced, alike, WellFormed]
  | cond c t e p ihc iht ihe => cases f <;> simp_all [unplaced, alike, WellFormed]

/-- Statements that are the same without their places are alike. -/
theorem Statement.alike_of_unplaced {s t : Statement} (hs : s.WellFormed)
    (h : s.unplaced = t.unplaced) : s.alike t := by
  cases s with
  | declare x e p =>
    cases t with
    | declare y f q =>
      simp only [unplaced, declare.injEq, and_true] at h
      simp [alike, h.1, Expr.alike_of_unplaced hs.2 h.2]
    | output => cases h
  | output o e p =>
    cases t with
    | declare => cases h
    | output u f q =>
      simp only [unplaced, output.injEq, and_true] at h
      simp [alike, h.1, Expr.alike_of_unplaced hs h.2]

/-- Programs that can be written and differ in places only are alike. -/
theorem Program.alike_of_unplaced {ss ts : List Statement} (hss : ∀ s ∈ ss, s.WellFormed)
    (h : ss.map Statement.unplaced = ts.map Statement.unplaced) : alike.go ss ts := by
  induction ss generalizing ts with
  | nil =>
    cases ts with
    | nil => rfl
    | cons => cases h
  | cons s ss ih =>
    cases ts with
    | nil => cases h
    | cons t ts =>
      rw [List.map_cons, List.map_cons, List.cons.injEq] at h
      rw [alike.go, Bool.and_eq_true]
      exact ⟨Statement.alike_of_unplaced (hss s List.mem_cons_self) h.1,
        ih (fun u hu => hss u (List.mem_cons_of_mem s hu)) h.2⟩

/-- Both lists of tokens are read as the same statements, or both are refused for the same reason,
if the tokens are of the same kinds. -/
theorem parseFrom_of_kinds {ts us : List Token} (h : ts.map Token.kind = us.map Token.kind) :
    (∃ ss ss', parseFrom .between ts = .ok ss ∧ parseFrom .between us = .ok ss' ∧
        ss.map Statement.unplaced = ss'.map Statement.unplaced) ∨
      ∃ f f', parseFrom .between ts = .error f ∧ parseFrom .between us = .error f' ∧
        f.relocate (fun _ => default) = f'.relocate fun _ => default := by
  -- with all tokens at one place, the two lists are the same
  have hmoved : ∀ vs : List Token, vs.map (Token.relocate fun _ => default) =
      (vs.map Token.kind).map fun kind => (⟨kind, default⟩ : Token) := by
    intro vs
    rw [List.map_map]
    rfl
  have hts := parseFrom_relocate (fun _ => default) .between ts
  have hus := parseFrom_relocate (fun _ => default) .between us
  rw [hmoved, h, ← hmoved] at hts
  have hboth := hts.symm.trans hus
  have hunplaced : ∀ ss : List Statement,
      (ss.map (Statement.relocate fun _ => default)).map Statement.unplaced =
        ss.map Statement.unplaced := by
    intro ss
    rw [List.map_map]
    exact List.map_congr_left fun s _ => s.unplaced_relocate _
  cases hss : parseFrom .between ts with
  | ok ss =>
    cases hss' : parseFrom .between us with
    | ok ss' =>
      rw [hss, hss'] at hboth
      refine .inl ⟨ss, ss', rfl, rfl, ?_⟩
      rw [← hunplaced ss, ← hunplaced ss', Except.ok.inj hboth]
    | error f' =>
      rw [hss, hss'] at hboth
      cases hboth
  | error f =>
    cases hss' : parseFrom .between us with
    | ok ss' =>
      rw [hss, hss'] at hboth
      cases hboth
    | error f' =>
      rw [hss, hss'] at hboth
      exact .inr ⟨f, f', rfl, rfl, Except.error.inj hboth⟩

/-- Two texts are read as the same program up to places, or are refused with the same message. -/
def ReadAlike (r r' : Except ReadFailure Program) : Prop :=
  (∃ p q, r = .ok p ∧ r' = .ok q ∧
      p.statements.map Statement.unplaced = q.statements.map Statement.unplaced ∧ p.alike q) ∨
    ∃ e e' : ParseError, r = .error (.parse (.misplaced e)) ∧
      r' = .error (.parse (.misplaced e')) ∧ e.message = e'.message

/-- Texts with tokens of the same kinds are read alike. -/
theorem readAlike_of_lexesTo {s s' : String} {ks : List TokenKind} (h : LexesTo s.toList ks)
    (h' : LexesTo s'.toList ks) (n n' : ℕ) : ReadAlike (parse n s) (parse n' s') := by
  obtain ⟨ts, hts, hkinds⟩ := h (.first n)
  obtain ⟨us, hus, hkinds'⟩ := h' (.first n')
  have hparse : ∀ {n : ℕ} {s : String} {ts : List Token}, lexFrom (.first n) 0 s.toList = .ok ts →
      parse n s = ((parseFrom .between ts).map (⟨·, s⟩)).mapError .parse := by
    intro n s ts hts
    rw [parse, tokenize, hts]
    dsimp only
    rw [parseTokens_of_lexFrom hts]
    cases parseFrom .between ts <;> rfl
  rcases parseFrom_of_kinds (hkinds.trans hkinds'.symm) with
    ⟨ss, ss', hss, hss', hsame⟩ | ⟨f, f', hf, hf', hsame⟩
  · have hp : parse n s = .ok ⟨ss, s⟩ := by rw [hparse hts, hss]; rfl
    have hq : parse n' s' = .ok ⟨ss', s'⟩ := by rw [hparse hus, hss']; rfl
    exact .inl ⟨_, _, hp, hq, hsame,
      Program.alike_of_unplaced (Program.wellFormed_of_parse hp) hsame⟩
  · have hp : parse n s = .error (.parse f) := by rw [hparse hts, hf]; rfl
    have hq : parse n' s' = .error (.parse f') := by rw [hparse hus, hf']; rfl
    -- tokens that end do not lack an end
    have hend : ∀ {n : ℕ} {cs : List Char} {ts : List Token}, lexFrom (.first n) 0 cs = .ok ts →
        parseFrom .between ts ≠ .error .endless := by
      intro n cs ts hts
      obtain ⟨front, last, rfl, hlast, -⟩ := exists_end_of_lexFrom hts
      exact parseFrom_ne_endless hlast
    cases f with
    | endless => exact absurd hf (hend hts)
    | misplaced e =>
      cases f' with
      | endless => exact absurd hf' (hend hus)
      | misplaced e' =>
        refine .inr ⟨e, e', hp, hq, ?_⟩
        obtain ⟨expectation, kind, l⟩ := e
        obtain ⟨expectation', kind', l'⟩ := e'
        cases hsame
        rfl

/-- Layout does not matter. For all words and whatever separators stand between them, the text is
cut into the tokens of the words, and nothing else; and however the same words are arranged, they
are read as the same program, or are refused with the same message. -/
theorem layout_irrelevant (ws : List Word) (a b : Arrangement) (n m : ℕ) :
    (∃ ts, tokenize n (a.text ws) = .ok ts ∧ ts.map Token.kind = ws.map Word.kind ++ [.eof]) ∧
      ReadAlike (parse n (a.text ws)) (parse m (b.text ws)) :=
  ⟨lexesTo_arrange a ws (.first n),
    readAlike_of_lexesTo (lexesTo_arrange a ws) (lexesTo_arrange b ws) n m⟩

-- a slash right before a comment, and a quoted text that looks like one
example :
    have comment : Spacing ('/' :: '/' :: (['/'] ++ ['\n'])) := .comment (by decide) .nil
    let separator : Separator := ⟨[' ', '/', '/', '/', '\n'], .blank rfl comment, ' ', rfl, rfl⟩
    let arrangement : Arrangement := ⟨[], .nil, fun _ => separator, none⟩
    arrangement.text [.name 'a' [] rfl (by simp) (by decide), .symbol .slash, .quoted "//\n"] =
      "a ///\n/ ///\n\"//\\n\"" := by
  decide +kernel

end CallByNeed
