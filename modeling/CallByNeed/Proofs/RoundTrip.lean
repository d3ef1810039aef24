import CallByNeed.Proofs.FreeNames
import CallByNeed.Proofs.JoinedTexts
import CallByNeed.Proofs.MemoDiscipline
import CallByNeed.Proofs.PrintedTokens

/-!
# Printing and reading programs

A printed program is read back as itself, up to parentheses and places, exactly if its numbers are
plain: zero, or of a size that is printed without an exponent (`print_read_roundTrip`).

For one direction, the tokens of the printed statements spell the printed trees, and those are read
as they are spelled (`Program.roundTrips_of_plain`). For the other, names are counted: reading gives
a tree with as many names as there are identifiers among the tokens, and every exponent is read as
an identifier that is not in the tree (`Program.plain_of_roundTrips`).

The programs this is about are the well-formed ones. All that is read from a text is well formed,
and so is every expansion of a well-formed expression in which no name had to be marked.
-/

namespace CallByNeed

open Grammar

/-! ## Well-formed programs -/

namespace Statement

/-- A statement that can be written. -/
def WellFormed : Statement → Prop
  | declare x e _ => IsName x ∧ e.WellFormed
  | output _ e _ => e.WellFormed

/-- The expression of a statement that can be written can be written. -/
theorem WellFormed.expr {s : Statement} (hs : s.WellFormed) : s.expr.WellFormed := by
  cases s with
  | declare x e p => exact hs.2
  | output o e p => exact hs

/-- How many names and parameters there are in a statement. -/
def identifierCount : Statement → ℕ
  | declare _ e _ => 1 + e.identifierCount
  | output _ e _ => e.identifierCount

/-- The statement without the parentheses in it. -/
def erase : Statement → Statement
  | declare x e p => declare x e.erase p
  | output o e p => output o e.erase p

/-- The statement as it is printed. -/
def printed : Statement → Statement
  | declare x e _ => declare x e.printed none
  | output o e _ => output o e.printed none

/-- The tokens of a statement. -/
inductive Spells : Statement → List TokenKind → Prop where
  | declare (x : String) {e : Expr} {ks : List TokenKind} (p : Option Location) :
      e.Spells ks → Spells (.declare x e p)
        (.symbol .let_ :: .identifier x :: .symbol .assign :: ks ++ [.symbol .semicolon])
  | output (o : Output) {e : Expr} {ks : List TokenKind} (p : Option Location) :
      e.Spells ks → Spells (.output o e p)
        (.symbol o.symbol :: .symbol .leftParen :: ks ++ [.symbol .rightParen, .symbol .semicolon])

/-- The tokens of a printed statement. -/
theorem printsAs {s : Statement} (hs : s.WellFormed) :
    ∃ ks, (∀ {rest : List Char} {ks' : List TokenKind}, LexesTo rest ks' →
        LexesTo (s.render.toList ++ rest) (ks ++ ks')) ∧
      identifiersIn ks = s.identifierCount + unplainCount s.expr.numbers ∧
      (unplainCount s.expr.numbers = 0 → s.printed.Spells ks) := by
  cases s with
  | declare x e p =>
    obtain ⟨ks, hprints, hcount, hspells⟩ := Expr.printsAs hs.2
    refine ⟨.symbol .let_ :: .identifier x :: .symbol .assign :: ks ++ [.symbol .semicolon],
      fun h => ?_, ?_, fun hplain => ?_⟩
    · simpa [render] using hprints.declare hs.1 h
    · simp only [List.cons_append, identifiersIn_symbol, identifiersIn_identifier,
        identifiersIn_append, identifiersIn_nil, hcount, identifierCount, expr]
      omega
    · exact .declare x none (hspells hplain)
  | output o e p =>
    obtain ⟨ks, hprints, hcount, hspells⟩ := Expr.printsAs hs
    refine ⟨.symbol o.symbol :: .symbol .leftParen :: ks ++
        [.symbol .rightParen, .symbol .semicolon],
      fun h => ?_, ?_, fun hplain => ?_⟩
    · simpa [render] using hprints.output o h
    · simp only [List.cons_append, identifiersIn_symbol, identifiersIn_append, identifiersIn_nil,
        hcount, identifierCount, expr]
      omega
    · exact .output o none (hspells hplain)

/-- Places are not printed. -/
theorem render_unplaced (s : Statement) : s.unplaced.render = s.render := by
  cases s <;> simp [unplaced, render, Expr.render_unplaced]

/-- The tree of the printed text is printed as that text. -/
theorem render_printed (s : Statement) : s.printed.render = s.render := by
  cases s <;> simp [printed, render, Expr.render_printed]

/-- Erasing keeps the identifiers of a statement. -/
theorem identifierCount_erase (s : Statement) : s.erase.identifierCount = s.identifierCount := by
  cases s <;> simp [erase, identifierCount, Expr.identifierCount_erase]

/-- Statements that are alike have equally many identifiers. -/
theorem identifierCount_eq_of_alike {s t : Statement} (h : s.alike t) :
    s.identifierCount = t.identifierCount := by
  cases s with
  | declare x e p =>
    cases t with
    | declare y f q =>
      rw [identifierCount, identifierCount,
        Expr.identifierCount_eq_of_alike (Bool.and_eq_true_iff.1 h).2]
    | output => cases h
  | output o e p =>
    cases t with
    | declare => cases h
    | output u f q => exact Expr.identifierCount_eq_of_alike (Bool.and_eq_true_iff.1 h).2

/-- A statement that is read from a printed text is like the one that was printed. -/
theorem alike_erase_of_unplaced {s t : Statement} (ht : t.WellFormed)
    (h : s.unplaced = t.printed.unplaced) : s.erase.alike t.erase := by
  cases s with
  | declare x e p =>
    cases t with
    | declare y f q =>
      obtain ⟨rfl, he, -⟩ := declare.inj h
      have halike := Expr.alike_erase_printed ht.2
      rw [← Expr.alike_erase_unplaced, ← he, Expr.alike_erase_unplaced] at halike
      simp [erase, alike, halike]
    | output => cases h
  | output o e p =>
    cases t with
    | declare => cases h
    | output u f q =>
      obtain ⟨rfl, he, -⟩ := output.inj h
      have halike := Expr.alike_erase_printed ht
      rw [← Expr.alike_erase_unplaced, ← he, Expr.alike_erase_unplaced] at halike
      simp [erase, alike, halike]

/-- The tokens of a printed statement are read as that statement. -/
theorem parseFrom_printed {s : Statement} {ks : List TokenKind} (h : s.printed.Spells ks)
    {tokens : List Token} (hks : tokens.map Token.kind = ks) (rest : List Token) :
    ∃ s', s'.unplaced = s.printed.unplaced ∧
      parseFrom .between (tokens ++ rest) = (parseFrom .between rest).map (s' :: ·) := by
  cases s with
  | declare x e p =>
    cases h with
    | declare x _ he =>
      have hcompletes := Reading.completes_of_spells he e.proper_printed
      obtain ⟨e', p', he', hparse⟩ := parseFrom_declaration hcompletes hks rest
      exact ⟨.declare x e' p', by rw [unplaced, he', printed, unplaced], hparse⟩
  | output o e p =>
    cases h with
    | output o _ he =>
      have hcompletes := Reading.completes_of_spells he e.proper_printed
      obtain ⟨e', p', he', hparse⟩ := parseFrom_output hcompletes hks rest
      exact ⟨.output o e' p', by rw [unplaced, he', printed, unplaced], hparse⟩

end Statement

/-! ## Lists of statements -/

/-- How many names and parameters there are in statements. -/
def identifierTotal (ss : List Statement) : ℕ :=
  (ss.map Statement.identifierCount).sum

/-- The numbers in statements. -/
def numbersIn (ss : List Statement) : List Float :=
  ss.flatMap fun s => s.expr.numbers

/-- The tokens of printed statements, one statement after the other. -/
inductive PrintedSpell : List Statement → List TokenKind → Prop where
  | nil : PrintedSpell [] []
  | cons {s : Statement} {ss : List Statement} {ks us : List TokenKind} :
      s.printed.Spells ks → PrintedSpell ss us → PrintedSpell (s :: ss) (ks ++ us)

/-- The text of statements, each on a line of its own. -/
def renderAll (ss : List Statement) : String :=
  "\n".intercalate (ss.map Statement.render)

/-- The tokens of printed statements. -/
theorem lexesTo_renderAll {ss : List Statement} (hss : ∀ s ∈ ss, s.WellFormed) :
    ∃ ks, LexesTo (renderAll ss).toList (ks ++ [.eof]) ∧
      identifiersIn ks = identifierTotal ss + unplainCount (numbersIn ss) ∧
      (unplainCount (numbersIn ss) = 0 → PrintedSpell ss ks) := by
  induction ss with
  | nil => exact ⟨[], .nil, rfl, fun _ => .nil⟩
  | cons s ss ih =>
    obtain ⟨ks, hlex, hcount, hspells⟩ := Statement.printsAs (hss s List.mem_cons_self)
    obtain ⟨us, hlexs, hcounts, hspellss⟩ := ih fun s hs => hss s (List.mem_cons_of_mem _ hs)
    have hnumbers : numbersIn (s :: ss) = s.expr.numbers ++ numbersIn ss := List.flatMap_cons
    refine ⟨ks ++ us, ?_, ?_, ?_⟩
    · -- between two statements there is the end of a line, and none behind the last one
      rw [List.append_assoc]
      cases ss with
      | nil =>
        simpa [renderAll] using hlex hlexs
      | cons s' ss =>
        have htext : (renderAll (s :: s' :: ss)).toList =
            s.render.toList ++ '\n' :: (renderAll (s' :: ss)).toList := by
          simp [renderAll, String.intercalate_cons_cons]
        rw [htext]
        exact hlex (hlexs.blank rfl)
    · rw [identifiersIn_append, hcount, hcounts, hnumbers, unplainCount_append, identifierTotal,
        identifierTotal, List.map_cons, List.sum_cons]
      omega
    · rw [hnumbers, unplainCount_append]
      exact fun hplain => .cons (hspells (by omega)) (hspellss (by omega))

/-- The tokens of printed statements are read as those statements. -/
theorem parseFrom_of_printedSpell {ss : List Statement} {ks : List TokenKind}
    (h : PrintedSpell ss ks) {tokens : List Token} (hks : tokens.map Token.kind = ks) {t : Token}
    (ht : t.kind = .eof) :
    ∃ ss', parseFrom .between (tokens ++ [t]) = .ok ss' ∧
      List.Forall₂ (fun s' s => s'.unplaced = s.printed.unplaced) ss' ss := by
  induction h generalizing tokens with
  | nil =>
    obtain rfl := List.map_eq_nil_iff.1 hks
    exact ⟨[], by simp [parseFrom, ht], .nil⟩
  | cons hs _ ih =>
    obtain ⟨ts, us, rfl, hts, hus⟩ := List.map_eq_append_iff.1 hks
    obtain ⟨s', hs', hparse⟩ := Statement.parseFrom_printed hs hts (us ++ [t])
    obtain ⟨ss', hss', hall⟩ := ih hus
    refine ⟨s' :: ss', ?_, .cons hs' hall⟩
    rw [List.append_assoc, hparse, hss']
    rfl

/-! ## What is read from a text -/

namespace Grammar

/-- The head of a function has one identifier, its parameter. -/
theorem ArrowHead.identifiersIn_eq_one {x : String} {ks : List TokenKind} (h : ArrowHead x ks) :
    identifiersIn ks = 1 := by
  cases h <;> simp

/-- A tree has as many names and parameters as its tokens have identifiers. -/
theorem Reads.identifiersIn_eq {n : Nonterminal} {e : Expr} {ks after : List TokenKind}
    (h : Reads n e ks after) : identifiersIn ks = e.identifierCount := by
  induction h with
  | arrow p hhead _ _ ih =>
    rw [identifiersIn_append, hhead.identifiersIn_eq_one, ih, Expr.identifierCount]
  | conditional p _ _ _ ihc iht ihe =>
    simp only [identifiersIn_append, identifiersIn_symbol, ihc, iht, ihe, Expr.identifierCount]
    omega
  | _ => simp_all [Expr.identifierCount]

/-- A program has as many identifiers as its tokens. -/
theorem ReadsProgram.identifiersIn_eq {ss : List Statement} {ks : List TokenKind}
    (h : ReadsProgram ss ks) : identifiersIn ks = identifierTotal ss := by
  induction h with
  | nil => rfl
  | declare x p he _ ih =>
    simp only [List.cons_append, identifiersIn_append, identifiersIn_symbol,
      identifiersIn_identifier, he.identifiersIn_eq, ih, identifierTotal, List.map_cons,
      List.sum_cons, Statement.identifierCount]
    omega
  | output o p he _ ih =>
    simp only [List.cons_append, identifiersIn_append, identifiersIn_symbol, he.identifiersIn_eq,
      ih, identifierTotal, List.map_cons, List.sum_cons, Statement.identifierCount]

/-- The parameter is among the tokens of the head of a function. -/
theorem ArrowHead.identifier_mem {x : String} {ks : List TokenKind} (h : ArrowHead x ks) :
    .identifier x ∈ ks := by
  cases h <;> simp

/-- The constant of a sound token can be written. -/
theorem wellFormed_of_sound {c : Constant} (h : c.token.Sound) : c.WellFormed := by
  cases c with
  | number x =>
    obtain ⟨d, rfl⟩ := h
    exact Number.nonneg_toFloat d
  | string | boolean => trivial

/-- A tree of sound tokens can be written. -/
theorem Reads.wellFormed {n : Nonterminal} {e : Expr} {ks after : List TokenKind}
    (h : Reads n e ks after) (hks : ∀ k ∈ ks, k.Sound) : e.WellFormed := by
  induction h with
  | arrow p hhead _ _ ih =>
    refine ⟨isName_iff.2 (hks _ (List.mem_append_left _ hhead.identifier_mem)), ih ?_⟩
    exact fun k hk => hks k (List.mem_append_right _ hk)
  | literal c p => exact wellFormed_of_sound (hks _ List.mem_cons_self)
  | name x p => exact isName_iff.2 (hks _ List.mem_cons_self)
  | _ => simp_all [Expr.WellFormed]

/-- A program that is read from sound tokens is well formed. -/
theorem ReadsProgram.wellFormed {ss : List Statement} {ks : List TokenKind}
    (h : ReadsProgram ss ks) (hks : ∀ k ∈ ks, k.Sound) : ∀ s ∈ ss, s.WellFormed := by
  induction h with
  | nil => simp
  | declare x p he _ ih =>
    rintro s hs
    rcases List.mem_cons.1 hs with rfl | hs
    · refine ⟨isName_iff.2 (hks (.identifier x) (by simp)), he.wellFormed fun k hk => ?_⟩
      exact hks k (by simp [hk])
    · exact ih (fun k hk => hks k (by simp [hk])) s hs
  | output o p he _ ih =>
    rintro s hs
    rcases List.mem_cons.1 hs with rfl | hs
    · exact he.wellFormed fun k hk => hks k (by simp [hk])
    · exact ih (fun k hk => hks k (by simp [hk])) s hs

end Grammar

namespace Program

/-- A program that can be written. -/
def WellFormed (p : Program) : Prop :=
  ∀ s ∈ p.statements, s.WellFormed

/-- The numbers in a program. -/
def numbers (p : Program) : List Float :=
  numbersIn p.statements

/-- The program without the parentheses in it. -/
def erase (p : Program) : Program :=
  { p with statements := p.statements.map Statement.erase }

/-- The printed program is read as the program, up to parentheses and places, and that prints as the
same text. -/
def RoundTrips (text : ℕ) (p : Program) : Prop :=
  ∃ q, parse text p.render = .ok q ∧ q.erase.alike p.erase ∧ q.render = p.render

/-- A text that is read as a program consists of tokens, and the statements are a derivation of
them. -/
theorem readsProgram_of_parse {text : ℕ} {source : String} {q : Program}
    (h : parse text source = .ok q) :
    ∃ ts front, tokenize text source = .ok ts ∧ (∃ last, ts = front ++ [last] ∧ last.kind = .eof) ∧
      ReadsProgram q.statements (front.map Token.kind) := by
  obtain ⟨ts, hts, hss, -⟩ := parse_eq_ok_iff.1 h
  obtain ⟨front, last, rfl, hlast, hfront⟩ := exists_end_of_lexFrom hts
  refine ⟨_, front, hts, ⟨last, rfl, hlast⟩, ?_⟩
  rw [parseTokens_of_lexFrom hts] at hss
  have hreads := readsProgram_of_parseFrom .between hss
  have hkinds : kindsBeforeEnd (front ++ [last]) = front.map Token.kind := by
    have hne : ∀ t ∈ front, decide (t.kind ≠ .eof) = true := fun t ht =>
      decide_eq_true (hfront t ht).2
    rw [kindsBeforeEnd, List.takeWhile_append_of_pos hne]
    simp [hlast]
  rwa [hkinds] at hreads

/-- What is read from a text can be written. -/
theorem wellFormed_of_parse {text : ℕ} {source : String} {q : Program}
    (h : parse text source = .ok q) : q.WellFormed := by
  obtain ⟨ts, front, hts, ⟨last, rfl, -⟩, hreads⟩ := readsProgram_of_parse h
  refine hreads.wellFormed fun k hk => ?_
  obtain ⟨t, ht, rfl⟩ := List.mem_map.1 hk
  exact sound_of_lexFrom hts t (List.mem_append_left _ ht)

/-- Statements that differ from the printed ones in places only are the statements they were printed
from, up to parentheses and places. -/
theorem alike_erase_of_unplaced {ss ts : List Statement} (hts : ∀ t ∈ ts, t.WellFormed)
    (h : List.Forall₂ (fun s t => s.unplaced = t.printed.unplaced) ss ts) :
    alike.go (ss.map Statement.erase) (ts.map Statement.erase) := by
  induction h with
  | nil => rfl
  | cons hs _ ih =>
    rw [List.map_cons, List.map_cons, alike.go, Bool.and_eq_true]
    exact ⟨Statement.alike_erase_of_unplaced (hts _ List.mem_cons_self) hs,
      ih fun t ht => hts t (List.mem_cons_of_mem _ ht)⟩

/-- Statements that differ from the printed ones in places only have the same text. -/
theorem map_render_of_unplaced {ss ts : List Statement}
    (h : List.Forall₂ (fun s t => s.unplaced = t.printed.unplaced) ss ts) :
    ss.map Statement.render = ts.map Statement.render := by
  induction h with
  | nil => rfl
  | cons hs _ ih =>
    rw [List.map_cons, List.map_cons, ih, ← Statement.render_unplaced, hs,
      Statement.render_unplaced, Statement.render_printed]

/-- Programs that are alike have equally many identifiers. -/
theorem identifierTotal_eq_of_alike {ss ts : List Statement} (h : alike.go ss ts) :
    identifierTotal ss = identifierTotal ts := by
  induction ss generalizing ts with
  | nil =>
    cases ts with
    | nil => rfl
    | cons => cases h
  | cons s ss ih =>
    cases ts with
    | nil => cases h
    | cons t ts =>
      rw [alike.go, Bool.and_eq_true] at h
      rw [identifierTotal, identifierTotal, List.map_cons, List.map_cons, List.sum_cons,
        List.sum_cons, Statement.identifierCount_eq_of_alike h.1]
      exact congrArg _ (ih h.2)

/-- Erasing keeps the identifiers of a program. -/
theorem identifierTotal_erase (ss : List Statement) :
    identifierTotal (ss.map Statement.erase) = identifierTotal ss := by
  simp [identifierTotal, Function.comp_def, Statement.identifierCount_erase]

/-- The text of a program whose numbers are plain is read as the printed statements. -/
theorem exists_parse_render (text : ℕ) {p : Program} (hp : p.WellFormed)
    (h : ∀ x ∈ p.numbers, Number.Plain x) :
    ∃ ss, parse text p.render = .ok ⟨ss, p.render⟩ ∧
      List.Forall₂ (fun s' s => s'.unplaced = s.printed.unplaced) ss p.statements := by
  obtain ⟨ks, hlex, -, hspells⟩ := lexesTo_renderAll hp
  obtain ⟨ts, hts, hkinds⟩ := hlex (.first text)
  obtain ⟨front, rest, rfl, hfront, hrest⟩ := List.map_eq_append_iff.1 hkinds
  obtain ⟨last, rest, rfl, hlast, hnil⟩ := List.map_eq_cons_iff.1 hrest
  obtain rfl := List.map_eq_nil_iff.1 hnil
  obtain ⟨ss, hss, hall⟩ :=
    parseFrom_of_printedSpell (hspells (unplainCount_eq_zero.2 h)) hfront hlast
  have htokenize : tokenize text p.render = .ok (front ++ [last]) := hts
  refine ⟨ss, ?_, hall⟩
  rw [parse, htokenize]
  dsimp only
  rw [parseTokens, if_pos (by simp [hlast]), hss]

/-- A program whose numbers are plain is read back. -/
theorem roundTrips_of_plain (text : ℕ) {p : Program} (hp : p.WellFormed)
    (h : ∀ x ∈ p.numbers, Number.Plain x) : p.RoundTrips text := by
  obtain ⟨ss, hparse, hall⟩ := exists_parse_render text hp h
  refine ⟨⟨ss, p.render⟩, hparse, alike_erase_of_unplaced hp hall, ?_⟩
  rw [render, render, map_render_of_unplaced hall]

/-- A program that is read back has plain numbers only: each other number would have brought in an
identifier. -/
theorem plain_of_roundTrips {text : ℕ} {p : Program} (hp : p.WellFormed)
    (h : p.RoundTrips text) : ∀ x ∈ p.numbers, Number.Plain x := by
  obtain ⟨q, hparse, halike, -⟩ := h
  obtain ⟨ts, front, hts, ⟨last, rfl, hlast⟩, hreads⟩ := readsProgram_of_parse hparse
  obtain ⟨ks, hlex, hcount, -⟩ := lexesTo_renderAll hp
  obtain ⟨ts, hts', hkinds⟩ := hlex (.first text)
  obtain rfl : front ++ [last] = ts := Except.ok.inj (hts.symm.trans hts')
  -- both sides speak about the same tokens
  have hfront : front.map Token.kind = ks := by
    rw [List.map_append, List.map_singleton, hlast] at hkinds
    exact List.append_cancel_right hkinds
  have htotal := hreads.identifiersIn_eq
  have hsame : identifierTotal q.statements = identifierTotal p.statements := by
    rw [← identifierTotal_erase, ← identifierTotal_erase p.statements]
    exact identifierTotal_eq_of_alike halike
  -- as many identifiers were read as there are in the program, so the numbers brought in none
  rw [hfront, hcount, hsame] at htotal
  exact unplainCount_eq_zero.1 (by rw [numbers]; omega)

end Program

/-! ## Expansions -/

namespace Expr

/-- The parts of a tree that can be written can be written. -/
theorem WellFormed.children {e : Expr} (h : e.WellFormed) : ∀ c ∈ e.children, c.WellFormed := by
  cases e <;> simp_all [WellFormed, Expr.children]

/-- Replacing names keeps a tree well formed, if what they are replaced by is and none is marked. -/
theorem wellFormed_expandWith {σ : Store} (hσ : σ.Ok WellFormed)
    {inline : String → Env → Expr → Expr}
    (hinline : ∀ x env e, e.WellFormed → (inline x env e).Unmarked → (inline x env e).WellFormed)
    (env : Env) (expanding params : List String) {e : Expr} (he : e.WellFormed)
    (h : (e.expandWith σ inline env expanding params).Unmarked) :
    (e.expandWith σ inline env expanding params).WellFormed := by
  induction e generalizing params with
  | literal c p => exact he
  | name x p =>
    rw [expandWith] at h ⊢
    by_cases hparam : params.contains x
    · rw [if_pos hparam]
      exact he
    rw [if_neg hparam] at h ⊢
    by_cases hexpanding : expanding.contains x
    · -- here the name would be marked
      rw [if_pos hexpanding] at h
      exact absurd List.mem_cons_self (h x)
    rw [if_neg hexpanding] at h ⊢
    cases hx : σ.lookup env x with
    | none => exact he
    | some v =>
      cases v with
      | object o => exact he
      | thunk a =>
        rw [hx] at h
        dsimp only at h ⊢
        -- the expression of a thunk is replaced only if it refers to other names
        by_cases hrefs : (σ.cell a).expr.references σ (σ.cell a).env []
        · rw [if_pos hrefs] at h ⊢
          exact hinline x _ _ (hσ.expr a (hσ.lookup hx)) h
        · rw [if_neg hrefs]
          exact he
  | paren e p ih => exact ih params he h
  | arrow x e p ih => exact ⟨he.1, ih (x :: params) he.2 h⟩
  | call f a p ihf iha =>
    simp only [expandWith, Unmarked, names, List.mem_append, not_or] at h
    exact ⟨ihf params he.1 fun x => (h x).1, iha params he.2 fun x => (h x).2⟩
  | unary op e p ih => exact ih params he h
  | binary op l r p ihl ihr =>
    simp only [expandWith, Unmarked, names, List.mem_append, not_or] at h
    exact ⟨ihl params he.1 fun x => (h x).1, ihr params he.2 fun x => (h x).2⟩
  | cond c t e p ihc iht ihe =>
    simp only [expandWith, Unmarked, names, List.mem_append, not_or] at h
    exact ⟨ihc params he.1 fun x => (h x).1, iht params he.2.1 fun x => (h x).2.1,
      ihe params he.2.2 fun x => (h x).2.2⟩

/-- An expansion without marks is well formed. -/
theorem wellFormed_expandBy {σ : Store} (hσ : σ.Ok WellFormed) (fuel : ℕ) (env : Env)
    (expanding params : List String) {e : Expr} (he : e.WellFormed)
    (h : (e.expandBy σ fuel env expanding params).Unmarked) :
    (e.expandBy σ fuel env expanding params).WellFormed := by
  induction fuel generalizing env expanding params e with
  | zero => exact he
  | succ fuel ih =>
    exact wellFormed_expandWith hσ (fun x env _ he h => ih env (x :: expanding) [] he h) env
      expanding params he h

end Expr

/-- A well-formed program, with parentheses anywhere, is read back from the text that it is printed
as, exactly if its numbers are plain. Whatever is read from a text is well formed; and so is, after
any well-formed programs were run, every expansion of a well-formed expression in which no name had
to be marked. -/
theorem print_read_roundTrip (text : ℕ) :
    (∀ p : Program, p.WellFormed → (p.RoundTrips text ↔ ∀ x ∈ p.numbers, Number.Plain x)) ∧
    (∀ (source : String) (p : Program), parse text source = .ok p → p.WellFormed) ∧
    (∀ runs : List (Limits × Program), (∀ run ∈ runs, run.2.WellFormed) →
      ∀ (env : Env) (expanding params : List String) (e : Expr), e.WellFormed →
        (e.expand (storeAfter runs) env expanding params).Unmarked →
        (e.expand (storeAfter runs) env expanding params).WellFormed) := by
  refine ⟨fun p hp => ⟨p.plain_of_roundTrips hp, p.roundTrips_of_plain text hp⟩,
    fun _ _ h => Program.wellFormed_of_parse h, ?_⟩
  intro runs hruns env expanding params e he h
  have hstore : (storeAfter runs).Ok Expr.WellFormed :=
    (ok_storeAfter (fun _ => Expr.WellFormed.children) runs
      fun run hrun s hs => (hruns run hrun s hs).expr).1
  exact Expr.wellFormed_expandBy hstore _ env expanding params he h

/-- A program with needless parentheses is read back, but not if it has a number that is too large;
`console.log(!a);` is read; and once `b` has been bound to `!(a)` it expands to that. -/
theorem print_read_roundTrip_negation :
    let program (x : Float) : Program :=
      ⟨[.declare "a" (.paren (.binary .less (.literal (.number 0.5) none)
          (.paren (.binary .multiply (.literal (.number x) none) (.literal (.number 0) none) none)
            none) none) none) none,
        .declare "b" (.unary .not (.paren (.name "a" none) none) none) none], ""⟩
    let negation := (Expr.name "b" none).expand (storeAfter [(⟨1, 1⟩, program 2)]) .global [] []
    (program 2).RoundTrips 0 ∧ ¬(program 1e21).RoundTrips 0 ∧
      (∃ p, parse 0 "console.log(!a);" = .ok p ∧ p.WellFormed) ∧
      negation = .unary .not (.paren (.name "a" none) none) none ∧ negation.WellFormed := by
  intro program negation
  obtain ⟨hiff, hparse, hexpand⟩ := print_read_roundTrip 0
  have hprogram : ∀ x : Float, 0 ≤ x → (program x).WellFormed := by
    intro x hx s hs
    simp only [program, List.mem_cons, List.not_mem_nil, or_false] at hs
    rcases hs with rfl | rfl
    · exact ⟨rfl, show (0 : Float) ≤ 0.5 by decide, hx, show (0 : Float) ≤ 0 by decide⟩
    · exact ⟨rfl, rfl⟩
  have hnegation : negation = .unary .not (.paren (.name "a" none) none) none := by
    decide +kernel
  refine ⟨(hiff _ (hprogram 2 (by decide))).2 (by decide), fun h => ?_, ?_, hnegation, ?_⟩
  · exact absurd ((hiff _ (hprogram 1e21 (by decide))).1 h) (by decide)
  · have hread : (parse 0 "console.log(!a);").isOk = true := by decide +kernel
    cases h : parse 0 "console.log(!a);" with
    | error e => rw [h] at hread; cases hread
    | ok p => exact ⟨p, rfl, hparse _ p h⟩
  · refine hexpand [(⟨1, 1⟩, program 2)] (by simpa using hprogram 2 (by decide)) .global [] [] _
      rfl ?_
    intro x hx
    rw [show Expr.expand _ _ _ _ _ = negation from rfl, hnegation, Expr.names, Expr.names,
      Expr.names, List.mem_singleton] at hx
    have hlength := congrArg String.length hx
    rw [cycleMark, String.length_append, String.length_append] at hlength
    change 3 + x.length + 3 = 1 at hlength
    omega

end CallByNeed
