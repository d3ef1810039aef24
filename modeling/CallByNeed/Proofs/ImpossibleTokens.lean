import CallByNeed.Proofs.ParserExact

/-!
# Errors stand at the first impossible token

If tokens are not read as a program, the error names one of them. The tokens before it are the
beginning of a program, and no program begins with them and the one that is named
(`error_at_first_impossible_token`).

The reader takes one token after the other and never goes back, so that all depends on the phase it
is in before the token (`Phase.stepAll`). A token that is refused there is refused whatever follows
(`parseFrom_append_ne_ok`). And no phase is a dead end: what is open can be closed from the inside
to the outside, and then the statement can be completed (`Phase.stepAll_closing`).
-/

namespace CallByNeed

open Grammar

/-! ## From phase to phase -/

namespace Phase

/-- The phase after a list of tokens, if each of them can stand where it does. -/
def stepAll (phase : Phase) : List Token → Option Phase
  | [] => some phase
  | t :: ts =>
    match phase.step t with
    | .ok (phase, _) => phase.stepAll ts
    | .error _ => none

/-- A token that is taken leads to the next phase. -/
theorem stepAll_cons_of_ok {phase phase' : Phase} {t : Token} {completed : Option Statement}
    (h : phase.step t = .ok (phase', completed)) (ts : List Token) :
    phase.stepAll (t :: ts) = phase'.stepAll ts := by
  rw [stepAll, h]

/-- If all tokens can stand where they do, so does the first one, and the others behind it. -/
theorem exists_step_of_stepAll_cons {phase phase' : Phase} {t : Token} {ts : List Token}
    (h : phase.stepAll (t :: ts) = some phase') :
    ∃ next completed, phase.step t = .ok (next, completed) ∧ next.stepAll ts = some phase' := by
  rw [stepAll] at h
  cases hstep : phase.step t with
  | error e =>
    rw [hstep] at h
    cases h
  | ok q =>
    rw [hstep] at h
    exact ⟨q.1, q.2, rfl, h⟩

/-- Tokens that are all taken lead to the phase in which the others come. -/
theorem stepAll_append_of_some {phase phase' : Phase} {ts : List Token}
    (h : phase.stepAll ts = some phase') (us : List Token) :
    phase.stepAll (ts ++ us) = phase'.stepAll us := by
  induction ts generalizing phase with
  | nil =>
    cases h
    rfl
  | cons t ts ih =>
    obtain ⟨next, completed, hstep, hts⟩ := exists_step_of_stepAll_cons h
    rw [List.cons_append, stepAll_cons_of_ok hstep, ih hts]

/-- The end of the input can stand nowhere within a program. -/
theorem ne_eof_of_stepAll {phase phase' : Phase} {ts : List Token}
    (h : phase.stepAll ts = some phase') : ∀ t ∈ ts, t.kind ≠ .eof := by
  induction ts generalizing phase with
  | nil => exact fun _ ht => absurd ht List.not_mem_nil
  | cons t ts ih =>
    obtain ⟨next, completed, hstep, hts⟩ := exists_step_of_stepAll_cons h
    refine List.forall_mem_cons.2 ⟨fun ht => ?_, ih hts⟩
    obtain ⟨e, he⟩ := phase.step_eof ht
    cases he.symm.trans hstep

/-- Tokens that belong to the expression of a statement can stand there. -/
theorem stepAll_within {r r' : Reading} {ts : List Token} (h : r.feedAll ts = some r')
    (goal : Goal) (p : Option Location) :
    (within goal p r).stepAll ts = some (within goal p r') := by
  induction ts generalizing r with
  | nil =>
    cases h
    rfl
  | cons t ts ih =>
    rw [Reading.feedAll] at h
    cases hfeed : r.feed t with
    | next r₁ =>
      rw [hfeed] at h
      have hstep : (within goal p r).step t = .ok (within goal p r₁, none) := by
        simp [step, hfeed]
      rw [stepAll_cons_of_ok hstep, ih h]
    | done e | stuck x =>
      -- the token would not belong to the expression
      rw [hfeed] at h
      cases h

end Phase

/-- Behind tokens that can stand where they do, the reader goes on from the phase they lead to. -/
theorem exists_parseFrom_append {phase phase' : Phase} {ts : List Token}
    (h : phase.stepAll ts = some phase') :
    ∃ ss, ∀ rest, parseFrom phase (ts ++ rest) = (parseFrom phase' rest).map (ss ++ ·) := by
  induction ts generalizing phase with
  | nil =>
    cases h
    refine ⟨[], fun rest => ?_⟩
    rw [List.nil_append]
    cases parseFrom phase' rest <;> rfl
  | cons t ts ih =>
    obtain ⟨next, completed, hstep, hts⟩ := Phase.exists_step_of_stepAll_cons h
    obtain ⟨ss, hss⟩ := ih hts
    cases completed with
    | none => exact ⟨ss, fun rest => by rw [List.cons_append, parseFrom_of_step hstep, hss]⟩
    | some s =>
      -- the statement that the token completed comes before those of the other tokens
      refine ⟨s :: ss, fun rest => ?_⟩
      rw [List.cons_append, parseFrom_of_step_some hstep, hss]
      cases parseFrom phase' rest <;> rfl

/-! ## Tokens that are refused -/

/-- Reading fails at a token that cannot stand where it does, while all tokens before it can. -/
theorem exists_refused_of_parseFrom {phase : Phase} {ts : List Token} {f : ParseFailure}
    (hend : ∃ t ∈ ts, t.kind = .eof) (h : parseFrom phase ts = .error f) :
    ∃ before t after phase' x, ts = before ++ t :: after ∧
      phase.stepAll before = some phase' ∧ ¬(phase' = .between ∧ t.kind = .eof) ∧
      phase'.step t = .error ⟨x, t⟩ ∧ f = .misplaced ⟨x, t⟩ := by
  induction ts generalizing phase with
  | nil =>
    obtain ⟨t, ht, -⟩ := hend
    exact absurd ht List.not_mem_nil
  | cons t ts ih =>
    rw [parseFrom] at h
    split at h
    · cases h
    next hbetween =>
    cases hstep : phase.step t with
    | error e =>
      -- this is the token that is refused, and there is none before it
      rw [hstep] at h
      cases h
      obtain ⟨x, t'⟩ := e
      obtain rfl : t' = t := Phase.found_of_step hstep
      exact ⟨[], t', ts, phase, x, rfl, rfl, hbetween, hstep, rfl⟩
    | ok q =>
      obtain ⟨next, completed⟩ := q
      rw [hstep] at h
      -- a token that can stand here is not the end of the input, which is still to come
      have hend : ∃ u ∈ ts, u.kind = .eof := by
        obtain ⟨u, hu, heof⟩ := hend
        rcases List.mem_cons.1 hu with rfl | hu
        · obtain ⟨e, he⟩ := phase.step_eof heof
          cases he.symm.trans hstep
        · exact ⟨u, hu, heof⟩
      have hrest : parseFrom next ts = .error f := by
        dsimp only at h
        cases hrest : parseFrom next ts with
        | error f' =>
          rw [hrest] at h
          exact h
        | ok ss =>
          rw [hrest] at h
          cases h
      obtain ⟨before, u, after, phase', x, rfl, hbefore, hu⟩ := ih hend hrest
      refine ⟨t :: before, u, after, phase', x, rfl, ?_, hu⟩
      rw [Phase.stepAll_cons_of_ok hstep, hbefore]

/-- A token that is refused is refused whatever follows it. -/
theorem parseFrom_append_ne_ok {phase phase' : Phase} {before : List Token} {t : Token}
    {e : ParseError} (hbefore : phase.stepAll before = some phase')
    (hbetween : ¬(phase' = .between ∧ t.kind = .eof)) (hstep : phase'.step t = .error e)
    (rest : List Token) (ss : List Statement) : parseFrom phase (before ++ t :: rest) ≠ .ok ss := by
  intro h
  obtain ⟨_, happend⟩ := exists_parseFrom_append hbefore
  rw [happend, parseFrom, if_neg hbetween, hstep] at h
  cases h

/-! ## Tokens that complete a program -/

/-- Tokens that close what is open, up to the next completed operand. -/
def Opening.closing : Opening → List TokenKind
  | group _ | argument _ _ => [.symbol .rightParen]
  | consequent _ _ => [.symbol .colon, .symbol .true_]

/-- Tokens that complete an expression: an operand, if one is due, and what closes all levels. -/
def Reading.closing : Reading → List TokenKind
  | operand _ outer => .symbol .true_ :: outer.flatMap (·.opening.closing)
  | operator _ _ outer => outer.flatMap (·.opening.closing)

/-- Tokens that complete a statement behind its expression. -/
def Goal.closing : Goal → List TokenKind
  | declare _ => [.symbol .semicolon]
  | output _ => [.symbol .rightParen, .symbol .semicolon]

/-- Tokens that complete the current statement. -/
def Phase.closing : Phase → List TokenKind
  | between => []
  -- any name and any operand would do
  | letWord _ => [.identifier "x", .symbol .assign, .symbol .true_, .symbol .semicolon]
  | letName _ _ => [.symbol .assign, .symbol .true_, .symbol .semicolon]
  | outputWord _ _ =>
    [.symbol .leftParen, .symbol .true_, .symbol .rightParen, .symbol .semicolon]
  | within goal _ reading => reading.closing ++ goal.closing
  | outputClosed _ _ _ => [.symbol .semicolon]

/-- Tokens of the given kinds, wherever they stand. -/
def tokensOf (ks : List TokenKind) : List Token :=
  ks.map fun k => ⟨k, .first 0⟩

/-- There are tokens of any kinds. -/
@[simp]
theorem map_kind_tokensOf (ks : List TokenKind) : (tokensOf ks).map Token.kind = ks := by
  simp [tokensOf, Function.comp_def]

/-- Tokens of given kinds are made part by part. -/
theorem tokensOf_append (ks ks' : List TokenKind) :
    tokensOf (ks ++ ks') = tokensOf ks ++ tokensOf ks' :=
  List.map_append

namespace Reading

/-- Behind an operand, all levels are closed one after the other. -/
theorem exists_feedAll_levels (e : Expr) (trail : List Trailing) (outer : List Level) :
    ∃ e' trail', (operator e trail outer).feedAll
      (tokensOf (outer.flatMap (·.opening.closing))) = some (operator e' trail' []) := by
  -- the innermost level is closed first, and what it held is the operand of the next one
  induction outer generalizing e trail with
  | nil => exact ⟨e, trail, rfl⟩
  | cons level outer ih =>
    obtain ⟨opening, ts⟩ := level
    cases opening with
    | group p => exact ih (.paren (completeAll e trail) p) ts
    | argument f p => exact ih (.call f (completeAll e trail) p) ts
    | consequent c p =>
      -- the colon leaves the second branch to be read
      exact ih _ (.alternate c (completeAll e trail) p :: ts)

/-- Whatever has been read of an expression, it can be completed. -/
theorem exists_feedAll_closing (r : Reading) :
    ∃ e trail, r.feedAll (tokensOf r.closing) = some (operator e trail []) := by
  cases r with
  | operand trail outer => exact exists_feedAll_levels _ trail outer
  | operator e trail outer => exact exists_feedAll_levels e trail outer

end Reading

/-- Whatever has been read of a statement, it can be completed. -/
theorem Phase.stepAll_closing (phase : Phase) :
    phase.stepAll (tokensOf phase.closing) = some .between := by
  cases phase with
  | within goal p r =>
    -- once nothing is open in the expression, the statement can go on
    obtain ⟨e, trail, hfeed⟩ := r.exists_feedAll_closing
    rw [closing, tokensOf_append, stepAll_append_of_some (stepAll_within hfeed goal p)]
    cases goal <;> rfl
  | _ => rfl

/-! ## The first impossible token -/

/-- Tokens are read as a program if the reader gets through them from between two statements. -/
theorem parseFrom_of_parseTokens {ts : List Token} {ss : List Statement}
    (h : parseTokens ts = .ok ss) : parseFrom .between ts = .ok ss := by
  rw [parseTokens] at h
  split at h
  · exact h
  · cases h

/-- Tokens that can stand where they do are the beginning of a program. -/
theorem exists_program_of_stepAll {phase : Phase} {before : List Token}
    (h : Phase.between.stepAll before = some phase) :
    ∃ rest last ss, (∀ u ∈ before ++ rest, u.kind ≠ .eof) ∧ last.kind = .eof ∧
      parseTokens (before ++ rest ++ [last]) = .ok ss := by
  have hclosed := (Phase.stepAll_append_of_some h _).trans phase.stepAll_closing
  obtain ⟨ss, happend⟩ := exists_parseFrom_append hclosed
  refine ⟨tokensOf phase.closing, ⟨.eof, .first 0⟩, ss ++ [], Phase.ne_eof_of_stepAll hclosed, rfl,
    ?_⟩
  rw [parseTokens, if_pos (by simp), happend]
  rfl

/-- The kinds of tokens that are read as a program can be derived. -/
theorem derives_of_parseTokens {ts : List Token} {last : Token} {ss : List Statement}
    (hts : ∀ t ∈ ts, t.kind ≠ .eof) (hlast : last.kind = .eof)
    (h : parseTokens (ts ++ [last]) = .ok ss) : Derives .program (ts.map Token.kind) := by
  have hderives := (readsProgram_of_parseFrom .between (parseFrom_of_parseTokens h)).derives
  have hkinds : kindsBeforeEnd (ts ++ [last]) = ts.map Token.kind := by
    rw [kindsBeforeEnd, List.takeWhile_append_of_pos (by simpa using hts)]
    simp [hlast]
  rwa [List.nil_append, hkinds] at hderives

/-- Let a list of tokens end with the end of the input. If it is not read as a program, the error
names one of its tokens, the first one that is impossible: the tokens before it are the beginning of
tokens that are read as a program, and none that begin with them and the named one are. If the named
token is the end of the input, the tokens before it are no program themselves. The grammar agrees:
it derives a program that begins with the tokens before the named one, and none that goes on with
it. -/
theorem error_at_first_impossible_token (tokens : List Token)
    (hend : tokens.getLast?.map Token.kind = some .eof) (f : ParseFailure)
    (hf : parseTokens tokens = .error f) :
    ∃ i t x, tokens[i]? = some t ∧ f = .misplaced ⟨x, t⟩ ∧
      (∃ rest last ss, (∀ u ∈ tokens.take i ++ rest, u.kind ≠ .eof) ∧ last.kind = .eof ∧
        parseTokens (tokens.take i ++ rest ++ [last]) = .ok ss) ∧
      (∀ rest ss, parseTokens (tokens.take (i + 1) ++ rest) ≠ .ok ss) ∧
      (t.kind = .eof → ∀ last, last.kind = .eof →
        ∀ ss, parseTokens (tokens.take i ++ [last]) ≠ .ok ss) ∧
      (∃ ks, Derives .program ((tokens.take i).map Token.kind ++ ks)) ∧
      ∀ ks, ¬Derives .program ((tokens.take (i + 1)).map Token.kind ++ ks) := by
  have hmem : ∃ t ∈ tokens, t.kind = .eof := by
    obtain ⟨t, ht, hkind⟩ := Option.map_eq_some_iff.1 hend
    exact ⟨t, List.mem_of_getLast? ht, hkind⟩
  rw [parseTokens, if_pos hend] at hf
  -- all that follows is about the phase before the refused token
  obtain ⟨before, t, after, phase, x, rfl, hbefore, hbetween, hstep, rfl⟩ :=
    exists_refused_of_parseFrom hmem hf
  have htake : (before ++ t :: after).take before.length = before := List.take_left
  have htake' : (before ++ t :: after).take (before.length + 1) = before ++ [t] := by
    rw [List.append_cons]
    exact List.take_left' (by simp)
  refine ⟨before.length, t, x, by simp, rfl, ?_⟩
  rw [htake, htake']
  obtain ⟨rest, last, ss, hkinds, hlast, hss⟩ := exists_program_of_stepAll hbefore
  refine ⟨⟨rest, last, ss, hkinds, hlast, hss⟩, ?_, ?_, ⟨rest.map Token.kind, ?_⟩, ?_⟩
  · intro rest' ss' h
    rw [List.append_assoc] at h
    exact parseFrom_append_ne_ok hbefore hbetween hstep rest' ss' (parseFrom_of_parseTokens h)
  · intro ht u hu ss' h
    -- the end of the input is accepted between statements only, wherever it stands
    obtain ⟨e, he⟩ := phase.step_eof hu
    exact parseFrom_append_ne_ok hbefore (fun h => hbetween ⟨h.1, ht⟩) he [] ss'
      (parseFrom_of_parseTokens h)
  · rw [← List.map_append]
    exact derives_of_parseTokens hkinds hlast hss
  · intro ks hderives
    -- what the grammar derives is read, and so the token would not be refused
    have hkinds : (before ++ t :: tokensOf ks).map Token.kind =
        (before ++ [t]).map Token.kind ++ ks := by
      simp
    obtain ⟨ss', hss'⟩ := parseFrom_of_derives hderives hkinds hlast []
    rw [List.append_assoc] at hss'
    exact parseFrom_append_ne_ok hbefore hbetween hstep _ ss' hss'

/-- The tokens of `let f = (x)(y) => z;`, each in a column of its own. -/
def callThenArrow : List Token :=
  [.symbol .let_, .identifier "f", .symbol .assign, .symbol .leftParen, .identifier "x",
    .symbol .rightParen, .symbol .leftParen, .identifier "y", .symbol .rightParen, .symbol .arrow,
    .identifier "z", .symbol .semicolon, .eof].mapIdx fun i k => ⟨k, ⟨0, 1, i + 1⟩⟩

/-- What looks like a parameter in parentheses is the argument of a call, and so the arrow behind it
is impossible. -/
theorem error_at_first_impossible_token_arrow :
    callThenArrow.getLast?.map Token.kind = some .eof ∧
      parseTokens callThenArrow =
        .error (.misplaced ⟨.declarationEnd, ⟨.symbol .arrow, ⟨0, 1, 10⟩⟩⟩) ∧
      (∃ rest last ss, (∀ u ∈ callThenArrow.take 9 ++ rest, u.kind ≠ .eof) ∧ last.kind = .eof ∧
        parseTokens (callThenArrow.take 9 ++ rest ++ [last]) = .ok ss) ∧
      ∀ rest ss, parseTokens (callThenArrow.take 10 ++ rest) ≠ .ok ss := by
  have hend : callThenArrow.getLast?.map Token.kind = some .eof := by decide
  have hread : parseTokens callThenArrow =
      .error (.misplaced ⟨.declarationEnd, ⟨.symbol .arrow, ⟨0, 1, 10⟩⟩⟩) := by decide +kernel
  obtain ⟨i, t, x, hi, hf, hbegins, hnone, -⟩ := error_at_first_impossible_token _ hend _ hread
  cases hf
  -- no other token is in the tenth column
  have hindex : ∀ i < 13, callThenArrow[i]? = some ⟨.symbol .arrow, ⟨0, 1, 10⟩⟩ → i = 9 := by
    decide +kernel
  obtain ⟨hlt, -⟩ := List.getElem?_eq_some_iff.1 hi
  obtain rfl := hindex i hlt hi
  exact ⟨hend, hread, hbegins, hnone⟩

end CallByNeed
