import CallByNeed.Proofs.ReaderTrees

/-!
# The parser accepts exactly the grammar

A list of tokens is read as a program if and only if the grammar derives the tokens before the
first end of the input, and the statements are then a derivation of them: read back they give the
tokens, operators group to the left, conditionals to the right, and every function reaches as far
to the right as it can. What follows the first end of the input has no influence.

Soundness keeps track of what has been read of the current statement (`Phase.Spells`) from token to
token. Completeness feeds the phrases of a derivation one after the other.
-/

namespace CallByNeed

open Grammar

namespace Phase

/-- The tokens of the current statement that have been read. -/
inductive Spells : Phase → List TokenKind → Prop where
  | between : Spells .between []
  | letWord (p : Option Location) : Spells (.letWord p) [.symbol .let_]
  | letName (x : String) (p : Option Location) :
      Spells (.letName x p) [.symbol .let_, .identifier x]
  | outputWord (o : Output) (p : Option Location) : Spells (.outputWord o p) [.symbol o.symbol]
  | declare {x : String} {r : Reading} {ts : List TokenKind} (p : Option Location) :
      r.Spells ts →
      Spells (.within (.declare x) p r)
        (.symbol .let_ :: .identifier x :: .symbol .assign :: ts)
  | output {o : Output} {r : Reading} {ts : List TokenKind} (p : Option Location) :
      r.Spells ts →
      Spells (.within (.output o) p r) (.symbol o.symbol :: .symbol .leftParen :: ts)
  | outputClosed {o : Output} {e : Expr} {ts : List TokenKind} (p : Option Location) :
      e.Spells ts → e.Proper →
      Spells (.outputClosed o e p)
        (.symbol o.symbol :: .symbol .leftParen :: ts ++ [.symbol .rightParen])

/-- What is left to show of a token that was accepted: it is added to what was read of the current
statement, or it completes that statement. -/
def Accepted (ks : List TokenKind) (t : Token) : Phase × Option Statement → Prop
  | (phase, none) => phase.Spells (ks ++ [t.kind])
  | (phase, some s) =>
    phase = .between ∧
      ∀ ss us, ReadsProgram ss us → ReadsProgram (s :: ss) (ks ++ t.kind :: us)

/-- An expression that is followed by a token which never goes on with one is read as it should. -/
theorem reads_expr {e : Expr} {ts : List TokenKind} (hs : e.Spells ts) (hp : e.Proper)
    {after : List TokenKind} (ha : Reading.Stops after) : Reads .expr e ts after :=
  (hs.reads hp after (.inr ha)).loosenTo (Nat.zero_le _) e.rung_le_nine

/-- A step of the parser reads the token it is given. -/
theorem accepted_step {phase : Phase} {ks : List TokenKind} (h : phase.Spells ks) {t : Token}
    {next : Phase × Option Statement} (ht : phase.step t = .ok next) : Accepted ks t next := by
  cases h with
  | between =>
    simp only [step] at ht
    split at ht
    case h_1 hk => cases ht; rw [Accepted, hk]; exact .letWord _
    case h_2 hk => cases ht; rw [Accepted, hk]; exact .outputWord .value _
    case h_3 hk => cases ht; rw [Accepted, hk]; exact .outputWord .expansion _
    case h_4 => cases ht
  | letWord p =>
    simp only [step] at ht
    split at ht
    case h_1 x hk => cases ht; rw [Accepted, hk]; exact .letName x p
    case h_2 => cases ht
  | letName x p =>
    simp only [step] at ht
    split at ht
    case isTrue hk => cases ht; rw [Accepted, hk]; exact .declare p Reading.spells_start
    case isFalse => cases ht
  | outputWord o p =>
    simp only [step] at ht
    split at ht
    case isTrue hk => cases ht; rw [Accepted, hk]; exact .output p Reading.spells_start
    case isFalse => cases ht
  | declare p hr =>
    simp only [step] at ht
    split at ht
    case h_1 hfeed =>
      cases ht
      exact .declare p (Reading.spells_feed hr hfeed)
    case h_2 => cases ht
    case h_3 hfeed =>
      -- the expression ended before this token, which has to be the one that closes the statement
      obtain ⟨hs, hp⟩ := Reading.spells_done hr hfeed
      split at ht
      case isTrue hk =>
        cases ht
        refine ⟨rfl, fun ss us hss => ?_⟩
        rw [hk]
        exact .declare _ p (reads_expr hs hp (by simp [Reading.Stops])) hss
      case isFalse => cases ht
  | output p hr =>
    simp only [step] at ht
    split at ht
    case h_1 hfeed =>
      cases ht
      exact .output p (Reading.spells_feed hr hfeed)
    case h_2 => cases ht
    case h_3 hfeed =>
      obtain ⟨hs, hp⟩ := Reading.spells_done hr hfeed
      split at ht
      case isTrue hk =>
        cases ht
        rw [Accepted, hk]
        exact .outputClosed p hs hp
      case isFalse => cases ht
  | outputClosed p hs hp =>
    simp only [step] at ht
    split at ht
    case isTrue hk =>
      cases ht
      refine ⟨rfl, fun ss us hss => ?_⟩
      rw [hk]
      simpa using ReadsProgram.output _ p (reads_expr hs hp (by simp [Reading.Stops])) hss
    case isFalse => cases ht

/-- The end of the input completes nothing. -/
theorem step_eof (phase : Phase) {t : Token} (ht : t.kind = .eof) :
    ∃ e, phase.step t = .error e := by
  cases phase with
  | between => simp [step, ht]
  | letWord => simp [step, ht]
  | letName => simp [step, ht]
  | outputWord => simp [step, ht]
  | outputClosed => simp [step, ht]
  | within goal p r =>
    cases r with
    | operand => simp [step, Reading.feed, Reading.feedOperand, ht]
    | operator e trail outer =>
      cases outer with
      | nil => cases goal <;> simp [step, Reading.feed, Reading.feedOperator, Reading.leave, ht]
      | cons => simp [step, Reading.feed, Reading.feedOperator, Reading.leave, ht]

/-- A token that is in the way is the one that is told. -/
theorem found_of_step {phase : Phase} {t : Token} {e : ParseError}
    (h : phase.step t = .error e) : e.found = t := by
  unfold step at h
  dsimp only at h
  repeat' split at h
  all_goals cases h
  all_goals rfl

end Phase

/-! ## Soundness -/

/-- The tokens before the first end of the input, apart from their places. -/
def kindsBeforeEnd (tokens : List Token) : List TokenKind :=
  (tokens.takeWhile fun t => t.kind ≠ .eof).map Token.kind

/-- Tokens count up to the one that marks the end. -/
theorem kindsBeforeEnd_cons_of_ne {t : Token} (h : t.kind ≠ .eof) (tokens : List Token) :
    kindsBeforeEnd (t :: tokens) = t.kind :: kindsBeforeEnd tokens := by
  simp [kindsBeforeEnd, h]

/-- Statements that were read are a derivation of the tokens they were read from, those that were
read of the current statement included. -/
theorem readsProgram_of_parseFrom {phase : Phase} {ks : List TokenKind} (h : phase.Spells ks)
    {tokens : List Token} {ss : List Statement} (hss : parseFrom phase tokens = .ok ss) :
    ReadsProgram ss (ks ++ kindsBeforeEnd tokens) := by
  induction tokens generalizing phase ks ss with
  | nil => cases hss
  | cons t tokens ih =>
    rw [parseFrom] at hss
    split at hss
    case isTrue hend =>
      obtain ⟨rfl, ht⟩ := hend
      cases hss
      cases h
      simpa [kindsBeforeEnd, ht] using ReadsProgram.nil
    case isFalse =>
      -- within a statement the end of the input is an error, so the token is another one
      have ht : t.kind ≠ .eof := by
        intro ht
        obtain ⟨e, he⟩ := phase.step_eof ht
        rw [he] at hss
        cases hss
      rw [kindsBeforeEnd_cons_of_ne ht]
      split at hss
      case h_1 => cases hss
      case h_2 phase' completed hstep =>
        have hacc := Phase.accepted_step h hstep
        split at hss
        case h_1 => cases hss
        case h_2 statements hrest =>
          cases hss
          -- the token is added to the current statement, or a new statement starts behind it
          cases completed with
          | none => simpa using ih hacc hrest
          | some s =>
            obtain ⟨rfl, hcons⟩ := hacc
            exact hcons _ _ (by simpa using ih .between hrest)

/-! ## Completeness -/

/-- A token that completes no statement. -/
theorem parseFrom_of_step {phase phase' : Phase} {t : Token}
    (h : phase.step t = .ok (phase', none)) (rest : List Token) :
    parseFrom phase (t :: rest) = parseFrom phase' rest := by
  have hend : ¬ (phase = .between ∧ t.kind = .eof) := by
    rintro ⟨-, ht⟩
    obtain ⟨e, he⟩ := phase.step_eof ht
    rw [he] at h
    cases h
  rw [parseFrom, if_neg hend, h]
  simp only [Option.toList_none, List.nil_append]
  cases parseFrom phase' rest <;> rfl

/-- A token that completes a statement. -/
theorem parseFrom_of_step_some {phase phase' : Phase} {t : Token} {s : Statement}
    (h : phase.step t = .ok (phase', some s)) (rest : List Token) :
    parseFrom phase (t :: rest) = (parseFrom phase' rest).map (s :: ·) := by
  have hend : ¬ (phase = .between ∧ t.kind = .eof) := by
    rintro ⟨-, ht⟩
    obtain ⟨e, he⟩ := phase.step_eof ht
    rw [he] at h
    cases h
  rw [parseFrom, if_neg hend, h]
  simp only [Option.toList_some, List.singleton_append]
  cases parseFrom phase' rest <;> rfl

/-- Tokens of an expression are read within a statement as they are read alone. -/
theorem parseFrom_within {goal : Goal} {p : Option Location} {r r' : Reading}
    {tokens : List Token} (h : r.feedAll tokens = some r') (rest : List Token) :
    parseFrom (.within goal p r) (tokens ++ rest) = parseFrom (.within goal p r') rest := by
  induction tokens generalizing r with
  | nil =>
    cases h
    rfl
  | cons t tokens ih =>
    rw [Reading.feedAll] at h
    cases hfeed : r.feed t with
    | next r₁ =>
      rw [hfeed] at h
      have hstep : (Phase.within goal p r).step t = .ok (.within goal p r₁, none) := by
        simp [Phase.step, hfeed]
      rw [List.cons_append, parseFrom_of_step hstep, ih h]
    | done e =>
      rw [hfeed] at h
      cases h
    | stuck x =>
      rw [hfeed] at h
      cases h

/-- A declaration is read if its expression is, and reading goes on behind it. -/
theorem parseFrom_declaration {x : String} {ks : List TokenKind} {P : Expr → Prop}
    (h : Reading.Completes ks P) {tokens : List Token}
    (hks : tokens.map Token.kind =
      .symbol .let_ :: .identifier x :: .symbol .assign :: ks ++ [.symbol .semicolon])
    (rest : List Token) :
    ∃ e p, P e ∧ parseFrom .between (tokens ++ rest) =
      (parseFrom .between rest).map (.declare x e p :: ·) := by
  obtain ⟨front, last, rfl, hfront, hlast⟩ := List.map_eq_append_iff.1 hks
  obtain ⟨t₁, front, rfl, h₁, hfront⟩ := List.map_eq_cons_iff.1 hfront
  obtain ⟨t₂, front, rfl, h₂, hfront⟩ := List.map_eq_cons_iff.1 hfront
  obtain ⟨t₃, ts, rfl, h₃, hts⟩ := List.map_eq_cons_iff.1 hfront
  obtain ⟨t₄, last, rfl, h₄, hlast⟩ := List.map_eq_cons_iff.1 hlast
  obtain rfl := List.map_eq_nil_iff.1 hlast
  obtain ⟨_, hfeed, e, trail, rfl, he⟩ := h ts hts
  -- one step for each token outside of the expression
  have hs₁ : Phase.between.step t₁ = .ok (.letWord (some t₁.location), none) := by
    simp [Phase.step, h₁]
  have hs₂ : (Phase.letWord (some t₁.location)).step t₂ =
      .ok (.letName x (some t₁.location), none) := by
    simp [Phase.step, h₂]
  have hs₃ : (Phase.letName x (some t₁.location)).step t₃ =
      .ok (.within (.declare x) (some t₁.location) .start, none) := by
    simp [Phase.step, h₃]
  have hs₄ : (Phase.within (.declare x) (some t₁.location) (.operator e trail [])).step t₄ =
      .ok (.between, some (.declare x (completeAll e trail) (some t₁.location))) := by
    simp [Phase.step, Reading.feed, Reading.feedOperator, Reading.leave, Symbol.binaryOp?, h₄]
  refine ⟨completeAll e trail, some t₁.location, he, ?_⟩
  rw [List.append_assoc, List.cons_append, parseFrom_of_step hs₁, List.cons_append,
    parseFrom_of_step hs₂, List.cons_append, parseFrom_of_step hs₃, parseFrom_within hfeed,
    List.singleton_append, parseFrom_of_step_some hs₄]

/-- An output statement is read if its expression is, and reading goes on behind it. -/
theorem parseFrom_output {o : Output} {ks : List TokenKind} {P : Expr → Prop}
    (h : Reading.Completes ks P) {tokens : List Token}
    (hks : tokens.map Token.kind =
      .symbol o.symbol :: .symbol .leftParen :: ks ++ [.symbol .rightParen, .symbol .semicolon])
    (rest : List Token) :
    ∃ e p, P e ∧ parseFrom .between (tokens ++ rest) =
      (parseFrom .between rest).map (.output o e p :: ·) := by
  obtain ⟨front, last, rfl, hfront, hlast⟩ := List.map_eq_append_iff.1 hks
  obtain ⟨t₁, front, rfl, h₁, hfront⟩ := List.map_eq_cons_iff.1 hfront
  obtain ⟨t₂, ts, rfl, h₂, hts⟩ := List.map_eq_cons_iff.1 hfront
  obtain ⟨t₃, last, rfl, h₃, hlast⟩ := List.map_eq_cons_iff.1 hlast
  obtain ⟨t₄, last, rfl, h₄, hlast⟩ := List.map_eq_cons_iff.1 hlast
  obtain rfl := List.map_eq_nil_iff.1 hlast
  obtain ⟨_, hfeed, e, trail, rfl, he⟩ := h ts hts
  have hs₁ : Phase.between.step t₁ = .ok (.outputWord o (some t₁.location), none) := by
    cases o <;> simp [Phase.step, h₁, Output.symbol]
  have hs₂ : (Phase.outputWord o (some t₁.location)).step t₂ =
      .ok (.within (.output o) (some t₁.location) .start, none) := by
    simp [Phase.step, h₂]
  -- the parenthesis ends the expression, as nothing is open in it
  have hs₃ : (Phase.within (.output o) (some t₁.location) (.operator e trail [])).step t₃ =
      .ok (.outputClosed o (completeAll e trail) (some t₁.location), none) := by
    simp [Phase.step, Reading.feed, Reading.feedOperator, Reading.leave, h₃]
  have hs₄ : (Phase.outputClosed o (completeAll e trail) (some t₁.location)).step t₄ =
      .ok (.between, some (.output o (completeAll e trail) (some t₁.location))) := by
    simp [Phase.step, h₄]
  refine ⟨completeAll e trail, some t₁.location, he, ?_⟩
  rw [List.append_assoc, List.cons_append, parseFrom_of_step hs₁, List.cons_append,
    parseFrom_of_step hs₂, parseFrom_within hfeed, List.cons_append, parseFrom_of_step hs₃,
    List.singleton_append, parseFrom_of_step_some hs₄]

/-- A derived statement is read, and reading goes on behind it. -/
theorem parseFrom_statement {ks : List TokenKind} (h : Derives .statement ks)
    {tokens : List Token} (hks : tokens.map Token.kind = ks) (rest : List Token) :
    ∃ s, parseFrom .between (tokens ++ rest) = (parseFrom .between rest).map (s :: ·) := by
  cases h with
  | declaration x he =>
    obtain ⟨e, p, -, hparse⟩ := parseFrom_declaration (Reading.completes_of_derives he) hks rest
    exact ⟨.declare x e p, hparse⟩
  | output o he =>
    obtain ⟨e, p, -, hparse⟩ := parseFrom_output (Reading.completes_of_derives he) hks rest
    exact ⟨.output o e p, hparse⟩

/-- A derived program is read up to the end of the input. -/
theorem parseFrom_of_derives {ks : List TokenKind} (h : Derives .program ks)
    {tokens : List Token} (hks : tokens.map Token.kind = ks) {t : Token} (ht : t.kind = .eof)
    (rest : List Token) : ∃ ss, parseFrom .between (tokens ++ t :: rest) = .ok ss := by
  -- only the rules of programs matter, and these make a list of statements
  generalize hn : Nonterminal.program = n at h
  induction h generalizing tokens with
  | noStatement =>
    obtain rfl := List.map_eq_nil_iff.1 hks
    exact ⟨[], by simp [parseFrom, ht]⟩
  | statements hs _ _ ih =>
    obtain ⟨ts, us, rfl, hts, hus⟩ := List.map_eq_append_iff.1 hks
    obtain ⟨s, h₁⟩ := parseFrom_statement hs hts (us ++ t :: rest)
    obtain ⟨ss, h₂⟩ := ih hus rfl
    refine ⟨s :: ss, ?_⟩
    rw [List.append_assoc, h₁, h₂]
    rfl
  | _ => cases hn

/-- The tokens of statements are derived from a program. -/
theorem Grammar.ReadsProgram.derives {ss : List Statement} {ks : List TokenKind}
    (h : ReadsProgram ss ks) : Derives .program ks := by
  induction h with
  | nil => exact .noStatement
  | declare x p he _ ih => simpa using Derives.statements (.declaration x he.derives) ih
  | output o p he _ ih => simpa using Derives.statements (.output o he.derives) ih

/-! ## The end of the input -/

/-- What follows an end of the input has no influence. -/
theorem parseFrom_append_end (phase : Phase) (tokens : List Token) {t : Token}
    (ht : t.kind = .eof) (rest rest' : List Token) :
    parseFrom phase (tokens ++ t :: rest) = parseFrom phase (tokens ++ t :: rest') := by
  induction tokens generalizing phase with
  | nil =>
    -- between statements reading ends here, and within one it fails
    obtain ⟨e, he⟩ := phase.step_eof ht
    simp only [List.nil_append, parseFrom, he]
  | cons u tokens ih => simp only [List.cons_append, parseFrom, ih]

/-- A list of tokens that ends with the end of the input has a first one. -/
theorem exists_first_end {tokens : List Token} (h : tokens.getLast?.map Token.kind = some .eof) :
    ∃ front t rest, tokens = front ++ t :: rest ∧ t.kind = .eof ∧
      kindsBeforeEnd tokens = front.map Token.kind := by
  induction tokens with
  | nil => simp at h
  | cons u tokens ih =>
    by_cases hu : u.kind = .eof
    · exact ⟨[], u, tokens, rfl, hu, by simp [kindsBeforeEnd, hu]⟩
    · have hne : tokens ≠ [] := by
        rintro rfl
        exact hu (by simpa using h)
      obtain ⟨front, t, rest, rfl, ht, hks⟩ := ih (by rwa [List.getLast?_cons_of_ne_nil hne] at h)
      exact ⟨u :: front, t, rest, rfl, ht, by
        rw [kindsBeforeEnd_cons_of_ne hu, hks, List.map_cons]⟩

/-- A list of tokens that ends with the end of the input is read as a program if and only if the
grammar derives the tokens before the first end of the input. The statements are then a derivation
of those tokens, in which operators group to the left, conditionals to the right, and functions
reach as far to the right as they can. What follows an end of the input has no influence. -/
theorem parseTokens_exact (tokens : List Token)
    (hend : tokens.getLast?.map Token.kind = some .eof) :
    ((∃ ss, parseTokens tokens = .ok ss) ↔ Derives .program (kindsBeforeEnd tokens)) ∧
      (∀ ss, parseTokens tokens = .ok ss → ReadsProgram ss (kindsBeforeEnd tokens)) ∧
      ∀ front t rest rest', tokens = front ++ t :: rest → t.kind = .eof →
        (front ++ t :: rest').getLast?.map Token.kind = some .eof →
        parseTokens (front ++ t :: rest') = parseTokens tokens := by
  have hsound : ∀ ss, parseTokens tokens = .ok ss →
      ReadsProgram ss (kindsBeforeEnd tokens) := by
    intro ss hss
    rw [parseTokens, if_pos hend] at hss
    exact readsProgram_of_parseFrom .between hss
  refine ⟨⟨?_, ?_⟩, hsound, ?_⟩
  · rintro ⟨ss, hss⟩
    exact (hsound ss hss).derives
  · intro h
    obtain ⟨front, t, rest, htokens, ht, hks⟩ := exists_first_end hend
    obtain ⟨ss, hss⟩ := parseFrom_of_derives (hks ▸ h) rfl ht rest
    exact ⟨ss, by rw [parseTokens, if_pos hend, htokens, hss]⟩
  · intro front t rest rest' htokens ht hend'
    rw [parseTokens, if_pos hend', parseTokens, if_pos hend, htokens]
    exact parseFrom_append_end .between front ht rest' rest

/-- The tokens of `let f = a ? x => b + c : d;`, and more behind an end of the input. -/
def arrowInBranch : List Token :=
  [.symbol .let_, .identifier "f", .symbol .assign, .identifier "a", .symbol .question,
    .identifier "x", .symbol .arrow, .identifier "b", .symbol .plus, .identifier "c",
    .symbol .colon, .identifier "d", .symbol .semicolon, .eof, .symbol .plus, .eof].map
    fun k => ⟨k, .first 0⟩

/-- How these tokens are read. -/
def arrowInBranchRead : List Statement :=
  let place := some (Location.first 0)
  [.declare "f" (.cond (.name "a" place)
    (.arrow "x" (.binary .add (.name "b" place) (.name "c" place) place) place)
    (.name "d" place) place) place]

/-- The sum is the body of the function, and the colon after it goes on with the conditional. -/
theorem parseTokens_exact_arrowInBranch :
    arrowInBranch.getLast?.map Token.kind = some .eof ∧
      parseTokens arrowInBranch = .ok arrowInBranchRead ∧
      Derives .program (kindsBeforeEnd arrowInBranch) ∧
      ReadsProgram arrowInBranchRead (kindsBeforeEnd arrowInBranch) := by
  have hend : arrowInBranch.getLast?.map Token.kind = some .eof := by decide
  have hread : parseTokens arrowInBranch = .ok arrowInBranchRead := by rfl
  have h := parseTokens_exact arrowInBranch hend
  exact ⟨hend, hread, h.1.1 ⟨_, hread⟩, h.2.1 _ hread⟩

end CallByNeed
