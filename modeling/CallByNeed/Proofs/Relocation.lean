import CallByNeed.Proofs.ParserExact

/-!
# Where a text stands

What is read from a text carries the places it was read from, but reading does not depend on them.
So a text that stands elsewhere is read as the same, with all places moved: `relocate f` moves the
places of tokens and of whatever is made from them, and each step of the reader commutes with it
(`Phase.step_relocate`, `parseFrom_relocate`).

Cutting a text into tokens counts lines and columns, and so it commutes with those maps only that
commute with counting (`lexFrom_relocate`).
-/

namespace CallByNeed

variable (f : Location → Location)

/-- The expression with its places moved. -/
def Expr.relocate : Expr → Expr
  | literal c p => literal c (p.map f)
  | name x p => name x (p.map f)
  | paren e p => paren e.relocate (p.map f)
  | arrow x e p => arrow x e.relocate (p.map f)
  | call g a p => call g.relocate a.relocate (p.map f)
  | unary op e p => unary op e.relocate (p.map f)
  | binary op l r p => binary op l.relocate r.relocate (p.map f)
  | cond c t e p => cond c.relocate t.relocate e.relocate (p.map f)

/-- The statement with its places moved. -/
def Statement.relocate : Statement → Statement
  | declare x e p => declare x (e.relocate f) (p.map f)
  | output o e p => output o (e.relocate f) (p.map f)

/-- The token at another place. -/
def Token.relocate (t : Token) : Token :=
  ⟨t.kind, f t.location⟩

/-! ## Expressions that have been read in part -/

namespace Trailing

/-- The expression in part, with its places moved. -/
def relocate : Trailing → Trailing
  | arrow x p => arrow x (p.map f)
  | unary op p => unary op (p.map f)
  | binary op l p => binary op (l.relocate f) (p.map f)
  | alternate c t p => alternate (c.relocate f) (t.relocate f) (p.map f)

/-- Completing does not look at places. -/
theorem complete_relocate (e : Expr) (t : Trailing) :
    (t.relocate f).complete (e.relocate f) = (t.complete e).relocate f := by
  cases t <;> rfl

/-- Places do not matter to precedence. -/
theorem precedence_relocate (t : Trailing) : (t.relocate f).precedence = t.precedence := by
  cases t <;> rfl

end Trailing

/-- Completing a whole trail does not look at places. -/
theorem completeAll_relocate (e : Expr) (trail : List Trailing) :
    completeAll (e.relocate f) (trail.map (.relocate f)) = (completeAll e trail).relocate f := by
  induction trail generalizing e with
  | nil => rfl
  | cons t trail ih =>
    have hcons : ∀ e t trail, completeAll e (t :: trail) = completeAll (t.complete e) trail :=
      fun _ _ _ => rfl
    rw [List.map_cons, hcons, hcons, t.complete_relocate, ih]

/-- Completing a part of a trail does not look at places. -/
theorem reduce_relocate (p : Nat) (e : Expr) (trail : List Trailing) :
    reduce p (e.relocate f) (trail.map (.relocate f)) =
      ((reduce p e trail).1.relocate f, (reduce p e trail).2.map (.relocate f)) := by
  induction trail generalizing e with
  | nil => rfl
  | cons t trail ih =>
    rw [List.map_cons, reduce, reduce, t.precedence_relocate, t.complete_relocate]
    split
    · exact ih (t.complete e)
    · rfl

/-- What was opened, with its places moved. -/
def Opening.relocate : Opening → Opening
  | group p => group (p.map f)
  | argument g p => argument (g.relocate f) (p.map f)
  | consequent c p => consequent (c.relocate f) (p.map f)

/-- The level with its places moved. -/
def Level.relocate (l : Level) : Level :=
  ⟨l.opening.relocate f, l.trail.map (.relocate f)⟩

namespace Reading

/-- The expression in part, with its places moved. -/
def relocate : Reading → Reading
  | operand trail outer => operand (trail.map (.relocate f)) (outer.map (.relocate f))
  | operator e trail outer =>
    operator (e.relocate f) (trail.map (.relocate f)) (outer.map (.relocate f))

/-- What becomes of a reading, with its places moved. -/
def Progress.relocate : Progress → Progress
  | next r => next (r.relocate f)
  | done e => done (e.relocate f)
  | stuck x => stuck x

/-- Whether an expression can be a parameter does not depend on places. -/
theorem parameter?_relocate (e : Expr) :
    parameter? (e.relocate f) = (parameter? e).map fun q => (q.1, q.2.map f) := by
  cases e with
  | paren e p => cases e <;> rfl
  | _ => rfl

/-- Leaving a level does not look at places. -/
theorem leave_relocate (e : Expr) (trail : List Trailing) (outer : List Level) :
    leave (e.relocate f) (trail.map (.relocate f)) (outer.map (.relocate f)) =
      (leave e trail outer).relocate f := by
  cases outer with
  | nil => rw [List.map_nil, leave, leave, completeAll_relocate, Progress.relocate]
  | cons level outer =>
    obtain ⟨opening, ts⟩ := level
    cases opening <;> rfl

/-- What a token does where an operand is due does not depend on places. -/
theorem feedOperand_relocate (trail : List Trailing) (outer : List Level) (t : Token) :
    feedOperand (trail.map (.relocate f)) (outer.map (.relocate f)) (t.relocate f) =
      (feedOperand trail outer t).relocate f := by
  obtain ⟨kind, location⟩ := t
  cases kind with
  | symbol s => cases s <;> rfl
  | _ => rfl

/-- What a token does after an operand does not depend on places. -/
theorem feedOperator_relocate (e : Expr) (trail : List Trailing) (outer : List Level) (t : Token) :
    feedOperator (e.relocate f) (trail.map (.relocate f)) (outer.map (.relocate f))
        (t.relocate f) =
      (feedOperator e trail outer t).relocate f := by
  have hleave := leave_relocate f e trail outer
  obtain ⟨kind, location⟩ := t
  cases kind with
  | symbol s =>
    cases s with
    | leftParen => rfl
    | rightParen =>
      -- it closes a group or an argument, if one of these is open
      rcases outer with _ | ⟨⟨_ | _ | _, ts⟩, outer⟩
      · exact hleave
      · simp only [feedOperator, Token.relocate, List.map_cons, Level.relocate, Opening.relocate,
          completeAll_relocate]
        rfl
      · simp only [feedOperator, Token.relocate, List.map_cons, Level.relocate, Opening.relocate,
          completeAll_relocate]
        rfl
      · exact hleave
    | colon =>
      -- it closes the first branch of a conditional only
      rcases outer with _ | ⟨⟨_ | _ | _, ts⟩, outer⟩
      · exact hleave
      · exact hleave
      · exact hleave
      · simp only [feedOperator, Token.relocate, List.map_cons, Level.relocate, Opening.relocate,
          completeAll_relocate]
        rfl
    | question =>
      simp only [feedOperator, Token.relocate, reduce_relocate]
      rfl
    | arrow =>
      simp only [feedOperator, Token.relocate, parameter?_relocate]
      cases parameter? e with
      | none => exact hleave
      | some q => rfl
    | or | and | strictEqual | strictNotEqual | less | lessOrEqual | greater | greaterOrEqual
    | plus | minus | asterisk | slash | percent =>
      simp only [feedOperator, Token.relocate, Symbol.binaryOp?, reduce_relocate]
      rfl
    | _ => exact hleave
  | _ => exact hleave

/-- Reading goes on in the same way at another place. -/
theorem feed_relocate (r : Reading) (t : Token) :
    (r.relocate f).feed (t.relocate f) = (r.feed t).relocate f := by
  cases r with
  | operand trail outer => exact feedOperand_relocate f trail outer t
  | operator e trail outer => exact feedOperator_relocate f e trail outer t

end Reading

/-! ## Programs -/

/-- The error with the place of its token moved. -/
def ParseError.relocate (e : ParseError) : ParseError :=
  ⟨e.expectation, e.found.relocate f⟩

/-- The failure with the place of its token moved. -/
def ParseFailure.relocate : ParseFailure → ParseFailure
  | misplaced e => misplaced (e.relocate f)
  | endless => endless

namespace Phase

/-- What has been read of a statement, with its places moved. -/
def relocate : Phase → Phase
  | between => between
  | letWord p => letWord (p.map f)
  | letName x p => letName x (p.map f)
  | outputWord o p => outputWord o (p.map f)
  | within goal p r => within goal (p.map f) (r.relocate f)
  | outputClosed o e p => outputClosed o (e.relocate f) (p.map f)

/-- Only between statements is it between statements with other places. -/
theorem relocate_eq_between {phase : Phase} : phase.relocate f = between ↔ phase = between := by
  cases phase <;> simp [relocate]

/-- A token leads on in the same way at another place. -/
theorem step_relocate (phase : Phase) (t : Token) :
    (phase.relocate f).step (t.relocate f) =
      ((phase.step t).map fun q => (q.1.relocate f, q.2.map (.relocate f))).mapError
        (.relocate f) := by
  -- only the kind of the token decides which branch is taken
  have hkind : (t.relocate f).kind = t.kind := rfl
  cases phase with
  | between =>
    obtain ⟨kind, location⟩ := t
    cases kind with
    | symbol s => cases s <;> rfl
    | _ => rfl
  | letWord p =>
    obtain ⟨kind, location⟩ := t
    cases kind <;> rfl
  | letName x p =>
    simp only [relocate, step, hkind]
    split <;> rfl
  | outputWord o p =>
    simp only [relocate, step, hkind]
    split <;> rfl
  | within goal p r =>
    simp only [relocate, step, Reading.feed_relocate, hkind]
    cases r.feed t with
    | next r' => rfl
    | stuck x => rfl
    | done e =>
      cases goal with
      | declare x =>
        dsimp only [Reading.Progress.relocate]
        split <;> rfl
      | output o =>
        dsimp only [Reading.Progress.relocate]
        split <;> rfl
  | outputClosed o e p =>
    simp only [relocate, step, hkind]
    split <;> rfl

end Phase

/-- Tokens that stand elsewhere are read as the same statements. -/
theorem parseFrom_relocate (phase : Phase) (ts : List Token) :
    parseFrom (phase.relocate f) (ts.map (.relocate f)) =
      ((parseFrom phase ts).map (List.map (.relocate f))).mapError (.relocate f) := by
  induction ts generalizing phase with
  | nil => rfl
  | cons t ts ih =>
    by_cases hend : phase = .between ∧ t.kind = .eof
    · have hend' : phase.relocate f = .between ∧ (t.relocate f).kind = .eof :=
        ⟨(Phase.relocate_eq_between f).2 hend.1, hend.2⟩
      rw [List.map_cons, parseFrom, if_pos hend', parseFrom, if_pos hend]
      rfl
    have hstep' := phase.step_relocate f t
    cases hstep : phase.step t with
    | error e =>
      have hend' : ¬(phase.relocate f = .between ∧ (t.relocate f).kind = .eof) := fun h =>
        hend ⟨(Phase.relocate_eq_between f).1 h.1, h.2⟩
      rw [hstep] at hstep'
      rw [List.map_cons, parseFrom, if_neg hend', hstep', parseFrom, if_neg hend, hstep]
      rfl
    | ok q =>
      obtain ⟨phase', completed⟩ := q
      rw [hstep] at hstep'
      -- what is read behind the token is moved in the same way
      cases completed with
      | none => rw [List.map_cons, parseFrom_of_step hstep', parseFrom_of_step hstep, ih]
      | some s =>
        rw [List.map_cons, parseFrom_of_step_some hstep', parseFrom_of_step_some hstep, ih]
        cases parseFrom phase' ts <;> rfl

/-! ## Texts -/

/-- The error at another place. -/
def LexError.relocate (e : LexError) : LexError :=
  ⟨e.cause, f e.location⟩

variable {f}

/-- A text that stands elsewhere is cut into the same tokens, if lines and columns are counted as
before. -/
theorem lexFrom_relocate (hf : ∀ l c, f (l.next c) = (f l).next c) (l : Location) (n : Nat)
    (cs : List Char) :
    lexFrom (f l) n cs =
      ((lexFrom l n cs).map (List.map (.relocate f))).mapError (.relocate f) := by
  induction cs generalizing l n with
  | nil => rfl
  | cons c cs ih =>
    cases n with
    | succ n =>
      rw [lexFrom, lexFrom, ← hf]
      exact ih (l.next c) n
    | zero =>
      rw [lexFrom, lexFrom, ← hf]
      split
      · exact ih (l.next c) 0
      · cases commentLength (c :: cs) with
        | succ length => exact ih (l.next c) length
        | zero =>
          cases Lexeme.scan (c :: cs) with
          | error cause => rfl
          | ok lexeme =>
            simp only [ih]
            cases lexFrom (l.next c) (lexeme.length - 1) cs <;> rfl

/-- Parsing does not look at places. -/
theorem parseTokens_relocate (ts : List Token) :
    parseTokens (ts.map (.relocate f)) =
      ((parseTokens ts).map (List.map (.relocate f))).mapError (.relocate f) := by
  have hlast : (ts.map (.relocate f)).getLast?.map Token.kind = ts.getLast?.map Token.kind := by
    rw [List.getLast?_map, Option.map_map]
    rfl
  rw [parseTokens, parseTokens, hlast]
  split
  · exact parseFrom_relocate f .between ts
  · rfl

/-- The place with the same line and column in another text. -/
def Location.inText (text : Nat) (l : Location) : Location :=
  ⟨text, l.line, l.column⟩

/-- Going on in a text stays in that text. -/
theorem Location.inText_next (text : Nat) (l : Location) (c : Char) :
    (l.next c).inText text = (l.inText text).next c := by
  unfold next
  split <;> rfl

/-- A text is read by way of its tokens. -/
theorem parse_eq_ok_iff {n : Nat} {source : String} {p : Program} :
    parse n source = .ok p ↔
      ∃ ts, tokenize n source = .ok ts ∧ parseTokens ts = .ok p.statements ∧ p.source = source := by
  unfold parse
  constructor
  · intro h
    split at h
    · cases h
    · next ts hts =>
      split at h
      · cases h
      · next ss hss =>
        cases h
        exact ⟨ts, hts, hss, rfl⟩
  · rintro ⟨ts, hts, hss, rfl⟩
    rw [hts]
    dsimp only
    rw [hss]

/-- A text is read as the same program, whichever number it has in its session. -/
theorem parse_inText {n : Nat} {source : String} {p : Program} (h : parse n source = .ok p)
    (m : Nat) :
    parse m source = .ok ⟨p.statements.map (.relocate (.inText m)), source⟩ := by
  obtain ⟨ts, hts, hss, -⟩ := parse_eq_ok_iff.1 h
  have htokens : tokenize m source = ((tokenize n source).map
      (List.map (.relocate (.inText m)))).mapError (.relocate (.inText m)) :=
    lexFrom_relocate (Location.inText_next m) (.first n) 0 source.toList
  rw [hts] at htokens
  refine parse_eq_ok_iff.2 ⟨_, htokens, ?_, rfl⟩
  rw [parseTokens_relocate, hss]
  rfl

end CallByNeed
