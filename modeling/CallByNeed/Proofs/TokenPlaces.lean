import CallByNeed.Proofs.JoinedTexts

/-!
# Trees stand where their tokens do

The nodes of a tree carry the places they were read from. `places` collects them, for trees and for
whatever the reader has read in part. Feeding a token adds no other place than that of the token
(`Reading.places_feed`, `Phase.places_step`), so all places in a program are places of its tokens
(`places_of_parseFrom`). In particular, a tree that was read has a place at each of its nodes.
-/

namespace CallByNeed

/-- The places of all nodes of an expression. -/
def Expr.places : Expr → List (Option Location)
  | literal _ p | name _ p => [p]
  | paren e p | arrow _ e p | unary _ e p => p :: e.places
  | call f a p => p :: (f.places ++ a.places)
  | binary _ l r p => p :: (l.places ++ r.places)
  | cond c t e p => p :: (c.places ++ (t.places ++ e.places))

/-- The place of a statement and those of its expression. -/
def Statement.places : Statement → List (Option Location)
  | declare _ e p | output _ e p => p :: e.places

/-- The place of an expression is one of its places. -/
theorem Expr.place_mem_places (e : Expr) : e.place ∈ e.places := by
  cases e <;> simp [place, places]

/-- The places of a part are places of the whole. -/
theorem Expr.places_subset {e c : Expr} (h : c ∈ e.children) : c.places ⊆ e.places := by
  intro p hp
  cases e with
  | literal | name => simp [children] at h
  | paren | arrow | unary =>
    obtain rfl : c = _ := by simpa [children] using h
    simp [places, hp]
  | call | binary =>
    simp only [children, List.mem_cons, List.not_mem_nil, or_false] at h
    rcases h with rfl | rfl <;> simp [places, hp]
  | cond =>
    simp only [children, List.mem_cons, List.not_mem_nil, or_false] at h
    rcases h with rfl | rfl | rfl <;> simp [places, hp]

/-! ## Expressions that have been read in part -/

/-- The places in an expression that lacks its last operand. -/
def Trailing.places : Trailing → List (Option Location)
  | arrow _ p | unary _ p => [p]
  | binary _ l p => p :: l.places
  | alternate c t p => p :: (c.places ++ t.places)

/-- The places in a trail. -/
def trailPlaces (trail : List Trailing) : List (Option Location) :=
  trail.flatMap Trailing.places

/-- The places in what is open. -/
def Opening.places : Opening → List (Option Location)
  | group p => [p]
  | argument f p => p :: f.places
  | consequent c p => p :: c.places

/-- The places in what is open on a level, and in the trail that it interrupted. -/
def Level.places (level : Level) : List (Option Location) :=
  level.opening.places ++ trailPlaces level.trail

namespace Reading

/-- The places in what has been read of an expression. -/
def places : Reading → List (Option Location)
  | operand trail outer => trailPlaces trail ++ outer.flatMap Level.places
  | operator e trail outer => e.places ++ (trailPlaces trail ++ outer.flatMap Level.places)

/-- The places in what a reading becomes. -/
def Progress.places : Progress → List (Option Location)
  | next r => r.places
  | done e => e.places
  | stuck _ => []

end Reading

section

variable {p : Option Location}

@[simp]
theorem trailPlaces_nil : trailPlaces [] = [] :=
  rfl

@[simp]
theorem trailPlaces_cons (t : Trailing) (trail : List Trailing) :
    trailPlaces (t :: trail) = t.places ++ trailPlaces trail :=
  rfl

/-- A completed part of the trail has its own places and those of the operand. -/
theorem Trailing.mem_places_complete {t : Trailing} {e : Expr} :
    p ∈ (t.complete e).places ↔ p ∈ e.places ∨ p ∈ t.places := by
  cases t <;> simp [complete, Expr.places, places] <;> tauto

/-- Completing a trail loses no place and adds none. -/
theorem mem_places_completeAll {e : Expr} {trail : List Trailing} :
    p ∈ (completeAll e trail).places ↔ p ∈ e.places ∨ p ∈ trailPlaces trail := by
  induction trail generalizing e with
  | nil => simp [completeAll]
  | cons t trail ih =>
    have hcons : completeAll e (t :: trail) = completeAll (t.complete e) trail := rfl
    rw [hcons, ih, Trailing.mem_places_complete, trailPlaces_cons, List.mem_append, or_assoc]

/-- Nor does completing a part of it. -/
theorem mem_places_reduce {k : ℕ} {e : Expr} {trail : List Trailing} :
    p ∈ (reduce k e trail).1.places ∨ p ∈ trailPlaces (reduce k e trail).2 ↔
      p ∈ e.places ∨ p ∈ trailPlaces trail := by
  rw [← mem_places_completeAll, completeAll_reduce, mem_places_completeAll]

namespace Reading

/-- The place of a function is the place of its parameter. -/
theorem mem_places_of_parameter? {e : Expr} {x : String} (h : parameter? e = some (x, p)) :
    p ∈ e.places := by
  unfold parameter? at h
  split at h
  · cases h
    exact List.mem_cons_self
  · cases h
    exact List.mem_cons_self
  · cases h

/-- An operand that nothing follows keeps its places. -/
theorem places_leave {e : Expr} {trail : List Trailing} {outer : List Level}
    (h : p ∈ (leave e trail outer).places) : p ∈ (operator e trail outer).places := by
  cases outer with
  | nil =>
    have hall := mem_places_completeAll.1 h
    simpa [places] using hall
  | cons level outer => simp [leave, Progress.places] at h

/-- A token at which an operand is due adds its own place only. -/
theorem places_feedOperand {trail : List Trailing} {outer : List Level} {t : Token}
    (h : p ∈ (feedOperand trail outer t).places) :
    p ∈ (operand trail outer).places ∨ p = some t.location := by
  unfold feedOperand at h
  split at h
  case h_7 =>
    -- any other symbol is an operator before its operand, or it cannot stand here
    split at h
    · simp only [Progress.places, places, trailPlaces_cons, Trailing.places, List.mem_append,
        List.mem_singleton] at h ⊢
      tauto
    · simp [Progress.places] at h
  case h_8 => simp [Progress.places] at h
  all_goals
    simp only [Progress.places, places, Expr.places, List.flatMap_cons, Level.places,
      Opening.places, trailPlaces_nil, List.nil_append, List.mem_append, List.mem_singleton] at h ⊢
    tauto

/-- A token that follows an operand adds its own place only. -/
theorem places_feedOperator {e : Expr} {trail : List Trailing} {outer : List Level} {t : Token}
    (h : p ∈ (feedOperator e trail outer t).places) :
    p ∈ (operator e trail outer).places ∨ p = some t.location := by
  have hleave : p ∈ (leave e trail outer).places →
      p ∈ (operator e trail outer).places ∨ p = some t.location :=
    fun h => .inl (places_leave h)
  unfold feedOperator at h
  split at h
  case h_1 =>
    simp only [Progress.places, places, List.flatMap_cons, Level.places, Opening.places,
      trailPlaces_nil, List.nil_append, List.mem_append, List.mem_cons] at h ⊢
    tauto
  case h_2 =>
    -- a closing parenthesis completes the whole trail of its group or argument
    split at h
    · simp only [Progress.places, places, Expr.places, List.flatMap_cons, Level.places,
        Opening.places, mem_places_completeAll, List.mem_append, List.mem_cons,
        List.not_mem_nil] at h ⊢
      tauto
    · simp only [Progress.places, places, Expr.places, List.flatMap_cons, Level.places,
        Opening.places, mem_places_completeAll, List.mem_append, List.mem_cons] at h ⊢
      tauto
    · exact hleave h
  case h_3 =>
    have hreduce : p ∈ (reduce 1 e trail).1.places ∨ p ∈ trailPlaces (reduce 1 e trail).2 ↔ _ :=
      mem_places_reduce
    simp only [Progress.places, places, List.flatMap_cons, Level.places, Opening.places,
      trailPlaces_nil, List.nil_append, List.mem_append, List.mem_cons] at h ⊢
    tauto
  case h_4 =>
    split at h
    · simp only [Progress.places, places, List.flatMap_cons, Level.places, Opening.places,
        trailPlaces_cons, Trailing.places, mem_places_completeAll, List.mem_append,
        List.mem_cons] at h ⊢
      tauto
    · exact hleave h
  case h_5 =>
    split at h
    · next x q heq =>
      have hparameter := mem_places_of_parameter? heq
      simp only [Progress.places, places, trailPlaces_cons, Trailing.places, List.mem_append,
        List.mem_singleton] at h ⊢
      rcases h with (rfl | h) | h <;> tauto
    · exact hleave h
  case h_6 =>
    split at h
    · next op heq =>
      have hreduce : p ∈ (reduce op.precedence e trail).1.places ∨
          p ∈ trailPlaces (reduce op.precedence e trail).2 ↔ _ := mem_places_reduce
      simp only [Progress.places, places, trailPlaces_cons, Trailing.places, List.mem_append,
        List.mem_cons] at h ⊢
      tauto
    · exact hleave h
  case h_7 => exact hleave h

/-- Whatever a reading becomes, its places were there before, except for that of the token. -/
theorem places_feed {r : Reading} {t : Token} (h : p ∈ (r.feed t).places) :
    p ∈ r.places ∨ p = some t.location := by
  cases r with
  | operand trail outer => exact places_feedOperand h
  | operator e trail outer => exact places_feedOperator h

end Reading

/-! ## Programs -/

/-- The places in what has been read of a statement. -/
def Phase.places : Phase → List (Option Location)
  | between => []
  | letWord p | letName _ p | outputWord _ p => [p]
  | within _ p r => p :: r.places
  | outputClosed _ e p => p :: e.places

/-- A token adds its own place only, to what goes on or to the statement that it completes. -/
theorem Phase.places_step {phase phase' : Phase} {t : Token} {completed : Option Statement}
    (hstep : phase.step t = .ok (phase', completed))
    (h : p ∈ phase'.places ++ completed.toList.flatMap Statement.places) :
    p ∈ phase.places ∨ p = some t.location := by
  cases phase with
  | between =>
    simp only [step] at hstep
    split at hstep
    case h_4 => cases hstep
    all_goals
      cases hstep
      simpa [places] using h
  | letWord q =>
    simp only [step] at hstep
    split at hstep
    · cases hstep
      exact .inl (by simpa [places] using h)
    · cases hstep
  | letName x q | outputWord o q =>
    simp only [step] at hstep
    split at hstep
    · cases hstep
      exact .inl (by simpa [places, Reading.places, Reading.start] using h)
    · cases hstep
  | within goal q r =>
    have hfeed := @Reading.places_feed p r t
    simp only [step] at hstep
    cases hr : r.feed t with
    | next r' =>
      rw [hr] at hstep hfeed
      cases hstep
      simp only [places, Option.toList_none, List.flatMap_nil, List.append_nil,
        List.mem_cons] at h ⊢
      rcases h with h | h
      · exact .inl (.inl h)
      · exact (hfeed h).imp_left .inr
    | stuck x =>
      rw [hr] at hstep
      cases hstep
    | done e =>
      rw [hr] at hstep hfeed
      -- the expression is complete, and so is a declaration
      have hplaces : p = q ∨ p ∈ e.places := by
        cases goal with
        | declare x =>
          dsimp only at hstep
          split at hstep
          · cases hstep
            simpa [places, Statement.places] using h
          · cases hstep
        | output o =>
          dsimp only at hstep
          split at hstep
          · cases hstep
            simpa [places] using h
          · cases hstep
      rcases hplaces with rfl | hplaces
      · exact .inl List.mem_cons_self
      · exact (hfeed hplaces).imp_left (List.mem_cons_of_mem q)
  | outputClosed o e q =>
    simp only [step] at hstep
    split at hstep
    · cases hstep
      exact .inl (by simpa [places, Statement.places] using h)
    · cases hstep

/-- The places in a program are places of its tokens. -/
theorem places_of_parseFrom {phase : Phase} {ts : List Token} {ss : List Statement}
    (h : parseFrom phase ts = .ok ss) (hp : p ∈ ss.flatMap Statement.places) :
    p ∈ phase.places ∨ ∃ t ∈ ts, p = some t.location := by
  induction ts generalizing phase ss with
  | nil => cases h
  | cons t ts ih =>
    rw [parseFrom] at h
    split at h
    · cases h
      simp at hp
    cases hstep : phase.step t with
    | error e =>
      rw [hstep] at h
      cases h
    | ok result =>
      obtain ⟨phase', completed⟩ := result
      rw [hstep] at h
      dsimp only at h
      cases hrest : parseFrom phase' ts with
      | error e =>
        rw [hrest] at h
        cases h
      | ok ss' =>
        rw [hrest] at h
        cases h
        rw [List.flatMap_append, List.mem_append] at hp
        -- the place is that of this token, or it was in the phase before or after it
        have hthis : p ∈ phase'.places ++ completed.toList.flatMap Statement.places →
            p ∈ phase.places ∨ ∃ u ∈ t :: ts, p = some u.location :=
          fun h => (Phase.places_step hstep h).imp_right fun h => ⟨t, List.mem_cons_self, h⟩
        rcases hp with hp | hp
        · exact hthis (List.mem_append_right _ hp)
        · rcases ih hrest hp with hp | ⟨u, hu, hp⟩
          · exact hthis (List.mem_append_left _ hp)
          · exact .inr ⟨u, List.mem_cons_of_mem t hu, hp⟩

/-- The places in a program that was read from a text are places of the text's tokens. -/
theorem places_of_parse {text : ℕ} {source : String} {program : Program}
    (h : parse text source = .ok program)
    (hp : p ∈ program.statements.flatMap Statement.places) :
    ∃ ts, tokenize text source = .ok ts ∧ ∃ t ∈ ts, p = some t.location := by
  obtain ⟨ts, hts, hss, -⟩ := parse_eq_ok_iff.1 h
  rw [parseTokens_of_lexFrom hts] at hss
  rcases places_of_parseFrom hss hp with hp | hp
  · simp [Phase.places] at hp
  · exact ⟨ts, hts, hp⟩

end

end CallByNeed
