import CallByNeed.Proofs.FailedTexts
import CallByNeed.Proofs.Tiling
import CallByNeed.Proofs.TokenPlaces

/-!
# Where errors point to

A session keeps thunks and functions of all texts it has read, and an expression of an early text
may be evaluated while a late one is run. If it fails, the error tells the place of the expression,
which is in the early text, and shows the text that is being run.

All expressions in the store of a session were read from its texts (`Expr.ReadFrom`), and so are the
places at which evaluation can fail (`keeps_execute`). This gives the ways in which a text can end
that is run in a session (`Failure.Ordinary`).

## Main results

* `ordinary_of_runText`: a run ends with an error of the language or, if it does not reach its end,
  because of the limits or of a remainder that does not exist;
* `runtime_error_points_into_its_text`: a runtime error is about the text that is being run, but it
  points to a token of that text or of an earlier one;
* `runtime_error_points_elsewhere`: this may be a place where the text that is being run has
  nothing.
-/

namespace CallByNeed

/-- The place is that of a token in the text with its number. -/
def PointsInto (texts : List String) (l : Location) : Prop :=
  ∃ source ts, texts[l.text]? = some source ∧ tokenize l.text source = .ok ts ∧
    ∃ t ∈ ts, t.location = l

/-- All places in the expression are those of tokens in the texts. -/
def Expr.ReadFrom (texts : List String) (e : Expr) : Prop :=
  ∀ p ∈ e.places, ∃ l, p = some l ∧ PointsInto texts l

section

variable {texts : List String}

/-- The parts of what was read from texts were read from them. -/
theorem Expr.ReadFrom.children {e : Expr} (h : e.ReadFrom texts) :
    ∀ c ∈ e.children, c.ReadFrom texts :=
  fun _ hc p hp => h p (Expr.places_subset hc hp)

/-- An expression without a place was not read from any text. -/
theorem not_forall_readFrom : ¬∀ e : Expr, e.ReadFrom texts := by
  intro h
  obtain ⟨l, hl, -⟩ := h (.literal (.boolean true) none) none (by simp [Expr.places])
  cases hl

/-- The tokens of a text are in that text. -/
theorem Tiles.text_eq {text : ℕ} {before cs : List Char} {ts : List Token}
    (h : Tiles text before cs ts) : ∀ t ∈ ts, t.location.text = text := by
  induction h with
  | done => simp [Location.behind]
  | token _ _ _ _ ih => exact List.forall_mem_cons.2 ⟨rfl, ih⟩

/-- The tokens of a text have places in that text. -/
theorem text_eq_of_tokenize {text : ℕ} {source : String} {ts : List Token}
    (h : tokenize text source = .ok ts) : ∀ t ∈ ts, t.location.text = text := by
  have hfirst : Location.first text = .behind text [] := Location.after_first text []
  rw [tokenize, hfirst] at h
  exact (tiles_of_lexFrom h).text_eq

/-- What is read from one of the texts is placed in the texts. -/
theorem pointsInto_of_parse {text : ℕ} {source : String} {program : Program}
    (hsource : texts[text]? = some source) (h : parse text source = .ok program) {s : Statement}
    (hs : s ∈ program.statements) {p : Option Location} (hp : p ∈ s.places) :
    ∃ l, p = some l ∧ PointsInto texts l := by
  obtain ⟨ts, hts, t, ht, rfl⟩ := places_of_parse h (List.mem_flatMap_of_mem hs hp)
  have htext := text_eq_of_tokenize hts t ht
  exact ⟨t.location, rfl, source, ts, by rwa [htext], by rwa [htext], t, ht, rfl⟩

/-! ## How a run ends -/

/-- Tokens that end the input are read to their end, or one of them is in the way. -/
theorem parseFrom_ne_endless {phase : Phase} {ts : List Token} {last : Token}
    (hlast : last.kind = .eof) : parseFrom phase (ts ++ [last]) ≠ .error .endless := by
  induction ts generalizing phase with
  | nil =>
    obtain ⟨e, hstep⟩ := phase.step_eof hlast
    rw [List.nil_append, parseFrom, hstep]
    split <;> simp
  | cons t ts ih =>
    rw [List.cons_append, parseFrom]
    split
    · simp
    · split
      · simp
      · next phase' completed _ =>
        have hrest := @ih phase'
        cases h : parseFrom phase' (ts ++ [last]) with
        | ok => simp
        | error e =>
          rw [h] at hrest
          simpa using hrest

/-- How a text can end that is run in a session with the given texts: with an error about the text,
which points into the texts if it happened in the run; because the limits are reached; or because a
remainder does not exist. -/
inductive Failure.Ordinary (texts : List String) (source : String) : Failure → Prop where
  | lex (message : String) (l : Location) :
      Ordinary texts source (.diagnosed ⟨.lex, message, some l, some source⟩)
  | parse (message : String) (l : Location) :
      Ordinary texts source (.diagnosed ⟨.parse, message, some l, some source⟩)
  | runtime (message : String) {l : Location} : PointsInto texts l →
      Ordinary texts source (.diagnosed ⟨.runtime, message, some l, some source⟩)
  | tooDeep : Ordinary texts source .tooDeep
  | domain : Ordinary texts source (.fault .domain)

/-- A text that cannot be read ends with an error about it. -/
theorem ordinary_of_parse {text : ℕ} {source : String} {e : ReadFailure}
    (h : parse text source = .error e) :
    Failure.Ordinary texts source (.ofRead (some source) e) := by
  cases e with
  | lex e => exact .lex e.cause.message e.location
  | parse e =>
    cases e with
    | misplaced e => exact .parse e.message e.found.location
    | endless =>
      unfold parse at h
      split at h
      · cases h
      · next ts hts =>
        rw [parseTokens_of_lexFrom hts] at h
        obtain ⟨front, last, rfl, hlast, -⟩ := exists_end_of_lexFrom hts
        split at h
        · next hparse =>
          cases h
          exact absurd hparse (parseFrom_ne_endless hlast)
        · cases h

/-- A statement that was read from one of the texts stops for an ordinary reason. -/
theorem Stop.Of.ordinary {stop : Stop} {s : Statement} (h : stop.Of (Expr.ReadFrom texts) s)
    (hs : ∀ p ∈ s.places, ∃ l, p = some l ∧ PointsInto texts l) (source : String) :
    Failure.Ordinary texts source (.ofStop (some source) stop) := by
  -- an error is at the place of an expression that was read from the texts
  have herror : ∀ e : EvalError, (∃ l, e.place = some l ∧ PointsInto texts l) →
      Failure.Ordinary texts source (.ofStop (some source) (.error e)) := by
    rintro ⟨cause, place⟩ ⟨l, hl, hpoints⟩
    obtain rfl : place = some l := hl
    exact .runtime cause.message hpoints
  rcases h with hregular | ⟨x, e, place, rfl, rfl⟩
  · cases stop with
    | error e =>
      obtain ⟨e', he', hplace⟩ := hregular
      exact herror e (hplace ▸ he' _ e'.place_mem_places)
    | domain => exact .domain
    | tooDeep | outOfFuel => exact .tooDeep
    | unnamed | incomparable => exact absurd hregular not_forall_readFrom
    | refilled => exact absurd hregular not_false
  · exact herror ⟨.taken x, place⟩ (hs place List.mem_cons_self)

/-- After a text has been run all expressions were still read from the texts of the session, and if
the run failed, then in an ordinary way. -/
theorem ordinary_of_runText {text : ℕ} {source : String} (hsource : texts[text]? = some source)
    {σ : Store} (hσ : σ.Ok (Expr.ReadFrom texts)) (limits : Limits) :
    (runText limits .global text source σ).2.Ok (Expr.ReadFrom texts) ∧
      ∀ failure, (runText limits .global text source σ).1.failure = some failure →
        failure.Ordinary texts source := by
  unfold runText
  cases hparse : parse text source with
  | error e =>
    refine ⟨hσ, fun failure h => ?_⟩
    cases h
    exact ordinary_of_parse hparse
  | ok p =>
    have hplaces := fun s hs q hq => pointsInto_of_parse (s := s) (p := q) hsource hparse hs hq
    have hexpr : ∀ s ∈ p.statements, s.expr.ReadFrom texts := by
      intro s hs q hq
      cases s <;> exact hplaces _ hs q (List.mem_cons_of_mem _ hq)
    have hchildren : ∀ e : Expr, e.ReadFrom texts → ∀ c ∈ e.children, c.ReadFrom texts :=
      fun _ he => he.children
    obtain ⟨hok, -, hstop⟩ := keeps_execute hchildren (limits.forces_ok hchildren) .global
      p.statements hexpr hσ
    have hp : p.source = source := (parse_eq_ok_iff.1 hparse).choose_spec.2.2
    refine ⟨hok, fun failure h => ?_⟩
    obtain ⟨stop, hx, rfl⟩ := Option.map_eq_some_iff.1 h
    obtain ⟨s, hs, hof⟩ := hstop stop hx
    rw [hp]
    exact hof.ordinary (hplaces s hs) source

/-! ## Sessions -/

/-- After some of the texts of a session, all expressions in its store were read from them. -/
theorem Session.ok_after {earlier rest : List String} {s : Session}
    (hs : s.store.Ok (Expr.ReadFrom (earlier ++ rest))) (hearlier : s.texts = earlier.length)
    {now : List String} (hnow : now <+: rest) :
    (s.after now).store.Ok (Expr.ReadFrom (earlier ++ rest)) ∧
      (s.after now).texts = earlier.length + now.length := by
  induction now generalizing earlier rest s with
  | nil => exact ⟨hs, hearlier⟩
  | cons text now ih =>
    obtain ⟨rest, rfl⟩ := hnow
    rw [List.cons_append, List.append_cons] at hs ⊢
    have hsource : (earlier ++ [text] ++ (now ++ rest))[s.texts]? = some text := by
      simp [hearlier]
    obtain ⟨hstore, -⟩ := ordinary_of_runText hsource hs s.limits
    have hafter := @ih (earlier ++ [text]) (now ++ rest) (s.add text).2 hstore
      (by simp [Session.add, hearlier]) (List.prefix_append now rest)
    refine ⟨hafter.1, hafter.2.trans ?_⟩
    simp only [List.length_append, List.length_cons, List.length_nil]
    omega

end

/-- An error that happens while a text is run in a session is about that text. Its place is that of
a token, in the text itself or in one of those that the session has read before, whichever the
expression that failed was read from. So the place is found in the text if the expression is part of
it. -/
theorem runtime_error_points_into_its_text (limits : Limits) (texts : List String)
    (source : String) {d : Diagnostic}
    (h : (((Session.start limits).after texts).add source).1.failure = some (.diagnosed d))
    (hd : d.kind = .runtime) :
    d.source = some source ∧ ∃ l, d.location = some l ∧ PointsInto (texts ++ [source]) l ∧
      (l.text = texts.length →
        ∃ ts, tokenize l.text source = .ok ts ∧ ∃ t ∈ ts, t.location = l) := by
  have hstart : (Session.start limits).store.Ok (Expr.ReadFrom ([] ++ (texts ++ [source]))) :=
    Store.ok_empty
  obtain ⟨hstore, hcount⟩ := Session.ok_after hstart rfl (List.prefix_append texts [source])
  have hsource : (texts ++ [source])[((Session.start limits).after texts).texts]? =
      some source := by
    simp [hcount]
  have hordinary := (ordinary_of_runText hsource hstore _).2 _ h
  cases hordinary with
  | lex | parse => cases hd
  | @runtime message l hpoints =>
    refine ⟨rfl, l, rfl, hpoints, fun htext => ?_⟩
    obtain ⟨origin, ts, horigin, hts, ht⟩ := hpoints
    -- the text with the last number is the one that is being run
    obtain rfl : source = origin := by simpa [htext] using horigin
    exact ⟨ts, hts, ht⟩

/-- The first error points to the operator of the first text, while the second one is run. The other
one comes from an expression of the text that is being run, and points to a token of it. -/
theorem runtime_error_points_into_its_text_division :
    (∃ d : Diagnostic,
      (((Session.start ⟨8, 8⟩).after ["let x =\n  1 / 0;"]).add "console.log(x);").1.failure =
        some (.diagnosed d) ∧ d.kind = .runtime ∧
      d.source = some "console.log(x);" ∧
      ∃ l, d.location = some l ∧ PointsInto ["let x =\n  1 / 0;", "console.log(x);"] l) ∧
    ∃ d : Diagnostic,
      (((Session.start ⟨8, 8⟩).after ["let x = 0;"]).add "console.log(\n  1 / x);").1.failure =
        some (.diagnosed d) ∧ d.kind = .runtime ∧
      d.source = some "console.log(\n  1 / x);" ∧
      ∃ l, d.location = some l ∧ PointsInto ["let x = 0;", "console.log(\n  1 / x);"] l ∧
        l.text = 1 ∧ ∃ ts, tokenize 1 "console.log(\n  1 / x);" = .ok ts ∧
          ∃ t ∈ ts, t.location = l := by
  constructor
  · have h : (((Session.start ⟨8, 8⟩).after ["let x =\n  1 / 0;"]).add
        "console.log(x);").1.failure = some (.diagnosed
          ⟨.runtime, "Division by zero", some ⟨0, 2, 5⟩, some "console.log(x);"⟩) := by
      decide +kernel
    obtain ⟨hsource, l, hl, hpoints, -⟩ := runtime_error_points_into_its_text _ _ _ h rfl
    exact ⟨_, h, rfl, hsource, l, hl, hpoints⟩
  · have h : (((Session.start ⟨8, 8⟩).after ["let x = 0;"]).add
        "console.log(\n  1 / x);").1.failure = some (.diagnosed
          ⟨.runtime, "Division by zero", some ⟨1, 2, 5⟩, some "console.log(\n  1 / x);"⟩) := by
      decide +kernel
    obtain ⟨hsource, l, hl, hpoints, hown⟩ := runtime_error_points_into_its_text _ _ _ h rfl
    cases hl
    exact ⟨_, h, rfl, hsource, _, rfl, hpoints, rfl, hown rfl⟩

/-- An error may tell a place where the text that it is about has no token, and not even a line. -/
theorem runtime_error_points_elsewhere :
    (((Session.start ⟨8, 8⟩).after ["let x =\n  1 / 0;"]).add "console.log(x);").1.failure =
        some (.diagnosed
          ⟨.runtime, "Division by zero", some ⟨0, 2, 5⟩, some "console.log(x);"⟩) ∧
      ∃ ts, tokenize 1 "console.log(x);" = .ok ts ∧
        ∀ t ∈ ts, (t.location.line, t.location.column) ≠ (2, 5) :=
  ⟨by decide +kernel, _, rfl, by decide⟩

end CallByNeed
