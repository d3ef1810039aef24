import CallByNeed.Proofs.RoundTrip
import CallByNeed.Proofs.SessionPieces

/-!
# A printed program does what the program does

A program that was read from a text can be printed, and if its numbers are plain, the printed text
is read again. Running that text delivers the same outputs, leaves the same names with the same
thunks forced, and ends in the same way (`printing_preserves_run`).

The statements that are read from the printed text stand at other places, and they have other
parentheses: those that the printer puts. Apart from that they are the statements of the program
(`Expr.bare_printed`). Evaluation and expansion look through parentheses, and so both runs go in
tandem, with the liberty to differ in layout (`Liberty.layout`).

The printer does not write the sign of a zero. That loses nothing here, because no token has a
sign, and each number of a tree is the number of a token (`Grammar.Reads.number_mem`).
-/

namespace CallByNeed

/-! ## Trees without layout -/

namespace Expr

/-- Without parentheses and places, places do not matter. -/
theorem bare_unplaced (e : Expr) : e.unplaced.bare = e.bare := by
  induction e <;> simp_all [unplaced, bare]

/-- Without parentheses and places, parentheses do not matter. -/
@[simp]
theorem bare_wrap (wanted : Bool) (e : Expr) : (e.wrap wanted).bare = e.bare := by
  cases wanted <;> rfl

/-- The printed tree has other parentheses and no places, and is the same otherwise. -/
theorem bare_printed {e : Expr} (h : ∀ x ∈ e.numbers, Number.unsigned x = x) :
    e.printed.bare = e.bare := by
  induction e with
  | literal c p =>
    cases c with
    | number x =>
      -- the printer drops the sign of a zero, so there must not be one
      simp [printed, bare, Constant.unsigned, h x List.mem_cons_self]
    | string | boolean => rfl
  | name => rfl
  | _ => simp_all [printed, bare, numbers]

end Expr

/-- Places and parentheses may be any. Parameters are the same. -/
def Liberty.layout : Liberty :=
  ⟨fun _ _ => True, Eq, True, fun _ => trivial, fun _ => rfl, fun _ _ _ => trivial⟩

/-- Expressions that are the same without places and parentheses are variants of each other. -/
theorem Expr.variant_of_bare_eq {e e' : Expr} (h : e.bare = e'.bare) {ρ : List (String × String)}
    (hρ : ∀ q ∈ ρ, q.1 = q.2) : e.Variant .layout ρ e' := by
  -- in each case the parentheses around the second expression are opened first, one after the
  -- other; what is inside of them has the form of the first expression
  induction e generalizing e' ρ with
  | paren e p ih => exact .opened p trivial (ih h hρ)
  | literal c p =>
    induction e' with
    | paren e' p' ih' => exact .enclosed p' trivial (ih' h)
    | literal c' p' =>
      obtain ⟨rfl, -⟩ := literal.inj h
      exact .literal c trivial
    | _ => cases h
  | name x p =>
    induction e' with
    | paren e' p' ih' => exact .enclosed p' trivial (ih' h)
    | name x' p' =>
      obtain ⟨rfl, -⟩ := name.inj h
      exact .name trivial (.refl hρ x)
    | _ => cases h
  | arrow x e p ih =>
    induction e' with
    | paren e' p' ih' => exact .enclosed p' trivial (ih' h)
    | arrow x' e' p' =>
      obtain ⟨rfl, he, -⟩ := arrow.inj h
      exact .arrow trivial rfl (ih he (List.forall_mem_cons.2 ⟨rfl, hρ⟩))
    | _ => cases h
  | call f a p ihf iha =>
    induction e' with
    | paren e' p' ih' => exact .enclosed p' trivial (ih' h)
    | call f' a' p' =>
      obtain ⟨hf, ha, -⟩ := call.inj h
      exact .call trivial (ihf hf hρ) (iha ha hρ)
    | _ => cases h
  | unary op e p ih =>
    induction e' with
    | paren e' p' ih' => exact .enclosed p' trivial (ih' h)
    | unary op' e' p' =>
      obtain ⟨rfl, he, -⟩ := unary.inj h
      exact .unary op trivial (ih he hρ)
    | _ => cases h
  | binary op l r p ihl ihr =>
    induction e' with
    | paren e' p' ih' => exact .enclosed p' trivial (ih' h)
    | binary op' l' r' p' =>
      obtain ⟨rfl, hl, hr, -⟩ := binary.inj h
      exact .binary op trivial (ihl hl hρ) (ihr hr hρ)
    | _ => cases h
  | cond c t e p ihc iht ihe =>
    induction e' with
    | paren e' p' ih' => exact .enclosed p' trivial (ih' h)
    | cond c' t' e' p' =>
      obtain ⟨hc, ht, he, -⟩ := cond.inj h
      exact .cond trivial (ihc hc hρ) (iht ht hρ) (ihe he hρ)
    | _ => cases h

/-- A statement that differs from the printed one in places only is a variant of the statement that
was printed. -/
theorem Statement.variant_of_printed {s s' : Statement}
    (hs : ∀ x ∈ s.expr.numbers, Number.unsigned x = x) (h : s'.unplaced = s.printed.unplaced) :
    s.Variant .layout s' := by
  have hexpr : ∀ {e e' : Expr}, (∀ x ∈ e.numbers, Number.unsigned x = x) →
      e'.unplaced = e.printed.unplaced → e.Variant .layout [] e' := by
    intro e e' he hsame
    apply Expr.variant_of_bare_eq ?_ (by simp)
    rw [← Expr.bare_unplaced e', hsame, Expr.bare_unplaced, Expr.bare_printed he]
  cases s with
  | declare x e p =>
    cases s' with
    | declare x' e' p' =>
      obtain ⟨rfl, he, -⟩ := declare.inj h
      exact .declare x' trivial (hexpr hs he)
    | output => cases h
  | output o e p =>
    cases s' with
    | declare => cases h
    | output o' e' p' =>
      obtain ⟨rfl, he, -⟩ := output.inj h
      cases o' with
      | value => exact .value trivial (hexpr hs he)
      | expansion => exact .expansion (fun _ _ h => h) trivial (hexpr hs he)

/-- Statements that are read from a printed text are variants of those that were printed. -/
theorem variants_of_printed {ss ss' : List Statement}
    (hss : ∀ s ∈ ss, ∀ x ∈ s.expr.numbers, Number.unsigned x = x)
    (h : List.Forall₂ (fun s' s => s'.unplaced = s.printed.unplaced) ss' ss) :
    List.Forall₂ (Statement.Variant .layout) ss ss' := by
  induction h with
  | nil => exact .nil
  | cons hs _ ih =>
    exact .cons (Statement.variant_of_printed (hss _ List.mem_cons_self) hs)
      (ih fun s hs => hss s (List.mem_cons_of_mem _ hs))

/-! ## Numbers that were read -/

namespace Grammar

/-- Each number of a tree is the number of one of its tokens. -/
theorem Reads.number_mem {n : Nonterminal} {e : Expr} {ks after : List TokenKind}
    (h : Reads n e ks after) {x : Float} (hx : x ∈ e.numbers) : .number x ∈ ks := by
  induction h with
  | literal c p =>
    cases c with
    | number y =>
      obtain rfl := List.mem_singleton.1 hx
      exact List.mem_cons_self
    | string | boolean => cases hx
  | name => cases hx
  | arrow p _ _ _ ih => exact List.mem_append_right _ (ih hx)
  | conditional p _ _ _ ihc iht ihe =>
    simp only [Expr.numbers, List.mem_append] at hx
    rcases hx with hx | hx | hx
    · simp [ihc hx]
    · simp [iht hx]
    · simp [ihe hx]
  | operation op p _ _ ihl ihr =>
    rcases List.mem_append.1 hx with hx | hx
    · simp [ihl hx]
    · simp [ihr hx]
  | call p _ _ ihf iha =>
    rcases List.mem_append.1 hx with hx | hx
    · simp [ihf hx]
    · simp [iha hx]
  | unary op p _ ih => exact List.mem_cons_of_mem _ (ih hx)
  | group p _ ih => simp [ih hx]
  | plain _ ih | single _ ih | applied _ ih | callee _ ih => exact ih hx

/-- The numbers of a program are among its tokens. -/
theorem ReadsProgram.number_mem {ss : List Statement} {ks : List TokenKind}
    (h : ReadsProgram ss ks) {s : Statement} (hs : s ∈ ss) {x : Float}
    (hx : x ∈ s.expr.numbers) : .number x ∈ ks := by
  induction h with
  | nil => cases hs
  | declare y p he _ ih | output o p he _ ih =>
    rcases List.mem_cons.1 hs with rfl | hs
    · simp [he.number_mem hx]
    · simp [ih hs]

end Grammar

/-- No number that was read from a text has a sign, not even a zero. -/
theorem Program.unsigned_of_parse {text : ℕ} {source : String} {p : Program}
    (h : parse text source = .ok p) {s : Statement} (hs : s ∈ p.statements) :
    ∀ x ∈ s.expr.numbers, Number.unsigned x = x := by
  intro x hx
  obtain ⟨ts, front, hts, ⟨last, rfl, -⟩, hreads⟩ := readsProgram_of_parse h
  obtain ⟨t, ht, hkind⟩ := List.mem_map.1 (hreads.number_mem hs hx)
  -- the token was made from decimal digits
  have hsound := sound_of_lexFrom hts t (List.mem_append_left _ ht)
  rw [hkind] at hsound
  obtain ⟨d, rfl⟩ := hsound
  exact Number.unsigned_toFloat d

/-! ## What is to be seen of a run -/

/-- What is to be seen of the content of an object. Of a function these are its parameter and the
text of its body. -/
inductive Appearance where
  | plain (c : Content)
  | function (parameter body : String)
deriving DecidableEq

/-- How the content of an object looks. -/
def Content.appearance : Content → Appearance
  | function x body _ => .function x body.render
  | c => .plain c

/-- The names of the top level, each with whether its thunk has been forced. -/
def Store.forcedNames (σ : Store) : List (String × Bool) :=
  (σ.frame 0).map fun b => (b.1, (b.2.result? σ).isSome)

section

variable {L : Liberty} {σ τ : Store}

/-- Functions that are twins have bodies that are printed alike. -/
theorem Object.Twins.appearance_eq (hL : ∀ x y, L.parameter x y → x = y) {o o' : Object}
    (h : o.Twins L σ τ o') : o.content.appearance = o'.content.appearance := by
  cases h with
  | plain => rfl
  | @function i x x' body body' env ρ hx henv hbody =>
    obtain rfl := hL x x' hx
    have hbare : body.bare = body'.bare :=
      hbody.bare_eq hL (List.forall_mem_cons.2 ⟨rfl, henv.eq hL⟩)
    show Appearance.function x body.render = .function x body'.render
    rw [← Expr.render_bare body, hbare, Expr.render_bare]

/-- Runs that are twins output what looks the same. -/
theorem Outcome.Twins.appearance_eq (hL : ∀ x y, L.parameter x y → x = y) {r r' : Outcome}
    (h : r.Twins L r') :
    r.outputs.map (·.content.appearance) = r'.outputs.map (·.content.appearance) := by
  rw [← List.forall₂_eq_eq_eq, List.forall₂_map_left_iff, List.forall₂_map_right_iff]
  apply h.outputs.imp
  rintro o o' ⟨σ, τ, ho⟩
  exact ho.appearance_eq hL

/-- The same thunks have been forced in both stores. -/
theorem Store.Twins.forcedNames_eq (h : σ.Twins L τ) : σ.forcedNames = τ.forcedNames := by
  rw [forcedNames, forcedNames, ← h.top]
  apply List.map_congr_left
  rintro ⟨x, v⟩ -
  -- the name is bound to the same thunk in both stores, and that has a result in both or in none
  cases v with
  | object o => rfl
  | thunk a => simp only [Value.result?, (h.cell a).isSome_memo]

end

/-! ## Running the printed text -/

/-- A text that can be read is run as its program. -/
theorem runText_of_parse {text : ℕ} {source : String} {p : Program}
    (h : parse text source = .ok p) (limits : Limits) (env : Env) (σ : Store) :
    runText limits env text source σ = p.run limits env σ := by
  rw [runText, h]

/-- If a text is read as a program whose numbers are all plain, then running the printed program
does what running the text does. The outputs look the same, the same names are declared and the same
of them have been forced, and the run ends in the same way: if it fails, then with an error of the
same kind and with the same message. -/
theorem printing_preserves_run (limits : Limits) {text : ℕ} {source : String} {p : Program}
    (hp : parse text source = .ok p) (hplain : ∀ x ∈ p.numbers, Number.Plain x) (text' : ℕ) :
    let run := runText limits .global text source .empty
    let printed := runText limits .global text' p.render .empty
    printed.1.outputs.map (·.content.appearance) = run.1.outputs.map (·.content.appearance) ∧
      printed.2.forcedNames = run.2.forcedNames ∧
      printed.1.failure.map Failure.unplaced = run.1.failure.map Failure.unplaced := by
  intro run printed
  obtain ⟨ss, hss, hall⟩ :=
    Program.exists_parse_render text' (Program.wellFormed_of_parse hp) hplain
  have hrun : run = p.run limits .global .empty := runText_of_parse hp _ _ _
  have hprinted : printed = Program.run limits .global ⟨ss, p.render⟩ .empty :=
    runText_of_parse hss _ _ _
  -- the statements of both programs differ in layout only
  have hvariants := variants_of_printed (fun s hs => Program.unsigned_of_parse hp hs) hall
  have htwins := (Store.rooted_empty.twins .layout).execute limits.fuel limits.depth hvariants
  rw [hrun, hprinted]
  have hL : ∀ x y, Liberty.layout.parameter x y → x = y := fun _ _ h => h
  exact ⟨(htwins.appearance_eq hL).symm, htwins.store.forcedNames_eq.symm,
    (htwins.failure_eq _ _).symm⟩

/-- Most of the parentheses in the text are needless, and the printed program does without them. It
outputs the same truth value, function and expansion, it forces the one name and not the other, and
it fails in the same way, although elsewhere. -/
theorem printing_preserves_run_parentheses :
    let source := "let f = x => ((x) < 1); let b = ((f) || true); " ++
      "console.log((f)(0)); console.log((f)); inspect.expanded((b) && b); console.log((t));"
    let run := runText ⟨9, 9⟩ .global 0 source .empty
    ∃ p, parse 0 source = .ok p ∧ (∀ x ∈ p.numbers, Number.Plain x) ∧
      p.render = "let f = x => x < 1;\nlet b = f || true;\n" ++
        "console.log(f(0));\nconsole.log(f);\ninspect.expanded(b && b);\nconsole.log(t);" ∧
      run.1.outputs.map (·.content.appearance) = [.plain (.boolean true), .function "x" "x < 1",
        .plain (.string "(f || true) && (f || true)")] ∧
      run.2.forcedNames = [("b", false), ("f", true)] ∧
      run.1.failure.map Failure.unplaced =
        some (.diagnosed ⟨.runtime, "Undefined variable: t", none, none⟩) ∧
      let printed := runText ⟨9, 9⟩ .global 1 p.render .empty
      printed.1.outputs.map (·.content.appearance) = run.1.outputs.map (·.content.appearance) ∧
        printed.2.forcedNames = run.2.forcedNames ∧
        printed.1.failure.map Failure.unplaced = run.1.failure.map Failure.unplaced := by
  intro source run
  have hread : (parse 0 source).toOption.map (fun p => (p.render, p.numbers)) =
      some ("let f = x => x < 1;\nlet b = f || true;\n" ++
        "console.log(f(0));\nconsole.log(f);\ninspect.expanded(b && b);\nconsole.log(t);",
        [1, 0]) := by
    decide +kernel
  have hrun : run.1.outputs.map (·.content.appearance) = [.plain (.boolean true),
        .function "x" "x < 1", .plain (.string "(f || true) && (f || true)")] ∧
      run.2.forcedNames = [("b", false), ("f", true)] ∧
      run.1.failure.map Failure.unplaced =
        some (.diagnosed ⟨.runtime, "Undefined variable: t", none, none⟩) := by
    decide +kernel
  cases hp : parse 0 source with
  | error e =>
    rw [hp] at hread
    cases hread
  | ok p =>
    rw [hp] at hread
    injection hread with hpair
    injection hpair with hrender hnumbers
    have hplain : ∀ x ∈ p.numbers, Number.Plain x := by
      rw [hnumbers]
      decide +kernel
    -- with the text at hand, Lean would run it once more to compare both runs
    clear_value source
    have hsame := printing_preserves_run ⟨9, 9⟩ hp hplain 1
    exact ⟨p, rfl, hplain, hrender, hrun.1, hrun.2.1, hrun.2.2, hsame⟩

end CallByNeed
