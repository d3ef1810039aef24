import CallByNeed.Proofs.ParenthesisCount

/-!
# Printed parentheses are needed

Without a pair of parentheses that the printer puts around something other than a function, the text
of a program is not read as the program any more (`printed_parentheses_needed`).

The text that is left opens one parenthesis less than the printer puts in the program
(`fewerWithout_pairsIn`), and whatever is read from it has no more pairs than that and needs no more
(`Program.neededTotal_le_of_parse`). A program alike to the printed one would need as many.
-/

namespace CallByNeed

open Grammar

/-! ## Counting parentheses in texts -/

/-- The text is cut into tokens that open at most `n` parentheses, whatever follows, and that start
like a function if it is one. -/
def Opens (function : Bool) (text : String) (n : ℕ) : Prop :=
  ∃ ks, Prints text.toList ks ∧ (function = true → ∀ rest, startsFunction (ks ++ rest) = true) ∧
    ∀ rest, openings true (ks ++ rest) ≤ n + openings false rest

/-- The text is cut into tokens that open at most `n` parentheses, whatever statements follow. -/
def LineOpens (text : String) (n : ℕ) : Prop :=
  ∃ ks, (∀ {rest : List Char} {ks' : List TokenKind}, LexesTo rest ks' →
      LexesTo (text.toList ++ rest) (ks ++ ks')) ∧
    ∀ rest, openings true (ks ++ rest) ≤ n + openings true rest

/-- The text is cut into tokens that open at most `n` parentheses, with nothing behind them. -/
def LinesOpen (text : String) (n : ℕ) : Prop :=
  ∃ ks, LexesTo text.toList (ks ++ [.eof]) ∧ openings true ks ≤ n

namespace Opens

variable {t u v : String} {f g : Bool} {n m k : ℕ}

/-- How a text starts matters only if it is put in parentheses. -/
theorem weaken (h : Opens f t n) : Opens false t n := by
  obtain ⟨ks, hprints, -, hle⟩ := h
  exact ⟨ks, hprints, by simp, hle⟩

/-- Parentheses that are wanted open one more, unless a function stands in them. -/
theorem parenthesize (wanted : Bool) (h : Opens f t n) :
    Opens false (CallByNeed.parenthesize wanted t) ((if wanted && !f then 1 else 0) + n) := by
  cases wanted with
  | false => simpa [CallByNeed.parenthesize] using h.weaken
  | true =>
    obtain ⟨ks, hprints, hstarts, hle⟩ := h
    refine ⟨_, hprints.parenthesize true, by simp, fun rest => ?_⟩
    have hinner := hle (.symbol .rightParen :: rest)
    have hopened : (if startsFunction (ks ++ .symbol .rightParen :: rest) then 0 else 1) ≤
        if !f then 1 else 0 := by
      cases f with
      | true => simp [hstarts rfl]
      | false => exact ite_le_one (Nat.zero_le 1) le_rfl
    have hclose : openings false (.symbol .rightParen :: rest) = openings false rest := by simp
    rw [hclose] at hinner
    simp only [if_true, List.cons_append, List.append_assoc, List.nil_append, openings_group,
      Bool.true_and]
    omega

/-- A function opens what its body opens. -/
theorem arrow {x : String} (hx : IsName x) (h : Opens f t n) : Opens true (x ++ " => " ++ t) n := by
  obtain ⟨ks, hprints, -, hle⟩ := h
  refine ⟨.identifier x :: .symbol .arrow :: ks, ?_, fun _ _ => rfl, fun rest => ?_⟩
  · simpa using hprints.arrow hx
  · simpa using hle rest

/-- A call opens what its callee and its argument open, but its own parenthesis does not count. -/
theorem call (hf : Opens f t n) (ha : Opens g u m) :
    Opens false (t ++ "(" ++ u ++ ")") (n + m) := by
  obtain ⟨ks, hks, -, hkle⟩ := hf
  obtain ⟨us, hus, -, hule⟩ := ha
  refine ⟨ks ++ .symbol .leftParen :: us ++ [.symbol .rightParen], ?_, by simp, fun rest => ?_⟩
  · simpa using hks.call hus
  · have hcallee := hkle (.symbol .leftParen :: (us ++ .symbol .rightParen :: rest))
    have hargument := hule (.symbol .rightParen :: rest)
    simp at hcallee hargument ⊢
    omega

/-- An operator before its operand opens what the operand opens. -/
theorem unary (op : UnaryOp) (h : Opens f t n) : Opens false (op.text ++ t) n := by
  obtain ⟨ks, hprints, -, hle⟩ := h
  refine ⟨.symbol op.symbol :: ks, ?_, by simp, fun rest => ?_⟩
  · simpa using hprints.unary op
  · simpa using hle rest

/-- An operator opens what its operands open. -/
theorem binary (op : BinaryOp) (hl : Opens f t n) (hr : Opens g u m) :
    Opens false (t ++ " " ++ op.text ++ " " ++ u) (n + m) := by
  obtain ⟨ks, hks, -, hkle⟩ := hl
  obtain ⟨us, hus, -, hule⟩ := hr
  refine ⟨ks ++ .symbol op.symbol :: us, ?_, by simp, fun rest => ?_⟩
  · simpa using hks.binary op hus
  · have hleft := hkle (.symbol op.symbol :: (us ++ rest))
    have hright := hule rest
    simp at hleft hright ⊢
    omega

/-- A conditional opens what its parts open. -/
theorem cond {b : Bool} (hc : Opens f t n) (ht : Opens g u m) (he : Opens b v k) :
    Opens false (t ++ " ? " ++ u ++ " : " ++ v) (n + (m + k)) := by
  obtain ⟨ks, hks, -, hkle⟩ := hc
  obtain ⟨us, hus, -, hule⟩ := ht
  obtain ⟨vs, hvs, -, hvle⟩ := he
  refine ⟨ks ++ .symbol .question :: us ++ .symbol .colon :: vs, ?_, by simp, fun rest => ?_⟩
  · simpa using hks.cond hus hvs
  · have hcondition := hkle (.symbol .question :: (us ++ .symbol .colon :: (vs ++ rest)))
    have hthen := hule (.symbol .colon :: (vs ++ rest))
    have helse := hvle rest
    simp at hcondition hthen helse ⊢
    omega

/-- A declaration opens what its expression opens. -/
theorem declare {x : String} (hx : IsName x) (h : Opens f t n) :
    LineOpens ("let " ++ x ++ " = " ++ t ++ ";") n := by
  obtain ⟨ks, hprints, -, hle⟩ := h
  refine ⟨.symbol .let_ :: .identifier x :: .symbol .assign :: ks ++ [.symbol .semicolon],
    fun hrest => ?_, fun rest => ?_⟩
  · simpa using hprints.declare hx hrest
  · simpa using hle (.symbol .semicolon :: rest)

/-- An output statement opens what its expression opens, but its own parenthesis does not count. -/
theorem output (o : Output) (h : Opens f t n) :
    LineOpens (o.keyword ++ "(" ++ t ++ ");") n := by
  obtain ⟨ks, hprints, -, hle⟩ := h
  refine ⟨.symbol o.symbol :: .symbol .leftParen :: ks ++ [.symbol .rightParen, .symbol .semicolon],
    fun hrest => ?_, fun rest => ?_⟩
  · simpa using hprints.output o hrest
  · simpa using hle (.symbol .rightParen :: .symbol .semicolon :: rest)

end Opens

namespace LineOpens

variable {t u : String} {n m : ℕ}

/-- The last line opens what it opens by itself. -/
theorem last (h : LineOpens t n) : LinesOpen t n := by
  obtain ⟨ks, hlex, hle⟩ := h
  exact ⟨ks, by simpa using hlex .nil, by simpa [openings] using hle []⟩

/-- A line and those behind it open what they open together. -/
theorem cons (h : LineOpens t n) (hrest : LinesOpen u m) : LinesOpen (t ++ "\n" ++ u) (n + m) := by
  obtain ⟨ks, hlex, hle⟩ := h
  obtain ⟨us, hlexs, hles⟩ := hrest
  refine ⟨ks ++ us, ?_, (hle us).trans (by omega)⟩
  simpa using hlex (hlexs.blank (c := '\n') rfl)

end LineOpens

namespace Expr

/-- The text of an expression opens as many parentheses as the printer puts in it, functions
apart. -/
theorem opens_render {e : Expr} (he : e.WellFormed) (hplain : ∀ x ∈ e.numbers, Number.Plain x) :
    Opens e.isFunction e.render (neededIn e.pairs) := by
  induction e with
  | literal c p =>
    obtain ⟨ks, hprints, -, hspells⟩ := Constant.printsAs he
    cases hspells (unplainCount_eq_zero.2 hplain)
    exact ⟨_, hprints, by simp [isFunction], by simp⟩
  | name x p => exact ⟨_, Prints.name he, by simp [isFunction], by simp⟩
  | paren e p ih => exact ih he hplain
  | arrow x e p ih => simpa [render, pairs, isFunction] using (ih he.2 hplain).arrow he.1
  | call f a p ihf iha =>
    obtain ⟨hf, ha⟩ := List.forall_mem_append.1 hplain
    simpa [render, pairs, isFunction] using
      ((ihf he.1 hf).parenthesize (f.precedence < 8)).call (iha he.2 ha)
  | unary op e p ih =>
    simpa [render, pairs, isFunction] using
      ((ih he hplain).parenthesize (e.precedence < 7)).unary op
  | binary op l r p ihl ihr =>
    obtain ⟨hl, hr⟩ := List.forall_mem_append.1 hplain
    simpa [render, pairs, isFunction] using
      ((ihl he.1 hl).parenthesize (l.precedence < op.precedence)).binary op
        ((ihr he.2 hr).parenthesize (r.precedence ≤ op.precedence))
  | cond c t e p ihc iht ihe =>
    obtain ⟨hc, hbranches⟩ := List.forall_mem_append.1 hplain
    obtain ⟨ht, hplain⟩ := List.forall_mem_append.1 hbranches
    simpa [render, pairs, isFunction] using
      ((ihc he.1 hc).parenthesize (c.precedence ≤ 0)).cond (iht he.2.1 ht) (ihe he.2.2 hplain)

end Expr

/-! ## The text without a pair -/

/-- Without any one of the pairs around what is no function, the text opens fewer than `n`
parentheses, in the sense of `opens`. -/
def FewerWithout (opens : String → ℕ → Prop) (pairs : List PrintedPair) (n : ℕ) : Prop :=
  ∀ pair ∈ pairs, pair.inner.isFunction = false → ∃ m < n, opens pair.removed m

namespace FewerWithout

variable {opens opens' : String → ℕ → Prop} {pairs pairs' : List PrintedPair} {n : ℕ}

/-- There is no pair to leave out. -/
theorem nil : FewerWithout opens [] n := by
  simp [FewerWithout]

/-- Pairs of two parts may be left out in either. -/
theorem append (h : FewerWithout opens pairs n) (h' : FewerWithout opens pairs' n) :
    FewerWithout opens (pairs ++ pairs') n :=
  List.forall_mem_append.2 ⟨h, h'⟩

/-- The text around a pair opens as many parentheses with the pair as without it. -/
theorem within {before after : String} (h : FewerWithout opens pairs n) (k : ℕ)
    (hcontext : ∀ text m, opens text m → opens' (before ++ text ++ after) (m + k)) :
    FewerWithout opens' (pairs.map (.within before after)) (n + k) := by
  refine List.forall_mem_map.2 fun pair hpair hinner => ?_
  obtain ⟨m, hm, hopens⟩ := h pair hpair hinner
  rw [PrintedPair.removed_within]
  exact ⟨m + k, by omega, hcontext _ m hopens⟩

/-- As `within`, with what the text around the pair opens counted first. -/
theorem behind {before after : String} (h : FewerWithout opens pairs n) (k : ℕ)
    (hcontext : ∀ text m, opens text m → opens' (before ++ text ++ after) (k + m)) :
    FewerWithout opens' (pairs.map (.within before after)) (k + n) := by
  rw [Nat.add_comm]
  refine h.within k fun text m hopens => ?_
  rw [Nat.add_comm]
  exact hcontext text m hopens

/-- A part without the pair around it, or without one of the pairs in it. -/
theorem wrapPairs {e : Expr} (wanted : Bool) (hrender : Opens e.isFunction e.render n)
    (h : FewerWithout (Opens e.isFunction) e.pairs n) :
    FewerWithout (Opens false) (wrapPairs wanted e e.pairs)
      ((if wanted && !e.isFunction then 1 else 0) + n) := by
  cases wanted with
  | false =>
    intro pair hpair hinner
    obtain ⟨m, hm, hopens⟩ := h pair hpair hinner
    exact ⟨m, by simpa using hm, hopens.weaken⟩
  | true =>
    refine List.forall_mem_cons.2 ⟨fun hinner => ⟨n, ?_, ?_⟩, ?_⟩
    · rw [show e.isFunction = false from hinner]
      simp
    · simpa [PrintedPair.removed] using hrender.weaken
    · exact h.behind _ fun text m hopens => hopens.parenthesize true

end FewerWithout

namespace Expr

/-- The text of an expression without a pair around what is no function opens fewer parentheses. -/
theorem fewerWithout_pairs {e : Expr} (he : e.WellFormed)
    (hplain : ∀ x ∈ e.numbers, Number.Plain x) :
    FewerWithout (Opens e.isFunction) e.pairs (neededIn e.pairs) := by
  -- the pair that is left out stands in one of the parts, and the other parts are printed in full
  induction e with
  | literal | name => exact .nil
  | paren e p ih => exact ih he hplain
  | arrow x e p ih =>
    have hbody := ih he.2 hplain
    rw [pairs, isFunction, neededIn_map_within]
    exact hbody.within 0 fun text m hopens => by simpa using hopens.arrow he.1
  | call f a p ihf iha =>
    obtain ⟨hf, ha⟩ := List.forall_mem_append.1 hplain
    have hcallee := (opens_render he.1 hf).parenthesize (f.precedence < 8)
    rw [pairs, isFunction, neededIn_append, neededIn_map_within, neededIn_map_within,
      neededIn_wrapPairs]
    refine .append ?_ ?_
    · refine ((ihf he.1 hf).wrapPairs _ (opens_render he.1 hf)).within _ fun text m hopens => ?_
      simpa [String.append_assoc] using hopens.call (opens_render he.2 ha)
    · exact (iha he.2 ha).behind _ fun text m hopens => hcallee.call hopens
  | unary op e p ih =>
    rw [pairs, isFunction, neededIn_map_within, neededIn_wrapPairs]
    have hoperand := opens_render (e := e) he hplain
    refine ((ih he hplain).wrapPairs _ hoperand).within 0 fun text m hopens => ?_
    simpa using hopens.unary op
  | binary op l r p ihl ihr =>
    obtain ⟨hl, hr⟩ := List.forall_mem_append.1 hplain
    have hleft := (opens_render he.1 hl).parenthesize (l.precedence < op.precedence)
    have hright := (opens_render he.2 hr).parenthesize (r.precedence ≤ op.precedence)
    rw [pairs, isFunction, neededIn_append, neededIn_map_within, neededIn_map_within,
      neededIn_wrapPairs, neededIn_wrapPairs]
    refine .append ?_ ?_
    · refine ((ihl he.1 hl).wrapPairs _ (opens_render he.1 hl)).within _ fun text m hopens => ?_
      simpa [String.append_assoc] using hopens.binary op hright
    · refine ((ihr he.2 hr).wrapPairs _ (opens_render he.2 hr)).behind _ fun text m hopens => ?_
      simpa using hleft.binary op hopens
  | cond c t e p ihc iht ihe =>
    obtain ⟨hc, hbranches⟩ := List.forall_mem_append.1 hplain
    obtain ⟨ht, hplain⟩ := List.forall_mem_append.1 hbranches
    have hcondition := (opens_render he.1 hc).parenthesize (c.precedence ≤ 0)
    have hthen := opens_render he.2.1 ht
    have helse := opens_render he.2.2 hplain
    rw [pairs, isFunction, neededIn_append, neededIn_append, neededIn_map_within,
      neededIn_map_within, neededIn_map_within, neededIn_wrapPairs]
    refine .append ?_ (.append ?_ ?_)
    · refine ((ihc he.1 hc).wrapPairs _ (opens_render he.1 hc)).within _ fun text m hopens => ?_
      simpa [String.append_assoc] using hopens.cond hthen helse
    · rw [Nat.add_left_comm]
      refine (iht he.2.1 ht).within _ fun text m hopens => ?_
      rw [Nat.add_left_comm]
      simpa [String.append_assoc] using hcondition.cond hopens helse
    · rw [← Nat.add_assoc]
      refine (ihe he.2.2 hplain).behind _ fun text m hopens => ?_
      rw [Nat.add_assoc]
      simpa using hcondition.cond hthen hopens

end Expr

namespace Statement

/-- A printed statement opens no more than the pairs it needs. -/
theorem lineOpens_render {s : Statement} (hs : s.WellFormed)
    (hplain : ∀ x ∈ s.expr.numbers, Number.Plain x) : LineOpens s.render (neededIn s.pairs) := by
  cases s with
  | declare x e p =>
    rw [pairs, neededIn_map_within]
    exact (Expr.opens_render hs.2 hplain).declare hs.1
  | output o e p =>
    rw [pairs, neededIn_map_within]
    exact (Expr.opens_render hs hplain).output o

/-- A printed statement without one of its pairs opens fewer than it needs. -/
theorem fewerWithout_pairs {s : Statement} (hs : s.WellFormed)
    (hplain : ∀ x ∈ s.expr.numbers, Number.Plain x) :
    FewerWithout LineOpens s.pairs (neededIn s.pairs) := by
  cases s with
  | declare x e p =>
    rw [pairs, neededIn_map_within]
    exact (Expr.fewerWithout_pairs hs.2 hplain).within 0 fun text m hopens => hopens.declare hs.1
  | output o e p =>
    rw [pairs, neededIn_map_within]
    exact (Expr.fewerWithout_pairs hs hplain).within 0 fun text m hopens => hopens.output o

end Statement

/-- A printed program opens no more than the pairs it needs. -/
theorem linesOpen_renderAll {ss : List Statement} (hss : ∀ s ∈ ss, s.WellFormed)
    (hplain : ∀ x ∈ numbersIn ss, Number.Plain x) :
    LinesOpen (renderAll ss) (neededIn (pairsIn ss)) := by
  fun_induction pairsIn ss with
  | case1 => exact ⟨[], .nil, le_rfl⟩
  | case2 s =>
    have hs := Statement.lineOpens_render (hss s List.mem_cons_self)
      fun x hx => hplain x (by simpa [numbersIn] using hx)
    simpa [renderAll] using hs.last
  | case3 s t ss ih =>
    rw [numbersIn, List.flatMap_cons, List.forall_mem_append] at hplain
    obtain ⟨hs, hss⟩ := List.forall_mem_cons.1 hss
    rw [renderAll_cons_cons, neededIn_append, neededIn_map_within, neededIn_map_within]
    exact (Statement.lineOpens_render hs hplain.1).cons (ih hss hplain.2)

/-- The text of statements without a pair around what is no function opens fewer parentheses. -/
theorem fewerWithout_pairsIn {ss : List Statement} (hss : ∀ s ∈ ss, s.WellFormed)
    (hplain : ∀ x ∈ numbersIn ss, Number.Plain x) :
    FewerWithout LinesOpen (pairsIn ss) (neededIn (pairsIn ss)) := by
  fun_induction pairsIn ss with
  | case1 => exact .nil
  | case2 s =>
    have hs := Statement.fewerWithout_pairs (hss s List.mem_cons_self)
      fun x hx => hplain x (by simpa [numbersIn] using hx)
    intro pair hpair hinner
    obtain ⟨m, hm, hopens⟩ := hs pair hpair hinner
    exact ⟨m, hm, hopens.last⟩
  | case3 s t ss ih =>
    rw [numbersIn, List.flatMap_cons, List.forall_mem_append] at hplain
    obtain ⟨hs, hss⟩ := List.forall_mem_cons.1 hss
    rw [neededIn_append, neededIn_map_within, neededIn_map_within]
    refine .append ?_ ?_
    · refine (Statement.fewerWithout_pairs hs hplain.1).within _ fun text m hopens => ?_
      simpa [String.append_assoc] using hopens.cons (linesOpen_renderAll hss hplain.2)
    · refine (ih hss hplain.2).behind _ fun text m hopens => ?_
      simpa using (Statement.lineOpens_render hs hplain.1).cons hopens

namespace Program

/-- What is read from a text has no more needed pairs than the text has openings. -/
theorem neededTotal_le_of_parse {text n : ℕ} {source : String} {q : Program}
    (h : parse text source = .ok q) (hopens : LinesOpen source n) :
    neededTotal q.statements ≤ n := by
  obtain ⟨ts, front, hts, ⟨last, rfl, hlast⟩, hreads⟩ := readsProgram_of_parse h
  obtain ⟨ks, hlex, hle⟩ := hopens
  obtain ⟨ts, hts', hkinds⟩ := hlex (.first text)
  obtain rfl : front ++ [last] = ts := Except.ok.inj (hts.symm.trans hts')
  -- both sides speak about the same tokens
  have hfront : front.map Token.kind = ks := by
    rw [List.map_append, List.map_singleton, hlast] at hkinds
    exact List.append_cancel_right hkinds
  have hproper : ∀ s ∈ q.statements, s.expr.Proper := by
    obtain ⟨ts, hts, hss, -⟩ := parse_eq_ok_iff.1 h
    rw [parseTokens_of_lexFrom hts] at hss
    exact proper_of_parseFrom .between hss
  calc neededTotal q.statements
      ≤ groupTotal q.statements := neededTotal_le_groupTotal hproper
    _ ≤ openings true (front.map Token.kind) := hreads.groupTotal_le hproper
    _ ≤ n := by rwa [hfront]

end Program

/-- The parentheses that the printer puts in the text of a well-formed program with plain numbers
are those that are read back from it, and every one of them is needed unless it stands around a
function: without it, the text is not read as the program, up to parentheses and places. -/
theorem printed_parentheses_needed (text : ℕ) {p : Program} (hp : p.WellFormed)
    (hplain : ∀ x ∈ p.numbers, Number.Plain x) :
    (∃ q, parse text p.render = .ok q ∧ q.parenCount = p.pairs.length) ∧ InOrder p.pairs ∧
    ∀ pair ∈ p.pairs, pair.text = p.render ∧
      (pair.inner.isFunction = false →
        ∀ q, parse text pair.removed = .ok q → q.erase.alike p.erase = false) := by
  refine ⟨p.exists_parenCount_eq text hp hplain, inOrder_pairsIn p.statements,
    fun pair hpair => ⟨text_of_mem_pairsIn _ pair hpair, fun hinner q hparse => ?_⟩⟩
  obtain ⟨n, hlt, hopens⟩ := fewerWithout_pairsIn hp hplain pair hpair hinner
  -- a program alike to this one needs all of its pairs, and the text does not open as many
  rw [← Bool.not_eq_true]
  intro halike
  have hsame : neededTotal q.statements = neededTotal p.statements := by
    rw [← neededTotal_erase, ← neededTotal_erase p.statements]
    exact neededTotal_eq_of_alike halike
  have hle := Program.neededTotal_le_of_parse hparse hopens
  rw [neededIn_pairsIn] at hlt
  omega

/-- In `a - (b - c)` the pair is needed, in `a - (x => x)` it is not. -/
theorem printed_parentheses_needed_difference :
    let difference (r : Expr) : Program :=
      ⟨[.output .value (.binary .subtract (.name "a" none) r none) none], ""⟩
    let inner : Expr := .binary .subtract (.name "b" none) (.name "c" none) none
    let function : Expr := .arrow "x" (.name "x" none) none
    ((difference inner).pairs = [⟨"console.log(a - ", inner, ");"⟩] ∧
      ∃ q, parse 0 "console.log(a - b - c);" = .ok q ∧
        q.erase.alike (difference inner).erase = false) ∧
    (difference function).pairs = [⟨"console.log(a - ", function, ");"⟩] ∧
      ∃ q, parse 0 "console.log(a - x => x);" = .ok q ∧
        q.erase.alike (difference function).erase = true := by
  intro difference inner function
  have hpairs : (difference inner).pairs = [⟨"console.log(a - ", inner, ");"⟩] := by decide +kernel
  obtain ⟨-, -, hneeded⟩ := printed_parentheses_needed 0 (p := difference inner)
    (List.forall_mem_singleton.2 ⟨rfl, rfl, rfl⟩) (by decide)
  have hdifferent := (hneeded _ (hpairs ▸ List.mem_singleton_self _)).2 rfl
  refine ⟨⟨hpairs, ?_⟩, by decide +kernel, ?_⟩
  · have hread : (parse 0 "console.log(a - b - c);").isOk = true := by decide +kernel
    cases h : parse 0 "console.log(a - b - c);" with
    | error e => rw [h] at hread; cases hread
    | ok q => exact ⟨q, rfl, hdifferent q h⟩
  · have hread : (parse 0 "console.log(a - x => x);").toOption.any
        (fun q => q.erase.alike (difference function).erase) = true := by decide +kernel
    cases h : parse 0 "console.log(a - x => x);" with
    | error e => rw [h] at hread; cases hread
    | ok q => exact ⟨q, rfl, by rw [h] at hread; exact hread⟩

end CallByNeed
