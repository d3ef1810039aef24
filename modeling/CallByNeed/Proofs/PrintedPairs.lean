import CallByNeed.Proofs.RoundTrip

/-!
# The parentheses in a printed text

`Expr.pairs` lists the pairs of parentheses that the printer puts in the text of an expression, each
with the text before it and behind it, and `Program.pairs` does so for a program. Any of the pairs
together with its surroundings is the whole text (`text_of_mem_pairsIn`), the pairs come in the
order in which they open (`inOrder_pairsIn`), and there are as many of them as are read back from
the text (`Program.exists_parenCount_eq`).
-/

namespace CallByNeed

/-! ## The pairs of parentheses in a printed text -/

/-- A pair of parentheses that the printer put around an expression, with the text before the pair
and behind it. -/
structure PrintedPair where
  /-- The text before the pair. -/
  before : String
  /-- The expression in the pair. -/
  inner : Expr
  /-- The text behind the pair. -/
  after : String
deriving DecidableEq, Repr

namespace PrintedPair

/-- The text with the pair. -/
def text (pair : PrintedPair) : String :=
  pair.before ++ "(" ++ pair.inner.render ++ ")" ++ pair.after

/-- The text without the pair. -/
def removed (pair : PrintedPair) : String :=
  pair.before ++ pair.inner.render ++ pair.after

/-- The pair in a longer text. -/
def within (before after : String) (pair : PrintedPair) : PrintedPair :=
  ⟨before ++ pair.before, pair.inner, pair.after ++ after⟩

/-- A pair within a longer text is within that text. -/
theorem text_within (before after : String) (pair : PrintedPair) :
    (pair.within before after).text = before ++ pair.text ++ after := by
  simp [within, text, String.append_assoc]

/-- Removing a pair within a longer text leaves the rest of it. -/
theorem removed_within (before after : String) (pair : PrintedPair) :
    (pair.within before after).removed = before ++ pair.removed ++ after := by
  simp [within, removed, String.append_assoc]

end PrintedPair

/-- The pairs of a part of an expression: those in the part and, if it is put in parentheses, the
pair around it. -/
def wrapPairs (wanted : Bool) (e : Expr) (pairs : List PrintedPair) : List PrintedPair :=
  if wanted then ⟨"", e, ""⟩ :: pairs.map (.within "(" ")") else pairs

/-- The pairs of parentheses that the printer puts in the text of an expression. -/
def Expr.pairs : Expr → List PrintedPair
  | literal _ _ | name _ _ => []
  | paren e _ => e.pairs
  | arrow x e _ => e.pairs.map (.within (x ++ " => ") "")
  | call f a _ =>
    (wrapPairs (f.precedence < 8) f f.pairs).map (.within "" ("(" ++ a.render ++ ")")) ++
      a.pairs.map (.within (parenthesize (f.precedence < 8) f.render ++ "(") ")")
  | unary op e _ => (wrapPairs (e.precedence < 7) e e.pairs).map (.within op.text "")
  | binary op l r _ =>
    (wrapPairs (l.precedence < op.precedence) l l.pairs).map (.within ""
        (" " ++ op.text ++ " " ++ parenthesize (r.precedence ≤ op.precedence) r.render)) ++
      (wrapPairs (r.precedence ≤ op.precedence) r r.pairs).map (.within
        (parenthesize (l.precedence < op.precedence) l.render ++ " " ++ op.text ++ " ") "")
  | cond c t e _ =>
    (wrapPairs (c.precedence ≤ 0) c c.pairs).map
        (.within "" (" ? " ++ t.render ++ " : " ++ e.render)) ++
      (t.pairs.map (.within (parenthesize (c.precedence ≤ 0) c.render ++ " ? ")
          (" : " ++ e.render)) ++
        e.pairs.map (.within
          (parenthesize (c.precedence ≤ 0) c.render ++ " ? " ++ t.render ++ " : ") ""))

/-- The pairs of parentheses that the printer puts in the text of a statement. -/
def Statement.pairs : Statement → List PrintedPair
  | declare x e _ => e.pairs.map (.within ("let " ++ x ++ " = ") ";")
  | output o e _ => e.pairs.map (.within (o.keyword ++ "(") ");")

/-- The pairs of parentheses in the text of statements, each on a line of its own. -/
def pairsIn : List Statement → List PrintedPair
  | [] => []
  | [s] => s.pairs
  | s :: t :: ss =>
    s.pairs.map (.within "" ("\n" ++ renderAll (t :: ss))) ++
      (pairsIn (t :: ss)).map (.within (s.render ++ "\n") "")

/-- The pairs of parentheses that the printer puts in the text of a program. -/
def Program.pairs (p : Program) : List PrintedPair :=
  pairsIn p.statements

/-- Around each part of the text of an expression stands what the printer puts there. -/
theorem text_of_mem_wrapPairs {wanted : Bool} {e : Expr}
    (h : ∀ pair ∈ e.pairs, pair.text = e.render) :
    ∀ pair ∈ wrapPairs wanted e e.pairs, pair.text = parenthesize wanted e.render := by
  cases wanted with
  | false => exact h
  | true =>
    simp only [wrapPairs, if_true, List.forall_mem_cons, List.forall_mem_map]
    refine ⟨by simp [PrintedPair.text, parenthesize], fun pair hpair => ?_⟩
    rw [PrintedPair.text_within, h pair hpair]
    rfl

namespace Expr

/-- The pairs of an expression stand in its text. -/
theorem text_of_mem_pairs (e : Expr) : ∀ pair ∈ e.pairs, pair.text = e.render := by
  induction e with
  | literal | name => simp [pairs]
  | paren e p ih => exact ih
  | arrow x e p ih =>
    simp only [pairs, List.forall_mem_map, PrintedPair.text_within]
    intro pair hpair
    rw [ih pair hpair, render, String.append_empty]
  | call f a p ihf iha =>
    simp only [pairs, List.forall_mem_append, List.forall_mem_map, PrintedPair.text_within]
    refine ⟨fun pair hpair => ?_, fun pair hpair => ?_⟩
    · rw [text_of_mem_wrapPairs ihf pair hpair, render]
      simp only [String.empty_append, String.append_assoc]
    · rw [iha pair hpair, render]
  | unary op e p ih =>
    simp only [pairs, List.forall_mem_map, PrintedPair.text_within]
    intro pair hpair
    rw [text_of_mem_wrapPairs ih pair hpair, render, String.append_empty]
  | binary op l r p ihl ihr =>
    simp only [pairs, List.forall_mem_append, List.forall_mem_map, PrintedPair.text_within]
    refine ⟨fun pair hpair => ?_, fun pair hpair => ?_⟩
    · rw [text_of_mem_wrapPairs ihl pair hpair, render]
      simp only [String.empty_append, String.append_assoc]
    · rw [text_of_mem_wrapPairs ihr pair hpair, render, String.append_empty]
  | cond c t e p ihc iht ihe =>
    simp only [pairs, List.forall_mem_append, List.forall_mem_map, PrintedPair.text_within]
    refine ⟨fun pair hpair => ?_, fun pair hpair => ?_, fun pair hpair => ?_⟩
    · rw [text_of_mem_wrapPairs ihc pair hpair, render]
      simp only [String.empty_append, String.append_assoc]
    · rw [iht pair hpair, render]
      simp only [String.append_assoc]
    · rw [ihe pair hpair, render, String.append_empty]

end Expr

/-- The pairs of a statement stand in its text. -/
theorem Statement.text_of_mem_pairs (s : Statement) : ∀ pair ∈ s.pairs, pair.text = s.render := by
  cases s with
  | declare x e p =>
    simp only [pairs, List.forall_mem_map, PrintedPair.text_within]
    intro pair hpair
    rw [e.text_of_mem_pairs pair hpair, render]
  | output o e p =>
    simp only [pairs, List.forall_mem_map, PrintedPair.text_within]
    intro pair hpair
    rw [e.text_of_mem_pairs pair hpair, render]

/-- Statements are printed on lines of their own. -/
theorem renderAll_cons_cons (s t : Statement) (ss : List Statement) :
    renderAll (s :: t :: ss) = s.render ++ "\n" ++ renderAll (t :: ss) := by
  simp [renderAll, String.intercalate_cons_cons]

/-- The pairs of a program stand in its text. -/
theorem text_of_mem_pairsIn (ss : List Statement) :
    ∀ pair ∈ pairsIn ss, pair.text = renderAll ss := by
  fun_induction pairsIn ss with
  | case1 => simp
  | case2 s => simpa [renderAll] using s.text_of_mem_pairs
  | case3 s t ss ih =>
    simp only [List.forall_mem_append, List.forall_mem_map, PrintedPair.text_within]
    refine ⟨fun pair hpair => ?_, fun pair hpair => ?_⟩
    · rw [s.text_of_mem_pairs pair hpair, renderAll_cons_cons, String.empty_append,
        String.append_assoc]
    · rw [ih pair hpair, renderAll_cons_cons, String.append_empty]

/-! ## The order of the pairs -/

/-- The pairs in the order in which they open. -/
def InOrder (pairs : List PrintedPair) : Prop :=
  pairs.Pairwise fun pair pair' => pair.before.length < pair'.before.length

namespace InOrder

variable {pairs pairs' : List PrintedPair} {before after text : String}

/-- Pairs stay in order within a longer text. -/
theorem within (h : InOrder pairs) : InOrder (pairs.map (.within before after)) := by
  refine List.pairwise_map.2 (h.imp fun hlt => ?_)
  simpa [PrintedPair.within] using hlt

/-- The pairs of one text open before those of a text behind it. -/
theorem append (h : InOrder pairs) (htext : ∀ pair ∈ pairs, pair.text = text)
    (h' : InOrder pairs')
    (hbehind : ∀ pair ∈ pairs', (before ++ text).length ≤ pair.before.length) :
    InOrder (pairs.map (.within before after) ++ pairs') := by
  refine List.pairwise_append.2 ⟨h.within, h', List.forall_mem_map.2 fun pair hpair pair' hpair' =>
    lt_of_lt_of_le ?_ (hbehind pair' hpair')⟩
  rw [← htext pair hpair]
  simp only [PrintedPair.within, PrintedPair.text, String.length_append]
  change _ < before.length + (pair.before.length + 1 + _ + _ + _)
  omega

/-- Pairs stay in order when one is put around them. -/
theorem wrapPairs {e : Expr} (wanted : Bool) (h : InOrder e.pairs) :
    InOrder (wrapPairs wanted e e.pairs) := by
  cases wanted with
  | false => exact h
  | true =>
    refine List.pairwise_cons.2 ⟨List.forall_mem_map.2 fun pair hpair => ?_, h.within⟩
    change 0 < ("(" ++ pair.before).length
    rw [String.length_append]
    exact Nat.lt_add_right _ Nat.one_pos

end InOrder

namespace Expr

/-- The pairs of an expression are listed in the order of their opening parentheses. -/
theorem inOrder_pairs (e : Expr) : InOrder e.pairs := by
  induction e with
  | literal | name => exact .nil
  | paren e p ih => exact ih
  | arrow x e p ih => exact ih.within
  | call f a p ihf iha =>
    refine (ihf.wrapPairs _).append (text_of_mem_wrapPairs f.text_of_mem_pairs) iha.within ?_
    simp [PrintedPair.within]
    omega
  | unary op e p ih => exact (ih.wrapPairs _).within
  | binary op l r p ihl ihr =>
    refine (ihl.wrapPairs _).append (text_of_mem_wrapPairs l.text_of_mem_pairs)
      (ihr.wrapPairs _).within ?_
    simp [PrintedPair.within]
    omega
  | cond c t e p ihc iht ihe =>
    refine (ihc.wrapPairs _).append (text_of_mem_wrapPairs c.text_of_mem_pairs)
      (iht.append t.text_of_mem_pairs ihe.within ?_) (List.forall_mem_append.2 ⟨?_, ?_⟩) <;>
    · simp [PrintedPair.within]
      omega

end Expr

/-- The pairs of a program are listed in the order of their opening parentheses. -/
theorem inOrder_pairsIn (ss : List Statement) : InOrder (pairsIn ss) := by
  have hstatement : ∀ s : Statement, InOrder s.pairs := fun s => by
    cases s <;> exact (Expr.inOrder_pairs _).within
  fun_induction pairsIn ss with
  | case1 => exact .nil
  | case2 s => exact hstatement s
  | case3 s t ss ih =>
    refine (hstatement s).append s.text_of_mem_pairs ih.within ?_
    simp [PrintedPair.within]
    omega

/-! ## The pairs are those that are read back -/

namespace Expr

/-- How many pairs of parentheses there are in the tree. -/
def parenCount : Expr → ℕ
  | literal _ _ | name _ _ => 0
  | paren e _ => 1 + e.parenCount
  | arrow _ e _ | unary _ e _ => e.parenCount
  | call f a _ => f.parenCount + a.parenCount
  | binary _ l r _ => l.parenCount + r.parenCount
  | cond c t e _ => c.parenCount + (t.parenCount + e.parenCount)

/-- Places do not matter to the number of parentheses. -/
theorem parenCount_unplaced (e : Expr) : e.unplaced.parenCount = e.parenCount := by
  induction e <;> simp_all [unplaced, parenCount]

/-- Wrapping adds a pair exactly where it adds parentheses to the tree. -/
theorem length_wrapPairs {e : Expr} (wanted : Bool) (h : e.printed.parenCount = e.pairs.length) :
    (wrapPairs wanted e e.pairs).length = (e.printed.wrap wanted).parenCount := by
  cases wanted with
  | false => exact h.symm
  | true => simp [wrapPairs, wrap, parenCount, h, Nat.add_comm]

/-- The printed tree has the pairs that the printer puts. -/
theorem parenCount_printed (e : Expr) : e.printed.parenCount = e.pairs.length := by
  induction e with
  | paren e p ih => exact ih
  | _ => simp_all [printed, pairs, parenCount, length_wrapPairs]

end Expr

namespace Program

/-- How many pairs of parentheses there are in a program. -/
def parenCount (p : Program) : ℕ :=
  (p.statements.map fun s => s.expr.parenCount).sum

/-- The pairs of a program are those of its statements. -/
theorem length_pairsIn (ss : List Statement) :
    (pairsIn ss).length = (ss.map fun s => s.expr.pairs.length).sum := by
  have hstatement : ∀ s : Statement, s.pairs.length = s.expr.pairs.length := fun s => by
    cases s <;> exact List.length_map _
  fun_induction pairsIn ss with
  | case1 => rfl
  | case2 s => simp [hstatement]
  | case3 s t ss ih => simp [hstatement, ih]

/-- What differs from a printed statement in places only has the pairs that the printer puts. -/
theorem parenCount_of_unplaced (s t : Statement) (h : s.unplaced = t.printed.unplaced) :
    s.expr.parenCount = t.expr.pairs.length := by
  have hunplaced : ∀ s : Statement, s.unplaced.expr = s.expr.unplaced := by rintro ⟨⟩ <;> rfl
  have hprinted : t.printed.expr = t.expr.printed := by cases t <;> rfl
  have hexpr := congrArg Statement.expr h
  rw [hunplaced, hunplaced, hprinted] at hexpr
  rw [← Expr.parenCount_printed, ← Expr.parenCount_unplaced, hexpr, Expr.parenCount_unplaced]

/-- The pairs that the printer puts are read back. -/
theorem exists_parenCount_eq (text : ℕ) {p : Program} (hp : p.WellFormed)
    (hplain : ∀ x ∈ p.numbers, Number.Plain x) :
    ∃ q, parse text p.render = .ok q ∧ q.parenCount = p.pairs.length := by
  obtain ⟨ss, hparse, hall⟩ := exists_parse_render text hp hplain
  refine ⟨_, hparse, ?_⟩
  rw [parenCount, pairs, length_pairsIn]
  have heq : List.Forall₂ Eq (ss.map fun s => s.expr.parenCount)
      (p.statements.map fun s => s.expr.pairs.length) := by
    rw [List.forall₂_map_left_iff, List.forall₂_map_right_iff]
    exact hall.imp parenCount_of_unplaced
  exact congrArg List.sum (List.forall₂_eq_eq_eq ▸ heq)

end Program

end CallByNeed
