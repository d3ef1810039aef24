import CallByNeed.Evaluation

/-!
# What operators give

Operators give numbers, texts and truth values, and nothing else (`UnaryOp.constant_of_apply`,
`BinaryOp.constant_of_combine`). Where they refuse their operands, it is for what these are, because
they would divide by zero, or because an operand is absent (`Refusal.Concerns`). There is one
exception: no remainder of an infinite number exists (`BinaryOp.concerns_of_combine`). In
particular an operator never finds that a name is undefined or that a thunk needs itself.
-/

namespace CallByNeed

/-- The refusal is about operands with these contents: they are not what is asked for, or one of
them is absent. Names, thunks and remainders are not refused for their operands. -/
def Refusal.Concerns (operands : List Content) : Refusal → Prop
  | .cause (.undefined _) | .cause .circular | .cause (.taken _) | .domain => False
  | .cause _ => True
  | .unnamed | .incomparable => .nothing ∈ operands

/-- How evaluation stops when operands are refused. -/
def Refusal.stop (place : Option Location) : Refusal → Stop
  | cause c => .error ⟨c, place⟩
  | domain => .domain
  | unnamed => .unnamed
  | incomparable => .incomparable

/-- A refusal that is about some operands is about more of them. -/
theorem Refusal.Concerns.mono {refusal : Refusal} {cs ds : List Content}
    (h : refusal.Concerns cs) (hsub : cs ⊆ ds) : refusal.Concerns ds := by
  cases refusal with
  | cause c => cases c <;> exact h
  | domain => exact h
  | unnamed | incomparable => exact hsub h

/-- An operand that is refused for its kind has one, or else is absent. -/
theorem Refusal.concerns_ofKind (cause : Kind → EvalCause)
    (hcause : ∀ k, (Refusal.cause (cause k)).Concerns []) (c : Content) :
    (Refusal.ofKind cause c).Concerns [c] := by
  cases c with
  | nothing => exact List.mem_cons_self
  | _ => exact (hcause _).mono (List.nil_subset _)

/-- What is computed from a result fails if there is no result. -/
theorem error_of_map {ε α β : Type} {x : Except ε α} {f : α → β} {e : ε}
    (h : x.map f = .error e) : x = .error e := by
  cases x with
  | error => cases h; rfl
  | ok a => cases h

/-- What goes on from a result fails if there is no result, or later. -/
theorem error_of_bind {ε α β : Type} {x : Except ε α} {f : α → Except ε β} {e : ε}
    (h : x.bind f = .error e) : x = .error e ∨ ∃ a, x = .ok a ∧ f a = .error e := by
  cases x with
  | error => cases h; exact .inl rfl
  | ok a => exact .inr ⟨a, rfl, h⟩

/-! ## Operators before an operand -/

namespace UnaryOp

variable {op : UnaryOp} {c : Content}

/-- An operator before an operand gives a constant. -/
theorem constant_of_apply {d : Content} (h : op.apply c = .ok d) : ∃ k, d = .ofConstant k := by
  cases op <;> cases c <;> cases h
  · exact ⟨.boolean _, rfl⟩
  · exact ⟨.number _, rfl⟩

/-- An operator before an operand refuses it for its kind. -/
theorem concerns_of_apply {refusal : Refusal} (h : op.apply c = .error refusal) :
    refusal.Concerns [c] := by
  cases op with
  | not =>
    have hkind := Refusal.concerns_ofKind (.needsBoolean not) fun _ => trivial
    cases c <;> cases h <;> exact hkind _
  | negate =>
    have hkind := Refusal.concerns_ofKind (.needsNumber negate) fun _ => trivial
    cases c <;> cases h <;> exact hkind _

end UnaryOp

/-! ## Operators between operands -/

namespace BinaryOp

variable {op : BinaryOp} {c d : Content} {refusal : Refusal}

/-- Operands that are not two numbers are refused for the kind of one of them. -/
theorem concerns_of_numbers (h : op.numbers c d = .error refusal) : refusal.Concerns [c, d] := by
  have hkind := Refusal.concerns_ofKind (.needsNumbers op) fun _ => trivial
  cases c with
  | number x => cases d <;> cases h <;> exact (hkind _).mono (by simp)
  | _ => cases h; exact (hkind _).mono (by simp)

/-- Operands that are not two truth values are refused for the kind of one of them. -/
theorem concerns_of_booleans (h : op.booleans c d = .error refusal) :
    refusal.Concerns [c, d] := by
  have hkind := Refusal.concerns_ofKind (.needsBooleans op) fun _ => trivial
  cases c with
  | boolean b => cases d <;> cases h <;> exact (hkind _).mono (by simp)
  | _ => cases h; exact (hkind _).mono (by simp)

/-- Only absent operands cannot be compared. -/
theorem concerns_of_areEqual {l r : Object} (h : areEqual l r = .error refusal) :
    refusal.Concerns [l.content, r.content] := by
  unfold areEqual at h
  generalize l.content = c, r.content = d at h
  cases c <;> cases d <;> cases h
  exact List.mem_cons_self

/-- Operands are not added if neither is a text and they are not two numbers. -/
theorem concerns_of_sum (h : sum c d = .error refusal) : refusal.Concerns [c, d] := by
  cases c <;> cases d <;> cases h
  all_goals simp [Refusal.Concerns]

/-- A quotient is refused only for a division by zero. -/
theorem concerns_of_quotient {x y : Float} (h : quotient x y = .error refusal)
    (operands : List Content) : refusal.Concerns operands := by
  unfold quotient at h
  split at h
  · cases h
    trivial
  · cases h

/-- A remainder is refused for a division by zero, or does not exist. -/
theorem concerns_of_remainder {x y : Float} (h : remainder x y = .error refusal)
    (operands : List Content) : refusal.Concerns operands ∨ refusal = .domain := by
  unfold remainder at h
  split at h
  · cases h
    exact .inl trivial
  · split at h
    · cases h
    · cases h
      exact .inr rfl

/-- An operator between operands refuses them for what they are, unless it is a remainder that does
not exist. -/
theorem concerns_of_combine {l r : Object} (h : op.combine l r = .error refusal) :
    refusal.Concerns [l.content, r.content] ∨ op = .modulo ∧ refusal = .domain := by
  cases op
  case or | and => exact .inl (concerns_of_booleans (error_of_map h))
  case equal | notEqual => exact .inl (concerns_of_areEqual (error_of_map h))
  case less | lessOrEqual | greater | greaterOrEqual =>
    exact .inl (concerns_of_numbers (error_of_map h))
  case add => exact .inl (concerns_of_sum h)
  case subtract | multiply =>
    obtain hxy | ⟨xy, -, hxy⟩ := error_of_bind h
    · exact .inl (concerns_of_numbers hxy)
    · cases hxy
  case divide =>
    obtain hxy | ⟨xy, -, hxy⟩ := error_of_bind h
    · exact .inl (concerns_of_numbers hxy)
    · exact .inl (concerns_of_quotient hxy _)
  case modulo =>
    obtain hxy | ⟨xy, -, hxy⟩ := error_of_bind h
    · exact .inl (concerns_of_numbers hxy)
    · exact (concerns_of_remainder hxy _).imp_right fun hdomain => ⟨rfl, hdomain⟩

/-- An operator between operands gives a constant. -/
theorem constant_of_combine {l r : Object} (h : op.combine l r = .ok c) :
    ∃ k, c = .ofConstant k := by
  -- each operator gives a number, a text or a truth value, if it gives something
  cases op <;> simp only [combine] at h
  case add =>
    generalize l.content = d, r.content = e at h
    cases d <;> cases e <;> cases h
    all_goals first | exact ⟨.number _, rfl⟩ | exact ⟨.string _, rfl⟩
  case or | and =>
    cases hb : booleans _ l.content r.content <;> rw [hb] at h <;> cases h
    exact ⟨.boolean _, rfl⟩
  case equal | notEqual =>
    cases hb : areEqual l r <;> rw [hb] at h <;> cases h
    exact ⟨.boolean _, rfl⟩
  case less | lessOrEqual | greater | greaterOrEqual =>
    cases hb : numbers _ l.content r.content <;> rw [hb] at h <;> cases h
    exact ⟨.boolean _, rfl⟩
  all_goals
    cases hb : numbers _ l.content r.content with
    | error => rw [hb] at h; cases h
    | ok xy =>
      rw [hb] at h
      simp only [Except.bind, quotient, remainder] at h
      repeat' split at h
      all_goals cases h
      all_goals exact ⟨.number _, rfl⟩

end BinaryOp

end CallByNeed
