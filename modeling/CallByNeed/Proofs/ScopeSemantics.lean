import CallByNeed.Proofs.OperatorResults
import Mathlib.Order.Basic
import Mathlib.Tactic.Common

/-!
# Evaluation by name without a store

What evaluation gives can be said without a store: instead of an environment there is a `Scope`,
which holds for each parameter the expression it stands for and the scope of that expression in
turn. `meaning` and `resolve` are evaluation and forcing in this reading. They keep no result, and
so nothing is shared and nothing has to be marked; but functions have no identity either, so that
comparing two of them has no meaning and halts evaluation.

Forcing is bounded as in the reading with a store. A result that does not depend on the bounds stays
the same when they grow (`below_resolve`), and a value that was found stays the same when more names
are declared.
-/

namespace CallByNeed

/-- The names declared at the top level and their expressions, the last first. -/
abbrev Globals := List (String × Expr)

/-- The parameters that an expression can use, besides the names of the top level. -/
inductive Scope where
  /-- No parameters. -/
  | top
  /-- A parameter, inside of `outer`, that stands for an expression with a scope of its own. -/
  | inner (parameter : String) (argument : Expr) (scope outer : Scope)

/-- The expression that a name stands for, and its scope. -/
def Scope.find? (G : Globals) : Scope → String → Option (Expr × Scope)
  | top, y => (G.lookup y).map fun e => (e, top)
  | inner x e s outer, y => if y == x then some (e, s) else outer.find? G y

/-- An evaluated value without identity. -/
inductive Datum where
  /-- A value that is not a function. -/
  | plain (content : Content)
  /-- A function. -/
  | closure (parameter : String) (body : Expr) (scope : Scope)

/-- What a value holds, the environment of a function apart. -/
def Datum.content : Datum → Content
  | plain c => c
  | closure x body _ => .function x body .global

/-- A value, or an expression that stands for one. -/
inductive Promise where
  /-- A value. -/
  | kept (datum : Datum)
  /-- An expression in its scope. -/
  | due (expr : Expr) (scope : Scope)

/-- Why there is no result. -/
inductive Halt where
  /-- Evaluation stops. -/
  | stop (stop : Stop)
  /-- Two functions are compared. -/
  | compared

/-- The bounds on evaluation are reached. -/
def Stop.IsLimit (stop : Stop) : Prop :=
  stop = .tooDeep ∨ stop = .outOfFuel

/-- A thunk was found to need itself. -/
def Stop.IsCircular : Stop → Prop
  | error e => e.cause = .circular
  | _ => False

instance : DecidablePred Stop.IsCircular
  | .error e => inferInstanceAs (Decidable (e.cause = .circular))
  | .domain | .unnamed | .incomparable | .refilled | .tooDeep | .outOfFuel =>
    inferInstanceAs (Decidable False)

/-- Nothing is known about the result. -/
def Halt.Vague : Halt → Prop
  | stop s => s.IsLimit
  | compared => True

/-- Whether an operator tells two functions apart. -/
def BinaryOp.identifies : BinaryOp → Bool
  | equal | notEqual => true
  | _ => false

/-- Whether a value is a function. -/
def Content.isFunction : Content → Bool
  | function _ _ _ => true
  | _ => false

namespace Datum

/-- The call of a value. -/
def call (callee : Datum) (a : Expr) (s : Scope) (place : Option Location) : Except Halt Promise :=
  match callee with
  | closure x body outer => .ok (.due body (.inner x a s outer))
  | plain c => .error (.stop ((Refusal.ofKind .notFunction c).stop place))

/-- The result of an operator before its operand. -/
def operateUnary (op : UnaryOp) (operand : Datum) (place : Option Location) :
    Except Halt Promise :=
  match op.apply operand.content with
  | .ok c => .ok (.kept (.plain c))
  | .error refusal => .error (.stop (refusal.stop place))

/-- The result of an operator between two values. -/
def operate (op : BinaryOp) (l r : Datum) (place : Option Location) : Except Halt Promise :=
  if op.identifies && l.content.isFunction && r.content.isFunction then .error .compared
  else
    match op.combine ⟨.nothing, l.content⟩ ⟨.nothing, r.content⟩ with
    | .ok c => .ok (.kept (.plain c))
    | .error refusal => .error (.stop (refusal.stop place))

/-- The result of an operator between operands, of which the right one may not be needed. -/
def operateLazily (op : BinaryOp) (left : Datum) (right : Except Halt Datum)
    (place : Option Location) : Except Halt Promise :=
  match op.decisive? with
  | none => do operate op left (← right) place
  | some decisive =>
    match left.content with
    | .boolean b =>
      if b = decisive then .ok (.kept left)
      else do
        let right ← right
        match right.content with
        | .boolean _ => operate op left right place
        | c => .error (.stop ((Refusal.ofKind (.needsBooleans op) c).stop place))
    | c => .error (.stop ((Refusal.ofKind (.needsBooleans op) c).stop place))

/-- The branch that a condition chooses. -/
def choose (condition : Datum) (t e : Expr) (s : Scope) (place : Option Location) :
    Except Halt Promise :=
  match condition.content with
  | .boolean b => .ok (.due (if b then t else e) s)
  | _ => .error (.stop (.error ⟨.condition, place⟩))

end Datum

/-- What an expression gives when it is evaluated as far as its outermost form. -/
def meaning (resolve : Promise → Except Halt Datum) (G : Globals) (s : Scope) :
    Expr → Except Halt Promise
  | .literal c _ => .ok (.kept (.plain (.ofConstant c)))
  | .name x place =>
    match s.find? G x with
    | some (e, s') => .ok (.due e s')
    | none => .error (.stop (.error ⟨.undefined x, place⟩))
  | .paren e _ => meaning resolve G s e
  | .arrow x e _ => .ok (.kept (.closure x e s))
  | .call f a place => do (← meaning resolve G s f >>= resolve).call a s place
  | .unary op e place => do Datum.operateUnary op (← meaning resolve G s e >>= resolve) place
  | .binary op l r place => do
    Datum.operateLazily op (← meaning resolve G s l >>= resolve) (meaning resolve G s r >>= resolve)
      place
  | .cond c t e place => do (← meaning resolve G s c >>= resolve).choose t e s place

/-- The value of an expression, found by evaluating as often as it takes. -/
def resolve (G : Globals) : Nat → Nat → Promise → Except Halt Datum
  | _, _, .kept d => .ok d
  | 0, _, .due _ _ => .error (.stop .outOfFuel)
  | _ + 1, 0, .due _ _ => .error (.stop .tooDeep)
  | fuel + 1, depth + 1, .due e s =>
    meaning (resolve G fuel depth) G s e >>= resolve G fuel (depth + 1)

/-! ## What operators see of functions -/

/-- Two values are the same, or both are functions. -/
inductive Content.Similar : Content → Content → Prop where
  | same (c : Content) : Similar c c
  | functions (x y : String) (e f : Expr) (env env' : Env) :
      Similar (.function x e env) (.function y f env')

/-- Of two similar values, both are functions or none. -/
theorem Content.Similar.isFunction_eq {c d : Content} (h : c.Similar d) :
    c.isFunction = d.isFunction := by
  cases h <;> rfl

/-- Values that are similar to the same one are similar. -/
theorem Content.Similar.trans {c d e : Content} (h : c.Similar d) (h' : d.Similar e) :
    c.Similar e := by
  cases h with
  | same => exact h'
  | functions x y e f env env' =>
    cases h' with
    | same => exact .functions x y e f env env'
    | functions _ z _ g _ env'' => exact .functions x z e g env env''

/-- Two values are the same, apart from the environments of functions. -/
inductive Content.Alike : Content → Content → Prop where
  | same (c : Content) : Alike c c
  | function (x : String) (body : Expr) (env env' : Env) :
      Alike (.function x body env) (.function x body env')

/-- Values are alike in both directions. -/
theorem Content.Alike.symm {c d : Content} (h : c.Alike d) : d.Alike c := by
  cases h with
  | same => exact .same c
  | function x body env env' => exact .function x body env' env

/-- Values that are alike to the same one are alike. -/
theorem Content.Alike.trans {c d e : Content} (h : c.Alike d) (h' : d.Alike e) : c.Alike e := by
  cases h with
  | same => exact h'
  | function x body env env' =>
    cases h' with
    | same => exact .function x body env env'
    | function _ _ _ env'' => exact .function x body env env''

/-- Values that are alike are similar. -/
theorem Content.Alike.similar {c d : Content} (h : c.Alike d) : c.Similar d := by
  cases h with
  | same => exact .same c
  | function x body env env' => exact .functions x x body body env env'

/-- An operator before its operand does not see which function it is given. -/
theorem UnaryOp.apply_congr {c d : Content} (h : c.Similar d) (op : UnaryOp) :
    op.apply c = op.apply d := by
  cases h with
  | same => rfl
  | functions => cases op <;> rfl

namespace BinaryOp

section

variable {c c' d d' : Content} (h : c.Similar c') (h' : d.Similar d')

include h h'

/-- Asking for two numbers does not see which functions are given. -/
theorem numbers_congr (op : BinaryOp) : op.numbers c d = op.numbers c' d' := by
  cases h with
  | same =>
    cases h' with
    | same => rfl
    | functions => cases c <;> rfl
  | functions => cases h' <;> rfl

/-- Asking for two truth values does not see which functions are given. -/
theorem booleans_congr (op : BinaryOp) : op.booleans c d = op.booleans c' d' := by
  cases h with
  | same =>
    cases h' with
    | same => rfl
    | functions => cases c <;> rfl
  | functions => cases h' <;> rfl

/-- Adding does not see which functions are given. -/
theorem sum_congr : sum c d = sum c' d' := by
  cases h with
  | same =>
    cases h' with
    | same => rfl
    | functions => cases c <;> rfl
  | functions =>
    cases h' with
    | same => cases d <;> rfl
    | functions => rfl

end

/-- Equality looks at identities only if both values are functions. -/
theorem areEqual_congr {l l' r r' : Object} (hl : l.content.Similar l'.content)
    (hr : r.content.Similar r'.content)
    (h : l.content.isFunction = true → r.content.isFunction = true →
      (l.identity = r.identity ↔ l'.identity = r'.identity)) :
    areEqual l r = areEqual l' r' := by
  obtain ⟨i, c⟩ := l
  obtain ⟨i', c'⟩ := l'
  obtain ⟨j, d⟩ := r
  obtain ⟨j', d'⟩ := r'
  dsimp only at hl hr h
  have hfunctions : c.isFunction = true → d.isFunction = true →
      (.ok (i == j) : Except Refusal Bool) = .ok (i' == j') := by
    intro hc hd
    rw [Bool.eq_iff_iff.2 (beq_iff_eq.trans ((h hc hd).trans beq_iff_eq.symm))]
  -- values that are not both functions are compared by what they hold, or are of different kinds
  cases hl with
  | same =>
    cases c with
    | function =>
      cases hr with
      | same =>
        cases d with
        | function => exact hfunctions rfl rfl
        | _ => rfl
      | functions => exact hfunctions rfl rfl
    | _ =>
      cases hr with
      | same => cases d <;> rfl
      | functions => rfl
  | functions =>
    cases hr with
    | same =>
      cases d with
      | function => exact hfunctions rfl rfl
      | _ => rfl
    | functions => exact hfunctions rfl rfl

/-- Of functions, operators see only that they are functions, and their identities to tell two of
them apart. -/
theorem combine_congr {op : BinaryOp} {l l' r r' : Object} (hl : l.content.Similar l'.content)
    (hr : r.content.Similar r'.content)
    (h : op.identifies = true → l.content.isFunction = true → r.content.isFunction = true →
      (l.identity = r.identity ↔ l'.identity = r'.identity)) :
    op.combine l r = op.combine l' r' := by
  cases op <;> simp only [combine, numbers_congr hl hr, booleans_congr hl hr, sum_congr hl hr]
  -- what is left are the operators that look at identities
  case equal | notEqual => rw [areEqual_congr hl hr (h rfl)]

end BinaryOp

/-! ## Results that stay -/

/-- The second result is the same as the first, unless the first halts for a reason that does not
count. -/
def Below {α : Type} (K : Halt → Prop) (r r' : Except Halt α) : Prop :=
  r = r' ∨ ∃ h, r = .error h ∧ K h

section

variable {α β : Type} {K : Halt → Prop}

/-- A result is the same as itself. -/
theorem Below.refl (r : Except Halt α) : Below K r r :=
  .inl rfl

/-- Results that go on from the same one are the same, if all that goes on is. -/
theorem Below.bind {r r' : Except Halt α} {f f' : α → Except Halt β} (h : Below K r r')
    (hf : ∀ a, Below K (f a) (f' a)) : Below K (r >>= f) (r' >>= f') := by
  rcases h with rfl | ⟨halt, rfl, hhalt⟩
  · cases r with
    | error halt => exact .refl _
    | ok a => exact hf a
  · exact .inr ⟨halt, rfl, hhalt⟩

/-- What is found stays. -/
theorem Below.of_ok {r r' : Except Halt α} {a : α} (h : Below K r r') (ha : r = .ok a) :
    r' = .ok a := by
  rcases h with h | ⟨halt, hhalt, -⟩
  · exact h ▸ ha
  · cases ha.symm.trans hhalt

/-- A result that counts stays. -/
theorem Below.eq_of_not {r r' : Except Halt α} (h : Below K r r')
    (hr : ¬∃ halt, r = .error halt ∧ K halt) : r' = r := by
  rcases h with h | h
  · exact h.symm
  · exact absurd h hr

/-- An operator gives the same, if its right operand does. -/
theorem below_operateLazily {right right' : Except Halt Datum} (h : Below K right right')
    (op : BinaryOp) (left : Datum) (place : Option Location) :
    Below K (left.operateLazily op right place) (left.operateLazily op right' place) := by
  unfold Datum.operateLazily
  cases op.decisive? with
  | none => exact h.bind fun _ => .refl _
  | some decisive =>
    cases left.content with
    | boolean b =>
      dsimp only
      split
      · exact .refl _
      · exact h.bind fun _ => .refl _
    | _ => exact .refl _

/-- What expressions mean depends on how they are resolved and on the names of the top level only.
If a name may be missing, no halt may count. -/
theorem below_meaning {G G' : Globals} {resolve resolve' : Promise → Except Halt Datum}
    (hG : ∀ x, G.lookup x = G'.lookup x ∨ G.lookup x = none ∧ ∀ h, K h)
    (hresolve : ∀ p, Below K (resolve p) (resolve' p)) (s : Scope) (e : Expr) :
    Below K (meaning resolve G s e) (meaning resolve' G' s e) := by
  -- a name that no parameter hides is looked up at the top level
  have hfind : ∀ (s : Scope) (x : String),
      s.find? G x = s.find? G' x ∨ s.find? G x = none ∧ ∀ h, K h := by
    intro s x
    induction s with
    | top =>
      rcases hG x with h | ⟨h, hK⟩
      · exact .inl (by rw [Scope.find?, Scope.find?, h])
      · exact .inr ⟨by rw [Scope.find?, h, Option.map_none], hK⟩
    | inner y e s outer _ ih =>
      rw [Scope.find?, Scope.find?]
      by_cases hy : (x == y) = true
      · exact .inl (by rw [if_pos hy, if_pos hy])
      · rwa [if_neg hy, if_neg hy]
  -- an operand is first evaluated and then resolved
  have need : ∀ {e : Expr}, Below K (meaning resolve G s e) (meaning resolve' G' s e) →
      Below K (meaning resolve G s e >>= resolve) (meaning resolve' G' s e >>= resolve') :=
    fun h => h.bind hresolve
  induction e with
  | literal c place => exact .refl _
  | name x place =>
    rw [meaning, meaning]
    rcases hfind s x with h | ⟨h, hK⟩
    · rw [h]
      exact .refl _
    · rw [h]
      exact .inr ⟨_, rfl, hK _⟩
  | paren e _ ih => exact ih
  | arrow x e _ => exact .refl _
  | call f a place ihf => exact (need ihf).bind fun _ => .refl _
  | unary op e place ih => exact (need ih).bind fun _ => .refl _
  | binary op l r place ihl ihr =>
    exact (need ihl).bind fun left => below_operateLazily (need ihr) op left place
  | cond c t e place ihc => exact (need ihc).bind fun _ => .refl _

/-- With wider bounds, and with more names if no halt counts, resolving gives the same. -/
theorem below_resolve {G G' : Globals}
    (hG : ∀ x, G.lookup x = G'.lookup x ∨ G.lookup x = none ∧ ∀ h, K h)
    (hK : ∀ h : Stop, h.IsLimit → K (.stop h)) {fuel fuel' depth depth' : ℕ}
    (hfuel : fuel ≤ fuel') (hdepth : depth ≤ depth') (p : Promise) :
    Below K (resolve G fuel depth p) (resolve G' fuel' depth' p) := by
  induction fuel generalizing fuel' depth depth' p with
  | zero =>
    cases p with
    | kept d =>
      rw [resolve, resolve]
      exact .refl _
    | due e s => exact .inr ⟨_, by rw [resolve], hK _ (.inr rfl)⟩
  | succ fuel ih =>
    cases p with
    | kept d =>
      rw [resolve, resolve]
      exact .refl _
    | due e s =>
      cases depth with
      | zero => exact .inr ⟨_, by rw [resolve], hK _ (.inl rfl)⟩
      | succ depth =>
        obtain ⟨fuel', rfl⟩ := Nat.exists_eq_add_of_le' (Nat.lt_of_lt_of_le fuel.succ_pos hfuel)
        obtain ⟨depth', rfl⟩ := Nat.exists_eq_add_of_le' (Nat.lt_of_lt_of_le depth.succ_pos hdepth)
        rw [resolve, resolve]
        have hfuel := Nat.le_of_succ_le_succ hfuel
        -- the expression itself has one level of depth less, what it means has the same
        have hmeaning := below_meaning hG (fun p => ih hfuel (Nat.le_of_succ_le_succ hdepth) p) s e
        exact hmeaning.bind fun p => ih hfuel hdepth p

end

/-! ## No circles -/

/-- The result is not that a thunk needs itself. -/
def NoCircle {α : Type} (r : Except Halt α) : Prop :=
  ∀ stop, r = .error (.stop stop) → ¬stop.IsCircular

section

variable {α β : Type}

/-- A result is no circle. -/
theorem noCircle_ok (a : α) : NoCircle (.ok a : Except Halt α) := by
  intro stop hstop
  cases hstop

/-- There is no circle where neither the first part nor the rest has one. -/
theorem NoCircle.bind {r : Except Halt α} {f : α → Except Halt β} (hr : NoCircle r)
    (hf : ∀ a, NoCircle (f a)) : NoCircle (r >>= f) := by
  cases r with
  | error halt =>
    intro stop hstop
    cases hstop
    exact hr stop rfl
  | ok a => exact hf a

/-- A refusal stops evaluation for another reason, unless it is that a thunk needs itself. -/
theorem noCircle_refusal {refusal : Refusal} (h : refusal ≠ .cause .circular)
    (place : Option Location) :
    NoCircle (.error (.stop (refusal.stop place)) : Except Halt α) := by
  intro stop hstop
  cases hstop
  cases refusal with
  | cause c => exact fun hc => h (congrArg Refusal.cause hc)
  | domain | unnamed | incomparable => exact id

/-- Operands are not refused because a thunk needs itself. -/
theorem noCircle_of_concerns {refusal : Refusal} {operands : List Content}
    (h : refusal.Concerns operands) (place : Option Location) :
    NoCircle (.error (.stop (refusal.stop place)) : Except Halt α) := by
  refine noCircle_refusal ?_ place
  rintro rfl
  exact h

end

/-- Operators do not find circles. -/
theorem noCircle_operate (op : BinaryOp) (l r : Datum) (place : Option Location) :
    NoCircle (l.operate op r place) := by
  unfold Datum.operate
  split
  · exact fun _ hstop => nomatch hstop
  · split
    · exact noCircle_ok _
    · next h =>
      rcases BinaryOp.concerns_of_combine h with hconcerns | ⟨-, rfl⟩
      · exact noCircle_of_concerns hconcerns place
      · have hdomain : Refusal.domain ≠ .cause .circular := nofun
        exact noCircle_refusal hdomain place

/-- An operator finds no circle, if its right operand has none. -/
theorem noCircle_operateLazily {right : Except Halt Datum} (hright : NoCircle right)
    (op : BinaryOp) (left : Datum) (place : Option Location) :
    NoCircle (left.operateLazily op right place) := by
  have hkind := Refusal.concerns_ofKind (.needsBooleans op) fun _ => trivial
  unfold Datum.operateLazily
  split
  · exact hright.bind fun right => noCircle_operate op left right place
  · split
    · split
      · exact noCircle_ok _
      · refine hright.bind fun right => ?_
        split
        · exact noCircle_operate op left right place
        · exact noCircle_of_concerns (hkind _) place
    · exact noCircle_of_concerns (hkind _) place

/-- Evaluation by name finds no thunk that needs itself, if resolving does not. -/
theorem noCircle_meaning {resolve : Promise → Except Halt Datum} (h : ∀ p, NoCircle (resolve p))
    (G : Globals) (s : Scope) (e : Expr) : NoCircle (meaning resolve G s e) := by
  induction e with
  | literal c place => exact noCircle_ok _
  | name x place =>
    unfold meaning
    cases s.find? G x with
    | none =>
      have hcause : Refusal.cause (.undefined x) ≠ .cause .circular := nofun
      exact noCircle_refusal hcause place
    | some found => exact noCircle_ok _
  | paren e _ ih => exact ih
  | arrow x e _ => exact noCircle_ok _
  | call f a place ihf =>
    refine (ihf.bind h).bind fun callee => ?_
    cases callee with
    | closure => exact noCircle_ok _
    | plain c =>
      have hkind := Refusal.concerns_ofKind .notFunction (fun _ => trivial) c
      exact noCircle_of_concerns hkind place
  | unary op e place ih =>
    refine (ih.bind h).bind fun operand => ?_
    unfold Datum.operateUnary
    split
    · exact noCircle_ok _
    · next ho => exact noCircle_of_concerns (UnaryOp.concerns_of_apply ho) place
  | binary op l r place ihl ihr =>
    exact (ihl.bind h).bind fun left => noCircle_operateLazily (ihr.bind h) op left place
  | cond c t e place ihc =>
    refine (ihc.bind h).bind fun condition => ?_
    unfold Datum.choose
    split
    · exact noCircle_ok _
    · have hcause : Refusal.cause .condition ≠ .cause .circular := nofun
      exact noCircle_refusal hcause place

/-- Evaluation by name finds no thunk that needs itself: it keeps on evaluating it until it reaches
its bounds. -/
theorem noCircle_resolve (G : Globals) (fuel depth : ℕ) (p : Promise) :
    NoCircle (resolve G fuel depth p) := by
  have hlimit : ∀ stop : Stop, stop.IsLimit →
      NoCircle (.error (.stop stop) : Except Halt Datum) := by
    rintro _ (rfl | rfl) stop hstop <;> cases hstop <;> exact id
  induction fuel generalizing depth p with
  | zero =>
    cases p with
    | kept d => rw [resolve]; exact noCircle_ok d
    | due e s => rw [resolve]; exact hlimit _ (.inr rfl)
  | succ fuel ih =>
    cases p with
    | kept d => rw [resolve]; exact noCircle_ok d
    | due e s =>
      cases depth with
      | zero => rw [resolve]; exact hlimit _ (.inl rfl)
      | succ depth =>
        rw [resolve]
        exact (noCircle_meaning (ih depth) G s e).bind (ih (depth + 1))

end CallByNeed
