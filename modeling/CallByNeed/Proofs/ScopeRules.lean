import CallByNeed.Proofs.ForceSimulation

/-!
# The rules of evaluation by name

Evaluation without a store is bounded (`meaning`, `resolve`). Which value an expression has, within
some bounds, is said here by rules (`Gives`), without bounds and as far as an object in one step, so
that what holds of values can be shown by induction on how they are found.

The rules find a value if and only if evaluation does within wide enough bounds
(`gives_iff_eventually`).
-/

namespace CallByNeed

open Filter

/-- An expression has a value in a scope. -/
inductive Gives (G : Globals) : Expr → Scope → Datum → Prop where
  | literal (c : Constant) (p : Option Location) (s : Scope) :
      Gives G (.literal c p) s (.plain (.ofConstant c))
  /-- A name has the value of what it stands for, in the scope of that. -/
  | name {x : String} {e : Expr} {s s' : Scope} {d : Datum} (p : Option Location) :
      s.find? G x = some (e, s') → Gives G e s' d → Gives G (.name x p) s d
  | paren {e : Expr} {s : Scope} {d : Datum} (p : Option Location) :
      Gives G e s d → Gives G (.paren e p) s d
  | arrow (x : String) (e : Expr) (p : Option Location) (s : Scope) :
      Gives G (.arrow x e p) s (.closure x e s)
  /-- The body of a function sees the scope of the function, and its parameter. -/
  | call {f a body : Expr} {s outer : Scope} {x : String} {d : Datum} (p : Option Location) :
      Gives G f s (.closure x body outer) → Gives G body (.inner x a s outer) d →
      Gives G (.call f a p) s d
  | unary {op : UnaryOp} {e : Expr} {s : Scope} {d : Datum} {c : Content} (p : Option Location) :
      Gives G e s d → op.apply d.content = .ok c → Gives G (.unary op e p) s (.plain c)
  /-- The left operand may decide the result. -/
  | decided {op : BinaryOp} {l r : Expr} {s : Scope} {d : Datum} {b : Bool}
      (p : Option Location) : op.decisive? = some b → Gives G l s d → d.content = .boolean b →
      Gives G (.binary op l r p) s d
  /-- If it does not, both operands are needed. -/
  | binary {op : BinaryOp} {l r : Expr} {s : Scope} {d d₁ d₂ : Datum} (p : Option Location) :
      Gives G l s d₁ → Gives G r s d₂ →
      (∀ b, op.decisive? = some b →
        d₁.content = .boolean (!b) ∧ ∃ c, d₂.content = .boolean c) →
      d₁.operate op d₂ p = .ok (.kept d) → Gives G (.binary op l r p) s d
  | cond {c t e : Expr} {s : Scope} {d₁ d : Datum} {b : Bool} (p : Option Location) :
      Gives G c s d₁ → d₁.content = .boolean b → Gives G (if b then t else e) s d →
      Gives G (.cond c t e p) s d

/-- A promise has a value. -/
def Promise.Gives (G : Globals) : Promise → Datum → Prop
  | kept d, d' => d = d'
  | due e s, d => CallByNeed.Gives G e s d

section

variable {G : Globals}

/-- What goes on from a result has a result only if that is there. -/
theorem exists_of_bind_eq_ok {ε α β : Type} {x : Except ε α} {f : α → Except ε β} {b : β}
    (h : x >>= f = .ok b) : ∃ a, x = .ok a ∧ f a = .ok b := by
  cases x with
  | error e => cases h
  | ok a => exact ⟨a, rfl, h⟩

/-- Operators between two values give no promises. -/
theorem Datum.exists_of_operate {op : BinaryOp} {l r : Datum} {place : Option Location}
    {p : Promise} (h : l.operate op r place = .ok p) : ∃ c, p = .kept (.plain c) := by
  unfold Datum.operate at h
  split at h
  · cases h
  · split at h
    · cases h
      exact ⟨_, rfl⟩
    · cases h

/-! ## What is found follows the rules -/

/-- What an expression means follows the rules, if what is resolved does. -/
theorem gives_of_meaning {resolve : Promise → Except Halt Datum}
    (hresolve : ∀ p d, resolve p = .ok d → p.Gives G d) {s : Scope} {e : Expr} {p : Promise}
    (h : meaning resolve G s e = .ok p) {d : Datum} (hp : p.Gives G d) : Gives G e s d := by
  -- the value of an operand follows the rules, if what the operand means does
  have need : ∀ {e : Expr} {d : Datum},
      (∀ {p}, meaning resolve G s e = .ok p → ∀ {d}, p.Gives G d → Gives G e s d) →
      meaning resolve G s e >>= resolve = .ok d → Gives G e s d := by
    intro e d ih h
    obtain ⟨p, hp, hd⟩ := exists_of_bind_eq_ok h
    exact ih hp (hresolve p d hd)
  induction e generalizing p d with
  | literal c place =>
    cases h
    cases hp
    exact .literal c place s
  | name x place =>
    unfold meaning at h
    cases hfind : s.find? G x with
    | none => rw [hfind] at h; cases h
    | some found =>
      rw [hfind] at h
      cases h
      exact .name place hfind hp
  | paren e place ih => exact .paren place (ih h hp)
  | arrow x e place =>
    cases h
    cases hp
    exact .arrow x e place s
  | call f a place ihf =>
    obtain ⟨callee, hf, h⟩ := exists_of_bind_eq_ok h
    cases callee with
    | plain c => cases h
    | closure x body outer =>
      cases h
      exact .call place (need ihf hf) hp
  | unary op e place ih =>
    obtain ⟨operand, he, h⟩ := exists_of_bind_eq_ok h
    unfold Datum.operateUnary at h
    cases hc : op.apply operand.content with
    | error refusal => rw [hc] at h; cases h
    | ok c =>
      rw [hc] at h
      cases h
      cases hp
      exact .unary place (need ih he) hc
  | binary op l r place ihl ihr =>
    obtain ⟨left, hl, h⟩ := exists_of_bind_eq_ok h
    -- an operator that needs both operands gives a value
    have both : ∀ {right : Datum},
        (∀ b, op.decisive? = some b →
          left.content = .boolean (!b) ∧ ∃ c, right.content = .boolean c) →
        meaning resolve G s r >>= resolve = .ok right → left.operate op right place = .ok p →
        Gives G (.binary op l r place) s d := by
      intro right hop hr h
      obtain ⟨c, rfl⟩ := Datum.exists_of_operate h
      cases hp
      exact .binary place (need ihl hl) (need ihr hr) hop h
    unfold Datum.operateLazily at h
    cases hdecisive : op.decisive? with
    | none =>
      rw [hdecisive] at h
      obtain ⟨right, hr, h⟩ := exists_of_bind_eq_ok h
      refine both (fun b hb => ?_) hr h
      rw [hdecisive] at hb
      cases hb
    | some decisive =>
      rw [hdecisive] at h
      cases hc : left.content with
      | boolean b =>
        rw [hc] at h
        dsimp only at h
        split at h
        · next hb =>
          cases h
          cases hp
          exact .decided place hdecisive (need ihl hl) (hb ▸ hc)
        · next hb =>
          obtain ⟨right, hr, h⟩ := exists_of_bind_eq_ok h
          cases hc' : right.content with
          | boolean b' =>
            rw [hc'] at h
            refine both (fun _ hsome => ?_) hr h
            cases hdecisive.symm.trans hsome
            exact ⟨by rw [hc, Bool.eq_not_of_ne hb], b', hc'⟩
          | _ => rw [hc'] at h; cases h
      | _ => rw [hc] at h; cases h
  | cond c t e place ihc =>
    obtain ⟨condition, hcondition, h⟩ := exists_of_bind_eq_ok h
    unfold Datum.choose at h
    cases hc : condition.content with
    | boolean b =>
      rw [hc] at h
      cases h
      exact .cond place (need ihc hcondition) hc hp
    | _ => rw [hc] at h; cases h

/-- What is resolved within bounds follows the rules. -/
theorem gives_of_resolve {fuel depth : ℕ} {p : Promise} {d : Datum}
    (h : resolve G fuel depth p = .ok d) : p.Gives G d := by
  induction fuel generalizing depth p d with
  | zero =>
    cases p with
    | kept d' => rw [resolve] at h; cases h; rfl
    | due e s => rw [resolve] at h; cases h
  | succ fuel ih =>
    cases p with
    | kept d' => rw [resolve] at h; cases h; rfl
    | due e s =>
      cases depth with
      | zero => rw [resolve] at h; cases h
      | succ depth =>
        rw [resolve] at h
        obtain ⟨p, hp, hd⟩ := exists_of_bind_eq_ok h
        exact gives_of_meaning (fun _ _ => ih) hp (ih hd)

/-! ## What follows the rules is found -/

/-- What follows the rules is found within wide bounds. -/
theorem Gives.eventually {e : Expr} {s : Scope} {d : Datum} (h : Gives G e s d) :
    ∀ᶠ m in atTop, meaning (resolve G m m) G s e >>= resolve G m m = .ok d := by
  have hkept : ∀ m (d : Datum), resolve G m m (.kept d) = .ok d := fun m d => by rw [resolve]
  -- a thunk for an expression needs a little more
  have hdue : ∀ {e : Expr} {s : Scope} {d : Datum},
      (∀ᶠ m in atTop, meaning (resolve G m m) G s e >>= resolve G m m = .ok d) →
      ∀ᶠ m in atTop, resolve G m m (.due e s) = .ok d :=
    eventually_resolve (by rintro ⟨_, hfalse, -⟩; cases hfalse)
  induction h with
  | literal c p s => exact .of_forall fun m => hkept m _
  | @name x e s s' d p hfind _ ih =>
    filter_upwards [hdue ih] with m hm
    rw [meaning, hfind]
    exact hm
  | paren p _ ih => exact ih
  | arrow x e p s => exact .of_forall fun m => hkept m _
  | call p _ _ ihf ihbody =>
    filter_upwards [ihf, hdue ihbody] with m hf hbody
    rw [meaning, hf]
    exact hbody
  | @unary op e s d c p _ hc ih =>
    filter_upwards [ih] with m hm
    rw [meaning, hm]
    change Datum.operateUnary op d p >>= _ = _
    rw [Datum.operateUnary, hc]
    exact hkept m _
  | @decided op l r s d b p hdecisive _ hb ih =>
    filter_upwards [ih] with m hm
    rw [meaning, hm]
    change Datum.operateLazily op d _ p >>= _ = _
    rw [Datum.operateLazily, hdecisive, hb]
    dsimp only
    rw [if_pos rfl]
    exact hkept m _
  | @binary op l r s d d₁ d₂ p _ _ hop hd ihl ihr =>
    filter_upwards [ihl, ihr] with m hl hr
    rw [meaning, hl]
    change Datum.operateLazily op d₁ _ p >>= _ = _
    have hoperate : Datum.operateLazily op d₁ (.ok d₂) p = .ok (.kept d) := by
      unfold Datum.operateLazily
      cases hdecisive : op.decisive? with
      | none => exact hd
      | some decisive =>
        obtain ⟨hleft, c, hright⟩ := hop decisive hdecisive
        rw [hleft]
        dsimp only
        rw [if_neg (by cases decisive <;> decide)]
        simp only [Bind.bind, Except.bind, hright]
        exact hd
    rw [hr, hoperate]
    exact hkept m d
  | @cond c t e s d₁ d b p _ hb _ ihc ihbranch =>
    filter_upwards [ihc, hdue ihbranch] with m hc hbranch
    rw [meaning, hc]
    change Datum.choose d₁ t e s p >>= _ = _
    rw [Datum.choose, hb]
    exact hbranch

/-- An expression has a value by the rules, if and only if evaluation finds it within wide
bounds. -/
theorem gives_iff_eventually {e : Expr} {s : Scope} {d : Datum} :
    Gives G e s d ↔ ∀ᶠ m in atTop, meaning (resolve G m m) G s e >>= resolve G m m = .ok d := by
  refine ⟨Gives.eventually, fun h => ?_⟩
  obtain ⟨m, hm⟩ := h.exists
  obtain ⟨p, hp, hd⟩ := exists_of_bind_eq_ok hm
  exact gives_of_meaning (fun _ _ => gives_of_resolve) hp (gives_of_resolve hd)

end

end CallByNeed
