import CallByNeed.Proofs.ScopeSemantics
import CallByNeed.Proofs.StoreInvariant
import Mathlib.Data.List.Forall2
import Mathlib.Order.Nat

/-!
# What a store stands for

An environment of a store stands for a scope (`Denotes`), and so each value stands for a promise
(`Value.Means`). Neither changes as the store grows (`Store.Grows`), whether thunks are evaluated or
names are declared at the top level.

A store is *sound* for the declared names (`Sound`) if the top level binds exactly those, and if
every result that was kept is one that evaluation by name finds as well. What a name stands for can
then be found in the scope (`Sound.lookup`).
-/

namespace CallByNeed

/-! ## Stores that grow -/

/-- What may change in a store without touching what its values stand for. -/
structure Store.Grows (σ σ' : Store) : Prop where
  /-- No thunk is lost. -/
  size : σ.cells.size ≤ σ'.cells.size
  /-- No frame is lost. -/
  frames : σ.frames.size ≤ σ'.frames.size
  /-- Names are bound anew at the top level only. -/
  frame : ∀ i, 0 < i → i < σ.frames.size → σ'.frame i = σ.frame i
  /-- No thunk gets another expression. -/
  expr : ∀ a < σ.cells.size, (σ'.cell a).expr = (σ.cell a).expr
  /-- No thunk gets another environment. -/
  env : ∀ a < σ.cells.size, (σ'.cell a).env = (σ.cell a).env

/-- What evaluation does to a store makes it grow. -/
theorem Store.Extends.grows {σ σ' : Store} (h : σ.Extends σ') : σ.Grows σ' :=
  ⟨h.size, h.frames, fun i _ hi => h.frame i hi, h.expr, h.env⟩

/-- A store grows step by step. -/
theorem Store.Grows.trans {σ σ' σ'' : Store} (h : σ.Grows σ') (h' : σ'.Grows σ'') :
    σ.Grows σ'' where
  size := h.size.trans h'.size
  frames := h.frames.trans h'.frames
  frame i hi hlt := (h'.frame i hi (hlt.trans_le h.frames)).trans (h.frame i hi hlt)
  expr a ha := (h'.expr a (ha.trans_le h.size)).trans (h.expr a ha)
  env a ha := (h'.env a (ha.trans_le h.size)).trans (h.env a ha)

/-- A store grows when a thunk is marked or its mark is removed. -/
theorem Store.grows_setBusy (σ : Store) (a : CellId) (busy : Bool) (e : Event) :
    σ.Grows ((σ.setBusy a busy).note e) :=
  ⟨by simp [note], le_rfl, fun _ _ _ => rfl, fun b _ => by simp, fun b _ => by simp⟩

/-- A store grows when a thunk gets a result. -/
theorem Store.grows_setMemo (σ : Store) (a : CellId) (v : Value) : σ.Grows (σ.setMemo a v) :=
  ⟨by simp, le_rfl, fun _ _ _ => rfl, fun b _ => by simp, fun b _ => by simp⟩

/-- A store grows when a name is bound at the top level. -/
theorem Store.grows_bind (σ : Store) (x : String) (v : Value) :
    σ.Grows (σ.bind .global x v) where
  size := le_rfl
  frames := by simp [Store.bind]
  frame i hi _ := by rw [frame_bind, if_neg fun h => Nat.ne_of_lt hi h.1]
  expr _ _ := rfl
  env _ _ := rfl

/-! ## Scopes of environments -/

/-- An environment stands for a scope: each of its frames, the top level apart, binds one parameter
to a thunk, whose expression the parameter stands for. -/
inductive Denotes (σ : Store) : Env → Scope → Prop where
  | top : Denotes σ .global .top
  | inner {f : FrameId} {x : String} {a : CellId} {env : Env} {s outer : Scope} :
      0 < f → f < σ.frames.size → σ.frame f = [(x, .thunk a)] → a < σ.cells.size →
      Denotes σ (σ.cell a).env s → Denotes σ env outer →
      Denotes σ (env.inner f) (.inner x (σ.cell a).expr s outer)

/-- A thunk stands for an expression in a scope. -/
structure Suspends (σ : Store) (a : CellId) (e : Expr) (s : Scope) : Prop where
  lt : a < σ.cells.size
  expr : (σ.cell a).expr = e
  env : Denotes σ (σ.cell a).env s

/-- An object stands for a value without identity. -/
inductive Object.Means (σ : Store) : Object → Datum → Prop where
  | plain (i : Identity) {c : Content} : c.isFunction = false → Means σ ⟨i, c⟩ (.plain c)
  | closure (i : Identity) (x : String) (body : Expr) {env : Env} {s : Scope} :
      Denotes σ env s → Means σ ⟨i, .function x body env⟩ (.closure x body s)

/-- A value stands for a promise. -/
inductive Value.Means (σ : Store) : Value → Promise → Prop where
  | object {o : Object} {d : Datum} : o.Means σ d → Means σ (.object o) (.kept d)
  | thunk {a : CellId} {e : Expr} {s : Scope} : Suspends σ a e s → Means σ (.thunk a) (.due e s)

section

variable {σ σ' : Store}

/-- An environment keeps its scope while the store grows. -/
theorem Denotes.mono (h : σ.Grows σ') {env : Env} {s : Scope} (hs : Denotes σ env s) :
    Denotes σ' env s := by
  induction hs with
  | top => exact .top
  | @inner f x a env s outer hf hlt hframe ha _ _ ihs iho =>
    rw [← h.env a ha] at ihs
    rw [← h.expr a ha]
    exact .inner hf (hlt.trans_le h.frames) ((h.frame f hf hlt).trans hframe) (ha.trans_le h.size)
      ihs iho

/-- A thunk keeps its expression and scope while the store grows. -/
theorem Suspends.mono (h : σ.Grows σ') {a : CellId} {e : Expr} {s : Scope}
    (hs : Suspends σ a e s) : Suspends σ' a e s := by
  refine ⟨hs.lt.trans_le h.size, (h.expr a hs.lt).trans hs.expr, ?_⟩
  rw [h.env a hs.lt]
  exact hs.env.mono h

/-- An object keeps its meaning while the store grows. -/
theorem Object.Means.mono (h : σ.Grows σ') {o : Object} {d : Datum} (ho : o.Means σ d) :
    o.Means σ' d := by
  cases ho with
  | plain i hc => exact .plain i hc
  | closure i x body hs => exact .closure i x body (hs.mono h)

/-- A value keeps its meaning while the store grows. -/
theorem Value.Means.mono (h : σ.Grows σ') {v : Value} {p : Promise} (hv : v.Means σ p) :
    v.Means σ' p := by
  cases hv with
  | object ho => exact .object (ho.mono h)
  | thunk hs => exact .thunk (hs.mono h)

/-- An environment stands for one scope only. -/
theorem Denotes.unique {env : Env} {s t : Scope} (hs : Denotes σ env s) (ht : Denotes σ env t) :
    s = t := by
  -- the frame of the top level has number 0 and no other frame has, so both scopes have the same
  -- form
  induction hs generalizing t with
  | top =>
    generalize henv : Env.global = env at ht
    cases ht with
    | top => rfl
    | inner hf => exact absurd (congrArg Env.frame henv) hf.ne
  | @inner f x a env s outer hf _ hframe _ _ _ ihs iho =>
    generalize henv : env.inner f = env' at ht
    cases ht with
    | top => exact absurd (congrArg Env.frame henv) hf.ne'
    | @inner f' x' a' env'' s' outer' _ _ hframe' _ hs' ho' =>
      obtain ⟨rfl, hframes⟩ := Env.mk.inj henv
      have henv'' : env = env'' := by
        obtain ⟨hhead, htail⟩ := List.cons.inj hframes
        cases env
        cases env''
        cases hhead
        cases htail
        rfl
      subst henv''
      -- the frame holds one parameter and one thunk, so these are the same in both scopes
      rw [hframe] at hframe'
      cases hframe'
      rw [ihs hs', iho ho']

/-- A thunk stands for one expression in one scope only. -/
theorem Suspends.unique {a : CellId} {e e' : Expr} {s s' : Scope} (h : Suspends σ a e s)
    (h' : Suspends σ a e' s') : e = e' ∧ s = s' :=
  ⟨h.expr.symm.trans h'.expr, h.env.unique h'.env⟩

/-- Only the top level stands for the scope without parameters. -/
theorem Denotes.eq_global {env : Env} (h : Denotes σ env .top) : env = .global := by
  cases h
  rfl

end

/-! ## Sound stores -/

/-- Names are looked up alike in lists that bind the same names in the same order. -/
theorem rel_lookup {α β : Type} {R : α → β → Prop} {l : List (String × α)}
    {m : List (String × β)} (h : List.Forall₂ (fun b g => b.1 = g.1 ∧ R b.2 g.2) l m)
    (x : String) : Option.Rel R (l.lookup x) (m.lookup x) := by
  induction h with
  | nil => exact .none
  | @cons b g l m hb _ ih =>
    obtain ⟨⟨y, v⟩, ⟨z, e⟩⟩ := b, g
    obtain ⟨rfl, hv⟩ := hb
    rw [List.lookup_cons, List.lookup_cons]
    cases x == y with
    | true => exact .some hv
    | false => exact ih

/-- The top level binds the declared names, and every result that was kept is what evaluation by
name gives. -/
structure Sound (G : Globals) (σ : Store) : Prop where
  /-- Marks, results and log fit together. -/
  ok : σ.Ok fun _ => True
  /-- There is a top level. -/
  nonempty : 0 < σ.frames.size
  /-- The top level binds the declared names, in order. -/
  globals : List.Forall₂ (fun b g => b.1 = g.1 ∧ ∃ a, b.2 = .thunk a ∧ Suspends σ a g.2 .top)
    (σ.frame 0) G
  /-- What was kept is what is found with some bounds. -/
  memo : ∀ a v, (σ.cell a).memo = some v → ∃ e s p n,
    Suspends σ a e s ∧ meaning (resolve G n n) G s e = .ok p ∧ v.Means σ p

namespace Sound

variable {G : Globals} {σ σ' : Store}

/-- The empty store is sound: it has no results. -/
theorem empty : Sound [] .empty where
  ok := Store.ok_empty
  nonempty := Nat.one_pos
  globals := .nil
  memo a v h := by simp [Store.empty, Store.cell, default] at h

/-- A store stays sound as it grows, if each new result is one that is found. -/
theorem of_grows (h : Sound G σ) (hok : σ'.Ok fun _ => True) (hgrows : σ.Grows σ')
    (hframe : σ'.frame 0 = σ.frame 0)
    (hmemo : ∀ a v, (σ'.cell a).memo = some v → (σ.cell a).memo = some v ∨
      ∃ e s p n, Suspends σ a e s ∧ meaning (resolve G n n) G s e = .ok p ∧ v.Means σ p) :
    Sound G σ' where
  ok := hok
  nonempty := h.nonempty.trans_le hgrows.frames
  globals := by
    rw [hframe]
    refine h.globals.imp ?_
    rintro _ _ ⟨hx, a, ha, hs⟩
    exact ⟨hx, a, ha, hs.mono hgrows⟩
  memo a v hv := by
    obtain ⟨e, s, p, n, hs, hp, hv⟩ := (hmemo a v hv).elim (h.memo a v) id
    exact ⟨e, s, p, n, hs.mono hgrows, hp, hv.mono hgrows⟩

/-- Whatever leaves the results alone keeps a store sound. -/
theorem of_extends (h : Sound G σ) (hok : σ'.Ok fun _ => True) (hext : σ.Extends σ')
    (hmemo : ∀ a v, (σ'.cell a).memo = some v → (σ.cell a).memo = some v) : Sound G σ' :=
  h.of_grows hok hext.grows (hext.frame 0 h.nonempty) fun a v hv => .inl (hmemo a v hv)

/-- A new thunk keeps a store sound, as it has no result yet. -/
theorem newThunk (h : Sound G σ) (e : Expr) (env : Env) : Sound G (σ.newThunk e env).2 := by
  refine h.of_extends (h.ok.newThunk trivial env) (Store.extends_newThunk e env) fun a v hv => ?_
  rw [Store.cell_newThunk] at hv
  split at hv
  · cases hv
  · exact hv

/-- A new frame keeps a store sound. -/
theorem newFrame (h : Sound G σ) {f : Frame} (hf : ∀ b ∈ f, b.2.Ok (fun _ => True) σ) :
    Sound G (σ.newFrame f).2 :=
  h.of_extends (h.ok.newFrame hf) (Store.extends_newFrame f) fun _ _ hv => hv

/-- A new object keeps a store sound. -/
theorem newObject (h : Sound G σ) (c : Content) : Sound G (σ.newObject c).2 :=
  h.of_extends (h.ok.newObject c) (Store.extends_newObject c) fun _ _ hv => hv

/-- Noting that an operator was applied keeps a store sound. -/
theorem noteCombined (h : Sound G σ) (op : BinaryOp) (l r : Object) :
    Sound G (σ.note (.combined op l r)) :=
  h.of_extends (h.ok.noteCombined op l r) (Store.extends_note _) fun _ _ hv => hv

/-! ## Names -/

/-- The top level binds a name if and only if it is declared, and then to its expression. -/
theorem lookup_frame (h : Sound G σ) (x : String) :
    match G.lookup x with
    | some e => ∃ a, (σ.frame 0).lookup x = some (.thunk a) ∧ Suspends σ a e .top
    | none => (σ.frame 0).lookup x = none := by
  have hx := rel_lookup (R := fun v e => ∃ a, v = Value.thunk a ∧ Suspends σ a e .top) h.globals x
  generalize G.lookup x = e at hx ⊢
  generalize (σ.frame 0).lookup x = v at hx ⊢
  cases hx with
  | none => rfl
  | some hv =>
    obtain ⟨a, rfl, hs⟩ := hv
    exact ⟨a, rfl, hs⟩

/-- A name stands for a thunk of what it stands for in the scope. -/
theorem lookup (h : Sound G σ) {env : Env} {s : Scope} (hs : Denotes σ env s) (x : String) :
    match s.find? G x with
    | some (e, s') => ∃ a, σ.lookup env x = some (.thunk a) ∧ Suspends σ a e s'
    | none => σ.lookup env x = none := by
  induction hs with
  | top =>
    -- bindings at the top level are thunks, so that none of them counts as absent
    have hframe := h.lookup_frame x
    have hlookup : σ.lookup .global x = ((σ.frame 0).lookup x).bind Value.present? := by
      cases hx : (σ.frame 0).lookup x <;>
        simp [Store.lookup, Store.binding?, Env.global, Env.frames, hx]
    rw [Scope.find?, hlookup]
    cases hx : G.lookup x with
    | none =>
      rw [hx] at hframe
      rw [hframe]
      rfl
    | some e =>
      rw [hx] at hframe
      obtain ⟨a, ha, hs⟩ := hframe
      rw [ha]
      exact ⟨a, rfl, hs⟩
  | @inner f y a env s outer hf _ hframe ha hs _ _ ih =>
    -- the innermost frame is searched first, and it holds one parameter
    have hlookup : σ.lookup (env.inner f) x =
        if x == y then some (.thunk a) else σ.lookup env x := by
      have hfound : (σ.frame f).lookup x = if x == y then some (.thunk a) else none := by
        rw [hframe, List.lookup_cons, List.lookup_nil]
        cases x == y <;> rfl
      rw [Store.lookup, Store.binding?, Env.frames, List.findSome?_cons]
      simp only [Env.inner, hfound]
      cases x == y <;> rfl
    rw [Scope.find?, hlookup]
    by_cases hx : (x == y) = true
    · rw [if_pos hx, if_pos hx]
      exact ⟨a, rfl, ha, rfl, hs⟩
    · rw [if_neg hx, if_neg hx]
      exact ih

/-- A name is taken at the top level if and only if it is declared. -/
theorem contains_global (h : Sound G σ) (x : String) :
    σ.contains .global x = (G.lookup x).isSome := by
  have hlookup := h.lookup .top x
  rw [Scope.find?] at hlookup
  rw [Store.contains]
  cases hx : G.lookup x with
  | none =>
    rw [hx] at hlookup
    rw [show σ.lookup .global x = none from hlookup]
    rfl
  | some e =>
    rw [hx] at hlookup
    obtain ⟨a, ha, -⟩ := hlookup
    rw [ha]
    rfl

/-- Declaring a new name keeps a store sound: what was found without it is still found. -/
theorem declare (h : Sound G σ) {x : String} (hx : G.lookup x = none) (e : Expr) :
    Sound ((x, e) :: G) ((σ.newThunk e .global).2.bind .global x (.thunk σ.cells.size)) := by
  have hgrows : σ.Grows ((σ.newThunk e .global).2.bind .global x (.thunk σ.cells.size)) :=
    (Store.extends_newThunk e .global).grows.trans (Store.grows_bind _ x _)
  have hsize : σ.cells.size < (σ.newThunk e .global).2.cells.size := by simp
  -- all other names stand for what they did before, and the new one stood for nothing
  have hG : ∀ y, G.lookup y = ((x, e) :: G).lookup y ∨
      G.lookup y = none ∧ ∀ _ : Halt, True := by
    intro y
    rw [List.lookup_cons]
    by_cases hy : (y == x) = true
    · exact .inr ⟨by rw [eq_of_beq hy, hx], fun _ => trivial⟩
    · rw [Bool.not_eq_true] at hy
      exact .inl (by rw [hy])
  refine ⟨(h.ok.newThunk trivial .global).bind .global x hsize, ?_, ?_, fun a v hv => ?_⟩
  · exact h.nonempty.trans_le hgrows.frames
  · -- the name is not bound yet, so that nothing is removed from the frame
    have hframe : ((σ.newThunk e .global).2.bind .global x (.thunk σ.cells.size)).frame 0 =
        (x, .thunk σ.cells.size) :: σ.frame 0 := by
      rw [Store.frame_bind, if_pos ⟨rfl, h.nonempty⟩, Frame.bind]
      congr 1
      refine List.filter_eq_self.2 fun b hb => ?_
      have hnone := h.lookup_frame x
      rw [hx] at hnone
      have hne := List.lookup_eq_none_iff.1 hnone b hb
      exact bne_iff_ne.2 (bne_iff_ne.1 hne).symm
    rw [hframe]
    refine .cons ⟨rfl, σ.cells.size, rfl, hsize, ?_, ?_⟩ ?_
    · rw [Store.cell_bind, Store.cell_newThunk_self]
    · rw [Store.cell_bind, Store.cell_newThunk_self]
      exact .top
    · refine h.globals.imp ?_
      rintro _ _ ⟨hy, a, ha, hs⟩
      exact ⟨hy, a, ha, hs.mono hgrows⟩
  · -- the new thunk has no result, and what the others keep is found with more names as well
    rw [Store.cell_bind, Store.cell_newThunk] at hv
    split at hv
    · cases hv
    obtain ⟨e', s, p, n, hs, hp, hv⟩ := h.memo a v hv
    refine ⟨e', s, p, n, hs.mono hgrows, ?_, hv.mono hgrows⟩
    exact (below_meaning hG (fun p => below_resolve hG (fun _ _ => trivial) le_rfl le_rfl p) s
      e').of_ok hp

end Sound

end CallByNeed
