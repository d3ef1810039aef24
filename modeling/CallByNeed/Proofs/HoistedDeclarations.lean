import CallByNeed.Proofs.RenumberedRuns
import CallByNeed.Proofs.SessionPieces
import Mathlib.Data.List.Perm.Basic

/-!
# Declarations may come first

A program that comes to its end does the same if all of its declarations are moved to the front, in
whatever order (`hoisting_preserves_outputs`). Declaring a name evaluates nothing. So after the
declarations there is an untouched thunk for each name (`Store.Prepared`), and when the original
program comes to declare a name, its new thunk and the one that has been waiting are the same from
then on (`Store.Mirrors.declare`). Otherwise both runs do the same, with other numbers for their
thunks (`mimics_value`).

The statements may stand at other places than in the original program, because a run does not depend
on places. Expansions are left out: they show which names are declared.
-/

namespace CallByNeed

/-- The name and the expression that a statement declares, if it does. -/
def Statement.declaration? : Statement → Option (String × Expr)
  | declare x e _ => some (x, e)
  | output _ _ _ => none

/-- Whether a statement declares a name. -/
def Statement.declares (s : Statement) : Bool :=
  s.declaration?.isSome

/-- The second list has the statements of the first: the declarations come first, in any order, and
then the outputs in the order they had. Places do not count. -/
def Hoists (ss ts : List Statement) : Prop :=
  ∃ ds os, ts = ds ++ os ∧
    (ds.map Statement.unplaced).Perm ((ss.filter Statement.declares).map Statement.unplaced) ∧
    os.map Statement.unplaced = (ss.filter fun s => !s.declares).map Statement.unplaced

/-- The names that statements declare, with their expressions. -/
def declarations (ss : List Statement) : List (String × Expr) :=
  ss.filterMap Statement.declaration?

/-! ## Names are declared once -/

section

variable {limits : Limits} {σ σ' : Store} {x : String}

/-- A name that stands for something does so after a statement, too. -/
theorem Store.Rooted.contains_execute (hσ : σ.Rooted) (hx : σ.contains .global x = true)
    {s : Statement} {o : Option Object} (hs : s.execute limits.force .global σ = .ok o σ') :
    σ'.contains .global x = true := by
  obtain ⟨v, hv⟩ := Option.isSome_iff_exists.1 hx
  have hpersists : σ.Persists σ' := by
    rcases s with ⟨y, e, place⟩ | ⟨o, e, place⟩
    · rw [Statement.execute_declare] at hs
      cases hy : σ.contains .global y with
      | true =>
        rw [hy, if_pos rfl] at hs
        cases hs
      | false =>
        rw [hy, if_neg Bool.false_ne_true] at hs
        cases hs
        exact hσ.persists_declare hy e
    · have hgrown := (limits.output_rooted hσ o e place).rooted.2
      rw [leftBy_of_ok hs] at hgrown
      exact hgrown.toPersists
  rw [Store.contains, hpersists.lookup hσ σ.hasEnv_global hv]
  rfl

/-- If a run comes to its end, it declares no name that stood for something before. -/
theorem Store.Rooted.not_mem_declarations (hσ : σ.Rooted) (hx : σ.contains .global x = true)
    {ss : List Statement} (hended : (CallByNeed.execute limits.force .global ss σ).stop = none) :
    x ∉ (declarations ss).map Prod.fst := by
  induction ss generalizing σ with
  | nil => exact List.not_mem_nil
  | cons s ss ih =>
    cases hs : s.execute limits.force .global σ with
    | error stop σ' =>
      rw [execute_cons_of_error hs] at hended
      cases hended
    | ok o σ' =>
      rw [execute_cons_of_ok hs] at hended
      have hrooted := hσ.execute limits s
      rw [leftBy_of_ok hs] at hrooted
      have hrest := ih hrooted (hσ.contains_execute hx hs) hended
      rcases s with ⟨y, e, place⟩ | ⟨o, e, place⟩
      · rintro (_ | ⟨_, hmem⟩)
        · -- a name that is taken ends the run
          rw [execute_declare_taken _ hx] at hs
          cases hs
        · exact hrest hmem
      · exact hrest

/-- A run that comes to its end declares each name once. -/
theorem Store.Rooted.nodup_declarations (hσ : σ.Rooted) {ss : List Statement}
    (hended : (CallByNeed.execute limits.force .global ss σ).stop = none) :
    ((declarations ss).map Prod.fst).Nodup := by
  induction ss generalizing σ with
  | nil => exact List.nodup_nil
  | cons s ss ih =>
    cases hs : s.execute limits.force .global σ with
    | error stop σ' =>
      rw [execute_cons_of_error hs] at hended
      cases hended
    | ok o σ' =>
      rw [execute_cons_of_ok hs] at hended
      have hrooted := hσ.execute limits s
      rw [leftBy_of_ok hs] at hrooted
      rcases s with ⟨y, e, place⟩ | ⟨o, e, place⟩
      · refine List.nodup_cons.2 ⟨hrooted.not_mem_declarations ?_ hended, ih hrooted hended⟩
        cases hy : σ.contains .global y with
        | true =>
          rw [execute_declare_taken _ hy] at hs
          cases hs
        | false =>
          rw [execute_declare_new _ hy] at hs
          cases hs
          rw [Store.contains, hσ.lookup_declared hy e σ.hasEnv_global, beq_self_eq_true, if_pos rfl]
          cases σ.lookup .global y <;> rfl
      · exact ih hrooted hended

end

/-! ## Declarations first -/

namespace Store

/-- There is an untouched thunk for each of the declarations, and nothing else. -/
structure Prepared (ds : List (String × Expr)) (τ : Store) : Prop where
  rooted : τ.Rooted
  frames : τ.frames.size = 1
  made : τ.made = 0
  awaits : ∀ x e, (x, e) ∈ ds → ∃ b, τ.Awaits x e b
  /-- Different names have different thunks. -/
  apart : ∀ x y b, (τ.frame 0).lookup x = some (.thunk b) →
    (τ.frame 0).lookup y = some (.thunk b) → x = y
  /-- Only declared names are bound. -/
  names : ∀ x v, (τ.frame 0).lookup x = some v → x ∈ ds.map Prod.fst

section

variable {ds : List (String × Expr)} {σ τ : Store} {x : String} {e : Expr}

/-- The empty store is prepared for no declarations. -/
theorem prepared_empty : Store.empty.Prepared [] where
  rooted := rooted_empty
  frames := rfl
  made := rfl
  awaits _ _ h := absurd h List.not_mem_nil
  apart _ _ _ h := by cases h
  names _ _ h := by cases h

/-- A new declaration binds its name at the top level and leaves the others. -/
theorem Rooted.lookup_top_declared (h : τ.Rooted) (hx : τ.contains .global x = false) (e : Expr)
    (y : String) :
    ((τ.declared x e).frame 0).lookup y =
      if y = x then some (.thunk τ.cells.size) else (τ.frame 0).lookup y := by
  rw [declared, h.frame_declare hx, List.lookup_cons]
  by_cases hyx : y = x
  · rw [if_pos hyx, hyx, beq_self_eq_true]
  · rw [if_neg hyx, beq_false_of_ne hyx]

/-- A name that is not among those prepared for is not bound. -/
theorem Prepared.contains_eq_false (h : τ.Prepared ds) (hx : x ∉ ds.map Prod.fst) :
    τ.contains .global x = false := by
  rw [Store.contains, Store.lookup, binding?_global]
  cases hv : (τ.frame 0).lookup x with
  | none => rfl
  | some v => exact absurd (h.names x v hv) hx

/-- Another declaration adds an untouched thunk. -/
theorem Prepared.declared (h : τ.Prepared ds) (hx : x ∉ ds.map Prod.fst) (e : Expr) :
    (τ.declared x e).Prepared (ds ++ [(x, e)]) := by
  have hnew := h.contains_eq_false hx
  have hlookup := h.rooted.lookup_top_declared hnew e
  have hsize : (τ.declared x e).cells.size = τ.cells.size + 1 := by
    simp [Store.declared, Store.bind]
  refine ⟨h.rooted.declare hnew e, ?_, h.made, fun y f hy => ?_, fun y z b hy hz => ?_,
    fun y v hy => ?_⟩
  · rw [← h.frames]
    simp [Store.declared, Store.bind, Store.newThunk]
  · rcases List.mem_append.1 hy with hmem | hmem
    · obtain ⟨b, hb⟩ := h.awaits y f hmem
      have hyx : y ≠ x := by
        rintro rfl
        exact hx (List.mem_map_of_mem hmem)
      refine ⟨b, ⟨hsize ▸ Nat.lt_succ_of_lt hb.lt, ?_, ?_⟩⟩
      · rw [hlookup, if_neg hyx, hb.lookup]
      · rw [Store.declared, cell_bind, cell_newThunk_of_lt τ hb.lt, hb.cell]
    · cases List.mem_singleton.1 hmem
      refine ⟨τ.cells.size, ⟨hsize ▸ Nat.lt_succ_self _, ?_, ?_⟩⟩
      · rw [hlookup, if_pos rfl]
      · rw [Store.declared, cell_bind, cell_newThunk_self]
  · -- the new thunk has a number that no other one has
    rw [hlookup] at hy hz
    split at hy <;> split at hz
    · next hyx hzx => rw [hyx, hzx]
    · cases hy
      obtain ⟨a, ha, heq⟩ := h.rooted.exists_of_lookup_top hz
      cases heq
      exact absurd ha (Nat.lt_irrefl _)
    · cases hz
      obtain ⟨a, ha, heq⟩ := h.rooted.exists_of_lookup_top hy
      cases heq
      exact absurd ha (Nat.lt_irrefl _)
    · exact h.apart y z b hy hz
  · rw [List.map_append, List.mem_append]
    rw [hlookup] at hy
    split at hy
    · next hyx => exact .inr (hyx ▸ List.mem_singleton_self x)
    · exact .inl (h.names y v hy)

/-- Declarations of different names come to their end and output nothing. -/
theorem Prepared.execute (h : τ.Prepared ds) (force : Value → Eval Object) {ss : List Statement}
    (hss : ∀ s ∈ ss, s.declares = true)
    (hnodup : ((ds ++ declarations ss).map Prod.fst).Nodup) :
    ∃ τ', CallByNeed.execute force .global ss τ = ⟨[], none, τ'⟩ ∧
      τ'.Prepared (ds ++ declarations ss) := by
  induction ss generalizing ds τ with
  | nil => exact ⟨τ, rfl, by rwa [declarations, List.filterMap_nil, List.append_nil]⟩
  | cons s ss ih =>
    rcases s with ⟨x, e, place⟩ | ⟨o, e, place⟩
    · rw [show declarations (.declare x e place :: ss) = (x, e) :: declarations ss from rfl,
        List.append_cons] at hnodup ⊢
      have hx : x ∉ ds.map Prod.fst := by
        rw [List.append_assoc, List.map_append] at hnodup
        exact fun hmem => List.disjoint_of_nodup_append hnodup hmem List.mem_cons_self
      obtain ⟨τ', hrun, hτ'⟩ :=
        ih (h.declared hx e) (fun s hs => hss s (List.mem_cons_of_mem _ hs)) hnodup
      refine ⟨τ', ?_, hτ'⟩
      rw [execute_cons_of_ok (execute_declare_new force (h.contains_eq_false hx) e place), hrun]
      rfl
    · cases hss _ List.mem_cons_self

/-- Before the original program begins, all of its declarations are waiting. -/
theorem Prepared.mirrors (h : τ.Prepared ds) {waiting : List (String × Expr)}
    (hwaiting : waiting ⊆ ds) : Store.empty.Mirrors id waiting τ where
  rooted := rooted_empty
  frames := h.frames
  made := h.made
  frame i hi := by
    have hempty : Store.empty.frames.size ≤ i := hi
    rw [frame_of_size_le (h.frames.trans_le hi), frame_of_size_le hempty]
    rfl
  top _ _ hx := by cases hx
  lt _ ha := absurd ha (Nat.not_lt_zero _)
  cell _ ha := absurd ha (Nat.not_lt_zero _)
  injective _ ha := absurd ha (Nat.not_lt_zero _)
  awaits x e hx := by
    obtain ⟨b, hb⟩ := h.awaits x e (hwaiting hx)
    exact ⟨b, hb, fun a ha => absurd ha (Nat.not_lt_zero a)⟩
  apart := h.apart

/-- When a name is declared at last, its thunk is the one that has been waiting. -/
theorem Mirrors.declare {ren : CellId → CellId} {waiting : List (String × Expr)}
    (h : σ.Mirrors ren ((x, e) :: waiting) τ) (hx : σ.contains .global x = false)
    (hwaiting : x ∉ waiting.map Prod.fst) :
    ∃ ren', (σ.declared x e).Mirrors ren' waiting τ := by
  obtain ⟨b, hb, hfree⟩ := h.awaits x e List.mem_cons_self
  have hrooted : (σ.declared x e).Rooted := h.rooted.declare hx e
  refine ⟨_, h.pairCell hrooted ?_ h.made hb.lt hfree rfl ?_ le_rfl
    (cell_newThunk e .global) hb.cell (fun _ _ _ => rfl) (fun i hi => ?_) (fun y v hy => ?_)
    (fun y f hy => ?_) h.apart⟩
  · rw [h.frames]
    simp [Store.declared, Store.bind, Store.newThunk]
  · simp [Store.declared, Store.bind]
  · rw [Store.declared, frame_bind, if_neg fun hand => hi.ne hand.1, h.frame i hi]
    exact (h.rooted.renumber_frame (fun a ha => Function.update_of_ne ha.ne _ _) i).symm
  · rw [h.rooted.lookup_top_declared hx] at hy
    split at hy
    · next hyx =>
      cases hy
      rw [hyx, hb.lookup, Value.renumber, Function.update_self]
    · obtain ⟨a, ha, rfl⟩ := h.rooted.exists_of_lookup_top hy
      rw [h.top y _ hy, Value.renumber, Value.renumber, Function.update_of_ne ha.ne]
  · obtain ⟨d, hd, hne⟩ := h.awaits y f (List.mem_cons_of_mem _ hy)
    refine ⟨d, hd, ?_, hne⟩
    rintro rfl
    exact hwaiting (h.apart x y b hb.lookup hd.lookup ▸ List.mem_map_of_mem hy)

/-- If the rest of a program comes to its end, then its outputs alone do, where the declarations
have been made already, and they output the same objects. -/
theorem Mirrors.execute (limits : Limits) {ss : List Statement} {ren : CellId → CellId}
    (h : σ.Mirrors ren (declarations ss) τ)
    (hvalue : ∀ f place, .output .expansion f place ∉ ss)
    (hnodup : ((declarations ss).map Prod.fst).Nodup)
    (hended : (CallByNeed.execute limits.force .global ss σ).stop = none) :
    let second := CallByNeed.execute limits.force .global (ss.filter fun s => !s.declares) τ
    second.stop = none ∧
      second.outputs = (CallByNeed.execute limits.force .global ss σ).outputs := by
  induction ss generalizing ren σ τ with
  | nil => exact ⟨rfl, rfl⟩
  | cons s ss ih =>
    have hvalue' : ∀ f place, .output .expansion f place ∉ ss := fun f place hmem =>
      hvalue f place (List.mem_cons_of_mem _ hmem)
    cases hs : s.execute limits.force .global σ with
    | error stop σ' =>
      rw [execute_cons_of_error hs] at hended
      cases hended
    | ok o σ' =>
      rw [execute_cons_of_ok hs] at hended ⊢
      rcases s with ⟨x, f, place⟩ | ⟨_ | _, f, place⟩
      · -- only the first run declares the name now
        obtain ⟨hx, hnodup⟩ := List.nodup_cons.1 hnodup
        cases hcontains : σ.contains .global x with
        | true =>
          rw [execute_declare_taken _ hcontains] at hs
          cases hs
        | false =>
          rw [execute_declare_new _ hcontains] at hs
          cases hs
          obtain ⟨ren', h'⟩ := Mirrors.declare h hcontains hx
          exact ih h' hvalue' hnodup hended
      · -- both runs find the same value
        cases hrun : (eval limits.force .global f >>= limits.force) σ with
        | error stop σ'' =>
          rw [execute_value_of_error hrun] at hs
          cases hs
        | ok r σ'' =>
          rw [execute_value_of_ok hrun] at hs
          cases hs
          obtain ⟨ren', r', τ', hrun', h', -, -, -, rfl⟩ :=
            mimics_value limits h σ.hasEnv_global f r σ' hrun
          obtain ⟨hstop, houtputs⟩ := ih h' hvalue' hnodup hended
          rw [List.filter_cons_of_pos rfl, execute_cons_of_ok (execute_value_of_ok hrun' place)]
          exact ⟨hstop, congrArg (r' :: ·) houtputs⟩
      · exact absurd List.mem_cons_self (hvalue f place)

end

end Store

/-! ## Programs -/

/-- An expression without its places is a variant. -/
theorem Expr.variant_unplaced (e : Expr) {ρ : List (String × String)} (hρ : ∀ q ∈ ρ, q.1 = q.2) :
    e.Variant .places ρ e.unplaced := by
  induction e generalizing ρ with
  | literal c p => exact .literal c trivial
  | name x p => exact .name trivial (.refl hρ x)
  | paren e p ih => exact .paren trivial (ih hρ)
  | arrow x e p ih => exact .arrow trivial rfl (ih (List.forall_mem_cons.2 ⟨rfl, hρ⟩))
  | call g a p ihg iha => exact .call trivial (ihg hρ) (iha hρ)
  | unary op e p ih => exact .unary op trivial (ih hρ)
  | binary op l r p ihl ihr => exact .binary op trivial (ihl hρ) (ihr hρ)
  | cond c t e p ihc iht ihe => exact .cond trivial (ihc hρ) (iht hρ) (ihe hρ)

/-- A statement without its places is a variant of it. -/
theorem Statement.variant_unplaced (s : Statement) : s.Variant .places s.unplaced := by
  have hexpr : ∀ e : Expr, e.Variant .places [] e.unplaced := fun e => e.variant_unplaced (by simp)
  rcases s with ⟨x, e, p⟩ | ⟨_ | _, e, p⟩
  · exact .declare x trivial (hexpr e)
  · exact .value trivial (hexpr e)
  · exact .expansion (fun _ _ h => h) trivial (hexpr e)

/-- Statements without their places run alike. -/
theorem twins_unplaced (limits : Limits) (ss : List Statement) :
    (execute limits.force .global ss .empty).Twins .places
      (execute limits.force .global (ss.map Statement.unplaced) .empty) := by
  refine (Store.rooted_empty.twins .places).execute limits.fuel limits.depth ?_
  rw [List.forall₂_map_right_iff]
  exact List.forall₂_same.2 fun s _ => s.variant_unplaced

/-- Of two runs that are twins, both come to their ends or none. -/
theorem Outcome.Twins.ended_iff {L : Liberty} {r r' : Outcome} (h : r.Twins L r') :
    r.stop = none ↔ r'.stop = none := by
  have hstop := h.stop
  generalize r.stop = stop at hstop ⊢
  generalize r'.stop = stop' at hstop ⊢
  cases hstop <;> simp

/-- Moving the declarations to the front, without changing places, changes no output. -/
theorem execute_hoisted (limits : Limits) {ss ds : List Statement}
    (hvalue : ∀ e place, .output .expansion e place ∉ ss)
    (hds : ds.Perm (ss.filter Statement.declares))
    (hended : (execute limits.force .global ss .empty).stop = none) :
    let hoisted := execute limits.force .global (ds ++ ss.filter fun s => !s.declares) .empty
    hoisted.stop = none ∧ hoisted.outputs = (execute limits.force .global ss .empty).outputs := by
  have hall : ∀ s ∈ ds, s.declares = true := fun s hs => (List.mem_filter.1 (hds.mem_iff.1 hs)).2
  have hdeclarations : (declarations ds).Perm (declarations ss) := by
    have hfilter : declarations (ss.filter Statement.declares) = declarations ss := by
      rw [declarations, List.filterMap_filter]
      refine List.filterMap_congr fun s _ => ?_
      cases s <;> rfl
    exact hfilter ▸ hds.filterMap Statement.declaration?
  -- the original run tells that the names are different, in whatever order they are declared
  have hnodup := Store.rooted_empty.nodup_declarations hended
  have hnodup' : ((declarations ds).map Prod.fst).Nodup := (hdeclarations.map _).nodup_iff.2 hnodup
  obtain ⟨τ, hrun, hτ⟩ := Store.prepared_empty.execute limits.force hall hnodup'
  have hmirrors := hτ.mirrors fun q hq => hdeclarations.symm.subset hq
  obtain ⟨hstop, houtputs⟩ := hmirrors.execute limits hvalue hnodup hended
  have hprepared : (execute limits.force .global ds .empty).stop = none := by rw [hrun]
  have happend := execute_append_of_ended hprepared (ss.filter fun s => !s.declares)
  rw [hrun] at happend
  rw [happend]
  exact ⟨hstop, houtputs⟩

/-- Whether a statement declares does not depend on places. -/
theorem Statement.declares_unplaced (s : Statement) : s.unplaced.declares = s.declares := by
  cases s <;> rfl

/-- Declarations can be told from outputs before or after places are removed. -/
theorem filter_map_unplaced (test : Bool → Bool) (ss : List Statement) :
    (ss.map Statement.unplaced).filter (fun s => test s.declares) =
      (ss.filter fun s => test s.declares).map Statement.unplaced := by
  rw [List.filter_map]
  simp only [Function.comp_def, Statement.declares_unplaced]

/-- If a program without expansions comes to its end, then so does every program of the same
statements in which all declarations come first, in any order, and the outputs follow in the order
they had. It outputs the same: equal numbers, texts and truth values, and functions with the same
parameter, body and closure. -/
theorem hoisting_preserves_outputs (limits : Limits) {p q : Program}
    (hvalue : ∀ e place, .output .expansion e place ∉ p.statements)
    (hended : (p.run limits .global .empty).1.failure = none)
    (hoists : Hoists p.statements q.statements) :
    (q.run limits .global .empty).1.failure = none ∧
      (q.run limits .global .empty).1.outputs.map (·.content.unplaced) =
        (p.run limits .global .empty).1.outputs.map (·.content.unplaced) := by
  obtain ⟨ds, os, hq, hds, hos⟩ := hoists
  have hp := twins_unplaced limits p.statements
  have hq' := twins_unplaced limits q.statements
  -- without places, the statements of the one program are those of the other
  have hvalue' : ∀ e place, .output .expansion e place ∉ p.statements.map Statement.unplaced := by
    intro e place hmem
    obtain ⟨s, hs, hsame⟩ := List.mem_map.1 hmem
    rcases s with _ | ⟨_ | _, f, place'⟩ <;> cases hsame
    exact hvalue f place' hs
  have hds' : (ds.map Statement.unplaced).Perm
      ((p.statements.map Statement.unplaced).filter Statement.declares) :=
    (filter_map_unplaced id p.statements).symm ▸ hds
  have hstatements : q.statements.map Statement.unplaced = ds.map Statement.unplaced ++
      (p.statements.map Statement.unplaced).filter (fun s => !s.declares) := by
    rw [hq, List.map_append, hos, filter_map_unplaced Bool.not]
  have hstop := hp.ended_iff.1 (Option.map_eq_none_iff.1 hended)
  obtain ⟨hstop', houtputs⟩ := execute_hoisted limits hvalue' hds' hstop
  rw [← hstatements] at hstop' houtputs
  refine ⟨Option.map_eq_none_iff.2 (hq'.ended_iff.2 hstop'), ?_⟩
  exact hq'.outputs_eq.trans ((congrArg _ houtputs).trans hp.outputs_eq.symm)

/-- Here a function and the name that it mentions are declared in the other order, the second
function is declared before the first output, and everything stands elsewhere. -/
theorem hoisting_preserves_outputs_functions :
    let f (place : Option Location) := Expr.arrow "x"
      (.binary .add (.name "x" place) (.name "y" place) place) place
    let y (place : Option Location) := Expr.literal (.string "b") place
    let g (place : Option Location) := Expr.name "f" place
    let a (place : Option Location) :=
      Expr.call (.name "f" place) (.literal (.string "a") place) place
    let limits : Limits := ⟨9, 9⟩
    let here : Option Location := some ⟨0, 1, 1⟩
    let p : Program := ⟨[.declare "f" (f none) none, .declare "y" (y none) none,
      .output .value (a none) none, .declare "g" (g none) none,
      .output .value (.name "g" none) none], ""⟩
    let q : Program := ⟨[.declare "g" (g here) here, .declare "y" (y here) here,
      .declare "f" (f here) here, .output .value (a here) here,
      .output .value (.name "g" here) here], ""⟩
    Hoists p.statements q.statements ∧ (p.run limits .global .empty).1.failure = none ∧
      (p.run limits .global .empty).1.outputs.map (·.content.unplaced) = [.string "ab",
        .function "x" (.binary .add (.name "x" none) (.name "y" none) none) .global] ∧
      (q.run limits .global .empty).1.failure = none ∧
      (q.run limits .global .empty).1.outputs.map (·.content.unplaced) =
        (p.run limits .global .empty).1.outputs.map (·.content.unplaced) := by
  intro f y g a limits here p q
  have hoists : Hoists p.statements q.statements :=
    ⟨q.statements.take 3, q.statements.drop 3, by rfl, by decide +kernel, by decide +kernel⟩
  have hended : (p.run limits .global .empty).1.failure = none := by decide +kernel
  refine ⟨hoists, hended, by decide +kernel, hoisting_preserves_outputs limits ?_ hended hoists⟩
  intro e place hmem
  simp [p] at hmem

end CallByNeed
