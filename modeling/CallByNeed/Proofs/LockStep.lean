import CallByNeed.Proofs.NeedByName
import CallByNeed.Proofs.Pairing

/-!
# Two runs in lock step

If one run is ahead of another one, both go on in lock step (`Track`): they give results that
correspond, or they stop for the same reason. This goes for evaluating (`track_eval`), for following
a thunk (`track_step`), and so for forcing and for statements (`Pace.track_force`,
`Pace.track_execute`).

What lock step cannot deal with is left open (`Pace`): a thunk that only the run ahead has
evaluated, so that the run behind has to catch up; holes, in which the programs differ; and limits
that only one of the runs reaches.
-/

namespace CallByNeed

open Filter

/-! ## Lock step -/

/-- How two runs are compared. The run behind is any one of a family, such as a run within limits
that are wide enough. -/
structure Mode (ι : Type) where
  /-- Which members of the family count. -/
  along : Filter ι
  /-- The stops of the run ahead after which nothing is expected. -/
  ahead : Stop → Prop
  /-- The stops of the run behind after which nothing is expected. -/
  behind : Stop → Prop

/-- Both computations give results for which `R` holds, or stop for the same reason, unless one of
them is excused. The stores that they leave are related by `I`. -/
inductive Track {ι α : Type} (M : Mode ι) (I : Pairing → Store → Store → Prop)
    (R : Pairing → α → α → Prop) (x : Eval α) (y : ι → Eval α) (P : Pairing) (σ τ : Store) :
    Prop where
  | ok {a b : α} {σ' τ' : Store} {Q : Pairing} : x σ = .ok a σ' →
      (∀ᶠ i in M.along, y i τ = .ok b τ') → P.Grows Q → I Q σ' τ' → R Q a b →
      Track M I R x y P σ τ
  | error {stop : Stop} {σ' τ' : Store} {Q : Pairing} : x σ = .error stop σ' →
      (∀ᶠ i in M.along, y i τ = .error stop τ') → P.Grows Q → I Q σ' τ' →
      Track M I R x y P σ τ
  | ahead {stop : Stop} {σ' : Store} : x σ = .error stop σ' → M.ahead stop →
      Track M I R x y P σ τ
  | behind : (∀ᶠ i in M.along, ∃ stop τ', y i τ = .error stop τ' ∧ M.behind stop) →
      Track M I R x y P σ τ

section

variable {ι α β : Type} {M : Mode ι} {I : Pairing → Store → Store → Prop} {P : Pairing}
  {σ τ : Store} {R : Pairing → α → α → Prop} {S : Pairing → β → β → Prop}

/-- Two computations that give results go in lock step, if the results correspond. -/
theorem track_ok {x y : Eval α} {a b : α} {σ' τ' : Store} {Q : Pairing} (hx : x σ = .ok a σ')
    (hy : y τ = .ok b τ') (hP : P.Grows Q) (hQ : I Q σ' τ') (hR : R Q a b) :
    Track M I R x (fun _ => y) P σ τ :=
  .ok hx (.of_forall fun _ => hy) hP hQ hR

/-- Two computations that stop for the same reason go in lock step. -/
theorem track_error {x y : Eval α} {stop : Stop} {σ' τ' : Store} {Q : Pairing}
    (hx : x σ = .error stop σ') (hy : y τ = .error stop τ') (hP : P.Grows Q)
    (hQ : I Q σ' τ') : Track M I R x (fun _ => y) P σ τ :=
  .error hx (.of_forall fun _ => hy) hP hQ

/-- A refusal goes in lock step with itself. -/
theorem track_refuse (h : I P σ τ) (refusal : Refusal) (place : Option Location) :
    Track M I R (refuse refusal place : Eval α) (fun _ => refuse refusal place) P σ τ := by
  cases refusal <;> exact track_error rfl rfl (.refl P) h

/-- Computations are tracked one after the other. -/
theorem Track.bind {x : Eval α} {y : ι → Eval α} {f : α → Eval β} {g : ι → α → Eval β}
    (h : Track M I R x y P σ τ)
    (hf : ∀ Q a b σ' τ', P.Grows Q → I Q σ' τ' → R Q a b →
      Track M I S (f a) (fun i => g i b) Q σ' τ') :
    Track M I S (x >>= f) (fun i => y i >>= g i) P σ τ := by
  cases h with
  | ahead hx hstop => exact .ahead (bind_of_error hx f) hstop
  | behind hy =>
    refine .behind ?_
    filter_upwards [hy] with i hi
    obtain ⟨stop, τ', hi, hstop⟩ := hi
    exact ⟨stop, τ', bind_of_error hi (g i), hstop⟩
  | error hx hy hP hQ =>
    refine .error (bind_of_error hx f) ?_ hP hQ
    filter_upwards [hy] with i hi
    exact bind_of_error hi (g i)
  | @ok a b σ' τ' Q hx hy hP hQ hR =>
    cases hf Q a b σ' τ' hP hQ hR with
    | ahead hfx hstop => exact .ahead ((bind_of_ok hx f).trans hfx) hstop
    | behind hgy =>
      refine .behind ?_
      filter_upwards [hy, hgy] with i hi hgi
      obtain ⟨stop, τ'', hgi, hstop⟩ := hgi
      exact ⟨stop, τ'', (bind_of_ok hi (g i)).trans hgi, hstop⟩
    | error hfx hgy hP' hQ' =>
      refine .error ((bind_of_ok hx f).trans hfx) ?_ (hP.trans hP') hQ'
      filter_upwards [hy, hgy] with i hi hgi
      exact (bind_of_ok hi (g i)).trans hgi
    | ok hfx hgy hP' hQ' hS =>
      refine .ok ((bind_of_ok hx f).trans hfx) ?_ (hP.trans hP') hQ' hS
      filter_upwards [hy, hgy] with i hi hgi
      exact (bind_of_ok hi (g i)).trans hgi

end

section

variable {ι : Type} {M : Mode ι} {H : Expr → Expr → Prop} {L : Ledger} {P : Pairing}
  {σ τ : Store}

/-- Both runs make an object that is no function. -/
theorem track_make (h : Leads H L P σ τ) {c : Content} (hc : c.isFunction = false) :
    Track M (Leads H L) (fun Q => Q.Values H) (make c) (fun _ => make c) P σ τ :=
  track_ok rfl rfl (.refl P) (h.newObject c c) (.object (.plain _ _ hc))

/-- Both runs make a function, with bodies that are the same apart from holes. -/
theorem track_function (h : Leads H L P σ τ) (x : String) {body body' : Expr}
    (hbody : Swaps H body body') {env env' : Env} (henv : P.env env env') :
    Track M (Leads H L) (fun Q => Q.Values H) (make (.function x body env))
      (fun _ => make (.function x body' env')) P σ τ :=
  track_ok rfl rfl (P.grows_addMade _ _)
    (h.newFunction (.function x body env) (.function x body' env'))
    (.object (.function x (.inr ⟨rfl, rfl⟩) hbody henv))

/-- Both runs make a thunk, for expressions that are the same apart from holes. -/
theorem track_suspend (h : Leads H L P σ τ) {e e' : Expr} (he : Swaps H e e') {env env' : Env}
    (henv : P.env env env') :
    Track M (Leads H L) (fun Q => Q.Values H) (suspend e env) (fun _ => suspend e' env') P σ τ :=
  track_ok rfl rfl (P.grows_addCell _ _) (h.newThunk he henv) (.thunk (.inr ⟨rfl, rfl⟩))

/-- Calls of callees that correspond go in lock step: both run into the same refusal, or both enter
a function. -/
theorem track_call (h : Leads H L P σ τ) {o o' : Object} (ho : P.Objects H o o') {a a' : Expr}
    (ha : Swaps H a a') {env env' : Env} (henv : P.env env env') (place : Option Location) :
    Track M (Leads H L) (fun Q => Q.Values H) (call o a env place) (fun _ => call o' a' env' place)
      P σ τ := by
  cases ho with
  | @plain i j c hc =>
    cases c with
    | function => cases hc
    | _ => exact track_error rfl rfl (.refl P) h
  | @function m n x body body' closure closure' hmade hbody hclosure =>
    -- the argument, the frame with the parameter and the body are added to both stores
    have hsize : (σ.newThunk a env).2.cells.size = σ.cells.size + 1 := by simp
    have hsize' : (τ.newThunk a' env').2.cells.size = τ.cells.size + 1 := by simp
    have hargument := h.newThunk ha henv
    have hbody := hargument.extendFrame hclosure x (.inr ⟨rfl, rfl⟩) hbody
    rw [hsize, hsize'] at hbody
    refine track_ok (call_function rfl a env place σ) (call_function rfl a' env' place τ) ?_ hbody
      (.thunk (.inr ⟨rfl, rfl⟩))
    exact (P.grows_addCell _ _).trans
      ((Pairing.grows_addEnv _ _ _).trans (Pairing.grows_addCell _ _ _))

/-- An operator before operands that correspond gives the same in both runs. -/
theorem track_operateUnary (h : Leads H L P σ τ) {o o' : Object} (ho : P.Objects H o o')
    (op : UnaryOp) (place : Option Location) :
    Track M (Leads H L) (fun Q => Q.Values H) (operateUnary op o place)
      (fun _ => operateUnary op o' place) P σ τ := by
  unfold operateUnary
  rw [← UnaryOp.apply_congr ho.similar op]
  cases hc : op.apply o.content with
  | error refusal => exact track_refuse h refusal place
  | ok c => exact track_make h (isFunction_eq_false (UnaryOp.ok_of_apply hc))

/-- An operator between operands that correspond gives the same in both runs. -/
theorem track_operate (h : Leads H L P σ τ) {l l' r r' : Object} (hl : P.Objects H l l')
    (hr : P.Objects H r r') (op : BinaryOp) (place : Option Location) :
    Track M (Leads H L) (fun Q => Q.Values H) (operate op l r place)
      (fun _ => operate op l' r' place) P σ τ := by
  have hnote : Track M (Leads H L) (fun _ _ _ => True) (modify fun σ => σ.note (.combined op l r))
      (fun _ => (modify fun τ => τ.note (.combined op l' r') : Eval Unit)) P σ τ :=
    track_ok rfl rfl (.refl P) (h.noteCombined op l l' r r') trivial
  refine hnote.bind fun Q _ _ σ' τ' _ hQ _ => ?_
  rw [← h.toTrails.combine_eq hl hr op]
  cases hc : op.combine l r with
  | error refusal => exact track_refuse hQ refusal place
  | ok c => exact track_make hQ (isFunction_eq_false (BinaryOp.ok_of_combine hc))

/-- Both runs are decided by the left operand, or none is. -/
theorem track_operateLazily (h : Leads H L P σ τ) {o o' : Object} (ho : P.Objects H o o')
    {right : Eval Object} {right' : ι → Eval Object}
    (hright : Track M (Leads H L) (fun Q => Q.Objects H) right right' P σ τ) (op : BinaryOp)
    (place : Option Location) :
    Track M (Leads H L) (fun Q => Q.Values H) (operateLazily op o right place)
      (fun i => operateLazily op o' (right' i) place) P σ τ := by
  unfold operateLazily
  cases op.decisive? with
  | none =>
    exact hright.bind fun Q r r' σ' τ' hP hQ hr => track_operate hQ (ho.mono hP) hr op place
  | some decisive =>
    cases ho with
    | function => exact track_refuse h _ place
    | @plain i j c hc =>
      cases c with
      | boolean b =>
        dsimp only
        by_cases hb : b = decisive
        · simp only [if_pos hb]
          exact track_ok rfl rfl (.refl P) h (.object (.plain i j hc))
        simp only [if_neg hb]
        refine hright.bind fun Q r r' σ' τ' hP hQ hr => ?_
        -- the left operand does not decide, so the right one has to be a boolean
        cases hr with
        | function => exact track_refuse hQ _ place
        | @plain i' j' d hd =>
          cases d with
          | boolean b' => exact track_operate hQ (.plain i j hc) (.plain i' j' hd) op place
          | _ => exact track_refuse hQ _ place
      | _ => exact track_refuse h _ place

/-- Both runs choose the same branch. -/
theorem track_choose (h : Leads H L P σ τ) {o o' : Object} (ho : P.Objects H o o')
    {t t' e e' : Expr} (ht : Swaps H t t') (he : Swaps H e e') {env env' : Env}
    (henv : P.env env env') (place : Option Location) :
    Track M (Leads H L) (fun Q => Q.Values H) (choose o t e env place)
      (fun _ => choose o' t' e' env' place) P σ τ := by
  cases ho with
  | function => exact track_error rfl rfl (.refl P) h
  | @plain i j c hc =>
    cases c with
    | boolean b =>
      cases b with
      | true => exact track_suspend h ht henv
      | false => exact track_suspend h he henv
    | _ => exact track_error rfl rfl (.refl P) h

/-- Evaluation goes in lock step, if forcing does, and if the holes are dealt with. -/
theorem track_eval {force : Value → Eval Object} {force' : ι → Value → Eval Object}
    (hforce : ∀ P σ τ v w, Leads H L P σ τ → P.Values H v w →
      Track M (Leads H L) (fun Q => Q.Objects H) (force v) (fun i => force' i w) P σ τ)
    {env env' : Env} (hhole : ∀ P σ τ e e', Leads H L P σ τ → P.env env env' → H e e' →
      Track M (Leads H L) (fun Q => Q.Values H) (eval force env e)
        (fun i => eval (force' i) env' e') P σ τ)
    {e e' : Expr} (he : Swaps H e e') (h : Leads H L P σ τ) (henv : P.env env env') :
    Track M (Leads H L) (fun Q => Q.Values H) (eval force env e) (fun i => eval (force' i) env' e')
      P σ τ := by
  -- an operand is first evaluated and then forced
  have need : ∀ {e e' : Expr} {P : Pairing} {σ τ : Store},
      Track M (Leads H L) (fun Q => Q.Values H) (eval force env e)
        (fun i => eval (force' i) env' e') P σ τ →
      Track M (Leads H L) (fun Q => Q.Objects H) (eval force env e >>= force)
        (fun i => eval (force' i) env' e' >>= force' i) P σ τ :=
    fun htrack => htrack.bind fun Q v w σ' τ' _ hQ hvw => hforce Q σ' τ' v w hQ hvw
  induction he generalizing P σ τ with
  | hole hee' => exact hhole P σ τ _ _ h henv hee'
  | literal c p => exact track_ok rfl rfl (.refl P) h (.object (.plain _ _ (by cases c <;> rfl)))
  | name x p =>
    have hx := h.lookup henv x
    cases hσ : σ.lookup env x with
    | none =>
      rw [hσ] at hx
      cases hτ : τ.lookup env' x with
      | none =>
        exact .error (by rw [eval_name, hσ]) (.of_forall fun i => by rw [eval_name, hτ]) (.refl P) h
      | some w => rw [hτ] at hx; cases hx
    | some v =>
      rw [hσ] at hx
      cases hτ : τ.lookup env' x with
      | none => rw [hτ] at hx; cases hx
      | some w =>
        rw [hτ] at hx
        cases hx with
        | some hvw =>
          exact .ok (by rw [eval_name, hσ]) (.of_forall fun i => by rw [eval_name, hτ]) (.refl P) h
            hvw
  | paren p _ ih => exact ih h henv
  | arrow x p hbody => exact track_function h x hbody henv
  | call p _ ha ihf =>
    exact (need (ihf h henv)).bind fun Q o o' σ' τ' hP hQ ho =>
      track_call hQ ho ha (hP.env _ _ henv) p
  | unary op p _ ih =>
    exact (need (ih h henv)).bind fun Q o o' σ' τ' _ hQ ho => track_operateUnary hQ ho op p
  | binary op p _ _ ihl ihr =>
    exact (need (ihl h henv)).bind fun Q o o' σ' τ' hP hQ ho =>
      track_operateLazily hQ ho (need (ihr hQ (hP.env _ _ henv))) op p
  | cond p _ ht he ihc =>
    exact (need (ihc h henv)).bind fun Q o o' σ' τ' hP hQ ho =>
      track_choose hQ ho ht he (hP.env _ _ henv) p

end

/-! ## Forcing in lock step -/

section

variable {ι : Type} {M : Mode ι} {H : Expr → Expr → Prop} {L : Ledger} {P : Pairing}
  {σ τ : Store} {a b : CellId}

/-- Following thunks that correspond goes in lock step, if evaluation does, and if the run behind
can catch up with a result that only the run ahead has. -/
theorem track_step [M.along.NeBot] {eval : Env → Expr → Eval Value}
    {eval' : ι → Env → Expr → Eval Value} (hlawful : LawfulEval eval)
    (hlawful' : ∀ i, LawfulEval (eval' i))
    (heval : ∀ P σ τ env env' e e', Leads H L P σ τ → P.env env env' → Swaps H e e' →
      Track M (Leads H L) (fun Q => Q.Values H) (eval env e) (fun i => eval' i env' e') P σ τ)
    (hcircle : ∀ e e', Swaps H e e' →
      e.place = e'.place ∨ M.ahead (.error ⟨.circular, e.place⟩))
    (hcatchUp : ∀ v, (σ.cell a).memo = some v → (τ.cell b).memo = none →
      Track M (Leads H L) (fun Q => Q.Values H) (step eval a) (fun i => step (eval' i) b) P σ τ)
    (h : Leads H L P σ τ) (hab : P.cell a b) :
    Track M (Leads H L) (fun Q => Q.Values H) (step eval a) (fun i => step (eval' i) b) P σ τ := by
  obtain ⟨hlt, hlt'⟩ := h.lt hab
  cases hmemo' : (τ.cell b).memo with
  | some w =>
    obtain ⟨v, hmemo, hvw⟩ := h.memo hab w hmemo'
    exact .ok (step_of_memo hmemo) (.of_forall fun i => step_of_memo hmemo') (.refl P) h hvw
  | none =>
    cases hmemo : (σ.cell a).memo with
    | some v => exact hcatchUp v hmemo hmemo'
    | none =>
      cases hbusy : (σ.cell a).busy with
      | true =>
        -- both thunks need themselves
        have hbusy' := (h.busy hab).symm.trans hbusy
        have hstep : step eval a σ = _ := step_of_busy hmemo hbusy
        rcases hcircle _ _ (h.expr hab) with hplace | hahead
        · refine .error hstep (.of_forall fun i => ?_) (.refl P) h
          rw [hplace]
          exact step_of_busy hmemo' hbusy'
        · exact .ahead hstep hahead
      | false =>
        have hbusy' := (h.busy hab).symm.trans hbusy
        have hmark := h.marked hab hmemo hmemo' hbusy
        have hhas := (Store.hasEnv_cell hlt).mono (σ.unfolds_marked a).toPersists
        have hhas' := (Store.hasEnv_cell hlt').mono (τ.unfolds_marked b).toPersists
        cases heval P _ _ _ _ _ _ hmark (h.env hab) (h.expr hab) with
        | ahead hx hstop =>
          exact .ahead (step_of_error hmemo hbusy hx) hstop
        | behind hy =>
          refine .behind ?_
          filter_upwards [hy] with i hi
          obtain ⟨stop, τ', hi, hstop⟩ := hi
          exact ⟨stop, _, step_of_error hmemo' hbusy' hi, hstop⟩
        | error hx hy hP hQ =>
          obtain ⟨i, hi⟩ := hy.exists
          have hleft := (hlawful.error hmark.ahead hhas hx).2.extension.marked hlt hmemo
          have hleft' := ((hlawful' i).error hmark.behind hhas' hi).2.extension.marked hlt' hmemo'
          refine .error (step_of_error hmemo hbusy hx) ?_ hP
            (hQ.released (hP.cell a b hab) hleft.2.1 hleft'.2.1 hleft.2.2)
          filter_upwards [hy] with i hi
          exact step_of_error hmemo' hbusy' hi
        | ok hx hy hP hQ hvw =>
          -- what is kept in both stores corresponds
          obtain ⟨i, hi⟩ := hy.exists
          obtain ⟨-, hevolves, hv⟩ := hlawful.ok hmark.ahead hhas hx
          obtain ⟨-, hevolves', hw⟩ := (hlawful' i).ok hmark.behind hhas' hi
          have hleft := hevolves.extension.marked hlt hmemo
          have hleft' := hevolves'.extension.marked hlt' hmemo'
          refine .ok (step_of_ok hlawful h.ahead hlt hmemo hbusy hx) ?_ hP
            (hQ.settled (hP.cell a b hab) hleft.2.1 hleft'.2.1 hleft.2.2 hv hw hvw) hvw
          filter_upwards [hy] with i hi
          exact step_of_ok (hlawful' i) h.behind hlt' hmemo' hbusy' hi

end

/-- What is needed for forcing to go in lock step. The run behind forces by `F`, which may depend on
the bounds of the run ahead. -/
structure Pace {ι : Type} (M : Mode ι) (F : ι → ℕ → ℕ → Value → Eval Object)
    (H : Expr → Expr → Prop) (L : Ledger) : Prop where
  /-- Both runs force by need. -/
  byNeed : ∀ i fuel depth, ∃ fuel' depth', F i fuel depth = force fuel' depth'
  /-- The run ahead has come to its bounds. -/
  spent : ∀ {fuel depth P σ τ a b}, fuel = 0 ∨ depth = 0 → Leads H L P σ τ →
    Track M (Leads H L) (fun Q => Q.Objects H) (force fuel depth (.thunk a))
      (fun i => F i fuel depth (.thunk b)) P σ τ
  /-- A thunk is followed before what it gives is forced. -/
  follow : ∀ {fuel depth P σ τ a b},
    Track M (Leads H L) (fun Q => Q.Objects H)
      (step (eval (force fuel depth)) a >>= force fuel (depth + 1))
      (fun i => step (eval (F i fuel depth)) b >>= F i fuel (depth + 1)) P σ τ →
    Track M (Leads H L) (fun Q => Q.Objects H) (force (fuel + 1) (depth + 1) (.thunk a))
      (fun i => F i (fuel + 1) (depth + 1) (.thunk b)) P σ τ
  /-- The holes are dealt with. -/
  hole : ∀ {fuel depth P σ τ env env' e e'}, Leads H L P σ τ → P.env env env' → H e e' →
    Track M (Leads H L) (fun Q => Q.Values H) (eval (force fuel depth) env e)
      (fun i => eval (F i fuel depth) env' e') P σ τ
  /-- The place of a thunk that needs itself is the same in both runs. -/
  circle : ∀ e e', Swaps H e e' → e.place = e'.place ∨ M.ahead (.error ⟨.circular, e.place⟩)
  /-- The run behind can catch up. -/
  catchUp : ∀ {fuel depth P σ τ a b v}, Leads H L P σ τ → P.cell a b →
    (σ.cell a).memo = some v → (τ.cell b).memo = none →
    Track M (Leads H L) (fun Q => Q.Values H) (step (eval (force fuel depth)) a)
      (fun i => step (eval (F i fuel depth)) b) P σ τ

namespace Pace

variable {ι : Type} {M : Mode ι} {F : ι → ℕ → ℕ → Value → Eval Object} {H : Expr → Expr → Prop}
  {L : Ledger} {P : Pairing} {σ τ : Store}

/-- The run behind evaluates as the evaluator does. -/
theorem lawful (pace : Pace M F H L) (i : ι) (fuel depth : ℕ) :
    LawfulEval (eval (F i fuel depth)) := by
  obtain ⟨fuel', depth', hF⟩ := pace.byNeed i fuel depth
  rw [hF]
  exact lawfulEval_force fuel' depth'

/-- The run behind has nothing to do for an object. -/
theorem object (pace : Pace M F H L) (i : ι) (fuel depth : ℕ) (o : Object) (τ : Store) :
    F i fuel depth (.object o) τ = .ok o τ := by
  obtain ⟨fuel', depth', hF⟩ := pace.byNeed i fuel depth
  rw [hF]
  cases fuel' <;> rfl

/-- Forcing goes in lock step. -/
theorem track_force [M.along.NeBot] (pace : Pace M F H L) (fuel depth : ℕ) {v w : Value}
    (h : Leads H L P σ τ) (hvw : P.Values H v w) :
    Track M (Leads H L) (fun Q => Q.Objects H) (force fuel depth v) (fun i => F i fuel depth w)
      P σ τ := by
  induction fuel generalizing depth v w P σ τ with
  | zero =>
    cases hvw with
    | object ho => exact .ok rfl (.of_forall fun i => pace.object i _ _ _ _) (.refl P) h ho
    | thunk hab => exact pace.spent (.inl rfl) h
  | succ fuel ih =>
    cases hvw with
    | object ho => exact .ok rfl (.of_forall fun i => pace.object i _ _ _ _) (.refl P) h ho
    | thunk hab =>
      cases depth with
      | zero => exact pace.spent (.inr rfl) h
      | succ depth =>
        have hstep := track_step (lawfulEval_force fuel depth) (fun i => pace.lawful i fuel depth)
          (fun P σ τ env env' e e' h henv he => track_eval
            (fun P σ τ v w h hvw => ih depth h hvw)
            (fun P σ τ e e' h henv hee' => pace.hole h henv hee') he h henv)
          pace.circle (fun v hv hnone => pace.catchUp h hab hv hnone) h hab
        exact pace.follow (hstep.bind fun Q v w σ' τ' _ hQ hvw => ih (depth + 1) hQ hvw)

/-- Finding the value of an expression goes in lock step. -/
theorem track_value [M.along.NeBot] (pace : Pace M F H L) (fuel depth : ℕ) {env env' : Env}
    {e e' : Expr} (he : Swaps H e e') (h : Leads H L P σ τ) (henv : P.env env env') :
    Track M (Leads H L) (fun Q => Q.Objects H) (eval (force fuel depth) env e >>= force fuel depth)
      (fun i => eval (F i fuel depth) env' e' >>= F i fuel depth) P σ τ := by
  have heval := track_eval (fun P σ τ v w h hvw => pace.track_force fuel depth h hvw)
    (fun P σ τ e e' h henv hee' => pace.hole h henv hee') he h henv
  exact heval.bind fun Q v w σ' τ' _ hQ hvw => pace.track_force fuel depth hQ hvw

end Pace

/-- Two runs within the same limits go in lock step, if holes, circles and catching up are dealt
with. -/
theorem pace_same {ι : Type} {M : Mode ι} {H : Expr → Expr → Prop} {L : Ledger}
    (hhole : ∀ {fuel depth P σ τ env env' e e'}, Leads H L P σ τ → P.env env env' → H e e' →
      Track M (Leads H L) (fun Q => Q.Values H) (eval (force fuel depth) env e)
        (fun _ => eval (force fuel depth) env' e') P σ τ)
    (hcircle : ∀ e e', Swaps H e e' →
      e.place = e'.place ∨ M.ahead (.error ⟨.circular, e.place⟩))
    (hcatchUp : ∀ {fuel depth P σ τ a b v}, Leads H L P σ τ → P.cell a b →
      (σ.cell a).memo = some v → (τ.cell b).memo = none →
      Track M (Leads H L) (fun Q => Q.Values H) (step (eval (force fuel depth)) a)
        (fun _ => step (eval (force fuel depth)) b) P σ τ) :
    Pace M (fun _ => force) H L where
  byNeed _ fuel depth := ⟨fuel, depth, rfl⟩
  spent {fuel depth P _ _ _ _} hspent h := by
    cases fuel with
    | zero => exact track_error rfl rfl (.refl P) h
    | succ fuel =>
      cases depth with
      | zero => exact track_error rfl rfl (.refl P) h
      | succ depth => exact absurd hspent (by simp)
  follow {fuel depth P σ τ a b} htrack := by
    unfold force at htrack ⊢
    rw [forceWith_thunk, forceWith_thunk]
    exact htrack
  hole := hhole
  circle := hcircle
  catchUp := hcatchUp

/-! ## Statements in lock step -/

/-- What a statement leaves after it has declared a new name. -/
def Store.declared (σ : Store) (x : String) (e : Expr) : Store :=
  (σ.newThunk e .global).2.bind .global x (.thunk σ.cells.size)

section

variable {σ : Store} {x : String}

/-- A declared name is looked up last, after all parameters. -/
theorem Store.Rooted.lookup_declared (h : σ.Rooted) (hx : σ.contains .global x = false) (e : Expr)
    {env : Env} (henv : σ.HasEnv env) (y : String) :
    (σ.declared x e).lookup env y =
      (σ.lookup env y).or (if y == x then some (.thunk σ.cells.size) else none) := by
  rw [h.lookup_eq, Store.declared, (h.declare hx e).lookup_eq]
  refine h.env_induction (motive := fun env => (Store.bind _ .global x _).binding? env y =
    (σ.binding? env y).or _) ?_ ?_ henv
  · rw [binding?_global, binding?_global, h.frame_declare hx, List.lookup_cons]
    by_cases hy : (y == x) = true
    · rw [if_pos hy, hy, eq_of_beq hy, h.lookup_top hx]
      rfl
    · rw [Bool.not_eq_true] at hy
      rw [hy, if_neg Bool.false_ne_true, Option.or_none]
  · intro outer f _ hpos hlt ih
    rw [binding?_inner, binding?_inner, ih, (h.persists_declare hx e).frame f hpos hlt,
      Option.or_assoc]

/-- A declaration of a name that is taken fails and does nothing. -/
theorem execute_declare_taken (force : Value → Eval Object) (hx : σ.contains .global x = true)
    (e : Expr) (place : Option Location) :
    (Statement.declare x e place).execute force .global σ =
      .error (.error ⟨.taken x, place⟩) σ := by
  rw [Statement.execute_declare, hx, if_pos rfl]

/-- A declaration of a new name succeeds. -/
theorem execute_declare_new (force : Value → Eval Object) (hx : σ.contains .global x = false)
    (e : Expr) (place : Option Location) :
    (Statement.declare x e place).execute force .global σ = .ok none (σ.declared x e) := by
  rw [Statement.execute_declare, hx, if_neg Bool.false_ne_true]
  rfl

/-- A store stays sane when a new name is declared. -/
theorem Store.Sane.declared (h : σ.Sane) (hx : σ.contains .global x = false) (e : Expr) :
    (σ.declared x e).Sane :=
  ⟨h.rooted.declare hx e, (h.ok.newThunk trivial .global).bind .global x
    (show σ.cells.size < (σ.newThunk e .global).2.cells.size by simp)⟩

end

section

variable {H : Expr → Expr → Prop} {L : Ledger} {P : Pairing} {σ τ : Store}

/-- The same names are declared in both runs. -/
theorem Leads.contains_eq (h : Leads H L P σ τ) (x : String) :
    τ.contains .global x = σ.contains .global x := by
  have hx := h.lookup h.global x
  rw [Store.contains, Store.contains]
  generalize σ.lookup .global x = v at hx ⊢
  generalize τ.lookup .global x = w at hx ⊢
  cases hx <;> rfl

/-- A new name may be declared in both stores. -/
theorem Leads.declared (h : Leads H L P σ τ) {x : String} (hx : σ.contains .global x = false)
    {e e' : Expr} (he : Swaps H e e') :
    Leads H L (P.addCell σ.cells.size τ.cells.size) (σ.declared x e) (τ.declared x e') := by
  have hx' := (h.contains_eq x).trans hx
  have hpersists := h.ahead.rooted.persists_declare hx e
  -- binding the name changes neither thunks nor objects
  have hthunk := h.newThunk he h.global
  refine ⟨⟨h.ahead.declared hx e, h.behind.declared hx' e', h.global, hthunk.hasEnv, ?_, hthunk.lt,
    hthunk.expr, hthunk.env, hthunk.memo, hthunk.cell_iff, hthunk.made_lt, hthunk.made_iff⟩,
    h.certified.mono h.ahead.rooted hpersists fun _ _ h => h, ?_, hthunk.busy, hthunk.paired,
    hthunk.taken, hthunk.late⟩
  · intro env env' henv y
    obtain ⟨hhas, hhas'⟩ := h.hasEnv henv
    rw [h.ahead.rooted.lookup_declared hx e hhas, h.behind.rooted.lookup_declared hx' e' hhas']
    have hgrows := P.grows_addCell σ.cells.size τ.cells.size
    have hy := optionRel_imp (fun _ _ => Pairing.Values.mono hgrows) (h.lookup henv y)
    generalize σ.lookup env y = v at hy ⊢
    generalize τ.lookup env' y = w at hy ⊢
    cases hy with
    | some hvw => exact .some hvw
    | none =>
      -- only the new name stands for something that it did not stand for before
      rw [Option.none_or, Option.none_or]
      split
      · exact .some (.thunk (.inr ⟨rfl, rfl⟩))
      · exact .none
  · exact fun i c hi => ⟨(h.owned i c hi).1.mono hpersists, (h.owned i c hi).2⟩

end

/-- Two statements are the same, except that they may have different expressions in holes. Neither
outputs an expansion. -/
inductive Statement.Swaps (H : Expr → Expr → Prop) : Statement → Statement → Prop where
  | declare (x : String) {e e' : Expr} (p : Option Location) : CallByNeed.Swaps H e e' →
      Statement.Swaps H (.declare x e p) (.declare x e' p)
  | output {e e' : Expr} (p : Option Location) : CallByNeed.Swaps H e e' →
      Statement.Swaps H (.output .value e p) (.output .value e' p)

/-- Statements are executed in lock step. -/
theorem Pace.track_execute {ι : Type} {M : Mode ι} [M.along.NeBot]
    {F : ι → ℕ → ℕ → Value → Eval Object} {H : Expr → Expr → Prop} {L : Ledger}
    (pace : Pace M F H L) (fuel depth : ℕ) {s s' : Statement} (hs : s.Swaps H s') {P : Pairing}
    {σ τ : Store} (h : Leads H L P σ τ) :
    Track M (Leads H L) (fun Q => Option.Rel (Q.Objects H)) (s.execute (force fuel depth) .global)
      (fun i => s'.execute (F i fuel depth) .global) P σ τ := by
  cases hs with
  | @declare x e e' p he =>
    cases hx : σ.contains .global x with
    | true =>
      have hx' := (h.contains_eq x).trans hx
      exact .error (execute_declare_taken _ hx e p)
        (.of_forall fun i => execute_declare_taken _ hx' e' p) (.refl P) h
    | false =>
      have hx' := (h.contains_eq x).trans hx
      exact .ok (execute_declare_new _ hx e p) (.of_forall fun i => execute_declare_new _ hx' e' p)
        (P.grows_addCell _ _) (h.declared hx he) .none
  | output p he =>
    refine (pace.track_value fuel depth he h h.global).bind fun Q o o' σ' τ' _ hQ ho => ?_
    exact track_ok rfl rfl (.refl Q) hQ (.some ho)

end CallByNeed
