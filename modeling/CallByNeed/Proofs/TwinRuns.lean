import CallByNeed.Proofs.LockStep
import CallByNeed.Proofs.PrintedTrees
import CallByNeed.Proofs.TwinStores

/-!
# Programs that differ in names, places and parentheses only run alike

Two computations go in tandem (`Tandem`) if, from stores that are twins, both give results that are
the same apart from names and places, or both stop for the same reason, and the stores stay twins.
Evaluation goes in tandem for expressions that are variants of each other, with the same limits on
both sides, and so do statements and programs (`Store.Twins.execute`).

If no parameter may have another name, then expressions that are variants of each other also expand
to the same text (`Store.Twins.render_expand`).
-/

namespace CallByNeed

/-- Two runs stop for the same reason, at places that may stand for each other. -/
inductive Stop.Variant (L : Liberty) : Stop → Stop → Prop where
  | failed {p p' : Option Location} (cause : EvalCause) : L.place p p' →
      Variant L (.error ⟨cause, p⟩) (.error ⟨cause, p'⟩)
  | same (stop : Stop) : Variant L stop stop

/-- Two computations give results for which `R` holds, or stop for the same reason, and do the same
to the stores. -/
inductive Tandem {α β : Type} (L : Liberty) (R : Store → Store → α → β → Prop) (x : Eval α)
    (y : Eval β) (σ τ : Store) : Prop where
  | ok {a : α} {b : β} {σ' τ' : Store} : x σ = .ok a σ' → y τ = .ok b τ' →
      StayTwins L σ τ σ' τ' → R σ' τ' a b → Tandem L R x y σ τ
  | error {stop stop' : Stop} {σ' τ' : Store} : x σ = .error stop σ' → y τ = .error stop' τ' →
      StayTwins L σ τ σ' τ' → stop.Variant L stop' → Tandem L R x y σ τ

/-! ## What evaluation is made of -/

section

variable {α β γ δ : Type} {L : Liberty} {R : Store → Store → α → β → Prop}
  {S : Store → Store → γ → δ → Prop} {σ τ : Store}

/-- Computations go in tandem one after the other. -/
theorem Tandem.bind {x : Eval α} {y : Eval β} {f : α → Eval γ} {g : β → Eval δ}
    (h : Tandem L R x y σ τ)
    (hf : ∀ a b σ' τ', StayTwins L σ τ σ' τ' → R σ' τ' a b → Tandem L S (f a) (g b) σ' τ') :
    Tandem L S (x >>= f) (y >>= g) σ τ := by
  cases h with
  | error hx hy hstay hstop =>
    exact .error (bind_of_error hx f) (bind_of_error hy g) hstay hstop
  | @ok a b σ' τ' hx hy hstay hR =>
    cases hf a b σ' τ' hstay hR with
    | ok hfx hgy hstay' hS =>
      exact .ok ((bind_of_ok hx f).trans hfx) ((bind_of_ok hy g).trans hgy)
        (hstay.trans hstay') hS
    | error hfx hgy hstay' hstop =>
      exact .error ((bind_of_ok hx f).trans hfx) ((bind_of_ok hy g).trans hgy)
        (hstay.trans hstay') hstop

/-- Both runs are refused for the same reason. -/
theorem tandem_refuse (h : σ.Twins L τ) (refusal : Refusal) {p p' : Option Location}
    (hp : L.place p p') :
    Tandem L R (refuse refusal p : Eval α) (refuse refusal p' : Eval β) σ τ := by
  cases refusal with
  | cause c => exact .error rfl rfl h.stay (.failed c hp)
  | _ => exact .error rfl rfl h.stay (.same _)

end

/-- Objects that are twins are the same, or both are functions. -/
theorem Object.Twins.similar {L : Liberty} {σ τ : Store} {o o' : Object}
    (h : o.Twins L σ τ o') : o.content.Similar o'.content := by
  cases h with
  | plain => exact .same _
  | function => exact .functions _ _ _ _ _ _

/-- Functions that are the same have the same identity. -/
theorem Object.Twins.identity_eq {L : Liberty} {σ τ : Store} {o o' : Object}
    (h : o.Twins L σ τ o') (ho : o.content.isFunction = true) : o.identity = o'.identity := by
  cases h with
  | plain i i' hc => exact absurd (ho.symm.trans hc) (by decide)
  | function => rfl

section

variable {L : Liberty} {σ τ : Store} {env : Env} {ρ : List (String × String)}
  {p p' : Option Location}

/-- Both runs make an object that is no function. -/
theorem tandem_make (h : σ.Twins L τ) {c : Content} (hc : c.isFunction = false) :
    Tandem L (Value.Twins L) (make c) (make c) σ τ :=
  .ok rfl rfl (h.newObject c c) (.object (.plain _ _ hc))

/-- Both runs make a function, with bodies that are variants once the parameters are paired. -/
theorem tandem_function (h : σ.Twins L τ) {x x' : String} (hx : L.parameter x x')
    {body body' : Expr} (henv : BindsPairs L σ τ env ρ)
    (hbody : body.Variant L ((x, x') :: ρ) body') :
    Tandem L (Value.Twins L) (make (.function x body env)) (make (.function x' body' env)) σ τ := by
  have hstay := h.newObject (.function x body env) (.function x' body' env)
  refine .ok rfl (b := .object ⟨.made σ.made, .function x' body' env⟩) ?_ hstay
    (.object (.function _ hx (hstay.pairs henv) hbody))
  -- both stores have made as many objects before
  rw [h.made]
  rfl

/-- Both runs make a thunk, for expressions that are variants. -/
theorem tandem_suspend (h : σ.Twins L τ) (henv : BindsPairs L σ τ env ρ) {e e' : Expr}
    (he : e.Variant L ρ e') :
    Tandem L (Value.Twins L) (suspend e env) (suspend e' env) σ τ := by
  refine .ok rfl (b := .thunk σ.cells.size) ?_ (h.newThunk henv he) (.thunk _)
  rw [h.cells]
  rfl

/-- What is not a function cannot be called. -/
theorem call_of_isFunction_eq_false {o : Object} (ho : o.content.isFunction = false) (a : Expr)
    (env : Env) (place : Option Location) :
    call o a env place = refuse (.ofKind .notFunction o.content) place := by
  obtain ⟨i, c⟩ := o
  cases c with
  | function => cases ho
  | _ => rfl

/-- Calls of twins go in tandem: both are refused, or both enter a function. -/
theorem tandem_call (h : σ.Twins L τ) {o o' : Object} (ho : o.Twins L σ τ o')
    (henv : BindsPairs L σ τ env ρ) {a a' : Expr} (ha : a.Variant L ρ a') (hp : L.place p p') :
    Tandem L (Value.Twins L) (call o a env p) (call o' a' env p') σ τ := by
  cases ho with
  | plain i i' hc =>
    rw [call_of_isFunction_eq_false hc, call_of_isFunction_eq_false hc]
    exact tandem_refuse h _ hp
  | @function i x x' body body' closure ρ' hx hclosure hbody =>
    -- the argument, the frame with the parameter and the body are added to both stores
    have hargument := h.newThunk henv ha
    have hframe := hargument.twins.newFrame x x' σ.cells.size
    have hinside := hargument.twins.bindsPairs_newFrame hx σ.cells.size (hargument.pairs hclosure)
    have hthunk := hframe.twins.newThunk hinside hbody
    have hcall := call_function (o := ⟨i, .function x body closure⟩) rfl a env p σ
    have hcall' := call_function (o := ⟨i, .function x' body' closure⟩) rfl a' env p' τ
    have hframes : (σ.newThunk a env).2.frames.size = (τ.newThunk a' env).2.frames.size :=
      hargument.twins.frames
    rw [Store.extendFrame, ← h.cells, ← hframes] at hcall'
    exact .ok hcall hcall' ((hargument.trans hframe).trans hthunk) (.thunk _)

/-- An operator before twins gives the same in both runs. -/
theorem tandem_operateUnary (h : σ.Twins L τ) {o o' : Object} (ho : o.Twins L σ τ o')
    (op : UnaryOp) (hp : L.place p p') :
    Tandem L (Value.Twins L) (operateUnary op o p) (operateUnary op o' p') σ τ := by
  unfold operateUnary
  rw [← UnaryOp.apply_congr ho.similar op]
  cases hc : op.apply o.content with
  | error refusal => exact tandem_refuse h refusal hp
  | ok c => exact tandem_make h (isFunction_eq_false (UnaryOp.ok_of_apply hc))

/-- An operator gives the same, because it tells functions apart by their identities. -/
theorem tandem_operate (h : σ.Twins L τ) {l l' r r' : Object} (hl : l.Twins L σ τ l')
    (hr : r.Twins L σ τ r') (op : BinaryOp) (hp : L.place p p') :
    Tandem L (Value.Twins L) (operate op l r p) (operate op l' r' p') σ τ := by
  have hnote : Tandem L (fun _ _ _ _ => True) (modify fun σ => σ.note (.combined op l r))
      (modify fun τ => τ.note (.combined op l' r') : Eval Unit) σ τ :=
    .ok rfl rfl (h.note _ _) trivial
  refine hnote.bind fun _ _ σ' τ' hstay _ => ?_
  have hcombine : op.combine l r = op.combine l' r' := by
    refine BinaryOp.combine_congr hl.similar hr.similar fun _ hfl hfr => ?_
    rw [hl.identity_eq hfl, hr.identity_eq hfr]
  rw [← hcombine]
  cases hc : op.combine l r with
  | error refusal => exact tandem_refuse hstay.twins refusal hp
  | ok c => exact tandem_make hstay.twins (isFunction_eq_false (BinaryOp.ok_of_combine hc))

/-- Both runs are decided by the left operand, or none is. -/
theorem tandem_operateLazily (h : σ.Twins L τ) {o o' : Object} (ho : o.Twins L σ τ o')
    {right right' : Eval Object} (hright : Tandem L (Object.Twins L) right right' σ τ)
    (op : BinaryOp) (hp : L.place p p') :
    Tandem L (Value.Twins L) (operateLazily op o right p) (operateLazily op o' right' p') σ τ := by
  unfold operateLazily
  cases op.decisive? with
  | none =>
    exact hright.bind fun r r' σ' τ' hstay hr =>
      tandem_operate hstay.twins (ho.mono hstay.pairs) hr op hp
  | some decisive =>
    cases ho with
    | function => exact tandem_refuse h _ hp
    | @plain i i' c hc =>
      cases c with
      | boolean b =>
        dsimp only
        by_cases hb : b = decisive
        · rw [if_pos hb, if_pos hb]
          exact .ok rfl rfl h.stay (.object (.plain i i' hc))
        rw [if_neg hb, if_neg hb]
        refine hright.bind fun r r' σ' τ' hstay hr => ?_
        -- the left operand does not decide, so the right one has to be a truth value
        cases hr with
        | function => exact tandem_refuse hstay.twins _ hp
        | @plain j j' c hc' =>
          cases c with
          | boolean b' =>
            exact tandem_operate hstay.twins (.plain i i' hc) (.plain j j' hc') op hp
          | _ => exact tandem_refuse hstay.twins _ hp
      | _ => exact tandem_refuse h _ hp

/-- Both runs choose the same branch. -/
theorem tandem_choose (h : σ.Twins L τ) {o o' : Object} (ho : o.Twins L σ τ o')
    (henv : BindsPairs L σ τ env ρ) {t t' e e' : Expr} (ht : t.Variant L ρ t')
    (he : e.Variant L ρ e') (hp : L.place p p') :
    Tandem L (Value.Twins L) (choose o t e env p) (choose o' t' e' env p') σ τ := by
  cases ho with
  | function => exact .error rfl rfl h.stay (.failed _ hp)
  | @plain i i' c hc =>
    cases c with
    | boolean b =>
      cases b with
      | true => exact tandem_suspend h henv ht
      | false => exact tandem_suspend h henv he
    | _ => exact .error rfl rfl h.stay (.failed _ hp)

/-- Evaluation goes in tandem, if forcing does. -/
theorem tandem_eval {force : Value → Eval Object}
    (hforce : ∀ σ τ v v', σ.Twins L τ → v.Twins L σ τ v' →
      Tandem L (Object.Twins L) (force v) (force v') σ τ)
    {e e' : Expr} (he : e.Variant L ρ e') (h : σ.Twins L τ) (henv : BindsPairs L σ τ env ρ) :
    Tandem L (Value.Twins L) (eval force env e) (eval force env e') σ τ := by
  -- an operand is first evaluated and then forced
  have need : ∀ {e e' : Expr} {σ τ : Store},
      Tandem L (Value.Twins L) (eval force env e) (eval force env e') σ τ →
      Tandem L (Object.Twins L) (eval force env e >>= force) (eval force env e' >>= force) σ τ :=
    fun htandem => htandem.bind fun v v' σ' τ' hstay hv => hforce σ' τ' v v' hstay.twins hv
  induction he generalizing σ τ with
  | literal c hp => exact .ok rfl rfl h.stay (.object (.plain _ _ (by cases c <;> rfl)))
  | @name ρ x x' p p' hp hx =>
    have heval := eval_name force env x p σ
    have heval' := eval_name force env x' p' τ
    rcases henv.lookup h hx with ⟨a, ha, ha'⟩ | ⟨hnone, hnone', rfl⟩
    · rw [ha] at heval
      rw [ha'] at heval'
      exact .ok heval heval' h.stay (.thunk a)
    · -- the name is in the message, and it is the same one
      rw [hnone] at heval
      rw [hnone'] at heval'
      exact .error heval heval' h.stay (.failed _ hp)
  | paren _ _ ih => exact ih h henv
  | arrow _ hx hbody => exact tandem_function h hx henv hbody
  | call hp _ ha ihf =>
    refine (need (ihf h henv)).bind fun o o' σ' τ' hstay ho => ?_
    exact tandem_call hstay.twins ho (hstay.pairs henv) ha hp
  | unary op hp _ ih =>
    refine (need (ih h henv)).bind fun o o' σ' τ' hstay ho => ?_
    exact tandem_operateUnary hstay.twins ho op hp
  | binary op hp _ _ ihl ihr =>
    refine (need (ihl h henv)).bind fun o o' σ' τ' hstay ho => ?_
    -- the right operand is evaluated in the stores that the left one leaves
    have hright := need (ihr hstay.twins (hstay.pairs henv))
    exact tandem_operateLazily hstay.twins ho hright op hp
  | cond hp _ ht he ihc =>
    refine (need (ihc h henv)).bind fun o o' σ' τ' hstay ho => ?_
    exact tandem_choose hstay.twins ho (hstay.pairs henv) ht he hp
  -- evaluation looks through parentheses, so a run without them is not a step behind
  | opened _ _ _ ih | enclosed _ _ _ ih => exact ih h henv

/-! ## Thunks -/

/-- Both runs keep the result of a thunk, or find that it has one already. -/
theorem tandem_fill (h : σ.Twins L τ) (a : CellId) {v v' : Value} (hv : v.Twins L σ τ v') :
    Tandem L (fun _ _ _ _ => True) (fill a v) (fill a v') σ τ := by
  have hsome := (h.cell a).isSome_memo
  by_cases hfilled : (σ.cell a).memo.isSome = true
  · exact .error (if_pos hfilled) (if_pos (hsome ▸ hfilled)) h.stay (.same _)
  · exact .ok (if_neg hfilled) (if_neg (hsome ▸ hfilled)) (h.setMemo a hv) trivial

/-- Following one thunk goes in tandem, if evaluation does. -/
theorem tandem_step {eval : Env → Expr → Eval Value}
    (heval : ∀ σ τ env ρ e e', σ.Twins L τ → BindsPairs L σ τ env ρ → e.Variant L ρ e' →
      Tandem L (Value.Twins L) (eval env e) (eval env e') σ τ) (h : σ.Twins L τ) (a : CellId) :
    Tandem L (Value.Twins L) (step eval a) (step eval a) σ τ := by
  have hrel := (h.cell a).memo
  cases hmemo : (σ.cell a).memo with
  | some v =>
    rw [hmemo] at hrel
    cases hmemo' : (τ.cell a).memo with
    | none => rw [hmemo'] at hrel; cases hrel
    | some v' =>
      rw [hmemo'] at hrel
      cases hrel with
      | some hv => exact .ok (step_of_memo hmemo) (step_of_memo hmemo') h.stay hv
  | none =>
    have hmemo' : (τ.cell a).memo = none := by
      rw [hmemo] at hrel
      generalize (τ.cell a).memo = m at hrel ⊢
      cases hrel
      rfl
    obtain ⟨ρ, hρ, he⟩ := (h.cell a).expr
    have hsame := (h.cell a).busy
    cases hbusy : (σ.cell a).busy with
    | true =>
      exact .error (step_of_busy hmemo hbusy) (step_of_busy hmemo' (hsame.symm.trans hbusy))
        h.stay (.failed _ he.place)
    | false =>
      have hmarked := h.setBusy a true (.began a) (.began a)
      have hbusy' := hsame.symm.trans hbusy
      cases heval _ _ _ ρ _ _ hmarked.twins (hmarked.pairs hρ) he with
      | error hx hy hstay hstop =>
        rw [(h.cell a).env] at hy
        have hreleased := hstay.twins.setBusy a false (.abandoned a) (.abandoned a)
        exact .error (step_of_error hmemo hbusy hx) (step_of_error hmemo' hbusy' hy)
          ((hmarked.trans hstay).trans hreleased) hstop
      | ok hx hy hstay hv =>
        rw [(h.cell a).env] at hy
        -- the results are kept in both stores, unless there is one already
        have hidle := hstay.twins.setBusy a false (.finished a) (.finished a)
        have hv' := hv.mono hidle.pairs
        have hkeep := (tandem_fill hidle.twins a hv').bind (S := Value.Twins L)
          (f := fun _ => pure _) (g := fun _ => pure _)
          fun _ _ _ _ hstay' _ => .ok rfl rfl hstay'.twins.stay (hv'.mono hstay'.pairs)
        have hstep := step_of_eval_ok hmemo hbusy hx
        have hstep' := step_of_eval_ok hmemo' hbusy' hy
        have hstay := (hmarked.trans hstay).trans hidle
        cases hkeep with
        | ok hx hy hstay' hR =>
          exact .ok (hstep.trans hx) (hstep'.trans hy) (hstay.trans hstay') hR
        | error hx hy hstay' hstop =>
          exact .error (hstep.trans hx) (hstep'.trans hy) (hstay.trans hstay') hstop

/-- Forcing goes in tandem, with the same limits on both sides. -/
theorem tandem_force (fuel depth : ℕ) {v v' : Value} (h : σ.Twins L τ) (hv : v.Twins L σ τ v') :
    Tandem L (Object.Twins L) (force fuel depth v) (force fuel depth v') σ τ := by
  induction fuel generalizing depth v v' σ τ with
  | zero =>
    cases hv with
    | object ho => exact .ok rfl rfl h.stay ho
    | thunk a => exact .error rfl rfl h.stay (.same _)
  | succ fuel ih =>
    cases hv with
    | object ho => exact .ok rfl rfl h.stay ho
    | thunk a =>
      cases depth with
      | zero => exact .error rfl rfl h.stay (.same _)
      | succ depth =>
        have heval : ∀ σ τ env ρ e e', σ.Twins L τ → BindsPairs L σ τ env ρ → e.Variant L ρ e' →
            Tandem L (Value.Twins L) (eval (force fuel depth) env e)
              (eval (force fuel depth) env e') σ τ := fun _ _ _ _ _ _ h henv he =>
          tandem_eval (fun _ _ _ _ h hv => ih depth h hv) he h henv
        unfold force
        rw [forceWith_thunk]
        exact (tandem_step heval h a).bind fun v v' σ' τ' hstay hv => ih (depth + 1) hstay.twins hv

/-- Variants have values that are twins. -/
theorem tandem_value (fuel depth : ℕ) {e e' : Expr} (he : e.Variant L ρ e') (h : σ.Twins L τ)
    (henv : BindsPairs L σ τ env ρ) :
    Tandem L (Object.Twins L) (eval (force fuel depth) env e >>= force fuel depth)
      (eval (force fuel depth) env e' >>= force fuel depth) σ τ :=
  (tandem_eval (fun _ _ _ _ h hv => tandem_force fuel depth h hv) he h henv).bind
    fun _ _ _ _ hstay hv => tandem_force fuel depth hstay.twins hv

/-! ## Expansion -/

/-- Variants without other names for parameters and with the same parentheses differ in places
only. -/
theorem Expr.Variant.unplaced_eq (hL : ∀ x y, L.parameter x y → x = y) (hparens : ¬L.parens)
    {e e' : Expr} (he : e.Variant L ρ e') (hρ : ∀ q ∈ ρ, q.1 = q.2) :
    e.unplaced = e'.unplaced := by
  induction he with
  | literal => rfl
  | name _ hx =>
    rw [hx.eq hρ]
    rfl
  | paren _ _ ih => rw [unplaced, unplaced, ih hρ]
  | arrow _ hx _ ih =>
    obtain rfl := hL _ _ hx
    rw [unplaced, unplaced, ih (List.forall_mem_cons.2 ⟨rfl, hρ⟩)]
  | call _ _ _ ihf iha => rw [unplaced, unplaced, ihf hρ, iha hρ]
  | unary _ _ _ ih => rw [unplaced, unplaced, ih hρ]
  | binary _ _ _ _ ihl ihr => rw [unplaced, unplaced, ihl hρ, ihr hρ]
  | cond _ _ _ _ ihc iht ihe => rw [unplaced, unplaced, ihc hρ, iht hρ, ihe hρ]
  | opened _ h | enclosed _ h => exact absurd h hparens

/-- Variants without other names for parameters are the same without places and parentheses. -/
theorem Expr.Variant.bare_eq (hL : ∀ x y, L.parameter x y → x = y) {e e' : Expr}
    (he : e.Variant L ρ e') (hρ : ∀ q ∈ ρ, q.1 = q.2) : e.bare = e'.bare := by
  induction he with
  | literal => rfl
  | name _ hx =>
    rw [hx.eq hρ]
    rfl
  | arrow _ hx _ ih =>
    obtain rfl := hL _ _ hx
    rw [bare, bare, ih (List.forall_mem_cons.2 ⟨rfl, hρ⟩)]
  | call _ _ _ ihf iha => rw [bare, bare, ihf hρ, iha hρ]
  | unary _ _ _ ih => rw [bare, bare, ih hρ]
  | binary _ _ _ _ ihl ihr => rw [bare, bare, ihl hρ, ihr hρ]
  | cond _ _ _ _ ihc iht ihe => rw [bare, bare, ihc hρ, iht hρ, ihe hρ]
  | paren _ _ ih | opened _ _ _ ih | enclosed _ _ _ ih => exact ih hρ

namespace Store.Twins

/-- Twins bind equally many names, over all frames. -/
theorem bindingCount_eq (h : σ.Twins L τ) : σ.bindingCount = τ.bindingCount := by
  -- frames bind as many names, although not always the same ones
  have hlengths : σ.frames.toList.map List.length = τ.frames.toList.map List.length := by
    refine List.ext_getElem (by simp [h.frames]) fun f hf hf' => ?_
    simp only [List.length_map, Array.length_toList] at hf hf'
    have := h.lengths f
    simp only [frame, Array.getD, hf, hf', dif_pos] at this
    simpa using this
  have hfold : ∀ σ : Store,
      σ.bindingCount = (σ.frames.toList.map List.length).foldl (· + ·) 0 := fun σ => by
    rw [List.foldl_map, bindingCount, ← Array.foldl_toList]
  rw [hfold, hfold, hlengths]

/-- Where no parameter has another name, a name stands for the same thunk or for nothing. -/
theorem lookup_eq (hL : ∀ x y, L.parameter x y → x = y) (h : σ.Twins L τ)
    (henv : BindsPairs L σ τ env ρ) (x : String) :
    (∃ a, σ.lookup env x = some (.thunk a) ∧ τ.lookup env x = some (.thunk a)) ∨
      σ.lookup env x = none ∧ τ.lookup env x = none :=
  (henv.lookup h (.refl (henv.eq hL) x)).imp_right fun hnone => ⟨hnone.1, hnone.2.1⟩

/-- Of two variants with the same names, both mention a declared name, or none does. -/
theorem references_eq (hL : ∀ x y, L.parameter x y → x = y) (h : σ.Twins L τ)
    {ρ₀ : List (String × String)} (henv : BindsPairs L σ τ env ρ₀) {e e' : Expr}
    (he : e.Variant L ρ e') (hρ : ∀ q ∈ ρ, q.1 = q.2) (params : List String) :
    e.references σ env params = e'.references τ env params := by
  induction he generalizing params with
  | literal => rfl
  | @name _ x _ _ _ _ hx =>
    obtain rfl := hx.eq hρ
    have hcontains : σ.contains env x = τ.contains env x := by
      rw [contains, contains]
      rcases h.lookup_eq hL henv x with ⟨a, ha, ha'⟩ | ⟨hnone, hnone'⟩
      · rw [ha, ha']
      · rw [hnone, hnone']
    rw [Expr.references, Expr.references, hcontains]
  | paren _ _ ih => exact ih hρ params
  | @arrow _ x x' _ _ _ _ _ hx _ ih =>
    obtain rfl := hL _ _ hx
    exact ih (List.forall_mem_cons.2 ⟨rfl, hρ⟩) (x :: params)
  | call _ _ _ ihf iha => rw [Expr.references, Expr.references, ihf hρ, iha hρ]
  | unary _ _ _ ih => exact ih hρ params
  | binary _ _ _ _ ihl ihr => rw [Expr.references, Expr.references, ihl hρ, ihr hρ]
  | cond _ _ _ _ ihc iht ihe => rw [Expr.references, Expr.references, ihc hρ, iht hρ, ihe hρ]
  | opened _ _ _ ih | enclosed _ _ _ ih => exact ih hρ params

/-- Names are replaced alike, if what they are replaced by is. -/
theorem expandWith_eq (hL : ∀ x y, L.parameter x y → x = y) (h : σ.Twins L τ)
    {inline inline' : String → Env → Expr → Expr}
    (hinline : ∀ x env ρ e e', BindsPairs L σ τ env ρ → e.Variant L ρ e' →
      (inline x env e).bare = (inline' x env e').bare)
    {ρ₀ : List (String × String)} (henv : BindsPairs L σ τ env ρ₀) {e e' : Expr}
    (he : e.Variant L ρ e') (hρ : ∀ q ∈ ρ, q.1 = q.2) (expanding params : List String) :
    (e.expandWith σ inline env expanding params).bare =
      (e'.expandWith τ inline' env expanding params).bare := by
  induction he generalizing params with
  | literal => rfl
  | @name _ x _ p p' _ hx =>
    obtain rfl := hx.eq hρ
    rw [Expr.expandWith, Expr.expandWith]
    by_cases hparams : params.contains x = true
    · rw [if_pos hparams, if_pos hparams]
      rfl
    rw [if_neg hparams, if_neg hparams]
    by_cases hexpanding : expanding.contains x = true
    · rw [if_pos hexpanding, if_pos hexpanding]
      rfl
    rw [if_neg hexpanding, if_neg hexpanding]
    rcases h.lookup_eq hL henv x with ⟨a, ha, ha'⟩ | ⟨hnone, hnone'⟩
    · -- both names stand for the same thunk, whose expressions mention the same names
      obtain ⟨ρ', hρ', hexpr⟩ := (h.cell a).expr
      rw [ha, ha']
      dsimp only
      rw [h.references_eq hL hρ' hexpr (hρ'.eq hL), (h.cell a).env]
      rw [(h.cell a).env] at hρ'
      split
      · exact hinline x _ ρ' _ _ hρ' hexpr
      · rfl
    · rw [hnone, hnone']
      rfl
  | paren _ _ ih | opened _ _ _ ih | enclosed _ _ _ ih => exact ih hρ params
  | @arrow _ x x' _ _ _ _ _ hx _ ih =>
    obtain rfl := hL _ _ hx
    simp only [Expr.expandWith, Expr.bare, ih (List.forall_mem_cons.2 ⟨rfl, hρ⟩)]
  | call _ _ _ ihf iha => simp only [Expr.expandWith, Expr.bare, ihf hρ, iha hρ]
  | unary _ _ _ ih => simp only [Expr.expandWith, Expr.bare, ih hρ]
  | binary _ _ _ _ ihl ihr => simp only [Expr.expandWith, Expr.bare, ihl hρ, ihr hρ]
  | cond _ _ _ _ ihc iht ihe => simp only [Expr.expandWith, Expr.bare, ihc hρ, iht hρ, ihe hρ]

/-- Variants with the same names have the same expansions, apart from places and parentheses. -/
theorem expandBy_eq (hL : ∀ x y, L.parameter x y → x = y) (h : σ.Twins L τ) (fuel : ℕ)
    (henv : BindsPairs L σ τ env ρ) {e e' : Expr} (he : e.Variant L ρ e')
    (expanding params : List String) :
    (e.expandBy σ fuel env expanding params).bare =
      (e'.expandBy τ fuel env expanding params).bare := by
  induction fuel generalizing env ρ e e' expanding params with
  | zero => exact he.bare_eq hL (henv.eq hL)
  | succ fuel ih =>
    exact h.expandWith_eq hL (fun x env ρ e e' henv he => ih henv he (x :: expanding) []) henv he
      (henv.eq hL) expanding params

/-- If no parameter may have another name, both expansions are printed alike. -/
theorem render_expand (hL : ∀ x y, L.parameter x y → x = y) (h : σ.Twins L τ)
    (henv : BindsPairs L σ τ env ρ) {e e' : Expr} (he : e.Variant L ρ e')
    (expanding params : List String) :
    (e.expand σ env expanding params).render = (e'.expand τ env expanding params).render := by
  rw [← Expr.render_bare, ← Expr.render_bare (e'.expand _ _ _ _), Expr.expand, Expr.expand,
    h.bindingCount_eq, h.expandBy_eq hL _ henv he]

end Store.Twins

end

/-! ## Programs -/

/-- The second statement is the first one with other names for parameters, other places and other
parentheses. Names of parameters are to be seen in expansions, and so these are left out if
parameters may have other names. -/
inductive Statement.Variant (L : Liberty) : Statement → Statement → Prop where
  | declare (x : String) {e e' : Expr} {p p' : Option Location} : L.place p p' →
      e.Variant L [] e' → Variant L (.declare x e p) (.declare x e' p')
  | value {e e' : Expr} {p p' : Option Location} : L.place p p' → e.Variant L [] e' →
      Variant L (.output .value e p) (.output .value e' p')
  | expansion {e e' : Expr} {p p' : Option Location} : (∀ x y, L.parameter x y → x = y) →
      L.place p p' → e.Variant L [] e' →
      Variant L (.output .expansion e p) (.output .expansion e' p')

/-- Two outcomes are the same apart from names and places. -/
structure Outcome.Twins (L : Liberty) (r r' : Outcome) : Prop where
  outputs : List.Forall₂ (fun o o' => ∃ σ τ, Object.Twins L σ τ o o') r.outputs r'.outputs
  stop : Option.Rel (Stop.Variant L) r.stop r'.stop
  store : r.store.Twins L r'.store

section

variable {L : Liberty} {σ τ : Store}

/-- Statements that are variants go in tandem. -/
theorem tandem_execute (fuel depth : ℕ) {s s' : Statement} (hs : s.Variant L s')
    (h : σ.Twins L τ) :
    Tandem L (fun σ τ => Option.Rel (Object.Twins L σ τ)) (s.execute (force fuel depth) .global)
      (s'.execute (force fuel depth) .global) σ τ := by
  cases hs with
  | @declare x e e' p p' hp he =>
    cases hx : σ.contains .global x with
    | true =>
      have hx' := (h.contains_eq x).symm.trans hx
      exact .error (execute_declare_taken _ hx e p) (execute_declare_taken _ hx' e' p') h.stay
        (.failed _ hp)
    | false =>
      -- both stores get the same thunk, under a name that is never renamed
      have hx' := (h.contains_eq x).symm.trans hx
      have hthunk := h.newThunk .global he
      have hbind := hthunk.twins.bind x σ.cells.size
      have hdeclared' := execute_declare_new (force fuel depth) hx' e' p'
      rw [Store.declared, ← h.cells] at hdeclared'
      exact .ok (execute_declare_new _ hx e p) hdeclared' (hthunk.trans hbind) .none
  | @value e e' p p' _ he =>
    cases tandem_value fuel depth he h .global with
    | ok hx hy hstay ho =>
      exact .ok (execute_value_of_ok hx p) (execute_value_of_ok hy p') hstay (.some ho)
    | error hx hy hstay hstop =>
      exact .error (execute_value_of_error hx p) (execute_value_of_error hy p') hstay hstop
  | @expansion e e' p p' hL _ he =>
    have hrender := h.render_expand hL .global he [] []
    refine .ok (execute_expansion _ e p σ) (execute_expansion _ e' p' τ) (h.newObject _ _)
      (.some ?_)
    rw [hrender]
    exact .plain _ _ rfl

/-- Programs that differ in names and places only run alike. -/
theorem Store.Twins.execute (fuel depth : ℕ) {ss ss' : List Statement}
    (hss : List.Forall₂ (Statement.Variant L) ss ss') (h : σ.Twins L τ) :
    (execute (force fuel depth) .global ss σ).Twins L
      (execute (force fuel depth) .global ss' τ) := by
  induction hss generalizing σ τ with
  | nil => exact ⟨.nil, .none, h⟩
  | @cons s s' ss ss' hs _ ih =>
    cases tandem_execute fuel depth hs h with
    | error hx hy hstay hstop =>
      rw [execute_cons_of_error hx, execute_cons_of_error hy]
      exact ⟨.nil, .some hstop, hstay.twins⟩
    | ok hx hy hstay ho =>
      rw [execute_cons_of_ok hx, execute_cons_of_ok hy]
      have hrest := ih hstay.twins
      refine ⟨List.rel_append ?_ hrest.outputs, hrest.stop, hrest.store⟩
      cases ho with
      | none => exact .nil
      | some ho => exact .cons ⟨_, _, ho⟩ .nil

end

end CallByNeed
