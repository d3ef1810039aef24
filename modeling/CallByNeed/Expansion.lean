import CallByNeed.Store

/-!
# Expansion

Expanding an expression replaces the names in it by the expressions they are bound to, and the names
in those in turn. Nothing is evaluated. A name stays as it is if it is a parameter, if it is bound
to nothing or to no thunk, or if its expression is *self-contained*, that is, mentions no bound name
itself. A name that turns up within its own expansion is marked instead of being replaced again.
-/

namespace CallByNeed

/-- Whether an expression mentions a name that is bound in the environment and is not one of the
parameters. -/
def Expr.references (σ : Store) (env : Env) : List String → Expr → Bool
  | _, literal _ _ => false
  | params, name x _ => !params.contains x && σ.contains env x
  | params, paren e _ | params, unary _ e _ => e.references σ env params
  | params, arrow x e _ => e.references σ env (x :: params)
  | params, call f a _ => f.references σ env params || a.references σ env params
  | params, binary _ l r _ => l.references σ env params || r.references σ env params
  | params, cond c t e _ =>
    c.references σ env params || t.references σ env params || e.references σ env params

/-- A name that turned up within its own expansion. -/
def cycleMark (x : String) : String :=
  "..." ++ x ++ "..."

/-- Expands an expression, given how to expand the expression that a name is bound to.

`expanding` holds the names that are being replaced around the expression, `params` the parameters
of the functions around it. -/
def Expr.expandWith (σ : Store) (inline : String → Env → Expr → Expr) (env : Env)
    (expanding : List String) : List String → Expr → Expr
  | _, literal c p => literal c p
  | params, name x p =>
    if params.contains x then name x p
    else if expanding.contains x then name (cycleMark x) p
    else
      match σ.lookup env x with
      | some (.thunk a) =>
        let cell := σ.cell a
        if cell.expr.references σ cell.env [] then inline x cell.env cell.expr else name x p
      | _ => name x p
  | params, paren e p => paren (e.expandWith σ inline env expanding params) p
  | params, arrow x e p => arrow x (e.expandWith σ inline env expanding (x :: params)) p
  | params, call f a p =>
    call (f.expandWith σ inline env expanding params) (a.expandWith σ inline env expanding params) p
  | params, unary op e p => unary op (e.expandWith σ inline env expanding params) p
  | params, binary op l r p =>
    binary op (l.expandWith σ inline env expanding params)
      (r.expandWith σ inline env expanding params) p
  | params, cond c t e p =>
    cond (c.expandWith σ inline env expanding params) (t.expandWith σ inline env expanding params)
      (e.expandWith σ inline env expanding params) p

/-- Expands an expression, with at most `fuel` replacements inside each other. -/
def Expr.expandBy (σ : Store) : Nat → Env → List String → List String → Expr → Expr
  | 0, _, _, _, e => e
  | fuel + 1, env, expanding, params, e =>
    e.expandWith σ (fun x env e => e.expandBy σ fuel env (x :: expanding) []) env expanding params

/-- Expands an expression. The names that are replaced inside each other are all different, and each
of them is bound, so there are no more of them than bindings. -/
def Expr.expand (σ : Store) (env : Env) (expanding params : List String) (e : Expr) : Expr :=
  e.expandBy σ (σ.bindingCount + 1) env expanding params

end CallByNeed
