import CostBound.Cost
import CostBound.Expr.Typing
import CostBound.Unknown

/-!
# Queries

A program's bounds hold if some choice of the unknowns makes every obligation true for all values of its binders.

* `Obligation` — what one function's bound asks for: some parameter is not positive, or the derived cost is at most
  the bound.
* `Query` — the unknowns and the obligations of a program.
* `Query.check` — every formula is a proposition.
* `Program.query` — the query of a program, or why there is none.
-/

namespace CostBound

/-- What the bound of one function asks for. -/
structure Obligation where
  function : String
  params : List String
  /-- The names that the formula is about: the parameters, then any other name that is no unknown. -/
  binders : List String
  cost : Expr
  bound : Expr
  formula : Expr
deriving DecidableEq, Repr

namespace Obligation

/-- Some parameter is not positive, or the cost is at most the bound. -/
def claim (params : List String) (cost bound : Expr) : Expr :=
  .disjunction
    (params.map (fun p => .binary .le (.var p) (.int 0)) ++ [.binary .le cost bound])

/-- The obligation of a function with a derived cost. -/
def ofFunction (f : Function) (cost : Expr) : Obligation :=
  let formula := claim f.params cost f.bound
  let others := formula.names.filter fun x => x ∉ f.params
  { function := f.name
    params := f.params
    binders := f.params ++ others.filter fun x => (Unknown.Kind.ofName? x).isNone
    cost
    bound := f.bound
    formula }

end Obligation

/-- The names in a function's body, derived cost and bound that are no parameters. -/
def Function.outerNames (f : Function) (cost : Expr) : List String :=
  (Names.unions [f.body.names, cost.names, f.bound.names]).filter fun x => x ∉ f.params

/-- The unknowns of a program and what they have to satisfy. -/
structure Query where
  unknowns : List Unknown
  obligations : List Obligation
deriving DecidableEq, Repr

/-- Why a program has no query. -/
inductive QueryError where
  | program (error : ProgramError)
  | type (error : TypeError)
deriving DecidableEq, Repr, Inhabited

/-- The wording of the error. -/
def QueryError.message : QueryError → String
  | program e => e.message
  | type e => e.message

/-- The code of the error in a report. -/
def QueryError.code : QueryError → String
  | program e => e.code
  | type e => e.code

namespace Query

/-- The query of functions with their derived costs: its unknowns are the names with a reserved beginning, in
order, that some function has beside its parameters. -/
def ofCosts (costs : List (Function × Expr)) : Query :=
  ⟨(Names.unions (costs.map fun fc => fc.1.outerNames fc.2)).filterMap Unknown.ofName?,
    costs.map fun fc => .ofFunction fc.1 fc.2⟩

/-- Every formula is a proposition. -/
def check (q : Query) : Except TypeError Unit := q.obligations.forM fun o => o.formula.expect .bool

end Query

/-- The query of a program. Calls are looked at before types. -/
def Program.query (p : Program) (m : CostModel) : Except QueryError Query := do
  let q := Query.ofCosts (p.functions.zip (← (p.costs m).mapError .program))
  q.check.mapError .type
  return q

end CostBound
