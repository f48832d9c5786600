import CostBound.Program

/-!
# Derived costs

The cost of a body counts the calls it makes: a call costs a fixed charge and what its callee claims, at the
arguments of the call. Nothing is unfolded further and nothing is simplified.

* `CostModel` — the charge for a call.
* `Command.cost` — the cost of a command.
* `Program.costs` — the costs of all functions.
-/

namespace CostBound

/-- What a call costs on top of its callee's bound. -/
structure CostModel where
  callCost : Int64
deriving DecidableEq, Repr

namespace CostModel

/-- Calls are free. -/
def freeCalls : CostModel := ⟨0⟩

/-- Each call costs one step. -/
def unitCalls : CostModel := ⟨1⟩

instance : Inhabited CostModel := ⟨unitCalls⟩

/-- The cost of a call whose callee claims `bound`. -/
def charge (m : CostModel) (bound : Expr) : Expr :=
  if m.callCost = 0 then bound else .binary .add (.int m.callCost) bound

end CostModel

/-- What a function claims at given arguments. -/
def Function.boundAt (f : Function) (args : List Expr) : Except ProgramError Expr :=
  if f.params.length = args.length then
    .ok (f.bound.subst (.ofPairs (f.params.zip args)))
  else .error (.arity f.name f.params.length args.length)

/-- The cost of a command; the first call in it that has no meaning is an error. -/
def Command.cost (p : Program) (m : CostModel) : Command → Except ProgramError Expr
  | pass => .ok (.int 0)
  | call callee args => do
      let f ← p.lookup callee
      return m.charge (← f.boundAt args)
  | block a b => return .binary .add (← a.cost p m) (← b.cost p m)
  | choose c a b => return .cond c (← a.cost p m) (← b.cost p m)

/-- The costs of all functions, in order. -/
def Program.costs (p : Program) (m : CostModel) : Except ProgramError (List Expr) :=
  p.functions.mapM fun f => f.body.cost p m

end CostBound
