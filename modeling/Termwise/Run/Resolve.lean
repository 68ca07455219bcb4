import Termwise.Run.Arrangement

/-!
# Resolution

Resolution turns a run of terms into calls. The resolved node keeps its place in the tables and
its declared type; what it is and its type change. A run that fails becomes a failed term, and
the failure is reported unless it stems from a term that had failed before.

## Main definitions

* `resolveTerms`: the expression that a list of terms comes to
* `resolve`: resolves one node
* `resolveAll`: resolves every node in the queue
-/

namespace Termwise

/-- A minus sign and its operand, with nothing around them: the operand is kept for as long as
its type is open. -/
def negatedOperand (arena : Arena) (operand : ExprId) (span : Span) : Expression :=
  .new (.negated operand) (if (arena.expr operand).ty = .float then .float else .int) span

/-- The expression that a list of terms comes to. A single term stands for itself, a lone
operator too; a minus sign and a number are kept together; anything longer is arranged. -/
def resolveTerms (resolveRun : ExprId → CheckM Unit) (terms : List ExprId) (span : Span) :
    CheckM Expression := do
  match terms with
  | [] => return .sentinel .empty span
  | [only] => do
    match ← classify resolveRun only with
    | .minusSign place => CheckM.fail .missingOperand place
    | _ => CheckM.expr only
  | [first, second] => do
    if (← CheckM.expr first).kind = .minusSign then
      let term ← classify resolveRun second
      let arena ← CheckM.arena
      match term with
      | .operand operand =>
        if (arena.expr operand).ty.numeric = .yes then return negatedOperand arena operand span
        else arrange resolveRun terms span
      | _ => arrange resolveRun terms span
    else arrange resolveRun terms span
  | terms => arrange resolveRun terms span

/-- Marks a node as failed and reports why, unless that was done before. -/
def markFailed (id : ExprId) (error : CompileError) : CheckM Unit := do
  CheckM.modifyExpr id fun e => { e with kind := .syntaxError, ty := .absurd }
  modify fun c => { c with isValid := false }.reportNew error

/-- Resolves one node, and with `resolveRun` the runs among its terms. Anything but a run is left
alone. -/
def resolveNode (resolveRun : ExprId → CheckM Unit) (id : ExprId) : CheckM Unit := do
  let e ← CheckM.expr id
  match e.kind with
  | .run terms => do
    match ← CheckM.attempt (resolveTerms resolveRun terms e.span) with
    | .ok resolved => do
      CheckM.modifyExpr id (·.replaceBy resolved)
      CheckM.emit (.resolved e.span (← CheckM.expr id).ty)
    | .error error => do
      markFailed id error
      throw (.error error)
  | _ => return

/-- Resolves one node and the runs among its terms to a given depth. -/
def resolveWithin : (depth : Nat) → ExprId → CheckM Unit
  | 0, _ => throw .cyclic
  | depth + 1, id => resolveNode (resolveWithin depth) id

/-- Resolves one node. A chain of nested runs is no longer than the table of expressions. -/
def resolve (id : ExprId) : CheckM Unit := do
  let arena ← CheckM.arena
  resolveWithin (arena.exprs.size + 1) id

/-- Resolves nodes one after the other, past those that fail, and counts the failures. -/
def resolveEach : List ExprId → CheckM Nat
  | [] => return 0
  | id :: rest => do
    let outcome ← CheckM.attempt (resolve id)
    let failures ← resolveEach rest
    return (if outcome.isOk then failures else failures + 1)

/-- Resolves every node in the queue and says whether the program is still valid. -/
def resolveAll : CheckM Bool := do
  let queue := (← get).queue
  modify fun c => { c with queue := [] }
  let failures ← resolveEach queue
  CheckM.emit (.drained failures)
  return (← get).isValid

end Termwise
