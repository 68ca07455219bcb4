import Termwise.Cast
import Termwise.Compilation.Basic

/-!
# Calls

A call binds arguments to the parameters of its callee. Arguments are brought into the parameter
types as the call is built; parameters without an argument, or with a missing one, stay open.
While any does the call is partial, and its type is the function type of its open parameters.

## Main definitions

* `EditM.accept`: makes an argument acceptable as a parameter
* `unboundParams`: the parameters that a list of arguments leaves open
* `createCall`: a call, not yet appended to the tables
* `Arena.openSlots`: how many further arguments an operand takes
* `Compilation.negationFor`: the negation that suits an operand
-/

namespace Termwise

/-- Makes the expression acceptable as a parameter of the given type, or says why it is not. What
is open takes the parameter's type; numbers stay undecided as long as both sides are numbers;
known values are cast. -/
def EditM.accept (param : Ty) : EditM (Except Cause Unit) := do
  let e ← get
  if e.kind.isMissingArg then
    if e.ty = .hole then setType param
    return .ok ()
  if e.ty = param ∨ e.ty = .absurd ∨ param = .hole then return .ok ()
  if e.ty = .hole then
    setType param
    return .ok ()
  if param = .number ∧ e.ty.numeric = .yes then return .ok ()
  if e.ty = .number ∧ param.numeric = .yes then return .ok ()
  if e.kind.isValue then
    if ← castTo e.ty param then return .ok ()
    return .error (.castFailure e.ty param)
  return .error (.typeMismatch param e.ty)

/-- Coerces one argument in place. -/
def coerceArg (arg : ExprId) (param : Ty) : CheckM Unit := do
  match ← CheckM.edit arg (EditM.accept param) with
  | .ok () => return
  | .error cause => CheckM.fail cause (← CheckM.expr arg).span

/-- Coerces arguments to parameters from left to right, up to the end of the shorter list. -/
def coerceArgs : List ExprId → List Ty → CheckM Unit
  | arg :: args, param :: params => do
    coerceArg arg param
    coerceArgs args params
  | _, _ => return

/-- The types of the parameters that have no argument or a missing one, in order. -/
def unboundParams (isMissing : ExprId → Bool) : List Ty → List ExprId → List Ty
  | [], _ => []
  | params, [] => params
  | param :: params, arg :: args =>
    if isMissing arg then param :: unboundParams isMissing params args
    else unboundParams isMissing params args

/-- A call of `callee`, not appended to the tables. A value is called without arguments only. -/
def createCall (callee : DefId) (args : List ExprId) (span : Span) : CheckM Expression := do
  let calleeType ← CheckM.definitionType callee
  match calleeType with
  | .function params result isPure => do
    if params.length < args.length then
      let name := (← CheckM.definition callee).name
      CheckM.fail (.tooManyArguments name params.length args.length) span
    coerceArgs args params
    let arena ← CheckM.arena
    let unbound := unboundParams arena.isMissing params args
    let ty ← if unbound.isEmpty then pure result else CheckM.functionType unbound result isPure
    return .new (.call callee args) ty span
  | ty => do
    unless args.isEmpty do
      let name := (← CheckM.definition callee).name
      CheckM.fail (.notAFunction name ty) span
    return .new (.call callee args) ty span

/-- A call of `callee`, appended to the tables. -/
def allocCall (callee : DefId) (args : List ExprId) (span : Span) : CheckM ExprId := do
  CheckM.allocExpr (← createCall callee args span)

/-- How many arguments an operand takes from the operands after it: as many as a function has
parameters, or as a partial call has open ones. -/
def Arena.openSlots (a : Arena) (id : ExprId) : Nat :=
  match (a.expr id).kind with
  | .reference d => (a.definitionType d).arity
  | .call callee args =>
    if a.isPartialCall id then
      ((a.definitionType callee).arity - args.length) + args.countP a.isMissing
    else 0
  | _ => 0

/-- The negation that suits an operand: that of floats for what is or will become a float, that
of integers for everything else. -/
def Compilation.negationFor (c : Compilation) (operand : ExprId) : DefId :=
  let e := c.arena.expr operand
  let isFloat := match e.ty, e.kind with
    | .float, _ => true
    | .numberLiteral, .value (.string text) => (Text.Integer.read text).isNone
    | _, _ => false
  if isFloat then c.builtins.unaryMinusFloat else c.builtins.unaryMinus

end Termwise
