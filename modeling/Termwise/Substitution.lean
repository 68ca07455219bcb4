import Termwise.Compilation.Basic

/-!
# Substitution of definitions

A use of a definition may be replaced by a copy of its body. This is done for definitions that
have a body and no effect, and that either take no parameter or are used at exactly their own
type. The copy shares no node with the body, so that each use can take its own native types.

## Main definitions

* `substituteReference`: replaces a reference, if its definition allows it
* `substitute`: replaces a reference or a call without arguments
-/

namespace Termwise

/-- Whether a body can stand at the place of a use: it is neither without a value nor still to be
arranged. -/
def ExprKind.isSubstitutable : ExprKind → Bool
  | .run _ | .minusSign | .missingArg => false
  | kind => !kind.isSentinel

/-- Whether the types declared at a use and at its definition disagree. -/
def declarationsDiffer (use definition : Option Ty) : Option (Ty × Ty) :=
  match use, definition with
  | some u, some d => if u = d then none else some (u, d)
  | _, _ => none

/-- Puts a copy of a tree in the place of an expression. A tree that is too deep has no copy. -/
def putCopy (id body : ExprId) : CheckM Unit := do
  match (← CheckM.arena).copy? body with
  | none => throw .cyclic
  | some (copied, arena) => modify fun c => { c with arena := arena.replaceExpr id copied }

/-- Replaces a use of `d` by a copy of its body. Says whether it did. -/
def substituteReference (id : ExprId) (d : DefId) : CheckM Bool := do
  let arena ← CheckM.arena
  let definition := arena.definition d
  let use := arena.expr id
  match definition.body with
  | .undefined => do
    CheckM.emit (.keptUndefined definition.name)
    return false
  | .statement _ | .builtin => return false
  | .expression body => do
    if let some (declared, other) := declarationsDiffer use.declared definition.declared then
      CheckM.emit (.keptDeclared definition.name declared other)
      return false
    let ty := arena.definitionType d
    if ty.isFunction then
      if !ty.isPure then
        CheckM.emit (.keptImpure definition.name)
        return false
      if use.declared ≠ some ty ∧ ty.arity ≠ 0 then return false
    if !(arena.expr body).kind.isSubstitutable then return false
    putCopy id body
    CheckM.emit (.substituted definition.name)
    return true

/-- Replaces a call without arguments, read as a reference to its callee. A call that is not
replaced stays a call. -/
def substituteCall (id : ExprId) (callee : DefId) (args : List ExprId) : CheckM Bool := do
  if !(← CheckM.definitionType callee).isPure || !args.isEmpty then return false
  let kind := (← CheckM.expr id).kind
  CheckM.modifyExpr id fun e => { e with kind := .reference callee }
  if ← substituteReference id callee then
    CheckM.emit (.substitutedCall (← CheckM.definition callee).name)
    return true
  else
    CheckM.modifyExpr id fun e => { e with kind }
    return false

/-- Replaces a reference or a call by a copy of the body of its definition, if the settings and
the definition allow it. Says whether it did. -/
def substitute (settings : Settings) (id : ExprId) : CheckM Bool := do
  if settings.debugNoInline then return false
  match (← CheckM.expr id).kind with
  | .reference d => substituteReference id d
  | .call callee args => substituteCall id callee args
  | _ => return false

end Termwise
