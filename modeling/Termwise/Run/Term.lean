import Termwise.Call

/-!
# Terms of a run

A run is a flat list of terms. Before a term is arranged it is classified: as an operand, as an
operator with the place where its definition puts it, or as a minus sign, which may be either.
A term that is itself a run is resolved first.

## Main definitions

* `Binding`, `Binding.power`: how tightly a binary operator binds, and the powers it has for that
* `PendingOperator`: a binary operator in a run
* `Term`: a classified term
* `classifyResolved`: the classification of a term that is no run
* `classify`: the classification of one term
-/

namespace Termwise

/-- How tightly a binary operator is declared to bind, and to which side equal ones group. -/
structure Binding where
  precedence : UInt32
  associativity : Associativity
deriving DecidableEq

/-- How strongly a binary operator holds the operand on its left and the one on its right. -/
structure BindingPower where
  left : UInt64
  right : UInt64
deriving DecidableEq

/-- The powers of a binary operator: one that groups to the left is stronger on its right side,
and any other one on its left side. In 64 bits every precedence has powers of its own. -/
def Binding.power (b : Binding) : BindingPower :=
  let base := b.precedence.toUInt64 * 2 + 1
  match b.associativity with
  | .left => ⟨base, base + 1⟩
  | .right | .both => ⟨base + 1, base⟩

/-- A binary operator in a run. -/
structure PendingOperator where
  definition : DefId
  power : BindingPower
  span : Span
deriving DecidableEq

/-- The binary operator that a definition stands for, at a place in a run. -/
def Definition.pending? (d : Definition) (id : DefId) (span : Span) : Option PendingOperator :=
  match d.operator with
  | some (.binary precedence associativity) =>
    some ⟨id, Binding.power ⟨precedence, associativity⟩, span⟩
  | _ => none

/-- A term after classification. -/
inductive Term where
  | operand (id : ExprId)
  | leading (definition : DefId) (span : Span)
  | trailing (definition : DefId) (span : Span)
  | binary (operator : PendingOperator)
  | minusSign (span : Span)
deriving DecidableEq

/-- A reference takes the type that its definition has by now. -/
def refreshReference (id : ExprId) : CheckM Unit := do
  match (← CheckM.expr id).kind with
  | .reference d | .operator d => do
    let ty ← CheckM.definitionType d
    CheckM.setType id ty
  | _ => return

/-- The term that a reference to an operator is. -/
def operatorTerm (id : ExprId) (d : DefId) (span : Span) : CheckM Term := do
  let definition ← CheckM.definition d
  match definition.operator with
  | some .leading => return .leading d span
  | some .trailing => return .trailing d span
  | some (.binary precedence associativity) =>
    return .binary ⟨d, Binding.power ⟨precedence, associativity⟩, span⟩
  | none => return .operand id

/-- Classifies one term that is no run. A reference is typed anew first. -/
def classifyResolved (id : ExprId) (span : Span) : CheckM Term := do
  refreshReference id
  match (← CheckM.expr id).kind with
  | .syntaxError => CheckM.fail .containsError span
  | .notImplemented => CheckM.fail (.unexpectedTerm "unimplemented construct") span
  | .deleted => CheckM.fail (.unexpectedTerm "deleted expression") span
  | .minusSign => return .minusSign span
  | .operator d => operatorTerm id d span
  | _ => return .operand id

/-- Classifies one term. A term that is a run is handed to `resolveRun` first; its failure was
reported there. -/
def classify (resolveRun : ExprId → CheckM Unit) (id : ExprId) : CheckM Term := do
  let found ← CheckM.expr id
  if let .run _ := found.kind then
    if let .error _ ← CheckM.attempt (resolveRun id) then
      CheckM.fail .containsError found.span
  classifyResolved id found.span

end Termwise
