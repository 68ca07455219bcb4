import Termwise.Run.Term

/-!
# Arranging a run

A run is read from left to right over two stacks, one of finished operands and one of binary
operators that wait for their right side.

* Operands after a function are its arguments, up to the number that it takes.
* Operators in front of an operand or after it apply before any binary operator does.
* A binary operator first reduces the waiting ones that take the operand before it.
* A binary operator at the start or at the end of a run leaves its empty side open.

## Main definitions

* `Phase`: what the reader of a run expects next
* `Arrangement`: the stacks, the operators in front of the next operand, and the phase
* `Arrangement.advance`: one term more
* `arrange`: a whole run
-/

namespace Termwise

/-- What the reader of a run expects next. -/
inductive Phase where
  | operandDue
  /-- A function collects its arguments; it takes more than it has. -/
  | collecting (callee : ExprId) (slots : Nat) (args : List ExprId)
  | operatorDue
deriving DecidableEq

/-- A run read so far. The tops of the stacks come first. -/
structure Arrangement where
  operands : List ExprId
  operators : List PendingOperator
  /-- The operators in front of the next operand, the nearest to it first. -/
  leading : List (DefId × Span)
  phase : Phase
deriving DecidableEq

namespace Arrangement

/-- Nothing read yet. -/
def start : Arrangement := ⟨[], [], [], .operandDue⟩

/-! ## Operands -/

/-- A minus sign with its operand, as a term of a longer run, is an ordinary negation. -/
def normalizeOperand (id : ExprId) : CheckM ExprId := do
  let e ← CheckM.expr id
  match e.kind with
  | .negated operand => do
    let negation := (← get).negationFor operand
    allocCall negation [operand] e.span
  | _ => return id

/-- Puts new arguments into the open places of a list of arguments, the rest behind it. -/
def fillOpen (isMissing : ExprId → Bool) : (bound fresh : List ExprId) → List ExprId
  | [], fresh => fresh
  | arg :: bound, fresh =>
    match isMissing arg, fresh with
    | true, new :: fresh => new :: fillOpen isMissing bound fresh
    | _, fresh => arg :: fillOpen isMissing bound fresh

/-- Applies a function to the arguments collected for it. -/
def applyCollected (callee : ExprId) (args : List ExprId) : CheckM ExprId := do
  if args.isEmpty then return callee
  let arena ← CheckM.arena
  let e := arena.expr callee
  let span := args.foldl (fun span arg => span.merge (arena.expr arg).span) e.span
  match e.kind with
  | .reference d => allocCall d args span
  | .call d bound => allocCall d (fillOpen arena.isMissing bound args) span
  | _ => return callee

/-- Applies the operators in front of an operand, the nearest first. The sign of a number is
chosen once the operand is known. -/
def applyLeading (operand : ExprId) : List (DefId × Span) → CheckM ExprId
  | [] => return operand
  | (d, span) :: rest => do
    let c ← get
    let callee := if d = c.builtins.unaryMinus then c.negationFor operand else d
    let applied ← allocCall callee [operand] (span.merge (c.arena.expr operand).span)
    applyLeading applied rest

/-- Pushes an operand with its arguments and the operators in front of it. -/
def pushOperand (s : Arrangement) (callee : ExprId) (args : List ExprId) :
    CheckM Arrangement := do
  let applied ← applyCollected callee args
  let operand ← applyLeading applied s.leading
  return { s with operands := operand :: s.operands, leading := [], phase := .operatorDue }

/-! ## Stacks -/

/-- Takes the top operand; there is always one. -/
def popOperand (span : Span) : List ExprId → CheckM (ExprId × List ExprId)
  | [] => CheckM.fail (.stackNotReduced 0) span
  | top :: rest => return (top, rest)

/-- Applies a binary operator to the two top operands. -/
def reduce (span : Span) (op : PendingOperator) (operands : List ExprId) :
    CheckM (List ExprId) := do
  let (right, operands) ← popOperand span operands
  let (left, operands) ← popOperand span operands
  let arena ← CheckM.arena
  let call ← allocCall op.definition [left, right]
    ((arena.expr left).span.merge (arena.expr right).span)
  return call :: operands

/-- Reduces the waiting operators that take the operand in front of the next one: up to the first
that holds it no more strongly than the next one does. -/
def reduceBefore (span : Span) (next : BindingPower) :
    List PendingOperator → List ExprId → CheckM (List PendingOperator × List ExprId)
  | [], operands => return ([], operands)
  | top :: rest, operands =>
    if top.power.right ≤ next.left then return (top :: rest, operands)
    else do
      let operands ← reduce span top operands
      reduceBefore span next rest operands

/-- Reduces every waiting operator. -/
def reduceAll (span : Span) : List PendingOperator → List ExprId → CheckM (List ExprId)
  | [], operands => return operands
  | top :: rest, operands => do
    let operands ← reduce span top operands
    reduceAll span rest operands

/-- Lets a binary operator wait for its right side. -/
def pushBinary (s : Arrangement) (span : Span) (op : PendingOperator) : CheckM Arrangement := do
  let (operators, operands) ← reduceBefore span op.power s.operators s.operands
  return { s with operands, operators := op :: operators, phase := .operandDue }

/-- An open parameter at the place of an operator. -/
def allocMissing (span : Span) : CheckM ExprId :=
  CheckM.allocExpr (.new .missingArg .hole span)

/-! ## Terms -/

/-- Places a classified term where an operand is due. -/
def placeOperandDue (s : Arrangement) (span : Span) : Term → CheckM Arrangement
  | .operand id => do
    let operand ← normalizeOperand id
    let slots := (← CheckM.arena).openSlots operand
    if slots = 0 then s.pushOperand operand []
    else return { s with phase := .collecting operand slots [] }
  | .minusSign place => do
    let c ← get
    return { s with leading := (c.builtins.unaryMinus, place) :: s.leading }
  | .leading d place => return { s with leading := (d, place) :: s.leading }
  | .trailing _ place => CheckM.fail .missingOperand place
  | .binary op => do
    if s.operands.isEmpty && s.operators.isEmpty && s.leading.isEmpty then
      let missing ← allocMissing op.span
      pushBinary { s with operands := [missing] } span op
    else CheckM.fail .missingOperand op.span

/-- Places a classified term where an operator is due. -/
def placeOperatorDue (s : Arrangement) (span : Span) : Term → CheckM Arrangement
  | .operand id => do CheckM.fail .expectedOperator (← CheckM.expr id).span
  | .minusSign place => do
    let minus := (← get).builtins.minus
    match (← CheckM.definition minus).pending? minus place with
    | some op => s.pushBinary span op
    | none => CheckM.fail (.unexpectedTerm "minus sign") place
  | .leading _ place => CheckM.fail (.unexpectedTerm "prefix operator") place
  | .trailing d place => do
    let (operand, operands) ← popOperand span s.operands
    let applied ← allocCall d [operand] place
    return { s with operands := applied :: operands }
  | .binary op => s.pushBinary span op

/-- Reads one term more. A function that collects takes it if it is an operand; otherwise the
function is applied to what it has, and the term is read again after that. -/
def advance (resolveRun : ExprId → CheckM Unit) (span : Span) (s : Arrangement) (id : ExprId) :
    CheckM Arrangement := do
  let term ← classify resolveRun id
  match s.phase, term with
  | .operandDue, term => s.placeOperandDue span term
  | .operatorDue, term => s.placeOperatorDue span term
  | .collecting callee slots args, .operand arg => do
    let arg ← normalizeOperand arg
    let args := args ++ [arg]
    if args.length = slots then s.pushOperand callee args
    else return { s with phase := .collecting callee slots args }
  | .collecting callee _ args, _ => do
    let s ← s.pushOperand callee args
    let term ← classify resolveRun id
    s.placeOperatorDue span term

/-- Ends a run: what collects is applied, an operator without a right side leaves it open, and
all that waits is reduced. -/
def finish (s : Arrangement) (span : Span) : CheckM Expression := do
  let s ← match s.phase with
    | .collecting callee _ args => s.pushOperand callee args
    | _ => pure s
  let operands ← match s.phase, s.leading, s.operators with
    | .operandDue, (_, place) :: _, _ => CheckM.fail .missingOperand place
    | .operandDue, [], op :: _ => do
      let missing ← allocMissing op.span
      pure (missing :: s.operands)
    | .operandDue, [], [] => CheckM.fail .missingOperand span
    | _, _, _ => pure s.operands
  match ← reduceAll span s.operators operands with
  | [result] => CheckM.expr result
  | rest => CheckM.fail (.stackNotReduced rest.length) span

end Arrangement

/-- Arranges a run into one expression. -/
def arrange (resolveRun : ExprId → CheckM Unit) (terms : List ExprId) (span : Span) :
    CheckM Expression := do
  let s ← terms.foldlM (Arrangement.advance resolveRun span) Arrangement.start
  s.finish span

end Termwise
