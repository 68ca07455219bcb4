import Termwise.Run.Resolve
import Termwise.Substitution
import Termwise.Widening

/-!
# Concretization

After resolution every value takes a native type. Literals become integers if they can and floats
otherwise; calls over generic numbers take the widest type among their arguments; uses of pure
definitions are substituted; what ends up without a native type is an error.

## Termination

Definitions may refer to themselves and to each other, and substitution makes trees grow, so no
depth is known in advance. The walk goes by *rounds*. Within a round it descends along nodes that
existed when the round began, and a path among those is no longer than their number. A step that
leaves them begins the next round: into a body, into a copy of one, into a negation once its
operand is settled, or onto a node that was appended since. A body is entered only while it is
not being walked already, so a path holds few such steps, and a number of rounds that is linear
in the number of definitions is enough.

## Main definitions

* `Walk`, `WalkM`: a compilation and the definitions that were dealt with
* `Visitor`: how an expression and a statement are walked
* `visitExpr`: one expression, given how to go on from it
* `concretize`, `concretizeAll`: one tree, and all that the root statements reach
-/

namespace Termwise

/-! ## The state of a walk -/

/-- A compilation and the definitions whose bodies were dealt with. -/
structure Walk where
  unit : Compilation
  finished : List DefId

/-- Actions on a walk. -/
abbrev WalkM := EStateM Stop Walk

/-- An action on the compilation, as part of a walk. -/
def CheckM.inWalk {α : Type} (action : CheckM α) : WalkM α := fun w =>
  match action w.unit with
  | .ok a unit => .ok a { w with unit }
  | .error e unit => .error e { w with unit }

instance : MonadLift CheckM WalkM := ⟨CheckM.inWalk⟩

namespace WalkM

/-- Runs an action and hands over its error instead of stopping. A cycle still stops. -/
def attempt {α : Type} (action : WalkM α) : WalkM (Except CompileError α) := fun w =>
  match action w with
  | .ok a w => .ok (.ok a) w
  | .error (.error e) w => .ok (.error e) w
  | .error .cyclic w => .error .cyclic w

/-- Records the error of an outcome unless that was done where it arose. -/
def reportOutcome (outcome : Except CompileError Unit) : WalkM Unit :=
  match outcome with
  | .ok () => return
  | .error e => modify fun w => { w with unit := w.unit.reportNew e }

/-- Notes that the body of a definition was dealt with. -/
def finish (d : DefId) : WalkM Unit := modify fun w => { w with finished := d :: w.finished }

end WalkM

/-- How expressions and statements are walked while the bodies of the definitions `active` are
being walked. -/
structure Visitor where
  expr : (active : List DefId) → ExprId → WalkM Unit
  statement : (active : List DefId) → StmtId → WalkM Unit

/-- The walk that has no round left. -/
def Visitor.exhausted : Visitor := ⟨fun _ _ => throw .cyclic, fun _ _ => throw .cyclic⟩

/-! ## Values -/

/-- Gives a known value its native type. -/
def concretizeValue (id : ExprId) : CheckM Unit := do
  let ty := (← CheckM.expr id).ty
  if ty.native = .yes then return
  if ← CheckM.edit id (EditM.settle ty) then
    let e ← CheckM.expr id
    CheckM.emit (.settled e.span e.ty)
    return
  let e ← CheckM.expr id
  match e.value?, ty.numeric with
  | some value, .yes => CheckM.fail (.invalidNumber value.text) e.span
  | _, _ => CheckM.fail (.notConcretizable ty) e.span

/-- Brings an integer tree into a type by widening it, if that is possible. Says whether it did. -/
def widenTo (id : ExprId) (target : Ty) : CheckM Bool := do
  if target ≠ .float then return false
  match (← get).widens id with
  | none => throw .cyclic
  | some false => return false
  | some true =>
    widen id
    return true

/-- Brings an expression into a type: known values are cast, integer trees are widened. -/
def coerceTo (id : ExprId) (target : Ty) : CheckM Unit := do
  let e ← CheckM.expr id
  if e.ty = target then return
  if e.kind.isValue then
    if ← CheckM.edit id (EditM.castTo e.ty target) then return
  unless ← widenTo id target do
    CheckM.fail (.typeMismatch target e.ty) (← CheckM.expr id).span

/-- Brings an expression into the type that the program declares for it. -/
def honourDeclared (id : ExprId) : CheckM Unit := do
  match (← CheckM.expr id).declared with
  | some declared => coerceTo id declared
  | none => return

/-- Stops unless an expression has a native type. -/
def requireNative (id : ExprId) : CheckM Unit := do
  let e ← CheckM.expr id
  unless e.ty.native = .yes do CheckM.fail (.notConcretizable e.ty) e.span

/-! ## Definitions and uses -/

/-- Walks the body of a definition unless that was done or is being done. An error inside is
reported here; the caller only learns that the body cannot be used. -/
def visitDefinition (next : Visitor) (active : List DefId) (d : DefId) : WalkM Unit := do
  match (← CheckM.definition d).body with
  | .builtin | .undefined => return
  | .statement body => do
    unless (← get).finished.contains d do
      WalkM.finish d
      next.statement active body
  | .expression body => do
    if (← get).finished.contains d || active.contains d then return
    let outcome ← WalkM.attempt (next.expr (d :: active) body)
    WalkM.finish d
    if let .error error := outcome then
      WalkM.reportOutcome (.error error)
      CheckM.fail .containsError error.span

/-- Replaces a use of `d` by its body and walks that, unless the body is being walked. Says
whether it did. -/
def trySubstitute (settings : Settings) (next : Visitor) (active : List DefId) (id : ExprId)
    (d : DefId) : WalkM Bool := do
  if active.contains d then return false
  if ← substitute settings id then
    next.expr (d :: active) id
    return true
  else return false

/-- Gives a reference that was not substituted the type of its definition. -/
def typeReference (id : ExprId) (d : DefId) : CheckM Unit := do
  let ty ← CheckM.definitionType d
  let definition ← CheckM.definition d
  let span := (← CheckM.expr id).span
  if ty = .absurd then CheckM.fail .containsError span
  if definition.isUndefined ∧ ty = .hole then CheckM.fail (.undefined definition.name) span
  CheckM.setType id ty

/-- Walks a reference. -/
def visitReference (settings : Settings) (next : Visitor) (active : List DefId) (id : ExprId)
    (d : DefId) : WalkM Unit := do
  unless ← trySubstitute settings next active id d do
    visitDefinition next active d
    typeReference id d

/-! ## Calls -/

/-- The type that the generic numbers among the arguments of a call take: float if one of them
is a float, and integer otherwise. -/
def unifiedNumber (arena : Arena) (args : List ExprId) (params : List Ty) : Ty :=
  if (args.zip params).any fun (arg, param) =>
      param == .number && (arena.expr arg).ty == .float
  then .float else .int

/-- Brings arguments into the types of their parameters, generic numbers into the unified one. -/
def coerceAll (unified : Ty) : List ExprId → List Ty → CheckM Unit
  | arg :: args, param :: params => do
    coerceTo arg (if param = .number then unified else param)
    coerceAll unified args params
  | _, _ => return

/-- Types a call whose arguments have native types. -/
def typeCall (id : ExprId) (calleeType : Ty) (args : List ExprId) : CheckM Unit := do
  match calleeType with
  | .function params result _ => do
    let unified := unifiedNumber (← CheckM.arena) args params
    coerceAll unified args params
    if result = .number then CheckM.setType id unified
  | ty => CheckM.setType id ty

/-- Walks each expression in turn. -/
def visitEach (child : ExprId → WalkM Unit) : List ExprId → WalkM Unit
  | [] => return
  | id :: rest => do
    child id
    visitEach child rest

/-- Walks a call: a use of a definition if it has no arguments, and otherwise its arguments from
left to right. -/
def visitCall (settings : Settings) (next : Visitor) (child : ExprId → WalkM Unit)
    (active : List DefId) (id : ExprId) (callee : DefId) (args : List ExprId) : WalkM Unit := do
  let arena ← CheckM.arena
  let calleeType := arena.definitionType callee
  if arena.isPartialCall id then
    let bound := args.countP fun arg => !arena.isMissing arg
    CheckM.fail (.arityShortfall (arena.definition callee).name calleeType.arity bound)
      (arena.expr id).span
  let substituted ←
    if args.isEmpty then trySubstitute settings next active id callee else pure false
  unless substituted do
    visitDefinition next active callee
    visitEach child args
    typeCall id calleeType args

/-! ## Negation -/

/-- Turns a minus sign and its operand, which has a native type, into a call. -/
def callNegation (id operand : ExprId) : CheckM Unit := do
  let negation := (← get).negationFor operand
  let call ← createCall negation [operand] (← CheckM.expr id).span
  CheckM.modifyExpr id (·.replaceBy call)

/-- Walks a minus sign and its operand: the operand, and then the call that they become. -/
def visitNegation (next : Visitor) (child : ExprId → WalkM Unit) (active : List DefId)
    (id operand : ExprId) : WalkM Unit := do
  child operand
  callNegation id operand
  next.expr active id

/-! ## Expressions and statements -/

/-- Walks one expression. `child` walks what lies directly below it, `next` all else. -/
def visitExpr (settings : Settings) (next : Visitor) (child : ExprId → WalkM Unit)
    (active : List DefId) (id : ExprId) : WalkM Unit := do
  let e ← CheckM.expr id
  match e.kind with
  | .value _ => concretizeValue id
  | .reference d | .operator d => visitReference settings next active id d
  | .call callee args => visitCall settings next child active id callee args
  | .negated operand => visitNegation next child active id operand
  | .empty => CheckM.fail .emptyExpression e.span
  | .syntaxError => CheckM.fail .containsError e.span
  | .run _ | .minusSign | .missingArg | .notImplemented | .deleted =>
    CheckM.fail (.notConcretizable e.ty) e.span
  honourDeclared id
  requireNative id

/-- Walks one expression within a round that began with `bound` expressions. A node appended
since then belongs to the next round. -/
def visitWithin (settings : Settings) (next : Visitor) (active : List DefId) (bound : Nat) :
    (depth : Nat) → ExprId → WalkM Unit
  | 0, _ => throw .cyclic
  | depth + 1, id =>
    visitExpr settings next
      (fun child =>
        if child.index < bound then visitWithin settings next active bound depth child
        else next.expr active child)
      active id

/-- Walks one statement to a given depth of blocks, past errors, which are reported. -/
def visitStatementWithin (next : Visitor) (active : List DefId) :
    (depth : Nat) → StmtId → WalkM Unit
  | 0, _ => throw .cyclic
  | depth + 1, id => do
    match ((← CheckM.arena).stmt id).kind with
    | .expression e | .result e => do
      WalkM.reportOutcome (← WalkM.attempt (next.expr active e))
    | .bind d => do
      WalkM.reportOutcome (← WalkM.attempt (visitDefinition next active d))
    | .block statements => each (visitStatementWithin next active depth) statements
    | .empty | .deleted => return
where
  /-- Walks each statement in turn. -/
  each (visit : StmtId → WalkM Unit) : List StmtId → WalkM Unit
    | [] => return
    | id :: rest => do
      visit id
      each visit rest

/-- The walk that has a number of rounds left. -/
def visitor (settings : Settings) : (rounds : Nat) → Visitor
  | 0 => .exhausted
  | rounds + 1 =>
    let next := visitor settings rounds
    { expr := fun active id => do
        let bound := (← CheckM.arena).exprs.size
        visitWithin settings next active bound (bound + 1) id
      statement := fun active id => do
        let depth := (← CheckM.arena).stmts.size
        visitStatementWithin next active (depth + 1) id }

/-- How many rounds a walk may need. -/
def Arena.rounds (a : Arena) : Nat := 12 * (a.defs.size + 1)

/-- A walk from its start to its end. -/
def runWalk {α : Type} (action : WalkM α) : CheckM α := fun c =>
  match action ⟨c, []⟩ with
  | .ok a w => .ok a w.unit
  | .error e w => .error e w.unit

/-- Gives every value of one tree a native type. -/
def concretize (settings : Settings) (id : ExprId) : CheckM Unit := do
  let rounds := (← CheckM.arena).rounds
  runWalk ((visitor settings rounds).expr [] id)

/-- Gives every value that the root statements reach a native type, reports what fails, and says
whether the program is still valid. -/
def concretizeAll (settings : Settings) : CheckM Bool := do
  let arena ← CheckM.arena
  runWalk (visitStatementWithin.each ((visitor settings arena.rounds).statement []) arena.roots)
  return (← get).isValid

/-- Resolves every run in the queue and then concretizes the program. Both passes run even if
the first one fails, so that every error is reported. -/
def check (settings : Settings) : CheckM Bool := do
  let afterRuns ← resolveAll
  let afterValues ← concretizeAll settings
  CheckM.emit (.checked (← get).diagnostics.length afterRuns afterValues)
  return (← get).isValid

end Termwise
