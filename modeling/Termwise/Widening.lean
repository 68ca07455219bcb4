import Termwise.Call

/-!
# Widening integers to floats

An integer tree can become one of floats when an argument beside it is a float. Literals take
their float value, generic arithmetic keeps its callee, and negation of integers becomes negation
of floats.

## Main definitions

* `Compilation.floatCallee?`: the callee of a call once its operands are floats
* `Compilation.widens`: whether a tree can become one of floats
* `widen`: rebuilds such a tree
-/

namespace Termwise

namespace Compilation

/-- The callee of a call once its operands are floats, if the call can be typed anew at all. -/
def floatCallee? (c : Compilation) (callee : DefId) : Option DefId :=
  if callee = c.builtins.unaryMinus then some c.builtins.unaryMinusFloat
  else
    match c.arena.definitionType callee with
    | .function _ .number _ => some callee
    | _ => none

/-- Whether an argument takes the type of its call when that is typed anew. -/
def followsCall (c : Compilation) (callee : DefId) (param : Ty) : Bool :=
  callee = c.builtins.unaryMinus || param = .number

/-- The arguments that take the type of their call when that is typed anew. -/
def followers (c : Compilation) (callee : DefId) (args : List ExprId) : List ExprId :=
  ((args.zip (c.arena.definitionType callee).params).filter fun (_, param) =>
    c.followsCall callee param).map Prod.fst

/-- Whether a tree can become one of floats: it is one, or a literal, or a call that can be typed
anew over such trees. There is no answer if the tree is deeper than the given depth where it is
read. -/
def widensWithin (c : Compilation) : (depth : Nat) → ExprId → Option Bool
  | 0, _ => none
  | depth + 1, id =>
    let e := c.arena.expr id
    if e.ty = .float then some true
    else if e.ty ≠ .int then some false
    else
      match e.kind with
      | .value _ => some true
      | .call callee args =>
        if (c.floatCallee? callee).isSome && (c.arena.definitionType callee).isFunction then
          (c.followers callee args).allM (c.widensWithin depth)
        else some false
      | _ => some false

/-- Whether a tree can become one of floats. No path in a graph without cycles is longer than the
table. -/
def widens (c : Compilation) (id : ExprId) : Option Bool :=
  c.widensWithin (c.arena.exprs.size + 1) id

end Compilation

/-- Runs an action on each expression in turn. -/
def forEach (action : ExprId → CheckM Unit) : List ExprId → CheckM Unit
  | [] => return
  | id :: rest => do
    action id
    forEach action rest

/-- Rebuilds a tree with floats. A tree that is deeper than the given depth stops this. -/
def widenWithin : (depth : Nat) → ExprId → CheckM Unit
  | 0, _ => throw .cyclic
  | depth + 1, id => do
    let c ← get
    let e := c.arena.expr id
    if e.ty = .float then return
    match e.kind with
    | .value _ =>
      let _ ← CheckM.edit id (EditM.castTo .int .float)
      return
    | .call callee args =>
      if let some floatCallee := c.floatCallee? callee then
        forEach (widenWithin depth) (c.followers callee args)
        CheckM.modifyExpr id fun e => { e with kind := .call floatCallee args, ty := .float }
        CheckM.emit (.widened (c.arena.definition floatCallee).name)
    | _ => return

/-- Rebuilds a tree that can become one of floats. -/
def widen (id : ExprId) : CheckM Unit := do
  let arena ← CheckM.arena
  widenWithin (arena.exprs.size + 1) id

end Termwise
