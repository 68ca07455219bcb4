import Termwise.Arena.Basic

/-!
# Trees in the arena

An expression together with all that lies below it. Nodes may be shared, so a tree is followed
once for every path from its root. No path in a graph without cycles is longer than the table of
expressions, which bounds every descent. In a graph with a cycle a copy and a walk may have no
result.

## Main definitions

* `Arena.walk`: the walk over a stack of open nodes
* `Arena.reachable`: what the walk of a tree sees, in order
* `Arena.copy?`: a tree with fresh nodes below its root
-/

namespace Termwise.Arena

/-- The expressions directly below a node. -/
def children (a : Arena) (id : ExprId) : List ExprId := (a.expr id).kind.children

/-- How many paths there are from a node, to a given depth. -/
def pathCount (a : Arena) : (depth : Nat) → ExprId → Nat
  | 0, _ => 0
  | depth + 1, id => (a.children id).foldr (fun n count => a.pathCount depth n + count) 0 + 1

/-- Takes the top node off the stack of open nodes, sees it and opens its children, the leftmost
last, until the stack is empty. The top of the stack is its last entry. There is no result if the
stack is not empty after a number of steps. -/
def walk (a : Arena) (steps : Nat) (seen openNodes : Array ExprId) : Option (Array ExprId) :=
  match openNodes.back?, steps with
  | none, _ => some seen
  | some _, 0 => none
  | some id, steps + 1 => a.walk steps (seen.push id) (openNodes.pop ++ (a.children id).reverse)

/-- Every expression at or below a node, once per path, from the root down. The walk takes one step
for every path. -/
def reachable (a : Arena) (id : ExprId) : List ExprId :=
  ((a.walk (a.pathCount a.exprs.size id) #[] #[id]).getD #[]).toList

/-! ## Copies -/

/-- Appends copies of a list of trees; each root is copied by `copy` and then appended. -/
def copyEach? (copy : ExprId → StateT Arena Option Expression) (ids : List ExprId) :
    StateT Arena Option (List ExprId) :=
  ids.mapM fun id => do
    let e ← copy id
    modifyGet (·.allocExpr e)

/-- A copy of the node with fresh copies of all that lies below it. The root itself is not
appended. There is no copy of a tree that is deeper than the given depth. -/
def copyWithin? : (depth : Nat) → ExprId → StateT Arena Option Expression
  | 0, _ => failure
  | depth + 1, id => do
    let e := (← get).expr id
    match e.kind with
    | .call callee args => do
      let args ← copyEach? (copyWithin? depth) args
      return { e with kind := .call callee args }
    | .negated operand => do
      let copied ← copyWithin? depth operand
      let operand ← modifyGet (·.allocExpr copied)
      return { e with kind := .negated operand }
    | .run terms => do
      let terms ← copyEach? (copyWithin? depth) terms
      return { e with kind := .run terms }
    | _ => return e

/-- A copy of a tree that shares no node with it, and the tables with what lies below the copy. The
root is not appended: the caller decides where it goes. -/
def copy? (a : Arena) (id : ExprId) : Option (Expression × Arena) :=
  copyWithin? a.exprs.size id a

end Termwise.Arena
