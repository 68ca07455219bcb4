import Termwise.Compilation.Basic

/-!
# Expressions as text

A tree on one line, for logs and messages. A call of a binary operator with two arguments is
written between them in parentheses, any other call as a name and its arguments; an open
parameter is an underscore.

## Main definitions

* `Arena.nodeText`: one node, given the texts of its children
* `Arena.exprText?`: a whole tree
-/

namespace Termwise

/-- Texts with a separator between them. -/
def joined (separator : String) : List String → String
  | [] => ""
  | [text] => text
  | text :: rest => text ++ separator ++ joined separator rest

/-- One node, given the texts of its children. Only the text of a string is quoted, not that of
a literal whose type is open. -/
def Arena.nodeText (a : Arena) (e : Expression) (children : List String) : String :=
  match e.kind with
  | .value (.string text) => if e.ty = .string then "\"" ++ text ++ "\"" else text
  | .value v => v.text
  | .reference d | .operator d => (a.definition d).name
  | .call callee _ =>
    let d := a.definition callee
    match d.isBinaryOperator, children with
    | true, [left, right] => "(" ++ left ++ " " ++ d.name ++ " " ++ right ++ ")"
    | _, _ => d.name ++ "(" ++ joined ", " children ++ ")"
  | .run _ => "[" ++ joined " " children ++ "]"
  | .negated _ => "-" ++ joined "" children
  | .minusSign => "-"
  | .missingArg => "_"
  | .empty => "()"
  | .syntaxError => "<syntax error>"
  | .notImplemented => "<not implemented>"
  | .deleted => "<deleted>"

/-- A tree on one line. There is none for a tree that is deeper than the given depth. -/
def Arena.exprTextWithin? (a : Arena) (settings : Settings) : (depth : Nat) → ExprId → Option String
  | 0, _ => none
  | depth + 1, id => do
    let e := a.expr id
    let text := a.nodeText e (← e.kind.children.mapM (a.exprTextWithin? settings depth))
    return if settings.printAllTypes then text ++ ": " ++ e.ty.text else text

/-- A tree on one line, with the type behind every node if the settings ask for it. No path in a
graph without cycles is longer than the table. -/
def Arena.exprText? (a : Arena) (settings : Settings) (id : ExprId) : Option String :=
  a.exprTextWithin? settings (a.exprs.size + 1) id

end Termwise
