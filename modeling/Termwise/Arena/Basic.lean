import Termwise.Source.Span
import Termwise.Value

/-!
# The arena of a program

Expressions, definitions and statements live in three tables and name each other by position, so
that a node can be changed in place while others refer to it. Entries are appended and
overwritten, never removed: what is dropped becomes a tombstone.

## Main definitions

* `ExprId`, `DefId`, `StmtId`: positions in the three tables
* `ExprKind`, `Expression`, `Definition`, `Statement`: the entries
* `Arena`: the tables and the root statements
* `Arena.definitionType`: the type that a reference to a definition has
* `Arena.isPartialCall`: whether a call leaves a parameter unbound
-/

namespace Termwise

/-- The position of an expression. -/
@[ext] structure ExprId where
  index : Nat
deriving DecidableEq, Inhabited

/-- The position of a definition. -/
@[ext] structure DefId where
  index : Nat
deriving DecidableEq, Inhabited

/-- The position of a statement. -/
@[ext] structure StmtId where
  index : Nat
deriving DecidableEq, Inhabited

/-! ## Entries -/

/-- What an expression is. -/
inductive ExprKind where
  /-- What a run of no terms comes to. -/
  | empty
  | value (value : Value)
  | reference (definition : DefId)
  /-- A reference to a definition that is an operator. -/
  | operator (definition : DefId)
  /-- A run of terms that waits to be arranged into calls. -/
  | run (terms : List ExprId)
  | call (callee : DefId) (args : List ExprId)
  | minusSign
  /-- A minus sign in front of an operand, with nothing around them. -/
  | negated (operand : ExprId)
  /-- A parameter that a call leaves open. -/
  | missingArg
  | syntaxError
  | notImplemented
  | deleted
deriving DecidableEq, Inhabited

namespace ExprKind

/-- The kinds that have no value: their type is always `Ty.absurd`. -/
def isSentinel : ExprKind → Bool
  | empty | syntaxError | notImplemented | deleted => true
  | _ => false

/-- The expressions directly below, from left to right. -/
def children : ExprKind → List ExprId
  | run terms => terms
  | call _ args => args
  | negated operand => [operand]
  | _ => []

/-- Whether this is an open parameter. -/
def isMissingArg : ExprKind → Bool
  | missingArg => true
  | _ => false

/-- Whether this is a known value. -/
def isValue : ExprKind → Bool
  | value _ => true
  | _ => false

end ExprKind

/-- An expression: what it is, its type, the type that the program declares for it, and where it
stands. -/
structure Expression where
  kind : ExprKind
  ty : Ty
  declared : Option Ty
  span : Span
deriving DecidableEq

namespace Expression

/-- An expression with no declared type. -/
def new (kind : ExprKind) (ty : Ty) (span : Span) : Expression := ⟨kind, ty, none, span⟩

/-- An expression without a value. -/
def sentinel (kind : ExprKind) (span : Span) : Expression := new kind .absurd span

/-- What a dropped expression leaves behind. -/
def tombstone : Expression := sentinel .deleted .origin

instance : Inhabited Expression := ⟨tombstone⟩

/-- The value, if it is known. -/
def value? (e : Expression) : Option Value :=
  match e.kind with
  | .value v => some v
  | _ => none

/-- The expression with the kind and type of another; place and declared type stay. -/
def replaceBy (e other : Expression) : Expression := { e with kind := other.kind, ty := other.ty }

end Expression

/-- On which side equal operators group. `both` is written for operators where it does not
matter, and they group to the right. -/
inductive Associativity where
  | left
  | right
  | both
deriving DecidableEq, Inhabited

/-- Where an operator stands: before its operand, after it, or between two. -/
inductive Fixity where
  | leading
  | trailing
  | binary (precedence : UInt32) (associativity : Associativity)
deriving DecidableEq, Inhabited

/-- Whether an operator has one operand. -/
def Fixity.isUnary : Fixity → Bool
  | binary .. => false
  | _ => true

/-- Whether an operator stands between two operands. -/
def Fixity.isBinary (f : Fixity) : Bool := !f.isUnary

/-- What a definition stands for. -/
inductive Body where
  | expression (body : ExprId)
  | statement (body : StmtId)
  | builtin
  /-- Announced with a type and never given a body. -/
  | undefined
deriving DecidableEq

instance : Inhabited Body := ⟨.undefined⟩

/-- A named definition, perhaps of an operator. -/
structure Definition where
  name : String
  body : Body
  declared : Option Ty
  operator : Option Fixity
  span : Span
deriving DecidableEq, Inhabited

namespace Definition

/-- Whether the definition was announced and never given a body. -/
def isUndefined (d : Definition) : Bool :=
  match d.body with
  | .undefined => true
  | _ => false

/-- Whether the definition is an operator between two operands. -/
def isBinaryOperator (d : Definition) : Bool := d.operator.any Fixity.isBinary

end Definition

/-- What a statement is. -/
inductive StatementKind where
  | expression (expr : ExprId)
  /-- Makes a definition known. -/
  | bind (definition : DefId)
  | result (expr : ExprId)
  | block (statements : List StmtId)
  | empty
  | deleted
deriving DecidableEq, Inhabited

/-- A statement and where it stands. -/
structure Statement where
  kind : StatementKind
  span : Span
deriving DecidableEq, Inhabited

/-! ## Tables -/

/-- The tables of one program and its root statements. -/
structure Arena where
  exprs : Array Expression
  defs : Array Definition
  stmts : Array Statement
  roots : List StmtId
deriving DecidableEq

namespace Arena

/-- Tables without an entry. -/
def empty : Arena := ⟨#[], #[], #[], []⟩

/-- The expression at a position; a tombstone outside the table. -/
def expr (a : Arena) (id : ExprId) : Expression := a.exprs.getD id.index .tombstone

/-- The definition at a position. -/
def definition (a : Arena) (id : DefId) : Definition := a.defs.getD id.index default

/-- The statement at a position. -/
def stmt (a : Arena) (id : StmtId) : Statement := a.stmts.getD id.index default

/-- Changes the expression at a position. -/
def modifyExpr (a : Arena) (id : ExprId) (f : Expression → Expression) : Arena :=
  { a with exprs := a.exprs.modify id.index f }

/-- Changes the definition at a position. -/
def modifyDef (a : Arena) (id : DefId) (f : Definition → Definition) : Arena :=
  { a with defs := a.defs.modify id.index f }

/-- Appends an expression. -/
def allocExpr (a : Arena) (e : Expression) : ExprId × Arena :=
  (⟨a.exprs.size⟩, { a with exprs := a.exprs.push e })

/-- Appends a definition. -/
def allocDef (a : Arena) (d : Definition) : DefId × Arena :=
  (⟨a.defs.size⟩, { a with defs := a.defs.push d })

/-- Appends a statement. -/
def allocStmt (a : Arena) (s : Statement) : StmtId × Arena :=
  (⟨a.stmts.size⟩, { a with stmts := a.stmts.push s })

/-- Adds a root statement at the end. -/
def pushRoot (a : Arena) (id : StmtId) : Arena := { a with roots := a.roots ++ [id] }

/-- Overwrites what an expression is and its type; place and declared type stay. -/
def replaceExpr (a : Arena) (id : ExprId) (other : Expression) : Arena :=
  a.modifyExpr id (·.replaceBy other)

/-- Drops an expression. -/
def deleteExpr (a : Arena) (id : ExprId) : Arena :=
  a.modifyExpr id fun e => { e with kind := .deleted, ty := .absurd }

/-- The type that a reference to a definition has: the declared one, else that of the body. -/
def definitionType (a : Arena) (id : DefId) : Ty :=
  let d := a.definition id
  match d.declared, d.body with
  | some ty, _ => ty
  | none, .expression body => (a.expr body).ty
  | none, _ => .hole

/-- A reference to a definition: an operator reference if the definition is an operator. -/
def referenceTo (a : Arena) (id : DefId) (span : Span) : Expression :=
  let kind := if (a.definition id).operator.isSome then .operator id else .reference id
  .new kind (a.definitionType id) span

/-- Whether an argument is an open parameter. -/
def isMissing (a : Arena) (id : ExprId) : Bool := (a.expr id).kind.isMissingArg

/-- Whether a call leaves a parameter of its callee unbound: an argument is missing in the
middle or at the end. -/
def isPartialCall (a : Arena) (id : ExprId) : Bool :=
  match (a.expr id).kind with
  | .call callee args => args.length < (a.definitionType callee).arity || args.any a.isMissing
  | _ => false

/-! ## Reading back what was written -/

@[simp] theorem size_modifyExpr (a : Arena) (id : ExprId) (f : Expression → Expression) :
    (a.modifyExpr id f).exprs.size = a.exprs.size := Array.size_modify

@[simp] theorem definition_modifyExpr (a : Arena) (id : ExprId) (f : Expression → Expression)
    (d : DefId) : (a.modifyExpr id f).definition d = a.definition d := rfl

theorem expr_modifyExpr_self {a : Arena} {id : ExprId} (h : id.index < a.exprs.size)
    (f : Expression → Expression) : (a.modifyExpr id f).expr id = f (a.expr id) := by
  simp [expr, modifyExpr, Array.getD_eq_getD_getElem?, Array.getElem_modify_self, h]

theorem expr_modifyExpr_of_ne {a : Arena} {id other : ExprId} (h : other ≠ id)
    (f : Expression → Expression) : (a.modifyExpr id f).expr other = a.expr other := by
  have : id.index ≠ other.index := fun e => h (ExprId.ext e.symm)
  simp [expr, modifyExpr, Array.getD_eq_getD_getElem?, Array.getElem?_modify, this]

theorem expr_modifyExpr (a : Arena) (id : ExprId) (f : Expression → Expression) (n : ExprId) :
    (a.modifyExpr id f).expr n =
      if n = id ∧ n.index < a.exprs.size then f (a.expr n) else a.expr n := by
  split <;> rename_i h
  · rw [h.1, expr_modifyExpr_self (h.1 ▸ h.2)]
  · by_cases hn : n = id
    · have hsize : a.exprs.size ≤ n.index := Nat.le_of_not_lt fun hlt => h ⟨hn, hlt⟩
      simp [expr, modifyExpr, Array.getD_eq_getD_getElem?, hsize]
    · exact expr_modifyExpr_of_ne hn f

theorem expr_allocExpr (a : Arena) (e : Expression) (n : ExprId) :
    (a.allocExpr e).2.expr n = if n.index = a.exprs.size then e else a.expr n := by
  split <;> rename_i h
  · simp [expr, allocExpr, Array.getD_eq_getD_getElem?, h]
  · simp [expr, allocExpr, Array.getD_eq_getD_getElem?, Array.getElem?_push, h]

theorem expr_of_size_le {a : Arena} {n : ExprId} (h : a.exprs.size ≤ n.index) :
    a.expr n = .tombstone := by
  simp [expr, Array.getD_eq_getD_getElem?, h]

theorem lt_size_of_kind_ne {a : Arena} {n : ExprId} (h : (a.expr n).kind ≠ .deleted) :
    n.index < a.exprs.size :=
  Nat.lt_of_not_le fun hle => h (by rw [expr_of_size_le hle]; rfl)

/-- A change that leaves the expression as it is leaves the tables. -/
theorem modifyExpr_eq_self {a : Arena} {id : ExprId} {f : Expression → Expression}
    (h : f (a.expr id) = a.expr id) : a.modifyExpr id f = a := by
  have : a.exprs.modify id.index f = a.exprs := by
    apply Array.ext (by simp)
    intro i hi hi'
    rw [Array.getElem_modify]
    split
    · subst_vars
      simpa [expr, Array.getD_eq_getD_getElem?, hi'] using h
    · rfl
  rw [modifyExpr, this]

@[simp] theorem size_allocExpr (a : Arena) (e : Expression) :
    (a.allocExpr e).2.exprs.size = a.exprs.size + 1 := Array.size_push ..

@[simp] theorem expr_allocExpr_self (a : Arena) (e : Expression) :
    (a.allocExpr e).2.expr (a.allocExpr e).1 = e := by
  simp [expr, allocExpr, Array.getD_eq_getD_getElem?]

theorem expr_allocExpr_of_lt {a : Arena} {id : ExprId} (h : id.index < a.exprs.size)
    (e : Expression) : (a.allocExpr e).2.expr id = a.expr id := by
  simp [expr, allocExpr, Array.getD_eq_getD_getElem?, Array.getElem?_push, Nat.ne_of_lt h]

end Arena

end Termwise
