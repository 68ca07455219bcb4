import Termwise.Arena.Tree
import Termwise.Event
import Termwise.Ty.Store

/-!
# The state of a compilation

One value holds everything that the passes over a program share: its types, its tables, the
diagnostics so far, the runs of terms that wait, and the log. The passes are actions on it that
may stop; what they changed before they stopped stays changed.

## Main definitions

* `Builtins`: the builtin definitions
* `Compilation`, `Compilation.new`: the state, and that of an empty program
* `Stop`, `CheckM`: why an action stops, and the actions
* `Settings`: the switches that the passes read
-/

namespace Termwise

/-- The switches that the passes read. -/
structure Settings where
  /-- Write the type behind every expression that is shown. -/
  printAllTypes : Bool := false
  /-- Keep every use of a definition as it is. -/
  debugNoInline : Bool := false
  /-- Colour the rendered reports. -/
  diagnosticColor : Bool := false
deriving DecidableEq, Inhabited

/-! ## Builtin definitions -/

/-- The positions of the builtin definitions. -/
structure Builtins where
  print : DefId
  plus : DefId
  minus : DefId
  times : DefId
  divide : DefId
  equals : DefId
  not : DefId
  /-- Negation of integers, which a minus sign in front of an operand stands for. -/
  unaryMinus : DefId
  /-- Negation of everything else. -/
  unaryMinusFloat : DefId
deriving DecidableEq, Inhabited

namespace Builtins

/-- The builtin definitions are the first ones, in this order. -/
def positions : Builtins := ⟨⟨0⟩, ⟨1⟩, ⟨2⟩, ⟨3⟩, ⟨4⟩, ⟨5⟩, ⟨6⟩, ⟨7⟩, ⟨8⟩⟩

/-- A builtin definition by its name. -/
def get? (b : Builtins) (name : String) : Option DefId :=
  match name with
  | "print" => some b.print
  | "+" => some b.plus
  | "-" => some b.minus
  | "*" => some b.times
  | "/" => some b.divide
  | "==" => some b.equals
  | "!" => some b.not
  | "unary_minus" => some b.unaryMinus
  | "unary_minus_float" => some b.unaryMinusFloat
  | _ => none

/-- The type of printing, which has an effect. -/
def printType : Ty := .function [.string] .void false

/-- The type of generic arithmetic. -/
def arithmeticType : Ty := .function [.number, .number] .number true

/-- The type of comparison. -/
def comparisonType : Ty := .function [.number, .number] .boolean true

/-- The type of logical negation. -/
def notType : Ty := .function [.boolean] .boolean true

/-- The type of negation of integers. -/
def unaryMinusType : Ty := .function [.int] .int true

/-- The type of negation of floats. -/
def unaryMinusFloatType : Ty := .function [.float] .float true

/-- A builtin definition: a type and no body of its own. -/
def entry (name : String) (ty : Ty) (operator : Option Fixity) : Definition :=
  ⟨name, .builtin, some ty, operator, .origin⟩

/-- The builtin definitions. Multiplication binds tighter than addition and division tighter
still; comparison binds least. -/
def definitions : List Definition :=
  [ entry "print" printType none,
    entry "+" arithmeticType (some (.binary 1 .left)),
    entry "-" arithmeticType (some (.binary 1 .left)),
    entry "*" arithmeticType (some (.binary 2 .left)),
    entry "/" arithmeticType (some (.binary 3 .left)),
    entry "==" comparisonType (some (.binary 0 .left)),
    entry "!" notType (some .leading),
    entry "unary_minus" unaryMinusType (some .leading),
    entry "unary_minus_float" unaryMinusFloatType (some .leading) ]

/-- A store with one more function type. -/
def withFunction (store : TypeStore) : Ty → TypeStore
  | .function params result isPure => (store.functionType params result isPure).2
  | _ => store

/-- The types of the builtin definitions, in the order of their registration. -/
def types : TypeStore :=
  [printType, arithmeticType, comparisonType, notType, unaryMinusType, unaryMinusFloatType].foldl
    withFunction (TypeStore.new 0)

/-- The tables of an empty program. -/
def arena : Arena := { Arena.empty with defs := definitions.toArray }

end Builtins

/-! ## The state -/

/-- Everything the passes over one program share. -/
structure Compilation where
  types : TypeStore
  arena : Arena
  builtins : Builtins
  /-- False from the first error on. Nothing may be generated from an invalid program. -/
  isValid : Bool
  diagnostics : List Diagnostic
  /-- The runs of terms that wait to be resolved. -/
  queue : List ExprId
  log : List Event

namespace Compilation

/-- An empty program. -/
def new : Compilation where
  types := Builtins.types
  arena := Builtins.arena
  builtins := Builtins.positions
  isValid := true
  diagnostics := []
  queue := []
  log := []

instance : Inhabited Compilation := ⟨new⟩

/-- Notes down an event. -/
def emit (c : Compilation) (event : Event) : Compilation := { c with log := c.log ++ [event] }

/-- Records a diagnostic. An error makes the program invalid. -/
def report (c : Compilation) (d : Diagnostic) : Compilation :=
  { c.emit (.reported d) with
    isValid := c.isValid && !d.severity.isError
    diagnostics := c.diagnostics ++ [d] }

/-- Records an error. -/
def reportError (c : Compilation) (e : CompileError) : Compilation := c.report ⟨.error, e⟩

/-- Records an error unless that was done where it arose. -/
def reportNew (c : Compilation) (e : CompileError) : Compilation :=
  if e.isAlreadyReported then c else c.reportError e

/-- The recorded errors. -/
def errors (c : Compilation) : List CompileError :=
  (c.diagnostics.filter fun d => d.severity.isError).map Diagnostic.error

/-- Appends an expression. -/
def allocExpr (c : Compilation) (e : Expression) : ExprId × Compilation :=
  let (id, arena) := c.arena.allocExpr e
  (id, { c with arena })

/-- Changes the tables. -/
def modifyArena (c : Compilation) (f : Arena → Arena) : Compilation :=
  { c with arena := f c.arena }

/-- Stands in for a name that nothing defines: the error is recorded and a failed term takes the
place of the name. -/
def unknownName (c : Compilation) (cause : Cause) (span : Span) : ExprId × Compilation :=
  (c.reportError ⟨cause, span⟩).allocExpr (.sentinel .syntaxError span)

/-- Adds an expression to the queue. -/
def enqueue (c : Compilation) (id : ExprId) : Compilation := { c with queue := c.queue ++ [id] }

/-- Appends a run of terms and queues it. -/
def allocRun (c : Compilation) (terms : List ExprId) (span : Span) : ExprId × Compilation :=
  let (id, c) := c.allocExpr (.new (.run terms) .hole span)
  (id, c.enqueue id)

end Compilation

/-! ## Actions -/

/-- Why an action stops. -/
inductive Stop where
  | error (error : CompileError)
  /-- A descent went deeper than any path of a graph without cycles. -/
  | cyclic
deriving DecidableEq

/-- Actions on a compilation. What an action changed before it stopped stays changed. -/
abbrev CheckM := EStateM Stop Compilation

namespace CheckM

/-- Stops with an error. -/
def fail {α : Type} (cause : Cause) (span : Span) : CheckM α := throw (.error ⟨cause, span⟩)

/-- Runs an action and hands over its error instead of stopping. A cycle still stops. -/
def attempt {α : Type} (action : CheckM α) : CheckM (Except CompileError α) := fun c =>
  match action c with
  | .ok a c => .ok (.ok a) c
  | .error (.error e) c => .ok (.error e) c
  | .error .cyclic c => .error .cyclic c

/-- The tables. -/
def arena : CheckM Arena := return (← get).arena

/-- The expression at a position. -/
def expr (id : ExprId) : CheckM Expression := return (← get).arena.expr id

/-- The definition at a position. -/
def definition (id : DefId) : CheckM Definition := return (← get).arena.definition id

/-- The type that a reference to a definition has. -/
def definitionType (id : DefId) : CheckM Ty := return (← get).arena.definitionType id

/-- Changes the expression at a position. -/
def modifyExpr (id : ExprId) (f : Expression → Expression) : CheckM Unit :=
  modify (·.modifyArena (·.modifyExpr id f))

/-- Changes the expression at a position in place, and hands over what came of that. -/
def edit {α : Type} (id : ExprId) (change : StateM Expression α) : CheckM α := do
  let (a, e) := change.run (← expr id)
  modifyExpr id fun _ => e
  return a

/-- Gives an expression a type. -/
def setType (id : ExprId) (ty : Ty) : CheckM Unit := modifyExpr id fun e => { e with ty }

/-- Appends an expression. -/
def allocExpr (e : Expression) : CheckM ExprId := modifyGet (·.allocExpr e)

/-- Notes down an event. -/
def emit (event : Event) : CheckM Unit := modify (·.emit event)

/-- The function type of a signature, from the compilation's store. -/
def functionType (params : List Ty) (result : Ty) (isPure : Bool) : CheckM Ty :=
  modifyGet fun c =>
    let (issued, types) := c.types.functionType params result isPure
    (issued.ty, { c with types })

end CheckM

end Termwise
