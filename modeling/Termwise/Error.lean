import Termwise.Severity
import Termwise.Source.Span
import Termwise.Text.Basic
import Termwise.Ty.Basic

/-!
# Compile errors

What can be wrong with a program, where, and how it is said. Errors are collected, so that one
pass reports as many as it finds.

## Main definitions

* `Cause`: the kinds of error with what each has to say
* `CompileError`: a cause and a place; `CompileError.message`
* `Diagnostic`: a reported error with its severity
* `Cause.code`, `Cause.label`, `Cause.help?`: the texts of a rendered report
-/

namespace Termwise

/-- What went wrong. -/
inductive Cause where
  | unknownIdentifier (name : String)
  | unknownOperator (name : String)
  /-- No conversion leads from one type to the other. -/
  | castFailure (source target : Ty)
  /-- A numeric literal that is neither an integer nor a float. -/
  | invalidNumber (text : String)
  /-- A run of terms came to another number of operands than one. -/
  | stackNotReduced (remaining : Nat)
  | typeMismatch (expected found : Ty)
  /-- A call with open parameters where a value is needed. -/
  | arityShortfall (callee : String) (expected found : Nat)
  | tooManyArguments (callee : String) (expected found : Nat)
  | notAFunction (name : String) (ty : Ty)
  /-- Two operands with no operator between them. -/
  | expectedOperator
  /-- An operator with nothing to apply to. -/
  | missingOperand
  | unexpectedTerm (what : String)
  /-- No native type fits. -/
  | notConcretizable (ty : Ty)
  | emptyExpression
  /-- A definition that was announced and never given a body. -/
  | undefined (name : String)
  /-- The expression contains one that failed before. Never reported a second time. -/
  | containsError
deriving DecidableEq

/-- An error and the place it is about. -/
structure CompileError where
  cause : Cause
  span : Span
deriving DecidableEq

/-- A reported error. -/
structure Diagnostic where
  severity : Severity
  error : CompileError
deriving DecidableEq

namespace Cause

open Text (natText)

/-- Text between grave accents, as messages quote names and types. -/
def quoted (text : String) : String := "`" ++ text ++ "`"

/-- The message for a cause. -/
def message : Cause → String
  | unknownIdentifier name => "unknown identifier " ++ quoted name
  | unknownOperator name => "unknown operator " ++ quoted name
  | castFailure source target =>
    "cannot cast " ++ quoted source.text ++ " to " ++ quoted target.text
  | invalidNumber text => text ++ " is not a valid number"
  | stackNotReduced remaining =>
    "internal error: expression reduced to " ++ natText remaining ++ " operands instead of 1"
  | typeMismatch expected found =>
    "type mismatch: expected " ++ quoted expected.text ++ ", found " ++ quoted found.text
  | arityShortfall callee expected found =>
    quoted callee ++ " expects " ++ natText expected ++ " arguments, only " ++ natText found
      ++ " given"
  | tooManyArguments callee expected found =>
    "too many arguments to " ++ quoted callee ++ ": expected " ++ natText expected ++ ", found "
      ++ natText found
  | notAFunction name ty =>
    quoted name ++ " has type " ++ quoted ty.text ++ " and cannot be called"
  | expectedOperator => "expected an operator"
  | missingOperand => "operator is missing an operand"
  | unexpectedTerm what => "unexpected " ++ what ++ " in expression"
  | notConcretizable ty =>
    "cannot decide a concrete type for a value of type " ++ quoted ty.text
  | emptyExpression => "empty expression has no value"
  | undefined name => quoted name ++ " is undefined"
  | containsError => "expression contains an earlier error"

/-- The code that stands in front of a rendered report. -/
def code : Cause → String
  | unknownIdentifier .. => "E0001"
  | unknownOperator .. => "E0002"
  | castFailure .. => "E0003"
  | invalidNumber .. => "E0004"
  | stackNotReduced .. => "E0005"
  | typeMismatch .. => "E0006"
  | arityShortfall .. => "E0007"
  | tooManyArguments .. => "E0008"
  | notAFunction .. => "E0009"
  | expectedOperator => "E0010"
  | missingOperand => "E0011"
  | unexpectedTerm .. => "E0012"
  | notConcretizable .. => "E0013"
  | emptyExpression => "E0014"
  | undefined .. => "E0015"
  | containsError => "E0016"

/-- What a rendered report says at the place itself. -/
def label : Cause → String
  | unknownIdentifier .. => "not found in this scope"
  | unknownOperator .. => "no such operator"
  | castFailure _ target => "cannot become " ++ quoted target.text
  | invalidNumber .. => "not an Int or a Float"
  | stackNotReduced .. => "in this expression"
  | typeMismatch expected found => "expected " ++ expected.text ++ ", found " ++ found.text
  | arityShortfall _ expected found =>
    natText found ++ " of " ++ natText expected ++ " arguments given"
  | tooManyArguments _ expected _ => "takes " ++ natText expected ++ " arguments"
  | notAFunction _ ty => "this has type " ++ quoted ty.text
  | expectedOperator => "operator expected before this"
  | missingOperand => "nothing to apply this to"
  | unexpectedTerm .. => "not allowed here"
  | notConcretizable ty => "still " ++ quoted ty.text ++ " here"
  | emptyExpression => "empty"
  | undefined .. => "declared but never defined"
  | containsError => "see earlier error"

/-- Advice at the end of a rendered report. -/
def help? : Cause → Option String
  | stackNotReduced .. =>
    some "this is a compiler bug: the operator table or term run is malformed"
  | arityShortfall .. => some "supply the remaining arguments to use this as a value"
  | invalidNumber .. => some "numbers look like `12` or `3.5`"
  | _ => none

end Cause

namespace CompileError

/-- The message of an error. -/
def message (e : CompileError) : String := e.cause.message

/-- Whether the error was reported where it arose. -/
def isAlreadyReported (e : CompileError) : Bool := e.cause == .containsError

end CompileError

/-- A diagnostic on one line. -/
def Diagnostic.text (d : Diagnostic) : String := d.severity.text ++ ": " ++ d.error.message

end Termwise
