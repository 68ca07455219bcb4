import Termwise.Deferred

/-!
# Types

A type is one of nine builtin types, a type declared under a name, or a function type. Equality
is structural throughout: two function types with the same parameters, result and purity are the
same type, whichever store handed them out. The system is gradual: `hole` marks a type that is
not known yet, and `absurd` the type of what has no value.

## Main definitions

* `Builtin`: the builtin types, in the order of their numbers
* `Ty`: builtin, named and function types
* `Ty.native`, `Ty.castable`, `Ty.numeric`, `Ty.integral`: attributes that may be undecided
* `Ty.text`: a type as the messages show it
-/

namespace Termwise

/-- The builtin types. -/
inductive Builtin where
  /-- No value at all: errors and empty expressions. -/
  | absurd
  /-- Not known yet. -/
  | hole
  | void
  | boolean
  | int
  | float
  | string
  /-- Any number: the operand type of generic arithmetic. -/
  | number
  /-- A numeric literal whose representation is open. -/
  | numberLiteral
deriving DecidableEq, Inhabited

namespace Builtin

/-- Every builtin type, in the order of their numbers. -/
def all : List Builtin :=
  [absurd, hole, void, boolean, int, float, string, number, numberLiteral]

/-- The number of a builtin type in every store. -/
def index : Builtin → Nat
  | absurd => 0
  | hole => 1
  | void => 2
  | boolean => 3
  | int => 4
  | float => 5
  | string => 6
  | number => 7
  | numberLiteral => 8

/-- The name of a builtin type. -/
def name : Builtin → String
  | absurd => "Absurd"
  | hole => "Hole"
  | void => "Void"
  | boolean => "Boolean"
  | int => "Int"
  | float => "Float"
  | string => "String"
  | number => "Number"
  | numberLiteral => "NumberLiteral"

/-- Whether values of the type exist at run time. -/
def native : Builtin → Deferred
  | void | boolean | int | float | string => .yes
  | hole => .maybe
  | absurd | number | numberLiteral => .no

/-- Whether values of the type can be brought into a native one. -/
def castable : Builtin → Deferred
  | absurd => .no
  | hole => .maybe
  | _ => .yes

/-- Whether the type is one of numbers. -/
def numeric : Builtin → Deferred
  | int | float | number | numberLiteral => .yes
  | hole => .maybe
  | _ => .no

/-- Whether the type is one of whole numbers. -/
def integral : Builtin → Deferred
  | int => .yes
  | hole | number | numberLiteral => .maybe
  | _ => .no

theorem getElem?_all_index (b : Builtin) : all[b.index]? = some b := by cases b <;> rfl

theorem mem_all (b : Builtin) : b ∈ all := List.mem_of_getElem? b.getElem?_all_index

/-- A builtin type stands where its number says. -/
theorem eq_index {b : Builtin} {i : Nat} (h : all[i]? = some b) : i = b.index := by
  have hnodup : all.Nodup := by decide
  exact (List.getElem?_inj (List.getElem?_eq_some_iff.1 h).1 hnodup).1
    (h.trans b.getElem?_all_index.symm)

end Builtin

/-- A type. -/
inductive Ty where
  | builtin (builtin : Builtin)
  /-- A type declared under a name, of its own or as another name for one. -/
  | named (name : String) (isAlias : Bool)
  | function (params : List Ty) (result : Ty) (isPure : Bool)

namespace Ty

@[match_pattern] abbrev absurd : Ty := .builtin .absurd
@[match_pattern] abbrev hole : Ty := .builtin .hole
@[match_pattern] abbrev void : Ty := .builtin .void
@[match_pattern] abbrev boolean : Ty := .builtin .boolean
@[match_pattern] abbrev int : Ty := .builtin .int
@[match_pattern] abbrev float : Ty := .builtin .float
@[match_pattern] abbrev string : Ty := .builtin .string
@[match_pattern] abbrev number : Ty := .builtin .number
@[match_pattern] abbrev numberLiteral : Ty := .builtin .numberLiteral

instance : Inhabited Ty := ⟨hole⟩

/-! ## Equality

Equality of types is decided by structural recursion through the parameter lists, so that it
also evaluates inside a proof. -/

mutual

/-- Equality of types is decidable. -/
def decEq : (s t : Ty) → Decidable (s = t)
  | .builtin b, .builtin c =>
    if h : b = c then isTrue (by rw [h]) else isFalse (by simpa using h)
  | .named m a, .named n b =>
    if h : m = n ∧ a = b then isTrue (by rw [h.1, h.2]) else isFalse (by simpa using h)
  | .function ps r p, .function qs s q =>
    match decEqList ps qs, decEq r s, (inferInstance : Decidable (p = q)) with
    | isTrue h, isTrue k, isTrue l => isTrue (by rw [h, k, l])
    | isFalse h, _, _ => isFalse (by simp [h])
    | _, isFalse h, _ => isFalse (by simp [h])
    | _, _, isFalse h => isFalse (by simp [h])
  | .builtin _, .named .. | .builtin _, .function .. => isFalse (by simp)
  | .named .., .builtin _ | .named .., .function .. => isFalse (by simp)
  | .function .., .builtin _ | .function .., .named .. => isFalse (by simp)

/-- Equality of lists of types is decidable. -/
def decEqList : (ss ts : List Ty) → Decidable (ss = ts)
  | [], [] => isTrue rfl
  | s :: ss, t :: ts =>
    match decEq s t, decEqList ss ts with
    | isTrue h, isTrue k => isTrue (by rw [h, k])
    | isFalse h, _ => isFalse (by simp [h])
    | _, isFalse h => isFalse (by simp [h])
  | [], _ :: _ | _ :: _, [] => isFalse (by simp)

end

instance : DecidableEq Ty := decEq

/-! ## Parts of a type -/

/-- The builtin type that a type is, if it is one. -/
def builtin? : Ty → Option Builtin
  | .builtin b => some b
  | _ => none

/-- The name under which a type was declared, if it was. -/
def declaredName? : Ty → Option String
  | .named name _ => some name
  | _ => none

/-- Whether the type is a function type. -/
def isFunction : Ty → Bool
  | .function .. => true
  | _ => false

/-- The parameter types; none for anything but a function type. -/
def params : Ty → List Ty
  | .function ps _ _ => ps
  | _ => []

/-- The number of parameters; zero for anything but a function type. -/
def arity (t : Ty) : Nat := t.params.length

/-- Whether evaluation has no effect. Anything but a function type counts as pure. -/
def isPure : Ty → Bool
  | .function _ _ p => p
  | _ => true

/-- Whether the type was declared under a name. -/
def isUserDefined : Ty → Bool
  | .named .. => true
  | _ => false

/-- Whether the type was declared as another name for a type. -/
def isAlias : Ty → Bool
  | .named _ a => a
  | _ => false

/-! ## Attributes

A function type is native or castable if its result and all its parameters are. -/

mutual

/-- Whether values of the type exist at run time. -/
def native : Ty → Deferred
  | .builtin b => b.native
  | .named .. => .no
  | .function ps r _ => Deferred.all (r.native :: nativeList ps)

/-- The answers of `native` for a list of types. -/
def nativeList : List Ty → List Deferred
  | [] => []
  | t :: ts => t.native :: nativeList ts

end

mutual

/-- Whether values of the type can be brought into a native one. -/
def castable : Ty → Deferred
  | .builtin b => b.castable
  | .named .. => .maybe
  | .function ps r _ => Deferred.all (r.castable :: castableList ps)

/-- The answers of `castable` for a list of types. -/
def castableList : List Ty → List Deferred
  | [] => []
  | t :: ts => t.castable :: castableList ts

end

/-- Whether the type is one of numbers. -/
def numeric : Ty → Deferred
  | .builtin b => b.numeric
  | _ => .no

/-- Whether the type is one of whole numbers. -/
def integral : Ty → Deferred
  | .builtin b => b.integral
  | _ => .no

theorem nativeList_eq_map (ts : List Ty) : nativeList ts = ts.map native := by
  induction ts with
  | nil => rfl
  | cons t ts ih => rw [nativeList, ih, List.map_cons]

theorem castableList_eq_map (ts : List Ty) : castableList ts = ts.map castable := by
  induction ts with
  | nil => rfl
  | cons t ts ih => rw [castableList, ih, List.map_cons]

/-! ## Text -/

mutual

/-- A type as the messages show it: parameters in parentheses, then an arrow, double for
functions with an effect, then the result. -/
def text : Ty → String
  | .builtin b => b.name
  | .named name _ => name
  | .function ps r p => "(" ++ textList ps ++ ") " ++ (if p then "->" else "=>") ++ " " ++ r.text

/-- Types with a comma and a blank between them. -/
def textList : List Ty → String
  | [] => ""
  | [t] => t.text
  | t :: ts => t.text ++ ", " ++ textList ts

end

end Ty

end Termwise
