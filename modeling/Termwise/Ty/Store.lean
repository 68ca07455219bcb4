import Termwise.Ty.Basic

/-!
# Type stores

A store numbers types in the order of their registration, the builtin types first. A function
type is registered once per signature and a declared type once per name: a repeated request
returns what the first one registered.

A store keeps three tables, one that lists the types by their numbers and two that find them by
signature and by name. They describe the same types, and this is part of what a store is: every
operation shows it of the tables that it builds.

## Main definitions

* `IssuedType`: a type as a store handed it out, with its number and the place of its object
* `TypeTables`, `TypeTables.Agree`: the tables of a store and their agreement
* `TypeStore`: tables that agree
* `TypeStore.functionType`, `TypeStore.declare`: requests for a type
* `TypeStore.lookup?`: a type by name
-/

namespace Termwise

/-- What a function type is found by. -/
structure Signature where
  params : List Ty
  result : Ty
  isPure : Bool
deriving DecidableEq

/-- The function type of a signature. -/
def Signature.ty (s : Signature) : Ty := .function s.params s.result s.isPure

theorem Signature.ty_inj {s s' : Signature} (h : s.ty = s'.ty) : s = s' := by
  obtain ⟨hparams, hresult, hpure⟩ := Ty.function.inj h
  cases s
  cases s'
  simp only [Signature.mk.injEq]
  exact ⟨hparams, hresult, hpure⟩

/-! ## Issued types -/

/-- Where the object of a type lies. No two objects share a place, of one store or of two. -/
structure Address where
  store : Nat
  offset : Nat
deriving DecidableEq, Inhabited

/-- A type as a store handed it out. A builtin type is a value; any other type is an object, which
holds the number under which it was registered. -/
inductive IssuedType where
  | builtin (builtin : Builtin)
  | named (address : Address) (number : UInt32) (name : String) (isAlias : Bool)
  | function (address : Address) (number : UInt32) (signature : Signature)
deriving DecidableEq

namespace IssuedType

instance : Inhabited IssuedType := ⟨builtin .hole⟩

/-- The type itself, by which types are equal. -/
def ty : IssuedType → Ty
  | builtin b => .builtin b
  | named _ _ name isAlias => .named name isAlias
  | function _ _ signature => signature.ty

/-- The number of a type: a builtin type has its own, any other type the one that it holds. -/
def number : IssuedType → UInt32
  | builtin b => .ofNat b.index
  | named _ number _ _ | function _ number _ => number

/-- Where the type lies, if it is an object. -/
def address? : IssuedType → Option Address
  | builtin _ => none
  | named address .. | function address .. => some address

/-- Whether two types are one issued object. A builtin type is the same in every store. -/
def isIdentical : IssuedType → IssuedType → Bool
  | builtin b, builtin c => b == c
  | named a .., named b .. | function a .., function b .. => a == b
  | _, _ => false

theorem eq_builtin {t : IssuedType} {b : Builtin} (h : t.ty = .builtin b) : t = builtin b := by
  cases t with
  | builtin c =>
    injection h with h
    rw [h]
  | named => cases h
  | function => cases h

/-- An issued type is identical to itself. -/
theorem isIdentical_self (t : IssuedType) : t.isIdentical t = true := by
  cases t <;> exact beq_self_eq_true _

/-- Identical types are one builtin type or lie at one place. -/
theorem isIdentical_cases {s t : IssuedType} (h : s.isIdentical t = true) :
    s = t ∨ ∃ a, s.address? = some a ∧ t.address? = some a := by
  cases s <;> cases t <;> simp only [isIdentical, Bool.false_eq_true, beq_iff_eq] at h
  · exact .inl (congrArg builtin h)
  · exact .inr ⟨_, rfl, congrArg some h.symm⟩
  · exact .inr ⟨_, rfl, congrArg some h.symm⟩

end IssuedType

/-! ## Tables -/

/-- The tables of a store. `origin` tells stores apart. -/
structure TypeTables where
  origin : Nat
  /-- The types registered so far, in the order of their numbers. -/
  issued : Array IssuedType
  /-- The function types by their signatures. -/
  functions : List (Signature × IssuedType)
  /-- The declared types by their names. -/
  names : List (String × IssuedType)
  /-- How many objects were made. -/
  allocated : Nat

/-- **The tables of a store agree**: a type holds the number under which it is listed, both ways to
find a type lead to the types that are listed and to all of them, and no two of them are one
object. -/
structure TypeTables.Agree (tables : TypeTables) : Prop where
  number : ∀ (i : Nat) (t : IssuedType), tables.issued[i]? = some t → t.number = .ofNat i
  function : ∀ s t, tables.functions.lookup s = some t ↔ t ∈ tables.issued ∧ t.ty = s.ty
  name : ∀ name t, tables.names.lookup name = some t ↔
    t ∈ tables.issued ∧ t.ty.declaredName? = some name
  address : ∀ t ∈ tables.issued, ∀ a, t.address? = some a →
    a.store = tables.origin ∧ a.offset < tables.allocated
  object : ∀ s ∈ tables.issued, ∀ t ∈ tables.issued, ∀ a,
    s.address? = some a → t.address? = some a → s = t

/-- The types registered so far. -/
structure TypeStore extends TypeTables where
  agree : toTypeTables.Agree

namespace TypeTables

variable {tables : TypeTables} {t : IssuedType} {name : String} {s : Signature}

/-- The number of the next type. -/
def nextNumber (tables : TypeTables) : UInt32 := .ofNat tables.issued.size

/-- The place of the next object. -/
def nextAddress (tables : TypeTables) : Address := ⟨tables.origin, tables.allocated⟩

/-- The tables with one more object, which the tables to find it by do not have yet. -/
def register (tables : TypeTables) (t : IssuedType) : TypeTables :=
  { tables with issued := tables.issued.push t, allocated := tables.allocated + 1 }

/-- An entry under a new key is found by this key, and every other entry as before. -/
theorem lookup_cons_new {α β : Type} [DecidableEq α] {entries : List (α × β)} {key key' : α}
    {entry entry' : β} (hnew : entries.lookup key = none) :
    ((key, entry) :: entries).lookup key' = some entry' ↔
      entries.lookup key' = some entry' ∨ entry' = entry ∧ key' = key := by
  rw [List.lookup_cons]
  by_cases hkey : key' = key
  · subst hkey
    simp [hnew, eq_comm]
  · simp [hkey, beq_eq_false_iff_ne.2 hkey]

/-- Tables that agree do so with one more object, if both ways to find a type lead to it. -/
theorem Agree.register (h : tables.Agree) {functions : List (Signature × IssuedType)}
    {names : List (String × IssuedType)} (hnumber : t.number = tables.nextNumber)
    (haddress : t.address? = some tables.nextAddress)
    (hfunction : ∀ s u, functions.lookup s = some u ↔
      tables.functions.lookup s = some u ∨ u = t ∧ t.ty = s.ty)
    (hname : ∀ name u, names.lookup name = some u ↔
      tables.names.lookup name = some u ∨ u = t ∧ t.ty.declaredName? = some name) :
    { tables.register t with functions, names }.Agree where
  number i u hu := by
    simp only [TypeTables.register, Array.getElem?_push] at hu
    split at hu
    · cases hu
      rw [hnumber, nextNumber, ‹i = _›]
    · exact h.number i u hu
  function s u := by
    rw [hfunction, h.function, TypeTables.register, Array.mem_push]
    grind
  name name u := by
    rw [hname, h.name, TypeTables.register, Array.mem_push]
    grind
  address u hu a ha := by
    rcases Array.mem_push.1 hu with hu | rfl
    · obtain ⟨hstore, hoffset⟩ := h.address u hu a ha
      exact ⟨hstore, Nat.lt_succ_of_lt hoffset⟩
    · rw [haddress] at ha
      cases ha
      exact ⟨rfl, Nat.lt_succ_self _⟩
  object u hu v hv a ha hb := by
    -- The place of the new object is the first that no other object has.
    have hfresh (w : IssuedType) (hw : w ∈ tables.issued) (hwt : w.address? = t.address?) :
        False := by
      have := (h.address w hw _ (hwt.trans haddress)).2
      exact Nat.lt_irrefl _ this
    rcases Array.mem_push.1 hu with hold | rfl <;> rcases Array.mem_push.1 hv with hold' | rfl
    · exact h.object u hold v hold' a ha hb
    · exact (hfresh u hold (ha.trans hb.symm)).elim
    · exact (hfresh v hold' (hb.trans ha.symm)).elim
    · rfl

/-- The next object, as a function type. -/
def nextFunction (tables : TypeTables) (s : Signature) : IssuedType :=
  .function tables.nextAddress tables.nextNumber s

/-- The next object, as a declared type. -/
def nextNamed (tables : TypeTables) (name : String) (isAlias : Bool) : IssuedType :=
  .named tables.nextAddress tables.nextNumber name isAlias

/-- The tables with a new function type. -/
def addFunction (tables : TypeTables) (s : Signature) : TypeTables :=
  let t := tables.nextFunction s
  { tables.register t with functions := (s, t) :: tables.functions }

/-- The tables with a new declared type. -/
def addNamed (tables : TypeTables) (name : String) (isAlias : Bool) : TypeTables :=
  let t := tables.nextNamed name isAlias
  { tables.register t with names := (name, t) :: tables.names }

theorem Agree.addFunction (h : tables.Agree) (hnew : tables.functions.lookup s = none) :
    (tables.addFunction s).Agree := by
  refine h.register rfl rfl (fun s' u => ?_) fun name u => ?_
  · rw [lookup_cons_new hnew]
    have hty : (tables.nextFunction s).ty = s'.ty ↔ s' = s :=
      ⟨fun hty => (Signature.ty_inj hty).symm, fun hs => hs ▸ rfl⟩
    rw [hty]
  · have hty : (tables.nextFunction s).ty.declaredName? = none := rfl
    simp [hty, TypeTables.register]

theorem Agree.addNamed {isAlias : Bool} (h : tables.Agree)
    (hnew : tables.names.lookup name = none) :
    (tables.addNamed name isAlias).Agree := by
  refine h.register rfl rfl (fun s u => ?_) fun name' u => ?_
  · have hty : (tables.nextNamed name isAlias).ty ≠ s.ty := nofun
    simp [hty, TypeTables.register]
  · rw [lookup_cons_new hnew]
    have hty : (tables.nextNamed name isAlias).ty.declaredName? = some name' ↔ name' = name := by
      rw [eq_comm (a := name')]
      exact Option.some_inj
    rw [hty]

/-- The tables of a new store, which list the builtin types. -/
def builtins (origin : Nat) : TypeTables where
  origin
  issued := (Builtin.all.map .builtin).toArray
  functions := []
  names := []
  allocated := 0

theorem agree_builtins (origin : Nat) : (builtins origin).Agree := by
  have hbuiltin (t : IssuedType) (ht : t ∈ (builtins origin).issued) : ∃ b, t = .builtin b := by
    simp only [builtins, List.mem_toArray, List.mem_map] at ht
    obtain ⟨b, -, rfl⟩ := ht
    exact ⟨b, rfl⟩
  refine ⟨fun i t ht => ?_, fun s t => ?_, fun name t => ?_, fun t ht a ha => ?_,
    fun s hs t _ a ha _ => ?_⟩
  · obtain ⟨b, hb, rfl⟩ : ∃ b, Builtin.all[i]? = some b ∧ .builtin b = t := by
      simpa [builtins] using ht
    rw [Builtin.eq_index hb]
    rfl
  · refine iff_of_false nofun ?_
    rintro ⟨ht, hty⟩
    obtain ⟨b, rfl⟩ := hbuiltin t ht
    cases hty
  · refine iff_of_false nofun ?_
    rintro ⟨ht, hname⟩
    obtain ⟨b, rfl⟩ := hbuiltin t ht
    cases hname
  · obtain ⟨b, rfl⟩ := hbuiltin t ht
    cases ha
  · obtain ⟨b, rfl⟩ := hbuiltin s hs
    cases ha

end TypeTables

namespace TypeStore

/-- A new store, which holds the builtin types. -/
def new (origin : Nat) : TypeStore := ⟨.builtins origin, TypeTables.agree_builtins origin⟩

/-- How many types are registered. -/
def size (store : TypeStore) : Nat := store.issued.size

/-- The type with a number. -/
def get? (store : TypeStore) (number : UInt32) : Option IssuedType := store.issued[number.toNat]?

/-- The function type of a signature. Only the structure of its parts counts, not the stores that
they come from. -/
def functionType (store : TypeStore) (params : List Ty) (result : Ty) (isPure : Bool) :
    IssuedType × TypeStore :=
  let signature : Signature := ⟨params, result, isPure⟩
  match hnew : store.functions.lookup signature with
  | some t => (t, store)
  | none => (store.nextFunction signature,
      ⟨store.addFunction signature, store.agree.addFunction hnew⟩)

/-- The type declared under a name. The first declaration of a name decides whether it stands
for another type. -/
def declare (store : TypeStore) (name : String) (isAlias : Bool) : IssuedType × TypeStore :=
  match hnew : store.names.lookup name with
  | some t => (t, store)
  | none => (store.nextNamed name isAlias,
      ⟨store.addNamed name isAlias, store.agree.addNamed hnew⟩)

/-- The type with a name: the builtin types first, then the declared ones. -/
def lookup? (store : TypeStore) (name : String) : Option IssuedType :=
  match Builtin.all.find? (fun b => b.name == name) with
  | some b => some (.builtin b)
  | none => store.names.lookup name

/-- **A requested function type** is the one of its signature, even if it was registered before. -/
theorem functionType_ty (store : TypeStore) (params : List Ty) (result : Ty) (isPure : Bool) :
    (store.functionType params result isPure).1.ty = .function params result isPure := by
  rw [functionType]
  split
  · rename_i t hfound
    exact ((store.agree.function _ t).1 hfound).2
  · rfl

end TypeStore

end Termwise
