import Termwise.Proofs.Registration

/-!
# Types by their names

A name is looked up among the builtin types first, and then among the declared ones. A declaration
looks only among the declared types for a type of its name. So every declared type can be looked up,
and is the very type that its declaration answered, whatever was requested before and after, unless
its name is one of a builtin type: such a type is registered all the same, but its name keeps
standing for the builtin type.

## Main definitions

* `TypeStore.Named`: all that a history of requests promises about a name

## Main results

* `TypeStore.lookup?_answerAll`: a name after any history of requests
* `TypeStore.lookup?_hidden`: a declared type that cannot be looked up
-/

namespace Termwise.TypeStore

variable {store : TypeStore} {t : IssuedType} {name : String}

/-! ## One store -/

/-- **The name of a builtin type** stands for this type in every store. -/
theorem lookup?_builtin (store : TypeStore) (b : Builtin) :
    store.lookup? b.name = some (.builtin b) := by
  have hfind : Builtin.all.find? (fun c => c.name == b.name) = some b := by
    cases b <;> decide
  rw [lookup?, hfind]

/-- **Any other name** stands for what is registered under it. -/
theorem lookup?_of_other (hname : ∀ b : Builtin, b.name ≠ name) :
    store.lookup? name = some t ↔ t ∈ store.issued ∧ t.ty.declaredName? = some name := by
  have hfind : Builtin.all.find? (fun b => b.name == name) = none := by
    simpa using fun b _ => hname b
  rw [lookup?, hfind, store.agree.name]

/-- What was declared under a name is known by this name as its key. -/
theorem declaredName?_iff (ty : Ty) : ty.declaredName? = some name ↔ ty.key = .name name := by
  cases ty <;> simp [Ty.declaredName?, Ty.key]

/-- No type that is known by a name is identical to a builtin one. -/
theorem not_isIdentical_builtin {b : Builtin} (hkey : t.ty.key = .name name) :
    (IssuedType.builtin b).isIdentical t = false := by
  cases t with
  | builtin c => cases hkey
  | named => rfl
  | function => rfl

/-! ## A history of requests -/

/-- **All that a history of requests promises about a name**, after the requests `qs` were answered
by `ts`. -/
structure Named (qs : List TypeRequest) (ts : List IssuedType) (store : TypeStore)
    (name : String) : Prop where
  /-- Each declaration was answered, and the very type that it was answered by is found. -/
  declared : (∀ b : Builtin, b.name ≠ name) →
    ∀ (i : Nat) (isAlias : Bool), qs[i]? = some (.declaration name isAlias) →
      ∃ t, ts[i]? = some t ∧ store.lookup? name = some t ∧ t.isIdentical t = true
  /-- A name that was not declared stands for nothing. -/
  undeclared : (∀ b : Builtin, b.name ≠ name) →
    (∀ isAlias : Bool, .declaration name isAlias ∉ qs) → store.lookup? name = none
  /-- The name of a builtin type stands for this type, which answers no declaration of the name. -/
  builtin : ∀ b : Builtin, b.name = name →
    ∃ found, store.lookup? name = some found ∧ found.ty = .builtin b ∧
      ∀ (i : Nat) (isAlias : Bool) (t : IssuedType), qs[i]? = some (.declaration name isAlias) →
        ts[i]? = some t → found.isIdentical t = false

/-- Only the declarations of a name are known by it. -/
theorem eq_declaration {q : TypeRequest} (hkey : TypeKey.name name = q.ty.key) :
    ∃ isAlias, q = .declaration name isAlias := by
  cases q with
  | signature => cases hkey
  | declaration _ isAlias =>
    cases hkey
    exact ⟨isAlias, rfl⟩

/-- **A name after any history of requests**: whichever types were requested before and after a
declaration, its type can be looked up, unless a builtin type has the name. -/
theorem lookup?_answerAll (origin : Nat) (qs : List TypeRequest) (name : String) :
    Named qs ((new origin).answerAll qs).1 ((new origin).answerAll qs).2 name := by
  have hhistory := (new origin).answerAll_history qs
  generalize ((new origin).answerAll qs).2 = store at hhistory ⊢
  generalize ((new origin).answerAll qs).1 = ts at hhistory ⊢
  refine ⟨fun hname i isAlias hq => ?_, fun hname hnone => ?_, fun b hb => ?_⟩
  · have hlt : i < ts.length := hhistory.length ▸ (List.getElem?_eq_some_iff.1 hq).1
    have ht : ts[i]? = some ts[i] := List.getElem?_eq_getElem hlt
    obtain ⟨hmem, hkey⟩ := hhistory.answer i _ _ hq ht
    refine ⟨ts[i], ht, ?_, IssuedType.isIdentical_self _⟩
    exact (lookup?_of_other hname).2 ⟨hmem, (declaredName?_iff _).2 hkey⟩
  · rw [Option.eq_none_iff_forall_ne_some]
    intro t ht
    obtain ⟨hmem, hdeclared⟩ := (lookup?_of_other hname).1 ht
    -- A type under the name was neither there from the start nor declared since.
    rcases hhistory.registered t hmem with hold | ⟨q, hq, hkey⟩
    · obtain ⟨b, rfl⟩ := exists_builtin_of_mem_new hold
      cases hdeclared
    · obtain ⟨isAlias, rfl⟩ := eq_declaration (((declaredName?_iff _).1 hdeclared).symm.trans hkey)
      exact hnone isAlias hq
  · subst hb
    refine ⟨_, lookup?_builtin store b, rfl, fun i isAlias t hq ht => ?_⟩
    exact not_isIdentical_builtin (hhistory.answer i _ t hq ht).2

/-- A declared type is found after later requests, too. -/
example :
    let qs : List TypeRequest := [.declaration "Point" true, .signature [] (.builtin .int) true]
    ((new 0).answerAll qs).2.lookup? "Point" = some (.named ⟨0, 0⟩ 9 "Point" true) := by
  decide +kernel

/-- A type declared as `Int` is no builtin type, and what is found under `Int` is another one. -/
theorem lookup?_hidden :
    let declared := (new 0).declare "Int" false
    declared.1 = .named ⟨0, 0⟩ 9 "Int" false ∧ declared.2.get? 9 = some declared.1 ∧
      declared.2.lookup? "Int" = some (.builtin .int) ∧
      (IssuedType.builtin .int).isIdentical declared.1 = false := by
  decide +kernel

end Termwise.TypeStore
