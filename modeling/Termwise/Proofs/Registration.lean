import Mathlib.Data.List.Basic
import Termwise.Ty.Store

/-!
# Histories of a type store

A store hands out types under numbers, and a client compares them in three ways: by structure, by
identity and by number. The three agree since the tables of the store do: a signature leads to one
object, and so does a name; an object lies at a place of its own; and a type holds the number under
which it is listed, which tells it apart from all others as long as there are no more types than
numbers. Entries are only appended, so what was handed out once can be looked up for good.

Signatures are built from types that were handed out before, by this store or by another one. Only
their structure counts.

## Main definitions

* `TypeKey`, `Ty.key`: what a store tells its types apart by
* `TypeRequest`, `TypeStore.answerAll`: requests and their answers, one after the other
* `TypeRequest.Repeats`: two requests for the same type
* `TypeStore.History`, `TypeStore.Faithful`: what some requests leave behind, and what it promises

## Main results

* `TypeStore.answer_of_registered`, `TypeStore.answer_of_new`: a repeated request and a new one
* `TypeStore.answerAll_faithful`: all that a history of requests promises
-/

namespace Termwise

/-- **What a store tells its types apart by.** A declared type is known by its name, whether or
not it stands for another type. -/
inductive TypeKey where
  | builtin (builtin : Builtin)
  | name (name : String)
  | signature (params : List Ty) (result : Ty) (isPure : Bool)

/-- The key of a type. -/
def Ty.key : Ty → TypeKey
  | .builtin b => .builtin b
  | .named name _ => .name name
  | .function params result isPure => .signature params result isPure

/-- A request for a type. The types in a signature come from whatever store. -/
inductive TypeRequest where
  | signature (params : List IssuedType) (result : IssuedType) (isPure : Bool)
  | declaration (name : String) (isAlias : Bool)

namespace TypeRequest

/-- The type that a request describes. -/
def ty : TypeRequest → Ty
  | signature params result isPure => .function (params.map IssuedType.ty) result.ty isPure
  | declaration name isAlias => .named name isAlias

/-- **The same request once more**: a signature of equal parts, or the same name. -/
inductive Repeats : TypeRequest → TypeRequest → Prop where
  | signature {params params' : List IssuedType} {result result' : IssuedType} (isPure : Bool)
    (hparams : params.map IssuedType.ty = params'.map IssuedType.ty)
    (hresult : result.ty = result'.ty) :
    Repeats (.signature params result isPure) (.signature params' result' isPure)
  | declaration (name : String) (isAlias isAlias' : Bool) :
    Repeats (.declaration name isAlias) (.declaration name isAlias')

theorem repeats_iff {q q' : TypeRequest} : q.Repeats q' ↔ q.ty.key = q'.ty.key := by
  constructor
  · rintro (⟨isPure, hparams, hresult⟩ | ⟨name, _, _⟩)
    · simp only [ty, Ty.key, hparams, hresult]
    · rfl
  · cases q <;> cases q' <;> intro h <;> simp only [ty, Ty.key, reduceCtorEq] at h
    · injection h with hparams hresult hpure
      subst hpure
      exact .signature _ hparams hresult
    · injection h with hname
      subst hname
      exact .declaration _ _ _

end TypeRequest

namespace TypeStore

variable {store : TypeStore} {q : TypeRequest} {s t : IssuedType}

/-- The answer to a request. -/
def answer (store : TypeStore) : TypeRequest → IssuedType × TypeStore
  | .signature params result isPure =>
    store.functionType (params.map IssuedType.ty) result.ty isPure
  | .declaration name isAlias => store.declare name isAlias

/-- The answers to some requests, one after the other. -/
def answerAll (store : TypeStore) : List TypeRequest → List IssuedType × TypeStore
  | [] => ([], store)
  | q :: qs =>
    let (t, store) := store.answer q
    let (ts, store) := store.answerAll qs
    (t :: ts, store)

/-! ## Registered types -/

/-- **No key is registered twice**: each leads to one object. -/
theorem eq_of_key_eq (store : TypeStore) (hs : s ∈ store.issued) (ht : t ∈ store.issued)
    (hkey : s.ty.key = t.ty.key) : s = t := by
  cases hty : t.ty with
  | builtin b =>
    rw [hty] at hkey
    have hs' : s.ty = .builtin b := by
      cases hs' : s.ty <;> rw [hs'] at hkey <;> cases hkey
      rfl
    rw [IssuedType.eq_builtin hs', IssuedType.eq_builtin hty]
  | named name isAlias =>
    rw [hty] at hkey
    have hs' : s.ty.declaredName? = some name := by
      cases hs' : s.ty <;> rw [hs'] at hkey <;> cases hkey
      rfl
    have ht' : t.ty.declaredName? = some name := by rw [hty, Ty.declaredName?]
    have hlookup := (store.agree.name name s).2 ⟨hs, hs'⟩
    exact Option.some.inj (hlookup.symm.trans ((store.agree.name name t).2 ⟨ht, ht'⟩))
  | function params result isPure =>
    rw [hty] at hkey
    have hs' : s.ty = (⟨params, result, isPure⟩ : Signature).ty := by
      cases hs' : s.ty <;> rw [hs'] at hkey <;> cases hkey
      rfl
    have hlookup := (store.agree.function _ s).2 ⟨hs, hs'⟩
    exact Option.some.inj (hlookup.symm.trans ((store.agree.function _ t).2 ⟨ht, hty⟩))

/-- **Registered types are compared by structure** as by identity. -/
theorem ty_eq_iff_isIdentical (hs : s ∈ store.issued) (ht : t ∈ store.issued) :
    s.ty = t.ty ↔ s.isIdentical t = true := by
  constructor
  · intro h
    rw [store.eq_of_key_eq hs ht (congrArg Ty.key h)]
    exact t.isIdentical_self
  · intro h
    rcases IssuedType.isIdentical_cases h with rfl | ⟨a, ha, hb⟩
    · rfl
    · rw [store.agree.object s hs t ht a ha hb]

/-- A type stands where its number says, as long as there are no more types than numbers. -/
theorem toNat_number (hsize : store.size ≤ UInt32.size) {i : Nat} (ht : store.issued[i]? = some t) :
    t.number.toNat = i := by
  have hlt : i < store.size := (Array.getElem?_eq_some_iff.1 ht).1
  rw [store.agree.number i t ht]
  exact UInt32.toNat_ofNat_of_lt' (Nat.lt_of_lt_of_le hlt hsize)

/-- What is registered is found under its number. -/
theorem get?_number (hsize : store.size ≤ UInt32.size) (ht : t ∈ store.issued) :
    store.get? t.number = some t := by
  obtain ⟨i, hi⟩ := Array.mem_iff_getElem?.1 ht
  rw [get?, toNat_number hsize hi, hi]

/-- **Registered types are compared by identity** as by number. -/
theorem isIdentical_iff_number_eq (hsize : store.size ≤ UInt32.size) (hs : s ∈ store.issued)
    (ht : t ∈ store.issued) : s.isIdentical t = true ↔ s.number = t.number := by
  constructor
  · intro h
    have hty : s.ty = t.ty := (ty_eq_iff_isIdentical hs ht).2 h
    rw [store.eq_of_key_eq hs ht (congrArg Ty.key hty)]
  · intro h
    have hst : some s = some t := by
      rw [← get?_number hsize hs, h, get?_number hsize ht]
    rw [Option.some.inj hst]
    exact t.isIdentical_self

/-! ## One request -/

/-- **A repeated request** is answered by what is registered, and registers nothing. -/
theorem answer_of_registered (ht : t ∈ store.issued) (hkey : t.ty.key = q.ty.key) :
    store.answer q = (t, store) := by
  cases q with
  | signature params result isPure =>
    have hty : t.ty = (⟨params.map IssuedType.ty, result.ty, isPure⟩ : Signature).ty := by
      cases ht' : t.ty <;> rw [ht'] at hkey <;> cases hkey
      rfl
    have hfound := (store.agree.function _ t).2 ⟨ht, hty⟩
    rw [answer, functionType]
    split <;> simp_all
  | declaration name isAlias =>
    have hname : t.ty.declaredName? = some name := by
      cases ht' : t.ty <;> rw [ht'] at hkey <;> cases hkey
      rfl
    have hfound := (store.agree.name name t).2 ⟨ht, hname⟩
    rw [answer, declare]
    split <;> simp_all

/-- **A type is new** if a request registers it: it is the one that the request describes, and it is
appended under the next number. -/
structure Registers (q : TypeRequest) (t : IssuedType) (store store' : TypeStore) : Prop where
  ty : t.ty = q.ty
  number : t.number = .ofNat store.size
  issued : store'.issued = store.issued.push t

/-- **A new request** registers the type that it describes, under the next number. -/
theorem answer_of_new (hnew : ∀ t ∈ store.issued, t.ty.key ≠ q.ty.key) :
    Registers q (store.answer q).1 store (store.answer q).2 := by
  cases q with
  | signature params result isPure =>
    rw [answer, functionType]
    split
    · rename_i t hfound
      obtain ⟨ht, hty⟩ := (store.agree.function _ t).1 hfound
      exact (hnew t ht (congrArg Ty.key hty)).elim
    · exact ⟨rfl, rfl, rfl⟩
  | declaration name isAlias =>
    rw [answer, declare]
    split
    · rename_i t hfound
      obtain ⟨ht, hname⟩ := (store.agree.name _ t).1 hfound
      refine (hnew t ht ?_).elim
      cases hty : t.ty <;> rw [hty] at hname <;> cases hname
      rfl
    · exact ⟨rfl, rfl, rfl⟩

/-- **A request** is answered by an entry that has its key, and entries are only appended. -/
structure Answers (q : TypeRequest) (t : IssuedType) (store store' : TypeStore) : Prop where
  mem : t ∈ store'.issued
  key : t.ty.key = q.ty.key
  kept : ∀ (i : Nat) (s : IssuedType), store.issued[i]? = some s → store'.issued[i]? = some s
  registered : ∀ s ∈ store'.issued, s ∈ store.issued ∨ s.ty.key = q.ty.key

theorem answer_answers (store : TypeStore) (q : TypeRequest) :
    Answers q (store.answer q).1 store (store.answer q).2 := by
  by_cases hold : ∃ t ∈ store.issued, t.ty.key = q.ty.key
  · obtain ⟨t, ht, hkey⟩ := hold
    rw [answer_of_registered ht hkey]
    exact ⟨ht, hkey, fun _ _ => id, fun _ => .inl⟩
  · have hnew (t : IssuedType) (ht : t ∈ store.issued) : t.ty.key ≠ q.ty.key :=
      fun hkey => hold ⟨t, ht, hkey⟩
    obtain ⟨hty, -, hissued⟩ := answer_of_new hnew
    refine ⟨?_, congrArg Ty.key hty, fun i s hs => ?_, fun s hs => ?_⟩
    · rw [hissued]
      exact Array.mem_push_self
    · have hlt : i < store.issued.size := (Array.getElem?_eq_some_iff.1 hs).1
      rw [hissued, Array.getElem?_push, if_neg (Nat.ne_of_lt hlt), hs]
    · rw [hissued] at hs
      rcases Array.mem_push.1 hs with hs | rfl
      · exact .inl hs
      · exact .inr (congrArg Ty.key hty)

/-! ## Many requests -/

/-- **What some requests leave behind**: what was registered is still there, each answer is
registered under the key that was asked for, and nothing else is. -/
structure History (qs : List TypeRequest) (ts : List IssuedType) (store store' : TypeStore) :
    Prop where
  length : ts.length = qs.length
  answer : ∀ (i : Nat) (q : TypeRequest) (t : IssuedType), qs[i]? = some q → ts[i]? = some t →
    t ∈ store'.issued ∧ t.ty.key = q.ty.key
  kept : ∀ (i : Nat) (s : IssuedType), store.issued[i]? = some s → store'.issued[i]? = some s
  registered : ∀ s ∈ store'.issued, s ∈ store.issued ∨ ∃ q ∈ qs, s.ty.key = q.ty.key

/-- What was registered is registered after some requests. -/
theorem History.mem {qs : List TypeRequest} {ts : List IssuedType} {store' : TypeStore}
    (h : History qs ts store store') (ht : t ∈ store.issued) : t ∈ store'.issued := by
  obtain ⟨i, hi⟩ := Array.mem_iff_getElem?.1 ht
  exact Array.mem_of_getElem? (h.kept i t hi)

theorem answerAll_history (store : TypeStore) (qs : List TypeRequest) :
    History qs (store.answerAll qs).1 store (store.answerAll qs).2 := by
  induction qs generalizing store with
  | nil => exact ⟨rfl, by simp, fun _ _ => id, fun _ => .inl⟩
  | cons q qs ih =>
    have hfirst := store.answer_answers q
    have hrest := ih (store.answer q).2
    simp only [answerAll]
    refine ⟨congrArg (· + 1) hrest.length, ?_,
      fun i s hs => hrest.kept i s (hfirst.kept i s hs), fun s hs => ?_⟩
    · rintro (_ | i) q' t hq ht
      · cases hq
        cases ht
        exact ⟨hrest.mem hfirst.mem, hfirst.key⟩
      · exact hrest.answer i q' t hq ht
    · rcases hrest.registered s hs with hs | ⟨q', hq', hkey⟩
      · exact (hfirst.registered s hs).imp_right fun hkey => ⟨q, List.mem_cons_self, hkey⟩
      · exact .inr ⟨q', List.mem_cons_of_mem _ hq', hkey⟩

/-- What a new store holds are the builtin types. -/
theorem exists_builtin_of_mem_new {origin : Nat} (ht : t ∈ (new origin).issued) :
    ∃ b, t = .builtin b := by
  simp only [new, TypeTables.builtins, List.mem_toArray, List.mem_map] at ht
  obtain ⟨b, -, rfl⟩ := ht
  exact ⟨b, rfl⟩

/-- **All that a history of requests promises**, after the requests `qs` were answered by `ts`. -/
structure Faithful (qs : List TypeRequest) (ts : List IssuedType) (store : TypeStore) : Prop where
  /-- Each request has its answer. -/
  length : ts.length = qs.length
  /-- A type holds the number under which it stands. -/
  number : ∀ (i : Nat) (t : IssuedType), store.issued[i]? = some t → t.number.toNat = i
  /-- What was answered is registered. -/
  answer : ∀ t ∈ ts, t ∈ store.issued
  /-- Equal types are identical. -/
  identical : ∀ s ∈ store.issued, ∀ t ∈ store.issued, (s.ty = t.ty ↔ s.isIdentical t = true)
  /-- Identical types have one number. -/
  identified : ∀ s ∈ store.issued, ∀ t ∈ store.issued,
    (s.isIdentical t = true ↔ s.number = t.number)
  /-- A repeated request has the answer that it had before, and registers nothing. -/
  repeated : ∀ (i : Nat) (q q' : TypeRequest) (t : IssuedType), qs[i]? = some q' →
    q.Repeats q' → ts[i]? = some t → store.answer q = (t, store)
  /-- A new request registers exactly the type that it describes, under the next number. -/
  fresh : ∀ q, (∀ q' ∈ qs, ¬ q.Repeats q') →
    Registers q (store.answer q).1 store (store.answer q).2
  /-- What is registered stands under its number, just as it was handed out and whatever is
  requested. -/
  kept : ∀ more, ∀ t ∈ store.issued, (store.answerAll more).2.get? t.number = some t

/-- **A new store keeps what it promises**, whatever is requested of it and in whatever order, as
long as there are no more types than numbers. -/
theorem answerAll_faithful (origin : Nat) (qs : List TypeRequest)
    (hsize : ((new origin).answerAll qs).2.size ≤ UInt32.size) :
    Faithful qs ((new origin).answerAll qs).1 ((new origin).answerAll qs).2 := by
  have hhistory := (new origin).answerAll_history qs
  generalize ((new origin).answerAll qs).2 = store at hhistory hsize ⊢
  generalize ((new origin).answerAll qs).1 = ts at hhistory ⊢
  refine ⟨hhistory.length, fun i t ht => toNat_number hsize ht, fun t ht => ?_,
    fun s hs t ht => ty_eq_iff_isIdentical hs ht,
    fun s hs t ht => isIdentical_iff_number_eq hsize hs ht,
    fun i q q' t hq' hrepeats ht => ?_, fun q hq => ?_, fun more t ht => ?_⟩
  · obtain ⟨i, hi⟩ := List.mem_iff_getElem?.1 ht
    have hlt : i < qs.length := by
      rw [← hhistory.length]
      exact (List.getElem?_eq_some_iff.1 hi).1
    exact (hhistory.answer i _ t (List.getElem?_eq_getElem hlt) hi).1
  · obtain ⟨hmem, hkey⟩ := hhistory.answer i q' t hq' ht
    exact answer_of_registered hmem (hkey.trans (TypeRequest.repeats_iff.1 hrepeats).symm)
  · refine answer_of_new fun t ht hkey => ?_
    rcases hhistory.registered t ht with hold | ⟨q', hq', hkey'⟩
    · obtain ⟨b, rfl⟩ := exists_builtin_of_mem_new hold
      cases q <;> cases hkey
    · exact hq q' hq' (TypeRequest.repeats_iff.2 (hkey.symm.trans hkey'))
  · -- Later requests may register more types than there are numbers, but append them.
    obtain ⟨i, hi⟩ := Array.mem_iff_getElem?.1 ht
    rw [get?, toNat_number hsize hi]
    exact (store.answerAll_history more).kept i t hi

/-- A signature over types of two stores is the one of its structure: the store answers it by the
same object for each. -/
theorem answerAll_faithful_twoStores :
    let point := ((new 1).declare "Point" false).1
    let own := ((new 0).declare "Point" false).1
    let qs : List TypeRequest := [.declaration "Point" false, .signature [own] own true,
      .signature [point] own true, .declaration "Point" true]
    let (ts, store) := (new 0).answerAll qs
    store.size = 11 ∧ ts.map IssuedType.number = [9, 10, 10, 9] ∧ Faithful qs ts store := by
  refine ⟨by decide +kernel, by decide +kernel, ?_⟩
  exact answerAll_faithful 0 _ (by decide +kernel)

end TypeStore

end Termwise
