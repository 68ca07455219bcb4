import Mathlib.Data.List.TakeWhile
import Termwise.Proofs.Registration

/-!
# The texts of types

The text of a type is read in one way only. A function type prints its result without parentheses,
and a parameter that is a function type stands as it is between the parentheses and commas of the
list, so what has to be shown is that a reader always knows where a type ends: its text, with
anything behind it that may follow a type, is the text of no other type with anything else behind
it. Hence two types with the same text are the same type.

Names must be words for this, other than the names of the builtin types, and come from one store,
which decides for each name whether it stands for another type.

## Main definitions

* `Text.IsWord`: a name that holds nothing of what the texts of function types are made of
* `Ty.Over`: the types over the declared types of a store
* `Ty.Ends`: what may follow the text of a type

## Main results

* `Ty.textList_append_inj`: a list of parameters is read in one way
* `Ty.text_unambiguous`: and so is a type
-/

namespace Termwise

/-- **A character of a name**: none that stands around the names in the text of a function type.
Letters and digits of every script are characters of names. -/
def Text.isNameChar (c : Char) : Bool := c != '(' && c != ')' && c != ',' && c != ' '

/-- A name of at least one character, all of them characters of names. -/
structure Text.IsWord (name : String) : Prop where
  ne_nil : name.toList ≠ []
  isNameChar : ∀ c ∈ name.toList, isNameChar c = true

instance (name : String) : Decidable (Text.IsWord name) :=
  decidable_of_iff (name.toList ≠ [] ∧ name.toList.all Text.isNameChar = true)
    ⟨fun h => ⟨h.1, List.all_eq_true.1 h.2⟩, fun h => ⟨h.ne_nil, List.all_eq_true.2 h.isNameChar⟩⟩

namespace Ty

open Text (isNameChar IsWord)

variable {store : TypeStore} {s t : Ty} {ps qs : List Ty} {u v : List Char} {m n : String}

/-- **The types over a store**: the builtin types, the types declared in it under words that are no
names of builtin types, and all function types over them. -/
inductive Over (store : TypeStore) : Ty → Prop where
  | builtin (b : Builtin) : Over store (.builtin b)
  | named {name : String} {isAlias : Bool}
    (hdeclared : ∃ t ∈ store.issued, t.ty = .named name isAlias)
    (hword : IsWord name) (hother : ∀ b : Builtin, b.name ≠ name) :
    Over store (.named name isAlias)
  | function {params : List Ty} {result : Ty} (isPure : Bool)
    (hparams : ∀ t ∈ params, Over store t) (hresult : Over store result) :
    Over store (.function params result isPure)

/-- **What may follow a type**: nothing, a closing parenthesis, or a comma and a blank. -/
inductive Ends : List Char → Prop where
  | nil : Ends []
  | close (rest : List Char) : Ends (')' :: rest)
  | comma (rest : List Char) : Ends (',' :: ' ' :: rest)

/-! ## Words -/

theorem isWord_builtin (b : Builtin) : IsWord b.name := by
  cases b <;> decide

/-- What follows a type starts with no character of a name. -/
theorem Ends.takeWhile_eq_nil (hu : Ends u) : u.takeWhile isNameChar = [] := by
  cases hu <;> rfl

/-- A word is read to its end. -/
theorem takeWhile_word (hm : IsWord m) (hu : Ends u) :
    (m.toList ++ u).takeWhile isNameChar = m.toList := by
  rw [List.takeWhile_append_of_pos hm.isNameChar, hu.takeWhile_eq_nil, List.append_nil]

/-- **A word** and what follows it are read in one way. -/
theorem word_append_inj (hm : IsWord m) (hn : IsWord n) (hu : Ends u) (hv : Ends v)
    (h : m.toList ++ u = n.toList ++ v) : m = n ∧ u = v := by
  have hname : m.toList = n.toList := by
    rw [← takeWhile_word hm hu, h, takeWhile_word hn hv]
  rw [hname] at h
  exact ⟨String.toList_inj.1 hname, List.append_cancel_left h⟩

/-- A word starts with a character of a name. -/
theorem word_append_ne {c : Char} (hm : IsWord m) (hc : isNameChar c = false) :
    m.toList ++ u ≠ c :: v := by
  obtain ⟨hne, hchars⟩ := hm
  intro h
  obtain ⟨d, rest, hname⟩ := List.exists_cons_of_ne_nil hne
  rw [hname, List.cons_append] at h
  injection h with hd _
  have hd' : isNameChar d = true := hchars d (hname ▸ List.mem_cons_self)
  rw [hd, hc] at hd'
  exact Bool.false_ne_true hd'

/-! ## Texts of types -/

/-- The text of a function type, part by part. -/
theorem toList_text_function (ps : List Ty) (r : Ty) (isPure : Bool) :
    (text (.function ps r isPure)).toList =
      '(' :: ((textList ps).toList ++
        ')' :: ' ' :: (if isPure then '-' else '=') :: '>' :: ' ' :: r.text.toList) := by
  cases isPure <;> simp [text]

/-- A list of types starts with the first of them. -/
theorem toList_textList_cons (t : Ty) (ts : List Ty) :
    (textList (t :: ts)).toList =
      t.text.toList ++ if ts = [] then [] else ',' :: ' ' :: (textList ts).toList := by
  cases ts <;> simp [textList]

/-- No type starts with the parenthesis that ends a list. -/
theorem Over.text_append_ne (ht : t.Over store) : t.text.toList ++ u ≠ ')' :: v := by
  cases ht with
  | builtin b => exact word_append_ne (isWord_builtin b) rfl
  | named _ hword _ => exact word_append_ne hword rfl
  | function isPure _ _ => simp [toList_text_function]

/-! ## Reading a type -/

/-- **The text of a type** can be read as the text of this type only, whatever follows it. -/
def ReadOnce (store : TypeStore) (s : Ty) : Prop :=
  ∀ ⦃t : Ty⦄ ⦃u v : List Char⦄, t.Over store → Ends u → Ends v →
    s.text.toList ++ u = t.text.toList ++ v → s = t ∧ u = v

/-- What follows a type in a list may follow a type. -/
theorem ends_in_list (ts : List Ty) (u : List Char) :
    Ends ((if ts = [] then [] else ',' :: ' ' :: (textList ts).toList) ++ ')' :: u) := by
  split
  · exact .close u
  · exact .comma _

/-- **A list of types** is read in one way up to its end. -/
theorem textList_append_inj (hps : ∀ s ∈ ps, s.Over store) (hqs : ∀ t ∈ qs, t.Over store)
    (hread : ∀ s ∈ ps, ReadOnce store s)
    (h : (textList ps).toList ++ ')' :: u = (textList qs).toList ++ ')' :: v) :
    ps = qs ∧ u = v := by
  induction ps generalizing qs with
  | nil =>
    cases qs with
    | nil => exact ⟨rfl, by simpa [textList] using h⟩
    | cons t ts =>
      rw [toList_textList_cons, List.append_assoc] at h
      exact ((hqs t List.mem_cons_self).text_append_ne h.symm).elim
  | cons s ss ih =>
    cases qs with
    | nil =>
      rw [toList_textList_cons, List.append_assoc] at h
      exact ((hps s List.mem_cons_self).text_append_ne h).elim
    | cons t ts =>
      simp only [toList_textList_cons, List.append_assoc] at h
      obtain ⟨rfl, hrest⟩ := hread s List.mem_cons_self (hqs t List.mem_cons_self)
        (ends_in_list ss u) (ends_in_list ts v) h
      -- Either both lists end here, or both go on behind a comma.
      by_cases hss : ss = [] <;> by_cases hts : ts = [] <;>
        simp only [hss, hts, if_true, if_false, List.nil_append, List.cons_append, List.cons.injEq,
          Char.reduceEq, true_and, false_and] at hrest
      · exact ⟨by rw [hss, hts], hrest⟩
      · obtain ⟨rfl, huv⟩ := ih (fun s hs => hps s (List.mem_cons_of_mem _ hs))
          (fun t ht => hqs t (List.mem_cons_of_mem _ ht))
          (fun s hs => hread s (List.mem_cons_of_mem _ hs)) hrest
        exact ⟨rfl, huv⟩

/-- A store decides once for a name whether it stands for another type. -/
theorem isAlias_unique {name : String} {a b : Bool}
    (ha : ∃ t ∈ store.issued, t.ty = .named name a)
    (hb : ∃ t ∈ store.issued, t.ty = .named name b) : a = b := by
  obtain ⟨s, hs, hsty⟩ := ha
  obtain ⟨t, ht, htty⟩ := hb
  have hkey : s.ty.key = t.ty.key := by rw [hsty, htty, Ty.key, Ty.key]
  rw [store.eq_of_key_eq hs ht hkey, htty] at hsty
  injection hsty with _ hab
  exact hab.symm

/-- Builtin types have different names. -/
theorem builtin_name_inj {b c : Builtin} (h : b.name = c.name) : b = c := by
  revert h
  cases b <;> cases c <;> decide

/-- A name is not read as a function type. -/
theorem word_append_ne_function (hm : IsWord m) {r : Ty} {isPure : Bool} :
    m.toList ++ u ≠ (text (.function ps r isPure)).toList ++ v := by
  rw [toList_text_function]
  exact word_append_ne hm rfl

theorem readOnce_builtin (b : Builtin) : ReadOnce store (.builtin b) := by
  intro t u v ht hu hv h
  cases ht with
  | builtin c =>
    obtain ⟨hname, huv⟩ := word_append_inj (isWord_builtin b) (isWord_builtin c) hu hv h
    exact ⟨by rw [builtin_name_inj hname], huv⟩
  | named _ hword hother =>
    exact (hother b (word_append_inj (isWord_builtin b) hword hu hv h).1).elim
  | function => exact (word_append_ne_function (isWord_builtin b) h).elim

/-- The name of a declared type tells which one it is. -/
theorem readOnce_named {isAlias : Bool}
    (hdeclared : ∃ t ∈ store.issued, t.ty = .named m isAlias) (hword : IsWord m)
    (hother : ∀ b : Builtin, b.name ≠ m) : ReadOnce store (.named m isAlias) := by
  intro t u v ht hu hv h
  cases ht with
  | builtin c =>
    exact (hother c (word_append_inj hword (isWord_builtin c) hu hv h).1.symm).elim
  | named hdeclared' hword' _ =>
    obtain ⟨rfl, huv⟩ := word_append_inj hword hword' hu hv h
    exact ⟨by rw [isAlias_unique hdeclared hdeclared'], huv⟩
  | function => exact (word_append_ne_function hword h).elim

/-- **A function type** is read in one way if its parts are. -/
theorem readOnce_function {r : Ty} {isPure : Bool} (hps : ∀ s ∈ ps, s.Over store)
    (hparams : ∀ s ∈ ps, ReadOnce store s) (hresult : ReadOnce store r) :
    ReadOnce store (.function ps r isPure) := by
  intro t u v ht hu hv h
  cases ht with
  | builtin c => exact (word_append_ne_function (isWord_builtin c) h.symm).elim
  | named _ hword _ => exact (word_append_ne_function hword h.symm).elim
  | @function qs r' isPure' hqs hresult' =>
    simp only [toList_text_function, List.cons_append, List.append_assoc, List.cons.injEq,
      true_and] at h
    -- The parameters end with a parenthesis, and the arrow between tells the purity.
    obtain ⟨rfl, hrest⟩ := textList_append_inj hps hqs hparams h
    simp only [List.cons.injEq, true_and] at hrest
    obtain ⟨harrow, hrest⟩ := hrest
    -- What follows the result is what follows the whole type.
    obtain ⟨rfl, huv⟩ := hresult hresult' hu hv hrest
    obtain rfl : isPure = isPure' := by
      revert harrow
      cases isPure <;> cases isPure' <;> decide
    exact ⟨rfl, huv⟩

/-- **A type over a store** is read in one way. -/
theorem Over.readOnce (hs : s.Over store) : ReadOnce store s := by
  induction hs with
  | builtin b => exact readOnce_builtin b
  | named hdeclared hword hother => exact readOnce_named hdeclared hword hother
  | function isPure hparams _ ihparams ihresult =>
    exact readOnce_function hparams ihparams ihresult

/-- **Types have texts of their own.** Take a store after whatever requests, and two types over it.
If their texts are equal, so are they. And no text of the one with something behind it that may
follow a type is a text of the other with something behind it, except for the same type with the
same rest. -/
theorem text_unambiguous (origin : Nat) (qs : List TypeRequest) {s t : Ty}
    (hs : s.Over ((TypeStore.new origin).answerAll qs).2)
    (ht : t.Over ((TypeStore.new origin).answerAll qs).2) :
    (s.text = t.text → s = t) ∧
      ∀ u v, Ends u → Ends v → s.text.toList ++ u = t.text.toList ++ v → s = t ∧ u = v := by
  have hread := hs.readOnce
  refine ⟨fun h => ?_, fun u v hu hv h => hread ht hu hv h⟩
  exact (hread ht .nil .nil (by rw [h])).1

/-- A function with a function as its parameter, and a function with a function as its result, are
told apart by where a parenthesis stands. -/
theorem text_parameter_or_result :
    let store := ((TypeStore.new 0).answerAll [.declaration "Point" false]).2
    let s : Ty := .function [.function [.named "Point" false] .int true] .void false
    let t : Ty := .function [.named "Point" false] (.function [.int] .void false) true
    s.Over store ∧ t.Over store ∧ s.text = "((Point) -> Int) => Void" ∧
      t.text = "(Point) -> (Int) => Void" ∧ s.text ≠ t.text ∧
      ∀ u v, Ends u → Ends v → s.text.toList ++ u ≠ t.text.toList ++ v := by
  intro store s t
  have hpoint : (Ty.named "Point" false).Over store := by
    refine .named (by decide +kernel) (by decide) fun b => ?_
    cases b <;> decide
  have hs : s.Over store := by
    refine .function false (List.forall_mem_singleton.2 (.function true ?_ (.builtin _)))
      (.builtin _)
    exact List.forall_mem_singleton.2 hpoint
  have ht : t.Over store := by
    refine .function true (List.forall_mem_singleton.2 hpoint) (.function false ?_ (.builtin _))
    exact List.forall_mem_singleton.2 (.builtin _)
  have hst : s ≠ t := by decide +kernel
  obtain ⟨htext, hread⟩ := text_unambiguous 0 [.declaration "Point" false] hs ht
  refine ⟨hs, ht, by decide +kernel, by decide +kernel, fun h => hst (htext h), ?_⟩
  exact fun u v hu hv h => hst (hread u v hu hv h).1

end Ty

end Termwise
