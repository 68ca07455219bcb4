import Termwise.Run.Term

/-!
# Groupings of a run by its binary operators

A run of operands with binary operators between them is grouped into a tree whose inner nodes are
the operators. A grouping is well bound if no operator takes an operand that another one binds
more tightly: whatever ends the left side of an operator gave its operand up to that side, and the
operator leaves the first operand of its right side to whatever begins there. Every run has exactly
one well bound grouping.

## Main definitions

* `Joint`: a binary operator at its place in a run
* `Grouping`: a run grouped into a tree; `Grouping.leftSpine`, `Grouping.rightSpine`
* `Grouping.WellBound`: no operator takes what binds more tightly to another
* `Grouping.ofRun`: the grouping of a run, read from left to right

## Main results

* `Grouping.wellBound_ofRun`: the grouping of a run is well bound
* `Grouping.ofRun_eq_of_wellBound`: and no other grouping of the run is
-/

namespace Termwise

/-- A binary operator at its place in a run: the term that stands for it, the definition that it
calls and how it binds. -/
structure Joint where
  term : ExprId
  callee : DefId
  binding : Binding
deriving DecidableEq

/-- Whether the earlier one of two operators takes the operand between them: it binds tighter, or
both bind alike and group to the left. -/
def Binding.Reduces (o p : Binding) : Prop :=
  p.precedence < o.precedence ∨
    o.precedence = p.precedence ∧ o.associativity = .left ∧ p.associativity = .left

instance : DecidableRel Binding.Reduces := fun o p =>
  inferInstanceAs (Decidable (p.precedence < o.precedence ∨
    o.precedence = p.precedence ∧ o.associativity = .left ∧ p.associativity = .left))

/-- **The powers say who takes the operand**, whatever the precedences are: the later operator
holds it at least as strongly as the earlier one exactly if the earlier one does not take it. -/
theorem Binding.power_right_le_left_iff (o p : Binding) :
    o.power.right ≤ p.power.left ↔ ¬ o.Reduces p := by
  have ho := o.precedence.toNat_lt
  have hp := p.precedence.toNat_lt
  obtain ⟨m, a⟩ := o
  obtain ⟨n, b⟩ := p
  -- The powers stay below 2 ^ 33 + 2, so nothing wraps.
  cases a <;> cases b <;>
    simp only [power, Reduces, UInt64.le_iff_toNat_le, UInt64.toNat_add, UInt64.toNat_mul,
      UInt32.toNat_toUInt64, UInt64.reduceToNat, UInt32.lt_iff_toNat_lt, UInt32.toNat_inj.symm,
      reduceCtorEq, and_true, and_false, or_false] at * <;>
    omega

/-- Whether the earlier one of two operators takes the operand between them. -/
def Joint.Reduces (o p : Joint) : Prop := o.binding.Reduces p.binding

instance : DecidableRel Joint.Reduces := fun o p =>
  inferInstanceAs (Decidable (o.binding.Reduces p.binding))

/-- A run grouped by its binary operators. -/
inductive Grouping (α : Type) where
  | single (operand : α)
  | join (left : Grouping α) (joint : Joint) (right : Grouping α)
deriving DecidableEq

namespace Grouping

variable {α : Type}

/-- The operators from the root down the left sides. -/
def leftSpine : Grouping α → List Joint
  | single _ => []
  | join left o _ => o :: left.leftSpine

/-- The operators from the root down the right sides. -/
def rightSpine : Grouping α → List Joint
  | single _ => []
  | join _ o right => o :: right.rightSpine

/-- The operands, from left to right. -/
def operands : Grouping α → List α
  | single a => [a]
  | join left _ right => left.operands ++ right.operands

/-- The operators, from left to right. -/
def joints : Grouping α → List Joint
  | single _ => []
  | join left o right => left.joints ++ o :: right.joints

/-- The terms of a grouping, from left to right, given those of its operands. -/
def flatten (terms : α → List ExprId) : Grouping α → List ExprId
  | single a => terms a
  | join left o right => left.flatten terms ++ o.term :: right.flatten terms

/-- No operator takes an operand that binds more tightly to another one. -/
def WellBound : Grouping α → Prop
  | single _ => True
  | join left o right =>
    left.WellBound ∧ right.WellBound ∧ (∀ p ∈ left.rightSpine, p.Reduces o) ∧
      ∀ p ∈ right.leftSpine, ¬ o.Reduces p

/-- The grouping with other operands. -/
def map {β : Type} (f : α → β) : Grouping α → Grouping β
  | single a => single (f a)
  | join left o right => join (left.map f) o (right.map f)

theorem rightSpine_map {β : Type} (f : α → β) (t : Grouping α) :
    (t.map f).rightSpine = t.rightSpine := by
  induction t with
  | single => rfl
  | join left o right _ ih => simp [map, rightSpine, ih]

/-! ## Reading one operator more -/

/-- The grouping with one operator and one operand more at its right end. The operator takes the
largest part there whose operators all give way to it. -/
def append : Grouping α → Joint → α → Grouping α
  | single b, o, a => join (single b) o (single a)
  | join left p right, o, a =>
    if ∀ q ∈ p :: right.rightSpine, q.Reduces o then join (join left p right) o (single a)
    else join left p (right.append o a)

theorem append_of_reduces {t : Grouping α} {o : Joint} (h : ∀ q ∈ t.rightSpine, q.Reduces o)
    (a : α) : t.append o a = join t o (single a) := by
  cases t with
  | single => rfl
  | join left p right => exact if_pos h

theorem map_append {β : Type} (f : α → β) (t : Grouping α) (o : Joint) (a : α) :
    (t.append o a).map f = (t.map f).append o (f a) := by
  induction t with
  | single => rfl
  | join left p right _ ih =>
    simp only [append, map, rightSpine_map]
    split
    · rfl
    · simp [map, ih]

theorem flatten_append (terms : α → List ExprId) (t : Grouping α) (o : Joint) (a : α) :
    (t.append o a).flatten terms = t.flatten terms ++ o.term :: terms a := by
  induction t with
  | single => rfl
  | join left p right _ ih =>
    simp only [append]
    split
    · rfl
    · simp [flatten, ih]

theorem operands_append (t : Grouping α) (o : Joint) (a : α) :
    (t.append o a).operands = t.operands ++ [a] := by
  induction t with
  | single => rfl
  | join left p right _ ih =>
    simp only [append]
    split
    · rfl
    · simp [operands, ih]

theorem joints_append (t : Grouping α) (o : Joint) (a : α) :
    (t.append o a).joints = t.joints ++ [o] := by
  induction t with
  | single => rfl
  | join left p right _ ih =>
    simp only [append]
    split
    · rfl
    · simp [joints, ih]

/-- A new operator comes to the left spine only if all before it gives way. -/
theorem mem_leftSpine_append {t : Grouping α} {o p : Joint} {a : α}
    (h : p ∈ (t.append o a).leftSpine) :
    p ∈ t.leftSpine ∨ p = o ∧ ∀ q ∈ t.rightSpine, q.Reduces o := by
  cases t with
  | single => exact .inr ⟨by simpa [append, leftSpine] using h, by simp [rightSpine]⟩
  | join left q right =>
    simp only [append] at h
    split at h <;> rename_i hall
    · rcases List.mem_cons.1 h with rfl | h
      · exact .inr ⟨rfl, hall⟩
      · exact .inl h
    · exact .inl h

theorem leftSpine_subset_append (t : Grouping α) (o : Joint) (a : α) :
    t.leftSpine ⊆ (t.append o a).leftSpine := by
  cases t with
  | single => exact List.nil_subset _
  | join left q right =>
    simp only [append]
    split
    · exact List.subset_cons_self _ _
    · exact List.Subset.refl _

/-- **Reading one operator more** keeps a grouping well bound. -/
theorem WellBound.append {t : Grouping α} (h : t.WellBound) (o : Joint) (a : α) :
    (t.append o a).WellBound := by
  induction t with
  | single => simp [Grouping.append, WellBound, rightSpine, leftSpine]
  | join left p right _ ih =>
    obtain ⟨hleft, hright, hl, hr⟩ := h
    simp only [Grouping.append]
    split <;> rename_i hall
    · exact ⟨⟨hleft, hright, hl, hr⟩, trivial, hall, by simp [leftSpine]⟩
    · refine ⟨hleft, ih hright, hl, fun q hq => ?_⟩
      rcases mem_leftSpine_append hq with hq | ⟨rfl, hall'⟩
      · exact hr q hq
      · exact fun hp => hall (List.forall_mem_cons.2 ⟨hp, hall'⟩)

/-! ## The grouping of a run -/

/-- The grouping with operators, each with the operand after it, at its right end. -/
def appendAll (t : Grouping α) : List (Joint × α) → Grouping α
  | [] => t
  | (o, a) :: rest => (t.append o a).appendAll rest

/-- The grouping of a run, read from left to right. -/
def ofRun (first : α) (rest : List (Joint × α)) : Grouping α := (single first).appendAll rest

/-- The first operand of a grouping. -/
def first : Grouping α → α
  | single a => a
  | join left _ _ => left.first

/-- What follows the first operand of a grouping: operators, each with the operand after it. -/
def rest : Grouping α → List (Joint × α)
  | single _ => []
  | join left o right => left.rest ++ (o, right.first) :: right.rest

theorem appendAll_append (t : Grouping α) (xs ys : List (Joint × α)) :
    t.appendAll (xs ++ ys) = (t.appendAll xs).appendAll ys := by
  induction xs generalizing t with
  | nil => rfl
  | cons x xs ih => exact ih _

theorem WellBound.appendAll {t : Grouping α} (h : t.WellBound) (rest : List (Joint × α)) :
    (t.appendAll rest).WellBound := by
  induction rest generalizing t with
  | nil => exact h
  | cons x rest ih => exact ih (h.append x.1 x.2)

theorem leftSpine_subset_appendAll (t : Grouping α) (rest : List (Joint × α)) :
    t.leftSpine ⊆ (t.appendAll rest).leftSpine := by
  induction rest generalizing t with
  | nil => exact List.Subset.refl _
  | cons x rest ih => exact List.Subset.trans (leftSpine_subset_append t x.1 x.2) (ih _)

theorem map_appendAll {β : Type} (f : α → β) (t : Grouping α) (rest : List (Joint × α)) :
    (t.appendAll rest).map f = (t.map f).appendAll (rest.map fun x => (x.1, f x.2)) := by
  induction rest generalizing t with
  | nil => rfl
  | cons x rest ih => simp [Grouping.appendAll, ih, map_append]

theorem flatten_appendAll (terms : α → List ExprId) (t : Grouping α) (rest : List (Joint × α)) :
    (t.appendAll rest).flatten terms =
      t.flatten terms ++ rest.flatMap fun (o, a) => o.term :: terms a := by
  induction rest generalizing t with
  | nil => simp [Grouping.appendAll]
  | cons x rest ih => simp [Grouping.appendAll, ih, flatten_append]

theorem operands_appendAll (t : Grouping α) (rest : List (Joint × α)) :
    (t.appendAll rest).operands = t.operands ++ rest.map Prod.snd := by
  induction rest generalizing t with
  | nil => simp [Grouping.appendAll]
  | cons x rest ih => simp [Grouping.appendAll, ih, operands_append]

theorem joints_appendAll (t : Grouping α) (rest : List (Joint × α)) :
    (t.appendAll rest).joints = t.joints ++ rest.map Prod.fst := by
  induction rest generalizing t with
  | nil => simp [Grouping.appendAll]
  | cons x rest ih => simp [Grouping.appendAll, ih, joints_append]

/-- **The grouping of a run** is well bound. -/
theorem wellBound_ofRun (first : α) (rest : List (Joint × α)) : (ofRun first rest).WellBound :=
  WellBound.appendAll (t := single first) trivial rest

/-! ## Uniqueness -/

/-- An operator that no part of its right side gives way to stays above that side while the side
is read. -/
theorem appendAll_join {left s : Grouping α} {o : Joint} {rest : List (Joint × α)}
    (h : ∀ p ∈ (s.appendAll rest).leftSpine, ¬ o.Reduces p) :
    (join left o s).appendAll rest = join left o (s.appendAll rest) := by
  induction rest generalizing s with
  | nil => rfl
  | cons x rest ih =>
    obtain ⟨p, a⟩ := x
    have hp : ¬ ∀ q ∈ o :: s.rightSpine, q.Reduces p := by
      intro hall
      rw [List.forall_mem_cons] at hall
      have hmem : p ∈ (s.append p a).leftSpine := by simp [append_of_reduces hall.2, leftSpine]
      exact h p (leftSpine_subset_appendAll _ rest hmem) hall.1
    simp only [Grouping.appendAll, append, if_neg hp]
    exact ih h

/-- **A well bound grouping is the one that its run is read as.** -/
theorem ofRun_eq_of_wellBound {t : Grouping α} (h : t.WellBound) : ofRun t.first t.rest = t := by
  induction t with
  | single => rfl
  | join left o right ihl ihr =>
    obtain ⟨hleft, hright, hl, hr⟩ := h
    have heq := ihr hright
    unfold ofRun at heq ihl ⊢
    rw [first, rest, appendAll_append, ihl hleft, appendAll, append_of_reduces hl,
      appendAll_join (by rwa [heq]), heq]

/-- A run has one well bound grouping at most. -/
theorem WellBound.eq_of_run {t u : Grouping α} (ht : t.WellBound) (hu : u.WellBound)
    (hfirst : t.first = u.first) (hrest : t.rest = u.rest) : t = u := by
  rw [← ofRun_eq_of_wellBound ht, ← ofRun_eq_of_wellBound hu, hfirst, hrest]

end Grouping

end Termwise
