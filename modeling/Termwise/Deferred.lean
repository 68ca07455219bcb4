/-!
# Answers that may have to wait

Some questions about a type have no answer yet: a value of unknown type may turn out native
or not. "Not decided" is kept apart from "decided no".

## Main definitions

* `Deferred`: yes, no or maybe
* `Deferred.all`: the conjunction of a list of answers
-/

namespace Termwise

/-- An answer that may not be known yet. -/
inductive Deferred where
  | yes
  | no
  | maybe
deriving DecidableEq, Inhabited

namespace Deferred

/-- A known answer. -/
def ofBool : Bool → Deferred
  | true => yes
  | false => no

/-- Both answers together: no wins over maybe, and maybe over yes. -/
def and : Deferred → Deferred → Deferred
  | no, _ => no
  | _, no => no
  | yes, b => b
  | maybe, _ => maybe

/-- Yes if every answer is yes, no if some answer is no, and maybe otherwise. -/
def all (answers : List Deferred) : Deferred := answers.foldr and yes

@[simp] theorem and_eq_yes {a b : Deferred} : a.and b = yes ↔ a = yes ∧ b = yes := by
  cases a <;> cases b <;> decide

@[simp] theorem and_eq_no {a b : Deferred} : a.and b = no ↔ a = no ∨ b = no := by
  cases a <;> cases b <;> decide

@[simp] theorem all_nil : all [] = yes := rfl

@[simp] theorem all_cons (a : Deferred) (as : List Deferred) : all (a :: as) = a.and (all as) := rfl

theorem all_eq_yes {answers : List Deferred} : all answers = yes ↔ ∀ a ∈ answers, a = yes := by
  induction answers with
  | nil => simp
  | cons a as ih => simp [ih]

theorem all_eq_no {answers : List Deferred} : all answers = no ↔ no ∈ answers := by
  induction answers with
  | nil => simp
  | cons a as ih => simp [ih, @eq_comm _ no a]

/-- The word for an answer. -/
def text : Deferred → String
  | yes => "true"
  | no => "false"
  | maybe => "maybe"

end Deferred

end Termwise
