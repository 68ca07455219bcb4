import Termwise.Proofs.Run.Sketch
import Termwise.Proofs.Run.Steady

/-!
# The roles of classified terms

What a term does in a run can be read off the tables once the term is no run itself: off what it
is and, for an operator, off its definition. Classifying a term says the same, and resolution
never changes it again.

## Main definitions

* `Compilation.Settled`: a term that can be classified as it is
* `Compilation.role`: what a term does in a run
* `Term.Plays`: the classification of a term fits the tables
* `Compilation.ofRun`: a program of one run

## Main results

* `classifyResolved_outcome`: a term is classified if and only if it is settled
* `Compilation.Extends.role`: the role of a settled term stays
-/

namespace Termwise

/-- The kinds of terms that can be classified as they are. -/
def ExprKind.isSettled : ExprKind → Bool
  | .run _ | .syntaxError | .notImplemented | .deleted => false
  | _ => true

/-- How an operator between two operands binds. -/
def Definition.binding? (d : Definition) : Option Binding :=
  match d.operator with
  | some (.binary precedence associativity) => some ⟨precedence, associativity⟩
  | _ => none

theorem Definition.pending?_eq (d : Definition) (id : DefId) (span : Span) :
    d.pending? id span = d.binding?.map fun binding => ⟨id, binding.power, span⟩ := by
  unfold pending? binding?
  rcases d.operator with _ | ⟨_ | _ | _⟩ <;> rfl

namespace Compilation

/-- A term that can be classified as it is. -/
def Settled (c : Compilation) (t : ExprId) : Prop := (c.arena.expr t).kind.isSettled = true

/-- A term refers to an operator that stands at a place. -/
def RefersTo (c : Compilation) (t : ExprId) (d : DefId) (f : Fixity) : Prop :=
  (c.arena.expr t).kind = .operator d ∧ (c.arena.definition d).operator = some f

/-- What a term does in a run. -/
def role (c : Compilation) (t : ExprId) : Role :=
  match (c.arena.expr t).kind with
  | .minusSign =>
    .minusSign ((c.arena.definition c.builtins.minus).binding?.map (c.builtins.minus, ·))
  | .operator d =>
    match (c.arena.definition d).operator with
    | some .leading => .leading
    | some .trailing => .trailing
    | some (.binary precedence associativity) => .binary d ⟨precedence, associativity⟩
    | none => .operand
  | _ => .operand

/-- The compilation in which a reference has the type of its definition. -/
def refreshed (c : Compilation) (id : ExprId) : Compilation :=
  match (c.arena.expr id).kind with
  | .reference d | .operator d =>
    c.modifyArena (·.modifyExpr id fun e => { e with ty := c.arena.definitionType d })
  | _ => c

/-- A program of one run over the builtin definitions and some more: the terms come first in the
table, and the run behind them. -/
def ofRun (defs : List Definition) (terms : List Expression) : Compilation :=
  let ids := (List.range terms.length).map ExprId.mk
  { new with
    arena :=
      { Arena.empty with
        exprs := (terms ++ [Expression.new (.run ids) .hole .origin]).toArray
        defs := (Builtins.definitions ++ defs).toArray } }

variable {c c' : Compilation} {t : ExprId} {d : DefId} {f : Fixity}

theorem role_of_refersTo (h : c.RefersTo t d f) :
    c.role t =
      match f with
      | .leading => .leading
      | .trailing => .trailing
      | .binary precedence associativity => .binary d ⟨precedence, associativity⟩ := by
  obtain ⟨hkind, hop⟩ := h
  simp only [role, hkind, hop]
  cases f <;> rfl

theorem Settled.isFixed_or_isValue (h : c.Settled t) :
    (c.arena.expr t).kind.isFixed = true ∨ (c.arena.expr t).kind.isValue = true := by
  unfold Settled at h
  revert h
  cases (c.arena.expr t).kind <;> simp [ExprKind.isSettled, ExprKind.isFixed, ExprKind.isValue]

theorem settled_of_isValue (h : (c.arena.expr t).kind.isValue = true) : c.Settled t := by
  unfold Settled
  revert h
  cases (c.arena.expr t).kind <;> simp [ExprKind.isSettled, ExprKind.isValue]

theorem role_of_isValue (h : (c.arena.expr t).kind.isValue = true) : c.role t = .operand := by
  unfold role
  revert h
  cases (c.arena.expr t).kind <;> simp [ExprKind.isValue]

theorem Extends.refersTo (h : c.Extends c') (ht : c.RefersTo t d f) : c'.RefersTo t d f :=
  ⟨(h.kind t (by rw [ht.1]; rfl)).trans ht.1, (h.definition d ▸ ht.2 :)⟩

theorem Extends.settled (h : c.Extends c') (ht : c.Settled t) : c'.Settled t := by
  rcases ht.isFixed_or_isValue with hk | hk
  · unfold Settled at ht ⊢
    rwa [h.kind t hk]
  · exact settled_of_isValue (h.value t hk)

/-- **The role of a settled term** stays. -/
theorem Extends.role (h : c.Extends c') (ht : c.Settled t) : c'.role t = c.role t := by
  rcases ht.isFixed_or_isValue with hk | hk
  · simp only [Compilation.role, h.kind t hk, h.definition, h.builtins]
  · rw [role_of_isValue hk, role_of_isValue (h.value t hk)]

theorem steady_refreshed (c : Compilation) (id : ExprId) : c.Steady (c.refreshed id) := by
  unfold refreshed
  split
  · exact steady_modifyExpr (.inl rfl)
  · exact steady_modifyExpr (.inl rfl)
  · exact Steady.refl c

theorem refreshed_eq_self {id : ExprId} (h : ∀ d, (c.arena.expr id).kind ≠ .reference d)
    (h' : ∀ d, (c.arena.expr id).kind ≠ .operator d) : c.refreshed id = c := by
  unfold refreshed
  split
  · exact (h _ ‹_›).elim
  · exact (h' _ ‹_›).elim
  · rfl

theorem kind_refreshed (c : Compilation) (id n : ExprId) :
    ((c.refreshed id).arena.expr n).kind = (c.arena.expr n).kind := by
  unfold refreshed
  split
  · simp only [modifyArena, Arena.expr_modifyExpr]
    split <;> rfl
  · simp only [modifyArena, Arena.expr_modifyExpr]
    split <;> rfl
  · rfl

end Compilation

/-- The classification of a term fits the tables. -/
def Term.Plays (c : Compilation) (t : ExprId) : Term → Prop
  | .operand id => id = t ∧ c.role t = .operand
  | .leading d _ => c.RefersTo t d .leading
  | .trailing d _ => c.RefersTo t d .trailing
  | .binary op => ∃ binding : Binding, op.power = binding.power ∧
    c.RefersTo t op.definition (.binary binding.precedence binding.associativity)
  | .minusSign _ => (c.arena.expr t).kind = .minusSign

open Compilation

/-- What is not classified as a minus sign is none. -/
theorem Term.Plays.ne_minusSign {c : Compilation} {t : ExprId} {term : Term} (h : term.Plays c t)
    (hterm : ∀ place, term ≠ .minusSign place) : (c.arena.expr t).kind ≠ .minusSign := by
  intro hk
  cases term with
  | minusSign place => exact hterm place rfl
  | operand id =>
    have hrole := h.2
    simp [role, hk] at hrole
  | binary =>
    obtain ⟨_, -, h⟩ := h
    cases hk.symm.trans h.1
  | leading | trailing => cases hk.symm.trans h.1

theorem outcome_refreshReference {c : Compilation} {id : ExprId}
    {ended : Unit → Compilation → Prop} {stopped : Stop → Compilation → Prop} :
    Outcome (refreshReference id) c ended stopped ↔ ended () (c.refreshed id) := by
  simp only [refreshReference, outcome_bind, outcome_expr, refreshed]
  split <;> simp_all

/-- **A term that is no run** is classified if and only if it is settled. -/
theorem classifyResolved_outcome {c : Compilation} {id : ExprId} (span : Span)
    (h : ∀ terms, (c.arena.expr id).kind ≠ .run terms) :
    Outcome (classifyResolved id span) c
      (fun term c' => c' = c.refreshed id ∧ c.Settled id ∧ term.Plays c' id)
      fun stop _ => stop ≠ .cyclic ∧ ¬ c.Settled id := by
  simp only [classifyResolved, outcome_bind, outcome_refreshReference, outcome_expr, kind_refreshed]
  have hrole : (c.refreshed id).role id = c.role id := by
    simp only [role, kind_refreshed, (steady_refreshed c id).extends.definition,
      (steady_refreshed c id).builtins]
  cases hk : (c.arena.expr id).kind with
  | operator d =>
    simp only [operatorTerm, outcome_bind, outcome_definition]
    have hset : c.Settled id := by simp [Settled, hk, ExprKind.isSettled]
    have hrefers : ∀ {f}, ((c.refreshed id).arena.definition d).operator = some f →
        (c.refreshed id).RefersTo id d f := fun hf => ⟨(kind_refreshed c id id).trans hk, hf⟩
    split <;> rename_i hop
    · exact ⟨rfl, hset, hrefers hop⟩
    · exact ⟨rfl, hset, hrefers hop⟩
    · exact ⟨rfl, hset, _, rfl, hrefers hop⟩
    · refine ⟨rfl, hset, rfl, ?_⟩
      simp only [role, kind_refreshed, hk, hop]
  | run terms => exact (h terms hk).elim
  | minusSign =>
    exact ⟨rfl, by simp [Settled, hk, ExprKind.isSettled], (kind_refreshed c id id).trans hk⟩
  | syntaxError | notImplemented | deleted =>
    exact ⟨by simp, by simp [Settled, hk, ExprKind.isSettled]⟩
  | _ =>
    refine ⟨rfl, by simp [Settled, hk, ExprKind.isSettled], rfl, hrole.trans ?_⟩
    simp only [role, hk]

end Termwise
