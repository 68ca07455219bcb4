import Termwise.Proofs.Outcome

/-!
# Copies and their depth

A tree that is deeper than the table is large has no copy: it has a cycle in it. A copy that there
is can be read as a function of the tree, whatever its depth: what lies too deep for it would be
taken as it is, and there is nothing of that kind.

## Main definitions

* `Arena.copyWithin`, `Arena.copy`: a copy, as far as it goes

## Main results

* `Arena.copyWithin_of_eq_some`: a copy that there is goes all the way
* `outcome_putCopy`: a copy is put in the place of an expression
-/

namespace Termwise

namespace Arena

variable {a : Arena} {id : ExprId} {ids : List ExprId} {depth : Nat}

/-- Appends copies of a list of trees; each root is copied by `copy` and then appended. -/
def copyEach (copy : ExprId → StateM Arena Expression) (ids : List ExprId) :
    StateM Arena (List ExprId) :=
  ids.mapM fun id => do
    let e ← copy id
    modifyGet (·.allocExpr e)

/-- A copy of the node with fresh copies of what lies below it, as far as the given depth goes. -/
def copyWithin : (depth : Nat) → ExprId → StateM Arena Expression
  | 0, id => return (← get).expr id
  | depth + 1, id => do
    let e := (← get).expr id
    match e.kind with
    | .call callee args => do
      let args ← copyEach (copyWithin depth) args
      return { e with kind := .call callee args }
    | .negated operand => do
      let copied ← copyWithin depth operand
      let operand ← modifyGet (·.allocExpr copied)
      return { e with kind := .negated operand }
    | .run terms => do
      let terms ← copyEach (copyWithin depth) terms
      return { e with kind := .run terms }
    | _ => return e

/-- A copy of a tree, and the tables with what lies below the copy. -/
def copy (a : Arena) (id : ExprId) : Expression × Arena := copyWithin a.exprs.size id a

theorem copyEach_cons (copy : ExprId → StateM Arena Expression) (id : ExprId) (ids : List ExprId)
    (a : Arena) :
    copyEach copy (id :: ids) a =
      let copied := copy id a
      let allocated := copied.2.allocExpr copied.1
      let rest := copyEach copy ids allocated.2
      (allocated.1 :: rest.1, rest.2) := by
  rw [copyEach, List.mapM_cons]
  rfl

theorem copyWithin_succ (depth : Nat) (id : ExprId) (a : Arena) :
    copyWithin (depth + 1) id a =
      match (a.expr id).kind with
      | .call callee args =>
        let copies := copyEach (copyWithin depth) args a
        ({ a.expr id with kind := .call callee copies.1 }, copies.2)
      | .negated operand =>
        let copied := copyWithin depth operand a
        let allocated := copied.2.allocExpr copied.1
        ({ a.expr id with kind := .negated allocated.1 }, allocated.2)
      | .run terms =>
        let copies := copyEach (copyWithin depth) terms a
        ({ a.expr id with kind := .run copies.1 }, copies.2)
      | _ => (a.expr id, a) := by
  simp only [copyWithin, bind, StateT.bind, get, getThe, MonadStateOf.get, StateT.get, pure]
  cases (a.expr id).kind <;> rfl

/-! ## Copies that there are -/

theorem copyEach?_cons (copy : ExprId → StateT Arena Option Expression) (id : ExprId)
    (ids : List ExprId) (a : Arena) :
    copyEach? copy (id :: ids) a =
      (copy id a).bind fun copied =>
        let allocated := copied.2.allocExpr copied.1
        (copyEach? copy ids allocated.2).map fun rest => (allocated.1 :: rest.1, rest.2) := by
  have hcons : copyEach? copy (id :: ids) = (do
      let copied ← copy id
      let id ← modifyGet (·.allocExpr copied)
      let rest ← copyEach? copy ids
      return id :: rest) := by
    simp only [copyEach?, List.mapM_cons, bind_assoc]
  simp only [hcons, bind, StateT.bind, Option.bind]
  cases copy id a with
  | none => rfl
  | some copied =>
    simp only [modifyGet, MonadStateOf.modifyGet, StateT.modifyGet, pure]
    cases copyEach? copy ids (copied.2.allocExpr copied.1).2 <;> rfl

theorem copyWithin?_succ (depth : Nat) (id : ExprId) (a : Arena) :
    copyWithin? (depth + 1) id a =
      match (a.expr id).kind with
      | .call callee args =>
        (copyEach? (copyWithin? depth) args a).map fun copies =>
          ({ a.expr id with kind := .call callee copies.1 }, copies.2)
      | .negated operand =>
        (copyWithin? depth operand a).map fun copied =>
          let allocated := copied.2.allocExpr copied.1
          ({ a.expr id with kind := .negated allocated.1 }, allocated.2)
      | .run terms =>
        (copyEach? (copyWithin? depth) terms a).map fun copies =>
          ({ a.expr id with kind := .run copies.1 }, copies.2)
      | _ => some (a.expr id, a) := by
  simp only [copyWithin?, bind, StateT.bind, get, getThe, MonadStateOf.get, StateT.get, pure,
    Option.bind]
  cases (a.expr id).kind with
  | call callee args =>
    simp only [StateT.bind, bind, Option.bind]
    cases copyEach? (copyWithin? depth) args a <;> rfl
  | negated operand =>
    simp only [StateT.bind, bind, Option.bind]
    cases copyWithin? depth operand a <;> rfl
  | run terms =>
    simp only [StateT.bind, bind, Option.bind]
    cases copyEach? (copyWithin? depth) terms a <;> rfl
  | _ => rfl

/-- **A copy that there is** goes all the way: nothing lies too deep for it. -/
theorem copyWithin_of_eq_some {r : Expression × Arena} (h : copyWithin? depth id a = some r) :
    copyWithin depth id a = r := by
  induction depth generalizing id a r with
  | zero => cases h
  | succ depth ih =>
    have heach {ids : List ExprId} {a : Arena} {copies : List ExprId × Arena}
        (h : copyEach? (copyWithin? depth) ids a = some copies) :
        copyEach (copyWithin depth) ids a = copies := by
      induction ids generalizing a copies with
      | nil => exact Option.some.inj h
      | cons id ids ihs =>
        rw [copyEach?_cons] at h
        obtain ⟨copied, hcopied, h⟩ := Option.bind_eq_some_iff.1 h
        obtain ⟨rest, hrest, rfl⟩ := Option.map_eq_some_iff.1 h
        simp only [copyEach_cons, ih hcopied, ihs hrest]
    rw [copyWithin?_succ] at h
    rw [copyWithin_succ]
    split at h <;> rename_i hk
    · obtain ⟨copies, hcopies, rfl⟩ := Option.map_eq_some_iff.1 h
      simp only [heach hcopies]
    · obtain ⟨copied, hcopied, rfl⟩ := Option.map_eq_some_iff.1 h
      simp only [ih hcopied]
    · obtain ⟨copies, hcopies, rfl⟩ := Option.map_eq_some_iff.1 h
      simp only [heach hcopies]
    · exact Option.some.inj h

theorem copy_of_eq_some {r : Expression × Arena} (h : a.copy? id = some r) : a.copy id = r :=
  copyWithin_of_eq_some h

end Arena

variable {c : Compilation} {id body : ExprId}

theorem putCopy_apply (id body : ExprId) (c : Compilation) :
    putCopy id body c =
      match c.arena.copy? body with
      | none => .error .cyclic c
      | some r => .ok () { c with arena := r.2.replaceExpr id r.1 } := by
  have hread {rest : Arena → CheckM Unit} : (CheckM.arena >>= rest) c = rest c.arena c := rfl
  rw [putCopy, hread]
  cases c.arena.copy? body <;> rfl

theorem putCopy_of_eq_none (h : c.arena.copy? body = none) :
    putCopy id body c = .error .cyclic c := by
  rw [putCopy_apply, h]

theorem putCopy_of_ne_none (h : c.arena.copy? body ≠ none) :
    putCopy id body c =
      .ok () (c.modifyArena fun a => (a.copy body).2.replaceExpr id (a.copy body).1) := by
  obtain ⟨r, hr⟩ := Option.ne_none_iff_exists'.1 h
  rw [putCopy_apply, hr, Compilation.modifyArena, Arena.copy_of_eq_some hr]

/-- **A copy that is put somewhere** goes all the way, or there is none. -/
@[simp] theorem outcome_putCopy {ended : Unit → Compilation → Prop}
    {stopped : Stop → Compilation → Prop} :
    Outcome (putCopy id body) c ended stopped ↔
      (c.arena.copy? body = none → stopped .cyclic c) ∧
      (c.arena.copy? body ≠ none →
        ended () (c.modifyArena fun a => (a.copy body).2.replaceExpr id (a.copy body).1)) := by
  by_cases h : c.arena.copy? body = none
  · simp only [Outcome, putCopy_of_eq_none h]
    exact ⟨fun hstopped => ⟨fun _ => hstopped, fun hne => (hne h).elim⟩, fun hboth => hboth.1 h⟩
  · simp only [Outcome, putCopy_of_ne_none h]
    exact ⟨fun hended => ⟨fun hnone => (h hnone).elim, fun _ => hended⟩, fun hboth => hboth.2 h⟩

end Termwise
