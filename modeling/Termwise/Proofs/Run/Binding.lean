import Termwise.Proofs.Concretization.Steps
import Termwise.Proofs.Run.Apart
import Termwise.Proofs.Run.OpenSlots

/-!
# Arguments that are bound

When a call is built, its arguments are brought into the types of their parameters. Those of a
partial call are brought there again once it is filled up. What an argument is taken for on its own
decides what becomes of it, whether it was bound before or not, and in whichever state the call is
built: so a call binds all its arguments, or one of them is not accepted by its parameter.

## Main definitions

* `Compilation.Accepts`: what an argument becomes as that of a parameter
* `Compilation.Bound`, `Compilation.Ready`: an argument that was bound, and one that can be

## Main results

* `Expression.coerce_idem`: an argument stays as its parameter has it
* `allocCall_ready`: a call binds the arguments that are ready, or one of them is not accepted
-/

namespace Termwise

open Compilation

variable {c s s' : Compilation} {x : ExprId} {d : DefId} {e e' : Expression} {params : List Ty}
  {args xs : List ExprId} {param result : Ty} {isPure : Bool}

/-! ## Arguments and parameters -/

/-- **An argument stays as its parameter has it.** -/
theorem Expression.coerce_idem (h : e.coerce param = .ok e') : e'.coerce param = .ok e' := by
  -- Once it has the type of the parameter, there is nothing left to do.
  have hdone (hty : e'.ty = param) : e'.coerce param = .ok e' := by
    rw [coerce_eq]
    split
    · split
      · rw [← hty]
      · rfl
    · rw [if_pos (.inl hty)]
  obtain ⟨rfl, -⟩ | ⟨rfl, -⟩ | ⟨-, -, hne, hcast⟩ := coerce_cases h
  · exact h
  · exact hdone rfl
  · exact hdone (ty_of_cast? hcast hne)

namespace Compilation

/-- What an argument becomes as that of a parameter. -/
def Accepts (c : Compilation) (x : ExprId) (param : Ty) (e : Expression) : Prop :=
  ∃ taken, c.TakenAs x taken ∧ taken.coerce param = .ok e

/-- Every argument is accepted by its parameter. -/
def AcceptsAll (c : Compilation) (args : List ExprId) (params : List Ty) : Prop :=
  ∀ pair ∈ args.zip params, ∃ e, c.Accepts pair.1 pair.2 e

/-- An argument was brought into the type of its parameter. -/
def Bound (c s : Compilation) (x : ExprId) (param : Ty) : Prop :=
  ∃ e, c.Accepts x param e ∧ e.Akin (s.arena.expr x)

/-- An argument is ready to be bound: it was classified, and perhaps bound before. -/
def Ready (c s : Compilation) (x : ExprId) (param : Ty) : Prop :=
  (∃ e, c.TakenAs x e ∧ e.Akin (s.arena.expr x)) ∨ c.Bound s x param

/-- The arguments in front keep their parameters. -/
theorem mem_zip_append {pair : ExprId × Ty} :
    pair ∈ (args ++ xs).zip params → pair ∈ args.zip params ∨ pair.1 ∈ xs := by
  induction args generalizing params with
  | nil => exact fun hpair => .inr (List.of_mem_zip hpair).1
  | cons x args ih =>
    cases params with
    | nil => exact nofun
    | cons param params =>
      rintro (_ | ⟨_, hpair⟩)
      · exact .inl List.mem_cons_self
      · exact (ih hpair).imp_left (List.mem_cons_of_mem _)

theorem mem_zip_mono {pair : ExprId × Ty} (hfront : args <+: xs)
    (hpair : pair ∈ args.zip params) : pair ∈ xs.zip params := by
  obtain ⟨rest, rfl⟩ := hfront
  induction args generalizing params with
  | nil => cases hpair
  | cons x args ih =>
    cases params with
    | nil => cases hpair
    | cons param params =>
      rcases List.mem_cons.1 hpair with rfl | hpair
      · exact List.mem_cons_self
      · exact List.mem_cons_of_mem _ (ih hpair)

/-- An argument of a list stands for some parameter. -/
theorem exists_mem_zip (hle : args.length ≤ params.length) (hx : x ∈ args) :
    ∃ param, (x, param) ∈ args.zip params := by
  obtain ⟨i, hi, rfl⟩ := List.getElem_of_mem hx
  refine ⟨params[i], List.mem_iff_getElem.2 ⟨i, ?_, List.getElem_zip⟩⟩
  rw [List.length_zip]
  omega

theorem AcceptsAll.takenAs (h : c.AcceptsAll args params) (hlength : args.length = params.length)
    (hx : x ∈ args) : ∃ e, c.TakenAs x e := by
  obtain ⟨param, hpair⟩ := exists_mem_zip hlength.le hx
  obtain ⟨-, e, htaken, -⟩ := h _ hpair
  exact ⟨e, htaken⟩

theorem Accepts.unique (h : c.Accepts x param e) (h' : c.Accepts x param e') : e' = e := by
  obtain ⟨taken, htaken, hcoerce⟩ := h
  obtain ⟨taken', htaken', hcoerce'⟩ := h'
  cases htaken.unique htaken'
  cases hcoerce.symm.trans hcoerce'
  rfl

theorem Accepts.isMissingArg (h : c.Accepts x param e) : e.kind.isMissingArg = false := by
  obtain ⟨taken, ⟨_, _, _, hgiven, -⟩, hcoerce⟩ := h
  rw [ExprKind.isMissingArg_eq (Expression.coerce_kind hcoerce), hgiven]

theorem Bound.isMissing (h : c.Bound s x param) : s.arena.isMissing x = false := by
  obtain ⟨e, haccepts, hakin⟩ := h
  exact hakin.kind.isMissingArg.trans haccepts.isMissingArg

theorem Bound.congr (h : c.Bound s x param) (hx : s'.arena.expr x = s.arena.expr x) :
    c.Bound s' x param := by
  obtain ⟨e, haccepts, hakin⟩ := h
  exact ⟨e, haccepts, hx ▸ hakin⟩

theorem Ready.congr (h : c.Ready s x param) (hx : s'.arena.expr x = s.arena.expr x) :
    c.Ready s' x param := by
  rcases h with ⟨e, htaken, hakin⟩ | hbound
  · exact .inl ⟨e, htaken, hx ▸ hakin⟩
  · exact .inr (hbound.congr hx)

/-- What is ready is bound, or it is not accepted. -/
theorem Ready.coerce (h : c.Ready s x param) :
    match (s.arena.expr x).coerce param with
    | .ok y => ∃ e, c.Accepts x param e ∧ e.Akin y
    | .error _ => ¬ ∃ e, c.Accepts x param e := by
  rcases h with ⟨e, htaken, hakin⟩ | ⟨e, haccepts, hakin⟩
  -- What was classified only is coerced as it would be on its own.
  · rcases hakin.coerce param with ⟨cause, hc, hc'⟩ | ⟨y, y', hy, hy', hmirrors⟩
    · rw [hc']
      rintro ⟨e', taken, htaken', hcoerce⟩
      cases htaken.unique htaken'
      rw [hc] at hcoerce
      cases hcoerce
    · rw [hy']
      exact ⟨y, ⟨e, htaken, hy⟩, hmirrors⟩
  -- What was bound before stays as it is.
  · have hidem : e.coerce param = .ok e := by
      obtain ⟨taken, -, hcoerce⟩ := haccepts
      exact Expression.coerce_idem hcoerce
    rcases hakin.coerce param with ⟨cause, hc, -⟩ | ⟨y, y', hy, hy', hmirrors⟩
    · rw [hidem] at hc
      cases hc
    · rw [hidem] at hy
      cases hy
      rw [hy']
      exact ⟨e, haccepts, hmirrors⟩

end Compilation

/-- **Arguments that are ready are bound**, from left to right, or one of them is not accepted. -/
theorem coerceArgs_ready (hnodup : args.Nodup)
    (hinside : ∀ x ∈ args, x.index < s.arena.exprs.size)
    (hready : ∀ pair ∈ args.zip params, c.Ready s pair.1 pair.2) :
    Outcome (coerceArgs args params) s
      (fun _ s' => s.KeepsTo {n | n ∈ args} s' ∧
        ∀ pair ∈ args.zip params, c.Bound s' pair.1 pair.2)
      fun _ _ => ¬ c.AcceptsAll args params := by
  -- On the arguments: those behind the first one do not change when that is overwritten.
  induction args generalizing params s with
  | nil => exact ⟨.refl _ s, nofun⟩
  | cons x args ih =>
    cases params with
    | nil => exact ⟨.refl _ s, nofun⟩
    | cons param params =>
      obtain ⟨hx, hnodup⟩ := List.nodup_cons.1 hnodup
      obtain ⟨hlt, hinside⟩ := List.forall_mem_cons.1 hinside
      obtain ⟨hready_x, hready⟩ := List.forall_mem_cons.1 hready
      have hcoerce := hready_x.coerce
      simp only [coerceArgs, coerceArg_eq, outcome_bind, outcome_expr]
      split <;> rename_i y hc <;> rw [hc] at hcoerce
      · have hother (n : ExprId) (hn : n ≠ x) :
            (s.modifyArena (·.modifyExpr x fun _ => y)).arena.expr n = s.arena.expr n :=
          Arena.expr_modifyExpr_of_ne hn _
        have hkeeps : s.KeepsTo {n | n ∈ x :: args} (s.modifyArena (·.modifyExpr x fun _ => y)) :=
          keepsTo_modifyExpr List.mem_cons_self _
        rw [outcome_modifyExpr]
        refine (ih (s := s.modifyArena (·.modifyExpr x fun _ => y)) hnodup ?_ ?_).mono ?_ ?_
        · intro n hn
          exact (hinside n hn).trans_le hkeeps.size
        · intro pair hpair
          refine (hready pair hpair).congr (hother _ ?_)
          rintro rfl
          exact hx (List.of_mem_zip hpair).1
        · rintro _ s' ⟨hrest, hbound⟩
          refine ⟨hkeeps.trans hrest fun n hn _ => List.mem_cons_of_mem x hn,
            List.forall_mem_cons.2 ⟨?_, hbound⟩⟩
          obtain ⟨e, haccepts, hakin⟩ := hcoerce
          refine ⟨e, haccepts, ?_⟩
          rw [hrest.expr x (hlt.trans_le hkeeps.size) hx]
          rwa [modifyArena, Arena.expr_modifyExpr_self hlt]
        · exact fun _ _ hnot hall => hnot fun pair hpair => hall pair (List.mem_cons_of_mem _ hpair)
      · exact fun hall => hcoerce (hall (x, param) List.mem_cons_self)

/-- Arguments none of which is missing leave open the parameters behind them. -/
theorem unboundParams_of_given {isMissing : ExprId → Bool} (h : ∀ x ∈ args, isMissing x = false)
    (params : List Ty) : unboundParams isMissing params args = params.drop args.length := by
  induction args generalizing params with
  | nil => cases params <;> rfl
  | cons x args ih =>
    obtain ⟨hx, hrest⟩ := List.forall_mem_cons.1 h
    cases params with
    | nil => rfl
    | cons param params =>
      simp only [unboundParams, hx, Bool.false_eq_true, if_false, ih hrest, List.length_cons,
        List.drop_succ_cons]

/-- **A call of arguments that are ready** binds them all, or one of them is not accepted. -/
theorem createCall_ready (hty : s.arena.definitionType d = .function params result isPure)
    (hlength : args.length ≤ params.length) (hnodup : args.Nodup)
    (hinside : ∀ x ∈ args, x.index < s.arena.exprs.size)
    (hready : ∀ pair ∈ args.zip params, c.Ready s pair.1 pair.2) (span : Span) :
    Outcome (createCall d args span) s
      (fun call s' => s.KeepsTo {n | n ∈ args} s' ∧
        (∀ pair ∈ args.zip params, c.Bound s' pair.1 pair.2) ∧ call.kind = .call d args ∧
        (args.length = params.length → call.ty = result))
      fun _ _ => ¬ c.AcceptsAll args params := by
  simp only [createCall, outcome_bind, outcome_definitionType, hty, Nat.not_lt.2 hlength,
    if_false, outcome_arena]
  refine (coerceArgs_ready hnodup hinside hready).imp ?_
  rintro _ s₁ ⟨hkeeps, hbound⟩
  have hgiven : ∀ x ∈ args, s₁.arena.isMissing x = false := by
    intro x hx
    obtain ⟨param, hpair⟩ := exists_mem_zip hlength hx
    exact (hbound _ hpair).isMissing
  rw [unboundParams_of_given hgiven]
  split <;> rename_i hopen
  · exact ⟨hkeeps, hbound, rfl, fun _ => rfl⟩
  · have htypes (types : TypeStore) : s₁.KeepsTo ∅ { s₁ with types } :=
      ⟨⟨rfl, rfl, rfl, rfl⟩, le_rfl, fun _ _ _ => rfl⟩
    simp only [outcome_bind, outcome_functionType, outcome_pure]
    refine ⟨hkeeps.trans (htypes _) fun _ hn => hn.elim, hbound, rfl, fun hlen => (hopen ?_).elim⟩
    rw [hlen, List.drop_length]
    rfl

theorem allocCall_ready (hty : s.arena.definitionType d = .function params result isPure)
    (hlength : args.length ≤ params.length) (hnodup : args.Nodup)
    (hinside : ∀ x ∈ args, x.index < s.arena.exprs.size)
    (hready : ∀ pair ∈ args.zip params, c.Ready s pair.1 pair.2) (span : Span) :
    Outcome (allocCall d args span) s
      (fun r s' => s.KeepsTo {n | n ∈ args} s' ∧
        (∀ pair ∈ args.zip params, c.Bound s' pair.1 pair.2) ∧
        (s'.arena.expr r).kind = .call d args ∧
        (args.length = params.length → (s'.arena.expr r).ty = result))
      fun _ _ => ¬ c.AcceptsAll args params := by
  simp only [allocCall, outcome_bind, outcome_allocExpr]
  refine (createCall_ready hty hlength hnodup hinside hready span).imp ?_
  rintro call s₁ ⟨hkeeps, hbound, hkind, htype⟩
  have hself : (s₁.allocExpr call).2.arena.expr (s₁.allocExpr call).1 = call :=
    Arena.expr_allocExpr_self ..
  have happended := keepsTo_allocExpr ∅ s₁ call
  refine ⟨hkeeps.trans happended fun _ hn => hn.elim, fun pair hpair => ?_, ?_, fun hlen => ?_⟩
  · have hlt : pair.1.index < s.arena.exprs.size := hinside _ (List.of_mem_zip hpair).1
    exact (hbound pair hpair).congr (happended.expr _ (hlt.trans_le hkeeps.size) id)
  · rw [hself, hkind]
  · rw [hself, htype hlen]

end Termwise
