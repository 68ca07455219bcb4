import Mathlib.Data.List.Basic
import Termwise.Proofs.Run.Steady

/-!
# The open parameters of a call

Which parameters a call leaves open is worked out three times: by position when the call is built
and typed, by a length and a scan when it is asked whether it is partial, and by a difference and
a count when a run asks how many arguments it takes. All three go by the same positions, those
behind the last argument and those where an argument is missing.

Between the three the tables change: arguments are brought into the types of their parameters, and
the call is appended. Neither makes an argument missing, or gives a function another type.

## Main definitions

* `opensAt`: whether a list of arguments leaves a position open
* `openParams`: the parameters at the open positions
* `Compilation.Coerced`: what bringing arguments into their parameter types leaves as it was

## Main results

* `unboundParams_eq_openParams`, `length_openParams`: the positions, filtered and counted
* `createCall_openParams`: a call is partial, typed and filled by its open positions
-/

namespace Termwise

/-! ## Positions -/

/-- Whether a list of arguments leaves a position open: it ends before it, or an argument is
missing there. -/
def opensAt (isMissing : ExprId → Bool) (args : List ExprId) (position : Nat) : Bool :=
  args[position]?.all isMissing

/-- The parameters at the positions that a list of arguments leaves open, in order. -/
def openParams (isMissing : ExprId → Bool) (params : List Ty) (args : List ExprId) : List Ty :=
  (params.zipIdx.filter fun entry => opensAt isMissing args entry.2).map Prod.fst

variable {isMissing : ExprId → Bool} {params : List Ty} {args : List ExprId}

theorem openParams_nil_right (isMissing : ExprId → Bool) (params : List Ty) :
    openParams isMissing params [] = params := by
  have hall : ∀ entry ∈ params.zipIdx, opensAt isMissing [] entry.2 = true := fun _ _ => rfl
  rw [openParams, List.filter_eq_self.2 hall, List.zipIdx_map_fst]

/-- The first argument decides on the first parameter, and the others on the others. -/
theorem openParams_cons (isMissing : ExprId → Bool) (param : Ty) (params : List Ty) (arg : ExprId)
    (args : List ExprId) :
    openParams isMissing (param :: params) (arg :: args) =
      (if isMissing arg then [param] else []) ++ openParams isMissing params args := by
  have hrest : ((params.zipIdx 1).filter fun entry => opensAt isMissing (arg :: args) entry.2).map
      Prod.fst = openParams isMissing params args := by
    rw [List.zipIdx_succ, List.filter_map, List.map_map]
    rfl
  have hfirst : opensAt isMissing (arg :: args) 0 = isMissing arg := rfl
  rw [openParams, List.zipIdx_cons, List.filter_cons, hfirst]
  split
  · rw [List.map_cons, hrest, List.singleton_append]
  · rw [hrest, List.nil_append]

/-- **The parameters without an argument** are those at the open positions. -/
theorem unboundParams_eq_openParams (isMissing : ExprId → Bool) (params : List Ty)
    (args : List ExprId) :
    unboundParams isMissing params args = openParams isMissing params args := by
  -- On the parameters, since the filter runs over them; the arguments may end first.
  induction params generalizing args with
  | nil => rfl
  | cons param params ih =>
    cases args with
    | nil => exact (openParams_nil_right isMissing (param :: params)).symm
    | cons arg args =>
      rw [unboundParams, openParams_cons, ih]
      split <;> rfl

/-- **As many parameters are open** as are left over behind the arguments and missing among
them. -/
theorem length_openParams (h : args.length ≤ params.length) :
    (openParams isMissing params args).length =
      (params.length - args.length) + args.countP isMissing := by
  induction args generalizing params with
  | nil => simp [openParams_nil_right]
  | cons arg args ih =>
    cases params with
    | nil => simp at h
    | cons param params =>
      have hle : args.length ≤ params.length := by simpa using h
      have hlength := ih hle
      rw [openParams_cons, List.length_append, hlength, List.countP_cons]
      cases isMissing arg with
      | true =>
        simp only [if_true, List.length_cons, List.length_nil]
        omega
      | false =>
        simp only [Bool.false_eq_true, if_false, List.length_cons, List.length_nil]
        omega

/-- Some parameter is open exactly if some position is. -/
theorem openParams_ne_nil :
    openParams isMissing params args ≠ [] ↔
      ∃ i < params.length, opensAt isMissing args i = true := by
  simp only [openParams, ne_eq, List.map_eq_nil_iff, List.filter_eq_nil_iff, not_forall, not_not]
  constructor
  · rintro ⟨⟨param, i⟩, hmem, hopen⟩
    have hget := List.mk_mem_zipIdx_iff_getElem?.1 hmem
    obtain ⟨hlt, -⟩ := List.getElem?_eq_some_iff.1 hget
    exact ⟨i, hlt, hopen⟩
  · rintro ⟨i, hlt, hopen⟩
    exact ⟨(params[i], i), List.mk_mem_zipIdx_iff_getElem?.2 (List.getElem?_eq_getElem hlt), hopen⟩

/-- Whether arguments are too few or missing, and whether a position is open, is the same. -/
theorem short_or_missing_iff (h : args.length ≤ params.length) :
    (args.length < params.length || args.any isMissing) = true ↔
      openParams isMissing params args ≠ [] := by
  have hcount : args.any isMissing = true ↔ 0 < args.countP isMissing := by
    rw [List.any_eq_true, List.countP_pos_iff]
  rw [Bool.or_eq_true, decide_eq_true_iff, hcount, ← List.length_pos_iff, length_openParams h]
  omega

/-! ## Coercion -/

namespace Compilation

/-- **Arguments are brought into the types of their parameters.** None becomes missing or stops
being so, and a function stays as it is typed. -/
structure Coerced (c c' : Compilation) : Prop where
  types : c'.types = c.types
  defs : c'.arena.defs = c.arena.defs
  size : c'.arena.exprs.size = c.arena.exprs.size
  isMissing : ∀ n, c'.arena.isMissing n = c.arena.isMissing n
  function : ∀ n, (c.arena.expr n).ty.isFunction = true →
    (c'.arena.expr n).ty = (c.arena.expr n).ty

variable {c c' c'' : Compilation}

theorem Coerced.refl (c : Compilation) : c.Coerced c :=
  ⟨rfl, rfl, rfl, fun _ => rfl, fun _ _ => rfl⟩

theorem Coerced.trans (h : c.Coerced c') (h' : c'.Coerced c'') : c.Coerced c'' where
  types := h'.types.trans h.types
  defs := h'.defs.trans h.defs
  size := h'.size.trans h.size
  isMissing n := (h'.isMissing n).trans (h.isMissing n)
  function n hn := by
    have hty := h.function n hn
    rw [h'.function n (by rwa [hty]), hty]

end Compilation

open Compilation

variable {c c' : Compilation}

/-- A function is cast to its own type only. -/
theorem Expression.cast?_function {e e' : Expression} {source target : Ty}
    (hsource : source.isFunction = true) (h : e.cast? source target = some e') : e' = e := by
  obtain ⟨-, heq⟩ | ⟨-, b, b', v, w, rfl, -⟩ := cast?_cases h
  · exact heq
  · cases hsource

/-- A function is accepted as it is, or refused. -/
theorem Expression.coerce_function {e e' : Expression} {param : Ty} (h : e.coerce param = .ok e')
    (hty : e.ty.isFunction = true) : e' = e := by
  obtain ⟨heq, -⟩ | ⟨-, hhole⟩ | ⟨-, -, -, hcast⟩ := coerce_cases h
  · exact heq
  · rw [hhole] at hty
    cases hty
  · exact cast?_function hty hcast

/-- One argument is overwritten by its coerced form. -/
theorem coerced_modifyExpr {arg : ExprId} {e : Expression} {param : Ty}
    (h : (c.arena.expr arg).coerce param = .ok e) :
    c.Coerced (c.modifyArena (·.modifyExpr arg fun _ => e)) where
  types := rfl
  defs := rfl
  size := by simp [modifyArena]
  isMissing n := by
    simp only [modifyArena, Arena.isMissing, Arena.expr_modifyExpr]
    split <;> rename_i hn
    · rw [hn.1]
      exact ExprKind.isMissingArg_eq (Expression.coerce_kind h)
    · rfl
  function n hty := by
    simp only [modifyArena, Arena.expr_modifyExpr]
    split <;> rename_i hn
    · obtain ⟨rfl, -⟩ := hn
      rw [Expression.coerce_function h hty]
    · rfl

theorem coercionLaw_coerced (args : List ExprId) : CoercionLaw args Coerced where
  refl := Coerced.refl
  trans := Coerced.trans
  coerced _ := coerced_modifyExpr

/-- A callee with a function type has it still when arguments were brought into the types of
their parameters, itself perhaps among them, and something was appended. -/
theorem Compilation.Coerced.definitionType {callee : DefId} (h : c.Coerced c')
    (hty : (c.arena.definitionType callee).isFunction = true) (e : Expression) :
    (c'.allocExpr e).2.arena.definitionType callee = c.arena.definitionType callee := by
  have hdefinition : (c'.allocExpr e).2.arena.definition callee = c.arena.definition callee := by
    rw [Arena.definition, Arena.definition, ← h.defs]
    rfl
  cases hdeclared : (c.arena.definition callee).declared with
  | some ty =>
    rw [Arena.definitionType_of_declared (hdefinition ▸ hdeclared),
      Arena.definitionType_of_declared hdeclared]
  | none =>
    cases hbody : (c.arena.definition callee).body with
    | expression body =>
      rw [Arena.definitionType_of_body hdeclared hbody] at hty ⊢
      rw [Arena.definitionType_of_body (hdefinition ▸ hdeclared) (hdefinition ▸ hbody)]
      -- A position outside the table holds a tombstone, which is no function.
      have hlt : body.index < c.arena.exprs.size := Nat.lt_of_not_le fun hle => by
        rw [Arena.expr_of_size_le hle] at hty
        cases hty
      have hold : (c'.allocExpr e).2.arena.expr body = c'.arena.expr body :=
        Arena.expr_allocExpr_of_lt (hlt.trans_eq h.size.symm) e
      rw [hold, h.function body hty]
    | statement | builtin | undefined =>
      rw [Arena.definitionType_of_no_body hdeclared (by simp [hbody])] at hty
      cases hty

/-- An appended call is no open parameter, and nothing else changes. -/
theorem isMissing_allocExpr {e : Expression} (he : e.kind.isMissingArg = false) (n : ExprId) :
    (c.allocExpr e).2.arena.isMissing n = c.arena.isMissing n := by
  simp only [allocExpr, Arena.isMissing, Arena.expr_allocExpr]
  split
  · rename_i hn
    rw [he, Arena.expr_of_size_le hn.ge]
    rfl
  · rfl

/-! ## Calls -/

/-- **What a call of a function is typed by**: the parameters that were open before it was built,
in a function type from the store while there are any. -/
theorem createCall_typed {callee : DefId} {args : List ExprId} {params : List Ty} {result : Ty}
    {isPure : Bool} (hty : c.arena.definitionType callee = .function params result isPure)
    (span : Span) :
    Outcome (createCall callee args span) c
      (fun e c' => e.kind = .call callee args ∧ args.length ≤ params.length ∧
        c.Coerced { c' with types := c.types } ∧
        let unbound := openParams c.arena.isMissing params args
        (unbound = [] → e.ty = result) ∧
        (unbound ≠ [] → e.ty = (c.types.functionType unbound result isPure).1.ty ∧
          c'.types = (c.types.functionType unbound result isPure).2))
      fun _ _ => True := by
  simp only [createCall, outcome_bind, outcome_definitionType, hty]
  split <;> rename_i hlength
  · simp only [outcome_bind, outcome_definition, outcome_fail]
  · simp only [outcome_bind]
    refine ((coercionLaw_coerced args).outcome_coerceArgs params c).mono (fun _ c₁ hcoerced => ?_)
      fun _ _ _ => trivial
    -- The type is worked out after the coercion, from the parameters that were open before it.
    have hmissing : c₁.arena.isMissing = c.arena.isMissing := funext hcoerced.isMissing
    have hle : args.length ≤ params.length := Nat.le_of_not_lt hlength
    simp only [outcome_arena, unboundParams_eq_openParams, hmissing, List.isEmpty_iff]
    split <;> rename_i hunbound
    · exact ⟨rfl, hle, { hcoerced with types := rfl }, fun _ => rfl, fun hne => (hne hunbound).elim⟩
    · refine ⟨rfl, hle, { hcoerced with types := rfl }, fun hnil => (hunbound hnil).elim, ?_⟩
      intro _
      rw [← hcoerced.types]
      exact ⟨rfl, rfl⟩

/-- **The three counts of the open parameters of a call agree.** A call of a function that was
built and appended is partial exactly if some parameter is open: the arguments end before it, or
one is missing there. While it is partial, its type is the function type that the store has for
the open parameters, in their order, with the result and the purity of the callee, and it takes as
many further arguments as that type has parameters. Once it is complete it has the result type of
the callee and takes no argument, even if that is a function type again. -/
theorem createCall_openParams {callee : DefId} {args : List ExprId} {span : Span}
    {params : List Ty} {result : Ty} {isPure : Bool} {e : Expression}
    (hty : c.arena.definitionType callee = .function params result isPure)
    (hcall : createCall callee args span c = .ok e c') :
    let unbound := openParams c.arena.isMissing params args
    let issued := c.types.functionType unbound result isPure
    let node := (c'.allocExpr e).1
    let arena := (c'.allocExpr e).2.arena
    (arena.isPartialCall node = true ↔
        ∃ i < params.length, opensAt c.arena.isMissing args i = true) ∧
      (arena.isPartialCall node = true →
        (arena.expr node).ty = issued.1.ty ∧ issued.1.ty = .function unbound result isPure ∧
          c'.types = issued.2 ∧ arena.openSlots node = (arena.expr node).ty.arity) ∧
      (arena.isPartialCall node = false →
        (arena.expr node).ty = result ∧ arena.openSlots node = 0) := by
  intro unbound issued node arena
  obtain ⟨hkind, hle, hcoerced, hfull, hopened⟩ := (createCall_typed hty span).of_ok hcall
  have hself : arena.expr node = e := Arena.expr_allocExpr_self ..
  have hparams : arena.definitionType callee = .function params result isPure :=
    (hcoerced.definitionType (by rw [hty]; rfl) e).trans hty
  have hmissing : arena.isMissing = c.arena.isMissing := by
    funext n
    have hnew : arena.isMissing n = c'.arena.isMissing n :=
      isMissing_allocExpr (by rw [hkind]; rfl) n
    exact hnew.trans (hcoerced.isMissing n)
  -- What is asked of the appended call is traced back to the state in which it was built.
  have hpartial : arena.isPartialCall node =
      (args.length < params.length || args.any c.arena.isMissing) := by
    simp only [Arena.isPartialCall, hself, hkind, hparams, hmissing, Ty.arity, Ty.params]
  have hslots : arena.openSlots node = if arena.isPartialCall node then unbound.length else 0 := by
    simp only [Arena.openSlots, hself, hkind, hparams, hmissing, Ty.arity, Ty.params, unbound,
      length_openParams hle]
  have hopen : arena.isPartialCall node = true ↔ unbound ≠ [] := by
    rw [hpartial]
    exact short_or_missing_iff hle
  refine ⟨hopen.trans openParams_ne_nil, fun hp => ?_, fun hp => ?_⟩
  · obtain ⟨htype, hstore⟩ := hopened (hopen.1 hp)
    have hissued : issued.1.ty = .function unbound result isPure :=
      c.types.functionType_ty unbound result isPure
    refine ⟨by rw [hself, htype], hissued, hstore, ?_⟩
    rw [hslots, if_pos hp, hself, htype, hissued]
    rfl
  · have hnil : unbound = [] := by
      by_contra hne
      rw [hopen.2 hne] at hp
      cases hp
    refine ⟨by rw [hself, hfull hnil], ?_⟩
    rw [hslots, hp]
    rfl

/-- A function of three parameters, an open parameter and a number. -/
def threeParams : Compilation :=
  { Compilation.new with
    arena :=
      { Builtins.arena with
        defs := Builtins.arena.defs.push ⟨"f", .undefined,
          some (.function [.int, .float, .string] (.function [.int] .int true) true), none, .origin⟩
        exprs := #[.new .missingArg .hole .origin, .new (.value (.float 2)) .float .origin] } }

/-- Called with its first parameter open and its last one left out, it is a function of both. -/
theorem createCall_threeParams :
    ∃ e c', createCall ⟨9⟩ [⟨0⟩, ⟨1⟩] .origin threeParams = .ok e c' ∧
      (c'.allocExpr e).2.arena.isPartialCall ⟨2⟩ = true ∧
      ((c'.allocExpr e).2.arena.expr ⟨2⟩).ty =
        .function [.int, .string] (.function [.int] .int true) true ∧
      (c'.allocExpr e).2.arena.openSlots ⟨2⟩ = 2 := by
  obtain ⟨e, c', hcall, hnode⟩ := exists_ok_of_check (createCall ⟨9⟩ [⟨0⟩, ⟨1⟩] .origin)
    threeParams (fun _ c' => c'.arena.exprs.size == 2) (by decide)
  have hid : (c'.allocExpr e).1 = ⟨2⟩ := ExprId.ext (beq_iff_eq.1 hnode)
  have hcounts := createCall_openParams (c := threeParams) rfl hcall
  rw [hid] at hcounts
  obtain ⟨hiff, hpartial, -⟩ := hcounts
  have hp := hiff.2 ⟨0, by decide, by decide⟩
  obtain ⟨hty, hissued, -, hslots⟩ := hpartial hp
  have htype := hty.trans hissued
  refine ⟨e, c', hcall, hp, htype, ?_⟩
  rw [hslots, htype]
  rfl

end Termwise
