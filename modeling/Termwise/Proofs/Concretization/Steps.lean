import Termwise.Proofs.Concretization.Gate
import Termwise.Proofs.Concretization.Retyping

/-!
# The steps of concretization

What each action on the tables does to the expression that is being walked and to those below it.
Values and calls are cast to native types; a reference takes the type of its definition; a minus
sign becomes a call. None of these actions stops silently, except for a reference to a definition
that has no value.

## Main results

* `concretizeValue_outcome`, `coerceTo_outcome`: casts
* `typeReference_outcome`, `typeCall_outcome`, `callNegation_outcome`: rewritten expressions
-/

namespace Termwise

/-- An error that is not reported, because it stems from one that was. -/
def Stop.IsSilent : Stop → Prop
  | .error e => e.isAlreadyReported = true
  | .cyclic => False

theorem Stop.not_isSilent {cause : Cause} (span : Span) (h : cause ≠ .containsError) :
    ¬ Stop.IsSilent (.error ⟨cause, span⟩) := by
  intro hsilent
  exact h (by simpa [IsSilent, CompileError.isAlreadyReported] using hsilent)

theorem Stop.IsFresh.not_isSilent {stop : Stop} (h : stop.IsFresh) : ¬ stop.IsSilent := by
  obtain ⟨⟨cause, span⟩, rfl, hcause⟩ := h
  exact Stop.not_isSilent span hcause

theorem Compilation.Refuses.not_isSilent {c c' : Compilation} {stop : Stop}
    (h : c.Refuses stop c') : ¬ stop.IsSilent := by
  rcases h.1 with hfresh | ⟨rfl, -⟩
  · exact hfresh.not_isSilent
  · exact id

open Compilation

variable {c c' : Compilation} {id : ExprId} {d : DefId}

/-! ## Casts -/

/-- Values are converted into numbers and texts only. -/
theorem Value.target_of_convert? {source target : Builtin} {v w : Value}
    (h : v.convert? source target = some w) :
    target = .int ∨ target = .float ∨ target = .string := by
  unfold convert? at h
  split at h <;> first
    | simp
    | cases h
    | (unfold convertNumber? at h; split at h <;> first | simp | cases h)

/-- A known value that took another one, of a type that values are converted to. -/
theorem Expression.recast_withValue {e : Expression} {v : Value} (w : Value) {target : Builtin}
    (hk : e.kind = .value v) (h : target = .int ∨ target = .float ∨ target = .string) :
    e.Recast (e.withValue w target) where
  kind := hk ▸ .value v w
  concrete := by rw [hk]; rfl
  ty := by rcases h with rfl | rfl | rfl <;> rfl
  declared := rfl
  converted := by
    refine .inr (.inl ⟨rfl, ?_⟩)
    rcases h with rfl | rfl | rfl
    · exact .inl rfl
    · exact .inr (.inl rfl)
    · exact .inr (.inr rfl)

theorem Value.target_of_settle? {v w : Value} {type : Builtin}
    (h : v.settle? = some (type, w)) : type = .int ∨ type = .float ∨ type = .string := by
  unfold settle? at h
  split at h
  · cases h
    exact .inl rfl
  · obtain ⟨_, -, heq⟩ := Option.map_eq_some_iff.1 h
    cases heq
    exact .inr (.inl rfl)

/-- A known value that takes another one gets a native type. -/
theorem Expression.Converts.recast {e e' : Expression} (h : e.Converts e') : e.Recast e' := by
  obtain ⟨v, b, w, hk, rfl, ⟨source, hw⟩ | hw⟩ := h
  · exact recast_withValue w hk (Value.target_of_convert? hw)
  · exact recast_withValue w hk (Value.target_of_settle? hw)

/-- Expressions and operands are cast where they are. -/
theorem retypingLaw_casts (S : Set ExprId) :
    RetypingLaw (fun c n => n ∈ S ∨ c.Operand n) (Casts S) where
  refl := .refl S
  trans := .trans
  stays h := .imp_right h.retains.operand
  operand _ hk hm := .inr ⟨_, by rw [hk]; exact hm⟩
  value hn h := by
    have hcast := casts_modifyExpr (f := fun _ => _) h.recast
    refine hcast.mono fun m hm => ?_
    obtain rfl := hm
    exact hn.imp_right hcast.retains.operand
  call {c c₁ n d d' args} hn hk _ h₁ := by
    -- The call may have been widened below itself, but it is still a call of its arguments.
    obtain ⟨d₁, hk₁⟩ := (hk ▸ h₁.alike n : ExprKind.Alike (.call ..) _).exists_call
    have hrecast : (c₁.arena.expr n).Recast
        { c₁.arena.expr n with kind := .call d' args, ty := .float } := by
      refine ⟨?_, ?_, rfl, rfl, .inr (.inr ⟨⟨_, _, rfl⟩, rfl⟩)⟩ <;> rw [hk₁]
      · exact .call _ _ _
      · rfl
    have hcast := casts_modifyExpr (f := fun e => { e with kind := .call d' args, ty := .float })
      hrecast
    refine h₁.trans (hcast.mono fun m hm => ?_)
    obtain rfl := hm
    exact hn.imp_right fun hop => hcast.retains.operand (h₁.retains.operand hop)
  emit := casts_emit S

/-- **A known value** takes a native type. -/
theorem concretizeValue_outcome (id : ExprId) :
    Outcome (concretizeValue id) c (fun _ c' => Casts {id} c c') fun stop _ => ¬ stop.IsSilent :=
  ((retypingLaw_casts {id}).outcome_concretizeValue (.inl rfl)).mono (fun _ _ h => h)
    fun _ _ h => h.not_isSilent

/-- **Bringing an expression into a type** casts it, and integers below it. -/
theorem coerceTo_outcome (id : ExprId) (target : Ty) :
    Outcome (coerceTo id target) c (fun _ c' => Casts {id} c c') fun stop _ => ¬ stop.IsSilent :=
  ((retypingLaw_casts {id}).outcome_coerceTo target (.inl rfl)).mono (fun _ _ h => h)
    fun _ _ h => h.not_isSilent

/-- A call that is widened is a float. -/
theorem widenWithin_call {callee : DefId} {args : List ExprId} (depth : Nat)
    (hk : (c.arena.expr id).kind = .call callee args) (hcallee : (c.floatCallee? callee).isSome) :
    Outcome (widenWithin (depth + 1) id) c (fun _ c' => (c'.arena.expr id).ty = .float)
      fun _ _ => True := by
  obtain ⟨floatCallee, hcallee⟩ := Option.isSome_iff_exists.1 hcallee
  have hlt : id.index < c.arena.exprs.size := Arena.lt_size_of_kind_ne (by rw [hk]; simp)
  simp only [widenWithin_succ, outcome_bind, outcome_get]
  split
  · assumption
  · simp only [hk, hcallee, outcome_bind, outcome_modifyExpr, outcome_emit]
    have hlaw := retypingLaw_casts Set.univ
    refine (hlaw.outcome_forEach (fun _ _ => hlaw.outcome_widenWithin depth) _ fun _ _ =>
      .inl trivial).imp fun _ c₁ h₁ => ?_
    simp only [emit, modifyArena, Arena.expr_modifyExpr_self (hlt.trans_le h₁.size)]

/-- An expression that was brought into a type has it, unless it is a value that does not fit its
own type: that is neither cast nor widened. -/
theorem coerceTo_holds (id : ExprId) (target : Ty) :
    Outcome (coerceTo id target) c (fun _ c' => (c'.arena.expr id).Holds target)
      fun _ _ => True := by
  simp only [coerceTo_eq, outcome_bind, outcome_get]
  split
  · exact .inl ‹_›
  · rename_i hne
    split
    · rename_i cast hcast
      split at hcast
      · rename_i hvalue
        refine .inl ?_
        simp only [modifyArena, Arena.expr_modifyExpr_self (lt_size_of_isValue hvalue)]
        exact Expression.ty_of_cast? hcast hne
      · cases hcast
    · rename_i hcast
      split
      · trivial
      · rename_i hto
        obtain ⟨rfl, hwidens⟩ := (widensTo_eq_iff (by simp)).1 hto
        simp only [widen, outcome_bind, outcome_arena]
        rw [widens, widensWithin] at hwidens
        simp only [if_neg hne] at hwidens
        split at hwidens
        · cases hwidens
        rename_i hint
        rw [ne_eq, not_not] at hint
        split at hwidens
        · -- The value is no integer, or it would have been cast.
          rename_i v hk
          have hfits : ¬ v.Fits .int := fun hfits => by
            cases v <;> simp [hk, hint, ExprKind.isValue, Expression.cast?_eq,
              Expression.converted?, Expression.value?, Value.convert?, Value.Fits] at hcast hfits
          have hnone : (c.arena.expr id).cast? .int .float = none := by
            cases v <;> simp [hk, Expression.cast?_eq, Expression.converted?, Expression.value?,
              Value.convert?, Value.Fits] at hfits ⊢
          simp only [widenWithin_succ, outcome_bind, outcome_get, hne, if_false, hk, hnone]
          exact .inr ⟨v, hk, hint ▸ hfits⟩
        · rename_i callee args hk
          split at hwidens
          · rename_i hcallee
            rw [Bool.and_eq_true] at hcallee
            exact (widenWithin_call _ hk hcallee.1).imp fun _ _ h => .inl h
          · cases hwidens
        · cases hwidens
      · trivial

/-- **The type that is declared** for an expression is the one that it has in the end. -/
theorem honourDeclared_outcome (id : ExprId) :
    Outcome (honourDeclared id) c
      (fun _ c' => Casts {id} c c' ∧
        ∀ ty, (c'.arena.expr id).declared = some ty → (c'.arena.expr id).Holds ty)
      fun stop _ => ¬ stop.IsSilent := by
  simp only [honourDeclared, outcome_bind, outcome_expr]
  split
  · rename_i declared hdeclared
    refine ((coerceTo_outcome id declared).and (coerceTo_holds id declared)).mono ?_
      fun _ _ h => h.1
    rintro _ c' ⟨hcasts, hholds⟩
    refine ⟨hcasts, fun ty hty => ?_⟩
    rw [hcasts.declared, hdeclared] at hty
    cases hty
    exact hholds
  · rename_i hdeclared
    exact ⟨.refl _ c, fun ty hty => by cases hdeclared.symm.trans hty⟩

theorem requireNative_outcome (id : ExprId) :
    Outcome (requireNative id) c
      (fun _ c' => c' = c ∧ (c.arena.expr id).ty.native = .yes)
      fun stop _ => ¬ stop.IsSilent := by
  simp only [requireNative, outcome_bind, outcome_expr]
  split
  · exact ⟨rfl, ‹_›⟩
  · exact Stop.not_isSilent _ (by simp)

theorem coerceAll_outcome (unified : Ty) (args : List ExprId) (params : List Ty) :
    Outcome (coerceAll unified args params) c (fun _ c' => Casts { n | n ∈ args } c c')
      fun stop _ => ¬ stop.IsSilent :=
  ((retypingLaw_casts _).outcome_coerceAll unified params fun _ hn => .inl hn).mono
    (fun _ _ h => h) fun _ _ ⟨_, _, h⟩ => h.not_isSilent

/-! ## Rewritten expressions -/

theorem Compilation.Alive.ne_syntaxError (h : c.Alive id) :
    (c.arena.expr id).kind ≠ .syntaxError := by
  intro hk
  rw [Alive, hk] at h
  cases h

/-- An expression that has a value takes a type. -/
theorem moves_setType {ty : Ty} (h : c.Alive id) (hty : ty ≠ .absurd) :
    c.Moves id (c.modifyArena (·.modifyExpr id fun e => { e with ty })) :=
  moves_modifyExpr ⟨h.ne_syntaxError, fun habsurd => (hty habsurd).elim⟩ rfl (.inr rfl)

theorem alike_setType (id : ExprId) (ty : Ty) (n : ExprId) :
    (c.arena.expr n).kind.Alike
      ((c.modifyArena (·.modifyExpr id fun e => { e with ty })).arena.expr n).kind := by
  simp only [modifyArena, Arena.expr_modifyExpr]
  split <;> exact .refl _

/-- **A reference** takes the type of its definition. It stops silently only if the definition has
no value. -/
theorem typeReference_outcome (d : DefId) :
    Outcome (typeReference id d) c
      (fun _ c' => c'.isValid = c.isValid ∧ (c.Alive id →
        c.Moves id c' ∧ (c.arena.expr id).kind.Alike (c'.arena.expr id).kind))
      fun stop c' => stop.IsSilent → c' = c ∧ c.arena.definitionType d = .absurd := by
  simp only [typeReference, outcome_bind, outcome_definitionType, outcome_definition, outcome_expr]
  split
  · exact fun _ => ⟨rfl, ‹_›⟩
  · rename_i hty
    split
    · exact fun hsilent => (Stop.not_isSilent _ (by simp) hsilent).elim
    · exact ⟨rfl, fun halive => ⟨moves_setType halive hty, alike_setType id _ id⟩⟩

/-- **A call** takes the type of its result, and its arguments those of their parameters. -/
theorem typeCall_outcome (calleeType : Ty) (args : List ExprId) :
    Outcome (typeCall id calleeType args) c
      (fun _ c' => c'.isValid = c.isValid ∧ (c.Alive id → (∀ n ∈ args, c.Operand n) →
        calleeType ≠ .absurd →
        c.Moves id c' ∧ (c.arena.expr id).kind.Alike (c'.arena.expr id).kind))
      fun stop _ => ¬ stop.IsSilent := by
  unfold typeCall
  split
  · rename_i params result isPure
    simp only [outcome_bind, outcome_arena]
    refine (coerceAll_outcome _ args params).imp fun _ c₁ hc₁ => ?_
    have hmoves (hargs : ∀ n ∈ args, c.Operand n) : c.Moves id c₁ :=
      hc₁.moves fun n hn => .inr (hc₁.retains.operand (hargs n hn))
    split
    · refine ⟨hc₁.isValid, fun halive hargs _ => ?_⟩
      have hne : unifiedNumber c.arena args params ≠ .absurd := by
        unfold unifiedNumber
        split <;> simp
      refine ⟨(hmoves hargs).trans (moves_setType (halive.of_alike (hc₁.alike id)) hne), ?_⟩
      exact (hc₁.alike id).trans (alike_setType id _ id)
    · exact ⟨hc₁.isValid, fun _ hargs _ => ⟨hmoves hargs, hc₁.alike id⟩⟩
  · exact ⟨rfl, fun halive _ hty => ⟨moves_setType halive hty, alike_setType id _ id⟩⟩

/-! ## Negation -/

/-- An argument that has a native type is cast at most. -/
theorem Expression.recast_of_coerce {e e' : Expression} {param : Ty}
    (h : e.coerce param = .ok e') (hk : e.kind.isConcrete = true) (hty : e.ty.native = .yes) :
    e.Recast e' := by
  have hself : e.Recast e := ⟨.refl _, hk, hty, rfl, .inl ⟨rfl, rfl⟩⟩
  obtain ⟨rfl, -⟩ | ⟨-, hhole⟩ | ⟨-, -, hne, hcast⟩ := coerce_cases h
  · exact hself
  · rw [hhole] at hty
    cases hty
  · exact (converts_of_cast? hcast hne).recast

theorem coerceArg_outcome (param : Ty) :
    Outcome (coerceArg id param) c
      (fun _ c' => c'.isValid = c.isValid ∧ ((c.arena.expr id).kind.isConcrete = true →
        (c.arena.expr id).ty.native = .yes → Casts {id} c c'))
      fun stop _ => ¬ stop.IsSilent := by
  simp only [coerceArg_eq, outcome_bind, outcome_expr]
  split
  · rename_i coerced h
    exact ⟨rfl, fun hk hty => casts_modifyExpr (Expression.recast_of_coerce h hk hty)⟩
  · rename_i cause h
    exact Stop.not_isSilent _ (Expression.refusesCall_of_coerce h).ne_containsError

/-- The call of a definition over one argument. -/
theorem createCall_outcome (d : DefId) (span : Span) :
    Outcome (createCall d [id] span) c
      (fun e c' => c'.isValid = c.isValid ∧ e.kind = .call d [id] ∧
        ((c.arena.expr id).kind.isConcrete = true → (c.arena.expr id).ty.native = .yes →
          ¬ Ty.Occurs .absurd (c.arena.definitionType d) → Casts {id} c c' ∧ e.ty ≠ .absurd))
      fun stop _ => ¬ stop.IsSilent := by
  simp only [createCall, outcome_bind, outcome_definitionType]
  split
  · rename_i params result isPure hty
    have hcoerce : Outcome (coerceArgs [id] params) c
        (fun _ c' => c'.isValid = c.isValid ∧ ((c.arena.expr id).kind.isConcrete = true →
          (c.arena.expr id).ty.native = .yes → Casts {id} c c'))
        fun stop _ => ¬ stop.IsSilent := by
      cases params with
      | nil => exact ⟨rfl, fun _ _ => .refl _ c⟩
      | cons param params =>
        simp only [coerceArgs, outcome_bind]
        exact coerceArg_outcome param
    split
    · exact Stop.not_isSilent _ (by simp)
    · simp only [outcome_bind, outcome_arena]
      refine hcoerce.imp ?_
      rintro _ c₁ ⟨hvalid, hcasts⟩
      split
      · refine ⟨hvalid, rfl, fun hk hnative habsurd => ⟨hcasts hk hnative, ?_⟩⟩
        rintro rfl
        rw [hty] at habsurd
        exact habsurd (.result .itself)
      · refine ⟨hvalid, rfl, fun hk hnative _ => ?_⟩
        refine ⟨(hcasts hk hnative).trans (casts_types _ _ _), fun heq => ?_⟩
        cases (TypeStore.functionType_ty ..).symm.trans heq
  · exact Stop.not_isSilent _ (by simp)

/-- **A minus sign** becomes a call of one of the negations. -/
theorem callNegation_outcome (id operand : ExprId) :
    Outcome (callNegation id operand) c
      (fun _ c' => c'.isValid = c.isValid ∧ (c.Lawful → c.Alive id →
        (c.arena.expr id).kind.children = [operand] →
        (c.arena.expr operand).kind.isConcrete = true →
        (c.arena.expr operand).ty.native = .yes →
        c.Moves id c' ∧ ∃ d, (c'.arena.expr id).kind = .call d [operand]))
      fun stop _ => ¬ stop.IsSilent := by
  simp only [callNegation, outcome_bind, outcome_get, outcome_expr]
  refine (createCall_outcome (c.negationFor operand) _).imp ?_
  rintro call c₁ ⟨hvalid, hcall, hcast⟩
  refine ⟨hvalid, fun hc halive hchildren hk hnative => ?_⟩
  have hneg := hc.negation _ (c.isNegation_negationFor operand)
  obtain ⟨ty, hdeclared⟩ := Option.ne_none_iff_exists'.1 hneg
  rw [Arena.definitionType_of_declared hdeclared] at hcast
  obtain ⟨hcasts, habsurd⟩ := hcast hk hnative (hc.declared _ _ hdeclared)
  have halive₁ : c₁.Alive id := halive.of_alike (hcasts.alike id)
  have hmoves : c₁.Moves id (c₁.modifyArena (·.modifyExpr id (·.replaceBy call))) := by
    refine moves_modifyExpr ⟨?_, fun hty => (habsurd hty).elim⟩ ?_ (.inr ?_)
    · simp [Expression.replaceBy, hcall]
    · rw [halive₁]
      simp only [Expression.replaceBy, hcall]
      rfl
    · rw [(hcasts.alike id).children, hchildren]
      simp only [Expression.replaceBy, hcall]
      rfl
  have hoperand : c.Operand operand := ⟨id, by rw [hchildren]; exact List.mem_singleton_self _⟩
  have hcasts' : c.Moves id c₁ :=
    hcasts.moves fun n hn => .inr (hn ▸ hcasts.retains.operand hoperand)
  refine ⟨hcasts'.trans hmoves, c.negationFor operand, ?_⟩
  simp only [modifyArena, Arena.expr_modifyExpr_self halive₁.lt_size]
  exact hcall

end Termwise
