import Mathlib.Tactic.SplitIfs
import Termwise.Proofs.Casts.Forms
import Termwise.Proofs.Outcome

/-!
# Building calls

A call is built by coercing its arguments in place, from left to right, and by issuing a function
type for the parameters that stay open. An argument that is accepted stays as it is, takes the type
of its parameter, or is a known value and is cast. Nothing else changes, so a relation that holds
across a coercion and across what is issued holds across the building of a call, whether the call
comes about or is refused on the way.

## Main definitions

* `Cause.RefusesCall`, `Stop.RefusesCall`: why a call is refused
* `CoercionLaw`, `CallLaw`: a relation that holds across each change made for a call

## Main results

* `Expression.coerce_cases`, `Expression.coerce_refusal`: what becomes of an argument
* `CoercionLaw.outcome_coerceArgs`, `CallLaw.outcome_createCall`: the relation holds across the
  building of a call
-/

namespace Termwise

namespace Expression

variable {e e' : Expression} {param : Ty} {cause : Cause}

/-! ## Arguments -/

/-- **An argument that is accepted** stays as it is, fills the hole that its type was, or is a
known value and is cast. -/
theorem coerce_cases (h : e.coerce param = .ok e') :
    e' = e ∧ (e.ty ≠ .hole ∨ param = .hole) ∨ e' = { e with ty := param } ∧ e.ty = .hole ∨
    e.kind.isValue = true ∧ e.ty ≠ .hole ∧ e.ty ≠ param ∧ e.cast? e.ty param = some e' := by
  have hkept (h : (.ok e : Except Cause Expression) = .ok e') (hty : e.ty ≠ .hole ∨ param = .hole) :
      e' = e ∧ (e.ty ≠ .hole ∨ param = .hole) := ⟨(Except.ok.inj h).symm, hty⟩
  rw [coerce_eq] at h
  split_ifs at h with hmissing hhole hopen hhole hnumber hnumeric hvalue
  · exact .inr (.inl ⟨(Except.ok.inj h).symm, hhole⟩)
  · exact .inl (hkept h (.inl hhole))
  · refine .inl (hkept h ?_)
    obtain rfl | habsurd | hparam := hopen
    · exact (Classical.em _).symm
    · exact .inl (by simp [habsurd])
    · exact .inr hparam
  · exact .inr (.inl ⟨(Except.ok.inj h).symm, hhole⟩)
  · exact .inl (hkept h (.inl hhole))
  · exact .inl (hkept h (.inl hhole))
  · split at h
    · cases h
      exact .inr (.inr ⟨hvalue, hhole, fun heq => hopen (.inl heq), ‹_›⟩)
    · cases h

theorem coerce_kind (h : e.coerce param = .ok e') :
    e'.kind = e.kind ∨ e.kind.isValue = true ∧ e'.kind.isValue = true := by
  obtain ⟨rfl, -⟩ | ⟨rfl, -⟩ | ⟨-, -, -, hcast⟩ := coerce_cases h
  · exact .inl rfl
  · exact .inl rfl
  · exact cast?_kind hcast

theorem coerce_place (h : e.coerce param = .ok e') :
    e'.span = e.span ∧ e'.declared = e.declared := by
  obtain ⟨rfl, -⟩ | ⟨rfl, -⟩ | ⟨-, -, -, hcast⟩ := coerce_cases h
  · exact ⟨rfl, rfl⟩
  · exact ⟨rfl, rfl⟩
  · exact cast?_place hcast

/-- An argument is refused because it cannot be cast, or for its type. -/
theorem coerce_refusal (h : e.coerce param = .error cause) :
    cause = .castFailure e.ty param ∨ cause = .typeMismatch param e.ty := by
  rw [coerce_eq] at h
  split_ifs at h
  · split at h
    · cases h
    · exact .inl (Except.error.inj h).symm
  · exact .inr (Except.error.inj h).symm

end Expression

/-! ## Refusals -/

/-- The reasons for which a call is refused: its callee, how many arguments it has, or one of
them. -/
def Cause.RefusesCall : Cause → Prop
  | .castFailure .. | .typeMismatch .. | .tooManyArguments .. | .notAFunction .. => True
  | _ => False

/-- A call is refused, with an error. -/
def Stop.RefusesCall (stop : Stop) : Prop :=
  ∃ e : CompileError, stop = .error e ∧ e.cause.RefusesCall

theorem Expression.refusesCall_of_coerce {e : Expression} {param : Ty} {cause : Cause}
    (h : e.coerce param = .error cause) : cause.RefusesCall := by
  obtain rfl | rfl := coerce_refusal h <;> trivial

theorem Stop.RefusesCall.ne_cyclic {stop : Stop} (h : stop.RefusesCall) : stop ≠ .cyclic := by
  obtain ⟨e, rfl, -⟩ := h
  exact Stop.noConfusion

/-- What refuses a call was not reported yet. -/
theorem Cause.RefusesCall.ne_containsError {cause : Cause} (h : cause.RefusesCall) :
    cause ≠ .containsError := by
  rintro rfl
  exact h

/-! ## Laws -/

/-- A relation that holds across the coercion of any of some arguments. -/
structure CoercionLaw (args : List ExprId) (R : Compilation → Compilation → Prop) : Prop where
  refl (c : Compilation) : R c c
  trans {c c' c'' : Compilation} : R c c' → R c' c'' → R c c''
  coerced {c : Compilation} {arg : ExprId} {param : Ty} {e : Expression} : arg ∈ args →
    (c.arena.expr arg).coerce param = .ok e → R c (c.modifyArena (·.modifyExpr arg fun _ => e))

/-- A relation that holds across each change made to build a call. -/
structure CallLaw (args : List ExprId) (R : Compilation → Compilation → Prop) : Prop
    extends CoercionLaw args R where
  issued (c : Compilation) (params : List Ty) (result : Ty) (isPure : Bool) :
    R c { c with types := (c.types.functionType params result isPure).2 }

variable {R : Compilation → Compilation → Prop} {arg : ExprId} {args : List ExprId}

theorem CoercionLaw.tail (h : CoercionLaw (arg :: args) R) : CoercionLaw args R where
  refl := h.refl
  trans := h.trans
  coerced hmem := h.coerced (List.mem_cons_of_mem arg hmem)

/-- **Arguments are coerced** until one is refused, and the relation holds in either case. -/
theorem CoercionLaw.outcome_coerceArgs (h : CoercionLaw args R) (params : List Ty) (c : Compilation) :
    Outcome (coerceArgs args params) c (fun _ => R c) fun stop c' => stop.RefusesCall ∧ R c c' := by
  induction args generalizing params c with
  | nil => exact h.refl c
  | cons arg args ih =>
    cases params with
    | nil => exact h.refl c
    | cons param params =>
      simp only [coerceArgs, coerceArg_eq, outcome_bind, outcome_expr]
      split <;> rename_i hcoerce
      · have hstep := h.coerced List.mem_cons_self hcoerce
        exact (ih h.tail params _).mono (fun _ _ => h.trans hstep) fun _ _ =>
          .imp_right (h.trans hstep)
      · exact ⟨⟨_, rfl, Expression.refusesCall_of_coerce hcoerce⟩, h.refl c⟩

/-- **A call is built** or refused, and the relation holds in either case. -/
theorem CallLaw.outcome_createCall (h : CallLaw args R) (d : DefId) (span : Span) (c : Compilation) :
    Outcome (createCall d args span) c
      (fun e c' => R c c' ∧ e.kind = .call d args ∧ e.span = span)
      fun stop c' => stop.RefusesCall ∧ R c c' := by
  simp only [createCall, outcome_bind, outcome_definitionType]
  split
  · split
    · exact ⟨⟨_, rfl, trivial⟩, h.refl c⟩
    · simp only [outcome_bind, outcome_arena]
      refine (h.outcome_coerceArgs _ c).imp fun _ c₁ h₁ => ?_
      split
      · exact ⟨h₁, rfl, rfl⟩
      · exact ⟨h.trans h₁ (h.issued ..), rfl, rfl⟩
  · split
    · exact ⟨h.refl c, rfl, rfl⟩
    · exact ⟨⟨_, rfl, trivial⟩, h.refl c⟩

end Termwise
