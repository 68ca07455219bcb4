import Termwise.Proofs.Concretization.Upkeep

/-!
# Casts are all or nothing

A cast works on an expression in place. It is either refused, and then every field is what it was
before, although the cast function of a type may have made several attempts, or it is made, and then
the expression has the type that was asked for. It is made by doing nothing where the types agree;
otherwise a known value takes another one, of a type of numbers or texts. A value that fits its
type before fits it after, so what is cast once can be cast again.

## Main definitions

* `Expression.CastTo`, `Expression.SettledAs`: what an attempt may make of it

## Main results

* `cast_all_or_nothing`: what casts do, for every type and every expression
-/

namespace Termwise

/-- The types that values are converted to. -/
def Ty.IsConverted (t : Ty) : Prop := t = .int ∨ t = .float ∨ t = .string

/-- If an expression is a value that fits its type, then so is another one. -/
def Expression.PassesFit (e e' : Expression) : Prop :=
  ∀ v : Value, e.kind = .value v → v.Fits e.ty → ∃ w : Value, e'.kind = .value w ∧ w.Fits e'.ty

/-- What stands at the place of an expression after it was cast to a type. -/
structure Expression.CastTo (e : Expression) (target : Ty) (e' : Expression) : Prop where
  ty : e'.ty = target
  span : e'.span = e.span
  declared : e'.declared = e.declared
  changed : target = e.ty ∧ e' = e ∨
    e.kind.isValue = true ∧ e'.kind.isValue = true ∧ target.IsConverted
  fits : e.PassesFit e'

/-- What stands at the place of an expression after it took its nearest native type. -/
structure Expression.SettledAs (e e' : Expression) : Prop where
  native : e'.ty.native = .yes
  span : e'.span = e.span
  declared : e'.declared = e.declared
  fits : e.PassesFit e'

variable {e e' : Expression} {w : Value} {target : Builtin}

/-! ## Expressions -/

theorem Expression.PassesFit.refl (e : Expression) : e.PassesFit e :=
  fun v hv hfits => ⟨v, hv, hfits⟩

/-- A value that takes another one, which fits its new type. -/
theorem Expression.passesFit_withValue (h : w.Fits (.builtin target)) :
    e.PassesFit (e.withValue w target) := fun _ _ _ => ⟨w, rfl, h⟩

/-- **A cast that is made** leads to the type that was asked for. -/
theorem Expression.castTo_of_cast? {t : Ty} (h : e.cast? e.ty t = some e') : e.CastTo t e' := by
  obtain ⟨hsame, rfl⟩ | ⟨-, b, b', v, w, -, rfl, hk, hw, rfl⟩ := cast?_cases h
  · exact ⟨hsame, rfl, rfl, .inl ⟨hsame.symm, rfl⟩, .refl e'⟩
  · have hconverted : (Ty.builtin b').IsConverted := by
      simpa [Ty.IsConverted] using Value.target_of_convert? hw
    exact ⟨rfl, rfl, rfl, .inr ⟨by rw [hk]; rfl, rfl, hconverted⟩,
      passesFit_withValue (Value.fits_of_convert? hw)⟩

/-- **An expression that settles** has a native type. -/
theorem Expression.settledAs_of_settle? (h : e.settle? e.ty = some e') : e.SettledAs e' := by
  obtain ⟨hnative, rfl⟩ | ⟨-, v, b, w, -, hw, rfl⟩ := settle?_cases h
  · exact ⟨hnative, rfl, rfl, .refl e'⟩
  · have hnative : (Ty.builtin b).native = .yes := by
      rcases Value.target_of_settle? hw with rfl | rfl | rfl <;> rfl
    exact ⟨hnative, rfl, rfl, passesFit_withValue (Value.fits_of_settle? hw)⟩

/-- An attempt that is all or nothing leaves the expression, or what it made of it. -/
theorem Expression.spec_of_orKept {p : Expression → Prop} {attempt : EditM Bool}
    {made : Option Expression} (hrun : attempt.run e = e.orKept made)
    (h : ∀ e', made = some e' → p e') :
    ((attempt.run e).1 = false → (attempt.run e).2 = e) ∧
      ((attempt.run e).1 = true → p (attempt.run e).2) := by
  rw [hrun]
  cases made with
  | none => exact ⟨fun _ => rfl, Bool.noConfusion⟩
  | some e' => exact ⟨Bool.noConfusion, fun _ => h e' rfl⟩

/-! ## Attempts in the tables -/

variable (id : ExprId) (c : Compilation)

theorem coerceArg_refused (param : Ty) :
    Outcome (coerceArg id param) c (fun _ _ => True) fun _ c' => c' = c := by
  simp only [coerceArg_eq, outcome_bind, outcome_expr]
  split
  · trivial
  · rfl

theorem concretizeValue_refused :
    Outcome (concretizeValue id) c (fun _ _ => True) fun _ c' => c' = c :=
  ((retypingLaw_casts {id}).outcome_concretizeValue (.inl rfl)).mono (fun _ _ _ => trivial)
    fun _ _ => And.right

theorem coerceTo_refused (target : Ty) :
    Outcome (coerceTo id target) c (fun _ _ => True) fun _ c' => c' = c :=
  ((retypingLaw_casts {id}).outcome_coerceTo target (.inl rfl)).mono (fun _ _ _ => trivial)
    fun _ _ => And.right

/-- **Casts are all or nothing.** One that is refused leaves every field of the expression as it
was; one that is made gives it the type that was asked for, and keeps its place and its declared
type. The same holds where an expression takes its nearest native type. An attempt that is refused
in the tables leaves no trace there. -/
theorem cast_all_or_nothing (e : Expression) (target : Ty) :
    ((((EditM.castTo e.ty target).run e).1 = false →
        ((EditM.castTo e.ty target).run e).2 = e) ∧
      (((EditM.castTo e.ty target).run e).1 = true →
        e.CastTo target ((EditM.castTo e.ty target).run e).2)) ∧
    ((((EditM.settle e.ty).run e).1 = false → ((EditM.settle e.ty).run e).2 = e) ∧
      (((EditM.settle e.ty).run e).1 = true → e.SettledAs ((EditM.settle e.ty).run e).2)) ∧
    Outcome (coerceArg id target) c (fun _ _ => True) (fun _ c' => c' = c) ∧
    Outcome (coerceTo id target) c (fun _ _ => True) (fun _ c' => c' = c) ∧
    Outcome (concretizeValue id) c (fun _ _ => True) fun _ c' => c' = c :=
  ⟨Expression.spec_of_orKept (e.run_castTo e.ty target) fun _ => Expression.castTo_of_cast?,
    Expression.spec_of_orKept (e.run_settle e.ty) fun _ => Expression.settledAs_of_settle?,
    coerceArg_refused id c target, coerceTo_refused id c target, concretizeValue_refused id c⟩

/-- A number that is not settled yet. -/
def openNumber : Expression := ⟨.value (.string "34"), .numberLiteral, none, .origin⟩

/-- An open number is cast to a float, and is not cast to a truth value. -/
theorem cast_openNumber :
    openNumber.CastTo .float ((EditM.castTo openNumber.ty .float).run openNumber).2 ∧
      ((EditM.castTo openNumber.ty .boolean).run openNumber).2 = openNumber :=
  ⟨(cast_all_or_nothing ⟨0⟩ .new openNumber .float).1.2 (by decide +kernel),
    (cast_all_or_nothing ⟨0⟩ .new openNumber .boolean).1.1 (by decide +kernel)⟩

end Termwise
