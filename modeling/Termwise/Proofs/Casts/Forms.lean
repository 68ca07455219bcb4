import Termwise.Proofs.Outcome

/-!
# Expressions that are cast

A cast and a settlement come to one of two things: the expression has a type that will do and stays
as it is, or it is a known value and takes another one, with the type of that. In both cases it keeps
its place and what lies below it. An attempt that is refused writes nothing, whichever function makes
it, so an attempt is told by what it makes of an expression, if it is made.

## Main definitions

* `Value.convert?`, `Value.settle?`: the tables of conversions
* `Expression.cast?`, `Expression.settle?`, `Expression.coerce`: what is made of an expression
* `Expression.Converts`: a known value that takes another one

## Main results

* `EditM.run_castTo`, `EditM.run_settle`, `EditM.run_accept`: attempts are all or nothing
* `coerceArg_eq`, `concretizeValue_eq`, `coerceTo_eq`: attempts in the tables
* `Expression.cast?_cases`: what becomes of an expression that is cast
* `Expression.settle?_cases`: what becomes of an expression that is settled
-/

namespace Termwise

/-! ## Tables of conversions -/

namespace Value

/-- A value of one builtin type brought into another. -/
def convert? (source : Builtin) (value : Value) (target : Builtin) : Option Value :=
  match source, value, target with
  | .boolean, .boolean b, .string => some (.string (Text.truthText b))
  | .int, .int i, .float => some (.float (floatOfInt i))
  | .int, .int i, .string => some (.string (Text.Integer.write i))
  | .float, .float x, .string => some (ofFloatText x)
  | .string, .string s, .int => (Text.Integer.read s).map .int
  | .string, .string s, .float => (Text.readFloat? s).map .float
  | .number, v, t | .numberLiteral, v, t => convertNumber? v t
  | _, _, _ => none

/-- The native form of a numeric literal: an integer if it can be one, otherwise a float. -/
def settle? (value : Value) : Option (Builtin × Value) :=
  match convertNumber? value .int with
  | some v => some (.int, v)
  | none => (convertNumber? value .float).map fun v => (.float, v)

end Value

/-! ## Attempts -/

/-- What an attempt to change an expression makes of it, if it is made. -/
def Expression.changed? (e : Expression) (attempt : EditM Bool) : Option Expression :=
  match attempt.run e with
  | (true, e') => some e'
  | (false, _) => none

/-- **An attempt that is all or nothing**: what it makes of an expression, or the expression. -/
def Expression.orKept (e : Expression) (made : Option Expression) : Bool × Expression :=
  (made.isSome, made.getD e)

theorem Expression.changed?_eq {e : Expression} {attempt : EditM Bool} {made : Option Expression}
    (h : attempt.run e = e.orKept made) : e.changed? attempt = made := by
  rw [changed?, h]
  cases made <;> rfl

namespace Expression

/-- The expression with another value and the builtin type of that value. -/
def withValue (e : Expression) (value : Value) (type : Builtin) : Expression :=
  { e with kind := .value value, ty := .builtin type }

/-- The expression, whose value is of the type `source`, converted to the type `target`. -/
def converted? (e : Expression) (source : Builtin) (target : Ty) : Option Expression :=
  match target, e.value? with
  | .builtin b, some v => (v.convert? source b).map (e.withValue · b)
  | _, _ => none

end Expression

namespace EditM

variable {e : Expression} {source b : Builtin} {target : Ty}

/-- A cast function goes by the table of conversions from a type, and writes nothing if there is no
entry. -/
def Follows (cast : Ty → EditM Bool) (source : Builtin) : Prop :=
  ∀ (target : Ty) (e : Expression), (cast target).run e = e.orKept (e.converted? source target)

theorem run_bind {α β : Type} (first : EditM β) (rest : β → EditM α) (e : Expression) :
    (first >>= rest).run e = (rest (first.run e).1).run (first.run e).2 := rfl

theorem run_get_bind {α : Type} (rest : Expression → EditM α) (e : Expression) :
    (get >>= rest).run e = (rest e).run e := rfl

theorem run_knownValue_bind {α : Type} (rest : Option Value → EditM α) :
    (knownValue >>= rest).run e = (rest e.value?).run e := rfl

theorem follows_castBoolean : Follows castBoolean .boolean := by
  intro target e
  rw [castBoolean, run_knownValue_bind, Expression.converted?.eq_def]
  rcases e.value? with _ | _ | _ | _ | _ <;> rcases target with (_ | _) | _ | _ <;> rfl

theorem follows_castInt : Follows castInt .int := by
  intro target e
  rw [castInt, run_knownValue_bind, Expression.converted?.eq_def]
  rcases e.value? with _ | _ | _ | _ | _ <;> rcases target with (_ | _) | _ | _ <;> rfl

theorem follows_castFloat : Follows castFloat .float := by
  intro target e
  rw [castFloat, run_knownValue_bind, Expression.converted?.eq_def]
  rcases e.value? with _ | _ | _ | _ | _ <;> rcases target with (_ | _) | _ | _ <;> rfl

theorem follows_castString : Follows castString .string := by
  intro target e
  rw [castString, run_knownValue_bind, Expression.converted?.eq_def]
  rcases e.value? with _ | _ | _ | _ | text
  case some.string =>
    rcases target with b | _ | _
    case builtin =>
      cases b
      -- A text that does not denote a number is refused before anything is written.
      case int => simp only [Value.convert?]; cases Text.Integer.read text <;> rfl
      case float => simp only [Value.convert?]; cases Text.readFloat? text <;> rfl
      all_goals rfl
    all_goals rfl
  all_goals rcases target with (_ | _) | _ | _ <;> rfl

theorem follows_castNumber {source : Builtin} (h : source = .number ∨ source = .numberLiteral) :
    Follows castNumber source := by
  intro target e
  rw [castNumber, run_knownValue_bind, Expression.converted?.eq_def]
  cases e.value? with
  | none => cases target <;> rfl
  | some value =>
    cases target with
    | builtin b =>
      have hconvert : value.convert? source b = value.convertNumber? b := by
        rcases h with rfl | rfl <;> rfl
      simp only [hconvert]
      cases value.convertNumber? b <;> rfl
    | named | function => rfl

theorem follows_castFrom (source : Builtin) : Follows (castFrom source) source := by
  cases source with
  | absurd | hole | void =>
    intro target e
    cases target with
    | builtin b =>
      rw [Expression.converted?.eq_def]
      cases e.value? <;> rfl
    | named | function => rfl
  | boolean => exact follows_castBoolean
  | int => exact follows_castInt
  | float => exact follows_castFloat
  | string => exact follows_castString
  | number => exact follows_castNumber (.inl rfl)
  | numberLiteral => exact follows_castNumber (.inr rfl)

end EditM

namespace Expression

/-- The expression, which is typed `source`, brought into the type `target`. -/
def cast? (e : Expression) (source target : Ty) : Option Expression :=
  e.changed? (EditM.castTo source target)

/-- The expression, which is typed `source`, brought into its nearest native type. -/
def settle? (e : Expression) (source : Ty) : Option Expression :=
  e.changed? (EditM.settle source)

/-- The expression in a form that a parameter of the given type accepts. -/
def coerce (e : Expression) (param : Ty) : Except Cause Expression :=
  match (EditM.accept param).run e with
  | (.ok (), e') => .ok e'
  | (.error cause, _) => .error cause

variable {e e' : Expression} {source target param : Ty}

theorem run_castTo_eq (e : Expression) (source target : Ty) :
    (EditM.castTo source target).run e = e.orKept (
      if target = .hole ∨ target = .absurd then none
      else if source = target then some e
      else
        match source with
        | .builtin b => e.converted? b target
        | _ => none) := by
  unfold EditM.castTo
  split
  · rfl
  · split
    · rfl
    · cases source with
      | builtin b => exact EditM.follows_castFrom b target e
      | named | function => rfl

/-- **What becomes of an expression that is cast**: nothing is ever cast to a type that is not known
or has no values, what has the target type already stays, and a known value is converted. -/
theorem cast?_eq : e.cast? source target =
    if target = .hole ∨ target = .absurd then none
    else if source = target then some e
    else
      match source with
      | .builtin b => e.converted? b target
      | _ => none := changed?_eq (run_castTo_eq e source target)

/-- **A cast is all or nothing.** -/
theorem run_castTo (e : Expression) (source target : Ty) :
    (EditM.castTo source target).run e = e.orKept (e.cast? source target) := by
  rw [cast?_eq, run_castTo_eq]

/-- A number is settled as an integer, or else as a float: the first attempt leaves the second one
what it found. -/
theorem run_settleNumber (e : Expression) :
    EditM.settleNumber.run e =
      e.orKept (e.value?.bind fun v => v.settle?.map fun (type, settled) =>
        e.withValue settled type) := by
  rw [EditM.settleNumber, EditM.run_bind, EditM.follows_castNumber (.inl rfl) .int e]
  cases hv : e.value? with
  | none =>
    rw [show e.converted? .number .int = none by rw [converted?.eq_def, hv]]
    refine (EditM.follows_castNumber (.inl rfl) .float e).trans ?_
    rw [converted?.eq_def, hv]
    rfl
  | some v =>
    rw [show e.converted? .number .int = (v.convertNumber? .int).map (e.withValue · .int) by
      rw [converted?.eq_def, hv]; rfl]
    cases hi : v.convertNumber? .int with
    | some w => simp only [Option.bind_some, Value.settle?, hi]; rfl
    | none =>
      refine (EditM.follows_castNumber (.inl rfl) .float e).trans ?_
      rw [converted?.eq_def, hv]
      simp only [Option.bind_some, Value.settle?, hi, Option.map_map]
      rfl

/-- **A settlement is all or nothing.** -/
theorem run_settle_eq (e : Expression) (source : Ty) :
    (EditM.settle source).run e = e.orKept (
      match source with
      | .builtin .void | .builtin .boolean | .builtin .int | .builtin .float | .builtin .string =>
        some e
      | .builtin .number | .builtin .numberLiteral =>
        e.value?.bind fun v => v.settle?.map fun (type, settled) => e.withValue settled type
      | _ => none) := by
  rcases source with (_ | _) | _ | _
  case builtin.number | builtin.numberLiteral => exact run_settleNumber e
  all_goals rfl

theorem settle?_eq : e.settle? source =
    match source with
    | .builtin .void | .builtin .boolean | .builtin .int | .builtin .float | .builtin .string =>
      some e
    | .builtin .number | .builtin .numberLiteral =>
      e.value?.bind fun v => v.settle?.map fun (type, settled) => e.withValue settled type
    | _ => none := changed?_eq (run_settle_eq e source)

theorem run_settle (e : Expression) (source : Ty) :
    (EditM.settle source).run e = e.orKept (e.settle? source) := by
  rw [settle?_eq, run_settle_eq]

/-- What is accepted, or the expression with the cause why nothing was. -/
def orRefused (e : Expression) (made : Except Cause Expression) : Except Cause Unit × Expression :=
  match made with
  | .ok e' => (.ok (), e')
  | .error cause => (.error cause, e)

theorem coerce_of_run {made : Except Cause Expression}
    (h : (EditM.accept param).run e = e.orRefused made) : e.coerce param = made := by
  rw [coerce, h]
  cases made <;> rfl

theorem run_accept_eq (e : Expression) (param : Ty) :
    (EditM.accept param).run e = e.orRefused (
        if e.kind.isMissingArg then .ok (if e.ty = .hole then { e with ty := param } else e)
        else if e.ty = param ∨ e.ty = .absurd ∨ param = .hole then .ok e
        else if e.ty = .hole then .ok { e with ty := param }
        else if param = .number ∧ e.ty.numeric = .yes then .ok e
        else if e.ty = .number ∧ param.numeric = .yes then .ok e
        else if e.kind.isValue then
          match e.cast? e.ty param with
          | some cast => .ok cast
          | none => .error (.castFailure e.ty param)
        else .error (.typeMismatch param e.ty)) := by
  rw [EditM.accept, EditM.run_get_bind]
  by_cases hmissing : e.kind.isMissingArg = true
  · rw [if_pos hmissing, if_pos hmissing]
    by_cases hhole : e.ty = .hole
    · rw [if_pos hhole, if_pos hhole]
      rfl
    · rw [if_neg hhole, if_neg hhole]
      rfl
  rw [if_neg hmissing, if_neg hmissing]
  split
  · rfl
  split
  · rfl
  split
  · rfl
  split
  · rfl
  split
  · rw [EditM.run_bind, run_castTo]
    cases e.cast? e.ty param <;> rfl
  · rfl

/-- **What is made of an argument**: what is open takes the type of the parameter, numbers stay
undecided as long as both sides are numbers, and known values are cast. -/
theorem coerce_eq (e : Expression) (param : Ty) : e.coerce param =
    if e.kind.isMissingArg then .ok (if e.ty = .hole then { e with ty := param } else e)
    else if e.ty = param ∨ e.ty = .absurd ∨ param = .hole then .ok e
    else if e.ty = .hole then .ok { e with ty := param }
    else if param = .number ∧ e.ty.numeric = .yes then .ok e
    else if e.ty = .number ∧ param.numeric = .yes then .ok e
    else if e.kind.isValue then
      match e.cast? e.ty param with
      | some cast => .ok cast
      | none => .error (.castFailure e.ty param)
    else .error (.typeMismatch param e.ty) :=
  coerce_of_run (run_accept_eq e param)

/-- **An argument that is not accepted** stays as it is. -/
theorem run_accept (e : Expression) (param : Ty) :
    (EditM.accept param).run e = e.orRefused (e.coerce param) := by
  rw [coerce_eq, run_accept_eq]

/-! ### Made attempts -/

theorem kind_of_value? {v : Value} (h : e.value? = some v) : e.kind = .value v := by
  unfold value? at h
  split at h
  · cases h
    assumption
  · cases h

theorem converted?_cases {b : Builtin} (h : e.converted? b target = some e') :
    ∃ b' v w, target = .builtin b' ∧ e.kind = .value v ∧ v.convert? b b' = some w ∧
      e' = e.withValue w b' := by
  unfold converted? at h
  split at h
  · obtain ⟨w, hw, rfl⟩ := Option.map_eq_some_iff.1 h
    exact ⟨_, _, w, rfl, kind_of_value? ‹_›, hw, rfl⟩
  · cases h

/-- **An expression that is cast** has the type already and stays, or it is a known value and is
converted. -/
theorem cast?_cases (h : e.cast? source target = some e') :
    source = target ∧ e' = e ∨
    source ≠ target ∧ ∃ b b' v w, source = .builtin b ∧ target = .builtin b' ∧
      e.kind = .value v ∧ v.convert? b b' = some w ∧ e' = e.withValue w b' := by
  rw [cast?_eq] at h
  split at h
  · cases h
  · split at h
    · rename_i heq
      exact .inl ⟨heq, (Option.some.inj h).symm⟩
    · rename_i hne
      split at h
      · obtain ⟨b', v, w, rfl, hk, hw, rfl⟩ := converted?_cases h
        exact .inr ⟨hne, _, b', v, w, rfl, rfl, hk, hw, rfl⟩
      · cases h

theorem cast?_kind (h : e.cast? source target = some e') :
    e'.kind = e.kind ∨ e.kind.isValue = true ∧ e'.kind.isValue = true := by
  obtain ⟨-, rfl⟩ | ⟨-, b, b', v, w, -, -, hk, -, rfl⟩ := cast?_cases h
  · exact .inl rfl
  · exact .inr ⟨hk ▸ rfl, rfl⟩

theorem cast?_place (h : e.cast? source target = some e') :
    e'.span = e.span ∧ e'.declared = e.declared := by
  obtain ⟨-, rfl⟩ | ⟨-, b, b', v, w, -, -, -, -, rfl⟩ := cast?_cases h
  · exact ⟨rfl, rfl⟩
  · exact ⟨rfl, rfl⟩

/-- A value that is cast has the type that it was cast to. -/
theorem ty_of_cast? (h : e.cast? source target = some e') (hne : source ≠ target) :
    e'.ty = target := by
  obtain ⟨heq, -⟩ | ⟨-, b, b', v, w, -, rfl, -, -, rfl⟩ := cast?_cases h
  · exact (hne heq).elim
  · rfl

/-! ## Settlements -/

/-- **An expression that is settled** has a native type already and stays, or it is a known value
and is settled. -/
theorem settle?_cases (h : e.settle? source = some e') :
    source.native = .yes ∧ e' = e ∨
    source.native ≠ .yes ∧ ∃ v b w, e.kind = .value v ∧ v.settle? = some (b, w) ∧
      e' = e.withValue w b := by
  rw [settle?_eq] at h
  split at h
  case h_6 | h_7 =>
    obtain ⟨v, hv, hsettled⟩ := Option.bind_eq_some_iff.1 h
    obtain ⟨⟨b, w⟩, hw, rfl⟩ := Option.map_eq_some_iff.1 hsettled
    exact .inr ⟨(by cases ·), v, b, w, kind_of_value? hv, hw, rfl⟩
  case h_8 => cases h
  all_goals exact .inl ⟨rfl, (Option.some.inj h).symm⟩

theorem settle?_kind (h : e.settle? source = some e') :
    e'.kind = e.kind ∨ e.kind.isValue = true ∧ e'.kind.isValue = true := by
  obtain ⟨-, rfl⟩ | ⟨-, v, b, w, hk, -, rfl⟩ := settle?_cases h
  · exact .inl rfl
  · exact .inr ⟨hk ▸ rfl, rfl⟩

/-! ## Conversions -/

/-- A known value takes another one: it is converted, or it is settled. -/
def Converts (e e' : Expression) : Prop :=
  ∃ v b w, e.kind = .value v ∧ e' = e.withValue w b ∧
    ((∃ source, v.convert? source b = some w) ∨ v.settle? = some (b, w))

theorem converts_of_cast? (h : e.cast? source target = some e') (hne : source ≠ target) :
    e.Converts e' := by
  obtain ⟨heq, -⟩ | ⟨-, b, b', v, w, -, -, hk, hw, rfl⟩ := cast?_cases h
  · exact (hne heq).elim
  · exact ⟨v, b', w, hk, rfl, .inl ⟨b, hw⟩⟩

theorem converts_of_settle? (h : e.settle? source = some e') (hnative : source.native ≠ .yes) :
    e.Converts e' := by
  obtain ⟨hyes, -⟩ | ⟨-, v, b, w, hk, hw, rfl⟩ := settle?_cases h
  · exact (hnative hyes).elim
  · exact ⟨v, b, w, hk, rfl, .inr hw⟩

theorem Converts.isValue (h : e.Converts e') : e.kind.isValue = true ∧ e'.kind.isValue = true := by
  obtain ⟨v, b, w, hk, rfl, -⟩ := h
  exact ⟨hk ▸ rfl, rfl⟩

theorem Converts.place (h : e.Converts e') : e'.span = e.span ∧ e'.declared = e.declared := by
  obtain ⟨v, b, w, -, rfl, -⟩ := h
  exact ⟨rfl, rfl⟩

end Expression

/-! ## Kinds -/

namespace ExprKind

variable {k k' : ExprKind}

/-- Nothing lies below a value. -/
theorem children_of_isValue (h : k.isValue = true) : k.children = [] := by
  cases k with
  | value => rfl
  | _ => cases h

theorem isMissingArg_of_isValue (h : k.isValue = true) : k.isMissingArg = false := by
  cases k with
  | value => rfl
  | _ => cases h

/-- A known value or what it is already leaves what lies below an expression as it is. -/
theorem children_eq (h : k' = k ∨ k.isValue = true ∧ k'.isValue = true) :
    k'.children = k.children := by
  obtain rfl | ⟨hv, hv'⟩ := h
  · rfl
  · rw [children_of_isValue hv, children_of_isValue hv']

theorem isMissingArg_eq (h : k' = k ∨ k.isValue = true ∧ k'.isValue = true) :
    k'.isMissingArg = k.isMissingArg := by
  obtain rfl | ⟨hv, hv'⟩ := h
  · rfl
  · rw [isMissingArg_of_isValue hv, isMissingArg_of_isValue hv']

end ExprKind

/-! ## Attempts in the tables -/

open Compilation

variable {α β : Type} (c : Compilation) (id : ExprId)

theorem expr_bind_apply (rest : Expression → CheckM α) :
    (CheckM.expr id >>= rest) c = rest (c.arena.expr id) c := rfl

theorem get_bind_apply (rest : Compilation → CheckM α) : (get >>= rest) c = rest c c := rfl

theorem edit_bind_apply (change : EditM β) (rest : β → CheckM α) :
    (CheckM.edit id change >>= rest) c =
      rest (change.run (c.arena.expr id)).1
        (c.modifyArena (·.modifyExpr id fun _ => (change.run (c.arena.expr id)).2)) := rfl

theorem modifyArena_modifyExpr_self :
    c.modifyArena (·.modifyExpr id fun _ => c.arena.expr id) = c :=
  congrArg (fun arena => { c with arena }) (Arena.modifyExpr_eq_self rfl)

/-- **An attempt in the tables** puts what it makes in the place of the expression, or changes
nothing. -/
theorem edit_orKept {attempt : EditM Bool} {made : Option Expression}
    (h : attempt.run (c.arena.expr id) = (c.arena.expr id).orKept made) (rest : Bool → CheckM α) :
    (CheckM.edit id attempt >>= rest) c =
      made.elim (rest false c) fun e => rest true (c.modifyArena (·.modifyExpr id fun _ => e)) := by
  rw [edit_bind_apply, h]
  cases made with
  | some e => rfl
  | none => exact congrArg (rest false) (modifyArena_modifyExpr_self c id)

/-- **One argument** is replaced by what is accepted, or stays as it is. -/
theorem coerceArg_eq (arg : ExprId) (param : Ty) :
    coerceArg arg param = (do
      let e ← CheckM.expr arg
      match e.coerce param with
      | .ok coerced => CheckM.modifyExpr arg fun _ => coerced
      | .error cause => CheckM.fail cause e.span) := by
  funext c
  rw [coerceArg, edit_bind_apply, expr_bind_apply, Expression.run_accept]
  cases (c.arena.expr arg).coerce param with
  | ok coerced => rfl
  | error cause =>
    simp only [Expression.orRefused, modifyArena_modifyExpr_self]
    rfl

/-- **A known value** is replaced by what it settles as, or stays as it is. -/
theorem concretizeValue_eq (id : ExprId) :
    concretizeValue id = (do
      let e ← CheckM.expr id
      if e.ty.native = .yes then return
      match e.settle? e.ty with
      | some settled => do
        CheckM.modifyExpr id fun _ => settled
        CheckM.emit (.settled settled.span settled.ty)
      | none =>
        match e.value?, e.ty.numeric with
        | some value, .yes => CheckM.fail (.invalidNumber value.text) e.span
        | _, _ => CheckM.fail (.notConcretizable e.ty) e.span) := by
  funext c
  rw [concretizeValue, expr_bind_apply, expr_bind_apply]
  by_cases hnative : (c.arena.expr id).ty.native = .yes
  · rw [if_pos hnative, if_pos hnative]
  rw [if_neg hnative, if_neg hnative, edit_orKept c id (Expression.run_settle _ _)]
  cases hsettle : (c.arena.expr id).settle? (c.arena.expr id).ty with
  | none => rfl
  | some settled =>
    have hlt : id.index < c.arena.exprs.size := by
      obtain ⟨hyes, -⟩ | ⟨-, v, -, -, hk, -⟩ := Expression.settle?_cases hsettle
      · exact (hnative hyes).elim
      · exact Arena.lt_size_of_kind_ne (by simp [hk])
    rw [Option.elim_some, if_pos rfl, expr_bind_apply, modifyArena, Arena.expr_modifyExpr_self hlt]
    rfl

/-- Whether a tree can be brought into a type by widening it. -/
def Compilation.widensTo (c : Compilation) (target : Ty) (id : ExprId) : Option Bool :=
  if target = .float then c.widens id else some false

theorem widenTo_bind_apply (target : Ty) (rest : Bool → CheckM α) :
    (widenTo id target >>= rest) c =
      (match c.widensTo target id with
        | none => throw .cyclic
        | some true => do
          widen id
          rest true
        | some false => rest false : CheckM α) c := by
  unfold widenTo widensTo
  by_cases hfloat : target = .float
  · rw [if_neg (not_not_intro hfloat), if_pos hfloat, bind_assoc, get_bind_apply]
    rcases c.widens id with _ | _ | _
    · rfl
    · rfl
    · simp only [bind_assoc, pure_bind]
  · rw [if_pos hfloat, if_neg hfloat]
    rfl

/-- **An expression that is coerced** is replaced by what it is cast to, or is widened, or stays as
it is. -/
theorem coerceTo_eq (id : ExprId) (target : Ty) :
    coerceTo id target = (do
      let c ← get
      let e := c.arena.expr id
      if e.ty = target then return
      match if e.kind.isValue then e.cast? e.ty target else none with
      | some cast => CheckM.modifyExpr id fun _ => cast
      | none =>
        match c.widensTo target id with
        | none => throw .cyclic
        | some true => widen id
        | some false => CheckM.fail (.typeMismatch target e.ty) e.span) := by
  funext c
  rw [coerceTo, expr_bind_apply, get_bind_apply]
  by_cases hty : (c.arena.expr id).ty = target
  · simp only [if_pos hty]
  simp only [if_neg hty]
  -- What is not cast is widened, or refused.
  have hrest : (widenTo id target >>= fun widened => do
      unless widened do
        CheckM.fail (.typeMismatch target (c.arena.expr id).ty) (← CheckM.expr id).span) c =
      (match c.widensTo target id with
        | none => throw .cyclic
        | some true => widen id
        | some false =>
          CheckM.fail (.typeMismatch target (c.arena.expr id).ty) (c.arena.expr id).span :
        CheckM Unit) c := by
    rw [widenTo_bind_apply]
    rcases c.widensTo target id with _ | _ | _
    · rfl
    · rfl
    · simp only [if_true, bind_pure_unit]
  cases hvalue : (c.arena.expr id).kind.isValue with
  | false => exact hrest
  | true =>
    simp only [if_true]
    rw [edit_orKept c id (Expression.run_castTo _ _ _)]
    cases (c.arena.expr id).cast? (c.arena.expr id).ty target with
    | none => exact hrest
    | some cast => rfl

/-- **A tree that is widened**: a literal takes its float value, and a call is typed anew over its
arguments. -/
theorem widenWithin_succ (depth : Nat) (id : ExprId) :
    widenWithin (depth + 1) id = (do
      let c ← get
      let e := c.arena.expr id
      if e.ty = .float then return
      match e.kind with
      | .value _ =>
        if let some cast := e.cast? .int .float then
          CheckM.modifyExpr id fun _ => cast
      | .call callee args =>
        if let some floatCallee := c.floatCallee? callee then
          forEach (widenWithin depth) (c.followers callee args)
          CheckM.modifyExpr id fun e => { e with kind := .call floatCallee args, ty := .float }
          CheckM.emit (.widened (c.arena.definition floatCallee).name)
      | _ => return) := by
  funext c
  rw [widenWithin, get_bind_apply, get_bind_apply]
  split
  · rfl
  cases (c.arena.expr id).kind with
  | value =>
    refine (edit_orKept c id (Expression.run_castTo _ .int .float) _).trans ?_
    cases (c.arena.expr id).cast? .int .float <;> rfl
  | _ => rfl

end Termwise
