import Termwise.Proofs.Run.Steady

/-!
# Calls over numbers

Numbers are never cast when they are arguments of calls over numbers, and the only argument that
is refused is a call that is still open: its type is a function type. So nothing but new nodes and
the types of their open arguments comes of such a call.

Types are known up to what matters here, because a reference takes the type of its definition when
it is classified, and that reference may be the body of another definition.

## Main definitions

* `Ty.Alike`: types that are alike as types of numbers and of functions over them
* `Compilation.Quiet`: nothing changed that a run over numbers depends on
* `Compilation.IsNumber`, `Compilation.IsOpenCall`, `Compilation.IsGap`: nodes that a run over
  numbers is arranged from

## Main results

* `Compilation.Quiet.definitionType`: definitions keep their types, up to what matters
* `allocCall_number`: a call over numbers and gaps is built
* `allocCall_openCall`: a call over an open one is refused
-/

namespace Termwise

open Compilation

/-! ## Types of numbers -/

/-- A class of types of numbers, with the generic one among them. -/
structure IsNumberClass (Num : Ty → Prop) : Prop where
  numeric : ∀ {ty : Ty}, Num ty → ty.numeric = .yes
  number : Num .number

namespace Ty

variable (Num : Ty → Prop)

/-- A parameter type that takes every number of a class as it is. -/
def Takes (param : Ty) : Prop :=
  ∀ ty, Num ty → ty = param ∨ param = .number ∨ ty = .number ∧ param.numeric = .yes

/-- The type of an operator with one number for operand and result. -/
def IsUnary (ty : Ty) : Prop :=
  ∃ param result isPure, ty = .function [param] result isPure ∧ param.Takes Num ∧ Num result

/-- The type of an operator between two numbers. -/
def IsArithmetic (ty : Ty) : Prop := ∃ isPure, ty = .function [.number, .number] .number isPure

/-- Types that are alike as types of numbers and of functions over them. -/
structure Alike (s t : Ty) : Prop where
  num : Num s ↔ Num t
  unary : s.IsUnary Num ↔ t.IsUnary Num
  arithmetic : s.IsArithmetic ↔ t.IsArithmetic
  arity : s.arity = t.arity

variable {Num} {s t u : Ty}

theorem Alike.refl (s : Ty) : Alike Num s s := ⟨.rfl, .rfl, .rfl, rfl⟩

theorem Alike.trans (h : Alike Num s t) (h' : Alike Num t u) : Alike Num s u :=
  ⟨h.num.trans h'.num, h.unary.trans h'.unary, h.arithmetic.trans h'.arithmetic,
    h.arity.trans h'.arity⟩

theorem takes_number : Takes Num .number := fun _ _ => .inr (.inl rfl)

variable (hNum : IsNumberClass Num)

include hNum

/-- A number is no function. -/
theorem ne_function (hs : Num s) (params : List Ty) (result : Ty) (isPure : Bool) :
    s ≠ .function params result isPure := by
  rintro rfl
  have := hNum.numeric hs
  simp [numeric] at this

theorem alike_of_num (hs : Num s) (ht : Num t) : Alike Num s t := by
  have hunary : ∀ {v : Ty}, Num v → ¬ v.IsUnary Num := by
    rintro v hv ⟨_, _, _, rfl, -⟩
    exact ne_function hNum hv _ _ _ rfl
  have harith : ∀ {v : Ty}, Num v → ¬ v.IsArithmetic := by
    rintro v hv ⟨_, rfl⟩
    exact ne_function hNum hv _ _ _ rfl
  have harity : ∀ {v : Ty}, Num v → v.arity = 0 := by
    intro v hv
    cases v with
    | function params result isPure => exact (ne_function hNum hv _ _ _ rfl).elim
    | builtin | named => rfl
  exact ⟨iff_of_true hs ht, iff_of_false (hunary hs) (hunary ht),
    iff_of_false (harith hs) (harith ht), (harity hs).trans (harity ht).symm⟩

theorem arity_of_num (hs : Num s) : s.arity = 0 :=
  (alike_of_num hNum hs hNum.number).arity

theorem alike_of_unary (hs : s.IsUnary Num) (ht : t.IsUnary Num) : Alike Num s t := by
  have hnum : ∀ {v : Ty}, v.IsUnary Num → ¬ Num v := by
    rintro v ⟨_, _, _, rfl, -⟩ hv
    exact ne_function hNum hv _ _ _ rfl
  have harith : ∀ {v : Ty}, v.IsUnary Num → ¬ v.IsArithmetic := by
    rintro v ⟨_, _, _, rfl, -⟩ ⟨_, hv⟩
    simp at hv
  have harity : ∀ {v : Ty}, v.IsUnary Num → v.arity = 1 := by
    rintro v ⟨_, _, _, rfl, -⟩
    rfl
  exact ⟨iff_of_false (hnum hs) (hnum ht), iff_of_true hs ht,
    iff_of_false (harith hs) (harith ht), (harity hs).trans (harity ht).symm⟩

theorem alike_of_arithmetic (hs : s.IsArithmetic) (ht : t.IsArithmetic) : Alike Num s t := by
  have hnum : ∀ {v : Ty}, v.IsArithmetic → ¬ Num v := by
    rintro v ⟨_, rfl⟩ hv
    exact ne_function hNum hv _ _ _ rfl
  have hunary : ∀ {v : Ty}, v.IsArithmetic → ¬ v.IsUnary Num := by
    rintro v ⟨_, rfl⟩ ⟨_, _, _, hv, -⟩
    simp at hv
  have harity : ∀ {v : Ty}, v.IsArithmetic → v.arity = 2 := by
    rintro v ⟨_, rfl⟩
    rfl
  exact ⟨iff_of_false (hnum hs) (hnum ht), iff_of_false (hunary hs) (hunary ht),
    iff_of_true hs ht, (harity hs).trans (harity ht).symm⟩

/-- A number is taken as it is. -/
theorem coerce_of_num {e : Expression} {param : Ty} (hk : e.kind.isMissingArg = false)
    (hty : Num e.ty) (hparam : param.Takes Num) : e.coerce param = .ok e := by
  have hnumeric := hNum.numeric hty
  have hhole : e.ty ≠ .hole := by
    intro h
    rw [h] at hnumeric
    cases hnumeric
  simp only [Expression.coerce_eq, hk, hnumeric, hhole, Bool.false_eq_true, if_false, and_true]
  rcases hparam e.ty hty with h | h | ⟨h, h'⟩
  · simp [h]
  · split
    · rfl
    · simp
  · split
    · rfl
    · split
      · rfl
      · simp [h, h']

end Ty

/-- A call that is still open is refused where a number is expected. -/
theorem coerce_of_function {e : Expression} {params : List Ty} {result : Ty} {isPure : Bool}
    {d : DefId} {args : List ExprId} (hk : e.kind = .call d args)
    (hty : e.ty = .function params result isPure) :
    e.coerce .number = .error (.typeMismatch .number e.ty) := by
  simp [Expression.coerce_eq, hk, hty, ExprKind.isMissingArg, ExprKind.isValue, Ty.numeric]

/-! ## What stays -/

/-- An expression is the body of a definition without a declared type, which takes its type. -/
def Compilation.IsBody (c : Compilation) (n : ExprId) : Prop :=
  ∃ d, (c.arena.definition d).declared = none ∧ (c.arena.definition d).body = .expression n

/-- An expression whose type may change: an open argument of a new call, or a reference. -/
def Compilation.Loose (c : Compilation) (bound : Nat) (n : ExprId) : Prop :=
  bound ≤ n.index ∧ (c.arena.expr n).kind = .missingArg ∨
    (∃ d, (c.arena.expr n).kind = .operator d) ∨ ∃ d, (c.arena.expr n).kind = .reference d

/-- Nothing changed that a run over numbers depends on: only open arguments and references took
types, and a body that was there from the start is typed as before, up to what matters. -/
structure Compilation.Quiet (Num : Ty → Prop) (bound : Nat) (c c' : Compilation) : Prop
    extends Steady c c' where
  expr : ∀ n : ExprId, n.index < c.arena.exprs.size →
    c'.arena.expr n = c.arena.expr n ∨ c.Loose bound n
  num : ∀ (n : ExprId) (d : DefId), (c.arena.expr n).kind = .reference d →
    c'.arena.expr n = c.arena.expr n ∨ Num (c'.arena.expr n).ty
  alike : ∀ n : ExprId, n.index < bound → c.IsBody n →
    Ty.Alike Num (c.arena.expr n).ty (c'.arena.expr n).ty

section

variable {Num : Ty → Prop} {bound : Nat} {c c' c'' : Compilation} {n t : ExprId} {d : DefId}

theorem Compilation.Loose.isValue (h : c.Loose bound n) :
    (c.arena.expr n).kind.isValue = false := by
  rcases h with ⟨-, hk⟩ | ⟨d, hk⟩ | ⟨d, hk⟩ <;> rw [hk] <;> rfl

theorem Compilation.Steady.isBody (h : c.Steady c') : c'.IsBody n ↔ c.IsBody n := by
  simp only [IsBody, h.extends.definition]

theorem Compilation.Quiet.refl (Num : Ty → Prop) (bound : Nat) (c : Compilation) :
    Quiet Num bound c c where
  toSteady := .refl c
  expr _ _ := .inl rfl
  num _ _ _ := .inl rfl
  alike _ _ _ := .refl _

theorem Compilation.Quiet.kind_eq (h : Quiet Num bound c c') {k : ExprKind}
    (hk : (c.arena.expr n).kind = k) (hdeleted : k ≠ .deleted) :
    (c'.arena.expr n).kind = k := by
  have hlt : n.index < c.arena.exprs.size := Arena.lt_size_of_kind_ne (hk ▸ hdeleted)
  rcases h.expr n hlt with heq | hloose
  · rw [heq, hk]
  · exact (h.kind n hlt hloose.isValue).trans hk

/-- Values and calls are not touched. -/
theorem Compilation.Quiet.expr_eq (h : Quiet Num bound c c')
    (hk : (∃ v, (c.arena.expr n).kind = .value v) ∨
      ∃ d args, (c.arena.expr n).kind = .call d args) :
    c'.arena.expr n = c.arena.expr n := by
  have hlt : n.index < c.arena.exprs.size := by
    apply Arena.lt_size_of_kind_ne
    rcases hk with ⟨v, hk⟩ | ⟨d, args, hk⟩ <;> simp [hk]
  refine (h.expr n hlt).resolve_right fun hloose => ?_
  unfold Loose at hloose
  rcases hk with ⟨v, hk⟩ | ⟨d, args, hk⟩ <;> simp [hk] at hloose

theorem Compilation.Quiet.trans (h : Quiet Num bound c c') (h' : Quiet Num bound c' c'') :
    Quiet Num bound c c'' where
  toSteady := h.toSteady.trans h'.toSteady
  expr n hn := by
    rcases h.expr n hn with heq | hloose
    · rcases h'.expr n (hn.trans_le h.size) with heq' | hloose'
      · exact .inl (heq'.trans heq)
      · exact .inr (by unfold Loose at hloose' ⊢; rwa [← heq])
    · exact .inr hloose
  num n d hk := by
    rcases h'.num n d (h.kind_eq hk (by simp)) with heq | hty
    · rw [heq]
      exact h.num n d hk
    · exact .inr hty
  alike n hn hbody := (h.alike n hn hbody).trans (h'.alike n hn (h.isBody.2 hbody))

theorem quiet_allocExpr {e : Expression} (hbound : bound ≤ c.arena.exprs.size)
    (he : ∀ ts, e.kind ≠ .run ts) : Quiet Num bound c (c.allocExpr e).2 where
  toSteady := steady_allocExpr c he
  expr n hn := .inl (Arena.expr_allocExpr_of_lt hn e)
  num n d hk :=
    .inl (Arena.expr_allocExpr_of_lt (Arena.lt_size_of_kind_ne (by simp [hk])) e)
  alike n hn _ := by
    rw [show (c.allocExpr e).2.arena.expr n = c.arena.expr n from
      Arena.expr_allocExpr_of_lt (hn.trans_le hbound) e]
    exact .refl _

theorem quiet_types (types : TypeStore) : Quiet Num bound c { c with types } where
  toSteady := steady_types c types
  expr _ _ := .inl rfl
  num _ _ _ := .inl rfl
  alike _ _ _ := .refl _

/-- A new type for a reference or a new open argument. -/
theorem quiet_modifyExpr {f : Expression → Expression}
    (hkind : (f (c.arena.expr t)).kind = (c.arena.expr t).kind) (hloose : c.Loose bound t)
    (hnum : ∀ d, (c.arena.expr t).kind = .reference d → Num (f (c.arena.expr t)).ty)
    (halike : t.index < bound → c.IsBody t →
      Ty.Alike Num (c.arena.expr t).ty (f (c.arena.expr t)).ty) :
    Quiet Num bound c (c.modifyArena (·.modifyExpr t f)) where
  toSteady := steady_modifyExpr (.inl hkind)
  expr n _ := by
    by_cases hn : n = t
    · exact .inr (hn ▸ hloose)
    · exact .inl (Arena.expr_modifyExpr_of_ne hn f)
  num n d hk := by
    by_cases hn : n = t
    · subst hn
      have hlt : n.index < c.arena.exprs.size := Arena.lt_size_of_kind_ne (by simp [hk])
      simp only [modifyArena, Arena.expr_modifyExpr_self hlt]
      exact .inr (hnum d hk)
    · exact .inl (Arena.expr_modifyExpr_of_ne hn f)
  alike n hn hbody := by
    simp only [modifyArena, Arena.expr_modifyExpr]
    split <;> rename_i hnt
    · obtain ⟨rfl, -⟩ := hnt
      exact halike hn hbody
    · exact .refl _

/-- The type of a definition stays, up to what matters, if its body was there from the start. -/
theorem Compilation.Quiet.definitionType (h : Quiet Num bound c c')
    (hbody : ∀ b, (c.arena.definition d).declared = none →
      (c.arena.definition d).body = .expression b → b.index < bound) :
    Ty.Alike Num (c.arena.definitionType d) (c'.arena.definitionType d) := by
  have hd := h.extends.definition d
  cases hdecl : (c.arena.definition d).declared with
  | some ty =>
    rw [Arena.definitionType_of_declared hdecl, Arena.definitionType_of_declared (hd ▸ hdecl)]
    exact .refl ty
  | none =>
    by_cases hb : ∃ b, (c.arena.definition d).body = .expression b
    · obtain ⟨b, hb⟩ := hb
      rw [Arena.definitionType_of_body hdecl hb, Arena.definitionType_of_body (hd ▸ hdecl)
        (hd ▸ hb)]
      exact h.alike b (hbody b hdecl hb) ⟨d, hdecl, hb⟩
    · have hnone : ∀ b, (c.arena.definition d).body ≠ .expression b := fun b h => hb ⟨b, h⟩
      rw [Arena.definitionType_of_no_body hdecl hnone,
        Arena.definitionType_of_no_body (hd ▸ hdecl) (hd ▸ hnone)]
      exact .refl _

/-- A definition with a type has its body in the table. -/
theorem alike_definitionType (h : Quiet Num c.arena.exprs.size c c')
    (hty : c.arena.definitionType d ≠ .absurd) :
    Ty.Alike Num (c.arena.definitionType d) (c'.arena.definitionType d) := by
  refine h.definitionType fun b hdecl hb => Nat.lt_of_not_le fun hle => hty ?_
  rw [Arena.definitionType_of_body hdecl hb, Arena.expr_of_size_le hle]
  rfl

/-! ## Arguments -/

/-- A node that is a number. -/
structure Compilation.IsNumber (Num : Ty → Prop) (c : Compilation) (n : ExprId) : Prop where
  kind : (∃ v, (c.arena.expr n).kind = .value v) ∨ (∃ d, (c.arena.expr n).kind = .reference d) ∨
    ∃ d args, (c.arena.expr n).kind = .call d args
  ty : Num (c.arena.expr n).ty

/-- A call that is still open. -/
structure Compilation.IsOpenCall (c : Compilation) (n : ExprId) : Prop where
  kind : ∃ d args, (c.arena.expr n).kind = .call d args
  ty : ∃ params result isPure, (c.arena.expr n).ty = .function params result isPure

/-- An open argument of a new call. -/
structure Compilation.IsGap (bound : Nat) (c : Compilation) (n : ExprId) : Prop where
  new : bound ≤ n.index
  kind : (c.arena.expr n).kind = .missingArg

theorem Compilation.IsNumber.quiet (h : c.IsNumber Num n) (hc : Quiet Num bound c c') :
    c'.IsNumber Num n := by
  rcases h.kind with hk | ⟨d, hk⟩ | hk
  · rw [show c'.IsNumber Num n ↔ c.IsNumber Num n from
      ⟨fun _ => h, fun _ => ⟨by rw [hc.expr_eq (.inl hk)]; exact h.kind,
        by rw [hc.expr_eq (.inl hk)]; exact h.ty⟩⟩]
    exact h
  · refine ⟨.inr (.inl ⟨d, hc.kind_eq hk (by simp)⟩), ?_⟩
    rcases hc.num n d hk with heq | hty
    · rw [heq]
      exact h.ty
    · exact hty
  · refine ⟨?_, ?_⟩ <;> rw [hc.expr_eq (.inr hk)]
    · exact h.kind
    · exact h.ty

theorem Compilation.IsOpenCall.quiet (h : c.IsOpenCall n) (hc : Quiet Num bound c c') :
    c'.IsOpenCall n := by
  refine ⟨?_, ?_⟩ <;> rw [hc.expr_eq (.inr h.kind)]
  · exact h.kind
  · exact h.ty

theorem Compilation.IsGap.quiet (h : c.IsGap bound n) (hc : Quiet Num bound c c') :
    c'.IsGap bound n :=
  ⟨h.new, hc.kind_eq h.kind (by simp)⟩

theorem Compilation.IsNumber.isMissing (h : c.IsNumber Num n) : c.arena.isMissing n = false := by
  unfold Arena.isMissing
  rcases h.kind with ⟨v, hk⟩ | ⟨d, hk⟩ | ⟨d, args, hk⟩ <;> rw [hk] <;> rfl

theorem Compilation.IsGap.isMissing (h : c.IsGap bound n) : c.arena.isMissing n = true := by
  unfold Arena.isMissing
  rw [h.kind]
  rfl

/-- Open parameters are left if and only if an argument is open. -/
theorem isEmpty_unboundParams (isMissing : ExprId → Bool) {params : List Ty} {args : List ExprId}
    (h : args.length = params.length) :
    (unboundParams isMissing params args).isEmpty = !args.any isMissing := by
  induction params generalizing args with
  | nil =>
    obtain rfl := List.length_eq_zero_iff.1 h
    rfl
  | cons param params ih =>
    cases args with
    | nil => cases h
    | cons arg args =>
      rw [unboundParams, List.any_cons]
      cases isMissing arg with
      | true => rfl
      | false => exact ih (Nat.succ.inj h)

theorem coerceArg_gap (h : c.IsGap bound n) (param : Ty) :
    Outcome (coerceArg n param) c
      (fun _ c' => Quiet Num bound c c' ∧ c'.arena.exprs.size = c.arena.exprs.size)
      fun _ _ => False := by
  simp only [coerceArg_eq, outcome_bind, outcome_expr, Expression.coerce_eq, h.kind,
    ExprKind.isMissingArg, if_true, outcome_modifyExpr]
  refine ⟨quiet_modifyExpr ?_ (.inl ⟨h.new, h.kind⟩) (by simp [h.kind]) ?_, by simp [modifyArena]⟩
  · split
    · exact h.kind.symm
    · rfl
  · exact fun hlt => (Nat.not_lt.2 h.new hlt).elim

section

variable (hNum : IsNumberClass Num)

include hNum

theorem coerceArg_number {param : Ty} (h : c.IsNumber Num n) (hparam : param.Takes Num) :
    Outcome (coerceArg n param) c
      (fun _ c' => Quiet Num bound c c' ∧ c'.arena.exprs.size = c.arena.exprs.size)
      fun _ _ => False := by
  have hcoerce : (c.arena.expr n).coerce param = .ok (c.arena.expr n) :=
    Ty.coerce_of_num hNum h.isMissing h.ty hparam
  have hself : c.arena.modifyExpr n (fun _ => c.arena.expr n) = c.arena :=
    Arena.modifyExpr_eq_self rfl
  simp only [coerceArg_eq, outcome_bind, outcome_expr, hcoerce, outcome_modifyExpr, modifyArena,
    hself]
  exact ⟨.refl Num bound c, trivial⟩

/-- Numbers and gaps are accepted as they are. -/
theorem coerceArgs_number {args : List ExprId} {params : List Ty}
    (hargs : ∀ n ∈ args, c.IsNumber Num n ∨ c.IsGap bound n)
    (hparams : ∀ param ∈ params, param.Takes Num) :
    Outcome (coerceArgs args params) c
      (fun _ c' => Quiet Num bound c c' ∧ c'.arena.exprs.size = c.arena.exprs.size)
      fun _ _ => False := by
  induction args generalizing params c with
  | nil => exact ⟨.refl Num bound c, rfl⟩
  | cons n args ih =>
    cases params with
    | nil => exact ⟨.refl Num bound c, rfl⟩
    | cons param params =>
      obtain ⟨hn, hargs⟩ := List.forall_mem_cons.1 hargs
      obtain ⟨hparam, hparams⟩ := List.forall_mem_cons.1 hparams
      have hfirst : Outcome (coerceArg n param) c
          (fun _ c' => Quiet Num bound c c' ∧ c'.arena.exprs.size = c.arena.exprs.size)
          fun _ _ => False := by
        rcases hn with hn | hn
        · exact coerceArg_number hNum hn hparam
        · exact coerceArg_gap hn param
      simp only [coerceArgs, outcome_bind]
      refine hfirst.imp ?_
      rintro _ c₁ ⟨hquiet, hsize⟩
      have hargs₁ : ∀ m ∈ args, c₁.IsNumber Num m ∨ c₁.IsGap bound m := fun m hm =>
        (hargs m hm).imp (·.quiet hquiet) (·.quiet hquiet)
      refine (ih hargs₁ hparams).imp ?_
      rintro _ c₂ ⟨hquiet', hsize'⟩
      exact ⟨hquiet.trans hquiet', hsize'.trans hsize⟩

/-- An open call among numbers and gaps is refused. -/
theorem coerceArgs_openCall {args : List ExprId} {params : List Ty}
    (hargs : ∀ n ∈ args, c.IsNumber Num n ∨ c.IsGap bound n ∨ c.IsOpenCall n)
    (hopen : ∃ n ∈ args, c.IsOpenCall n) (hlength : args.length = params.length)
    (hparams : ∀ param ∈ params, param = .number) :
    Outcome (coerceArgs args params) c (fun _ _ => False) fun _ _ => True := by
  induction args generalizing params c with
  | nil => simp at hopen
  | cons n args ih =>
    cases params with
    | nil => cases hlength
    | cons param params =>
      obtain ⟨hn, hargs⟩ := List.forall_mem_cons.1 hargs
      obtain ⟨rfl, hrest⟩ := List.forall_mem_cons.1 hparams
      by_cases hcall : c.IsOpenCall n
      · obtain ⟨d, as, hk⟩ := hcall.kind
        obtain ⟨ps, r, p, hty⟩ := hcall.ty
        simp only [coerceArgs, coerceArg_eq, outcome_bind, outcome_expr, coerce_of_function hk hty,
          outcome_fail]
      · have hfirst : Outcome (coerceArg n .number) c
            (fun _ c' => Quiet Num bound c c' ∧ c'.arena.exprs.size = c.arena.exprs.size)
            fun _ _ => False := by
          rcases hn with hn | hn | hn
          · exact coerceArg_number hNum hn Ty.takes_number
          · exact coerceArg_gap hn _
          · exact (hcall hn).elim
        simp only [coerceArgs, outcome_bind]
        refine hfirst.mono ?_ fun _ _ => False.elim
        rintro _ c₁ ⟨hquiet, -⟩
        obtain ⟨m, hm, hmopen⟩ := hopen
        have hmargs : m ∈ args := by
          rcases List.mem_cons.1 hm with rfl | hm
          · exact (hcall hmopen).elim
          · exact hm
        exact ih (fun m hm => (hargs m hm).imp (·.quiet hquiet) fun h =>
            h.imp (·.quiet hquiet) (·.quiet hquiet))
          ⟨m, hmargs, hmopen.quiet hquiet⟩ (Nat.succ.inj hlength) hrest

/-- **A call over numbers and gaps** is built, and nothing else changes. Its type is the result of
its callee, or a function type if there is a gap. -/
theorem allocCall_number {d : DefId} {args : List ExprId} {params : List Ty} {result : Ty}
    {isPure : Bool} (span : Span) (hbound : bound ≤ c.arena.exprs.size)
    (hty : c.arena.definitionType d = .function params result isPure)
    (hlength : args.length = params.length)
    (hargs : ∀ n ∈ args, c.IsNumber Num n ∨ c.IsGap bound n)
    (hparams : ∀ param ∈ params, param.Takes Num) :
    Outcome (allocCall d args span) c
      (fun n c' => Quiet Num bound c c' ∧ (c'.arena.expr n).kind = .call d args ∧
        ((∀ m ∈ args, c.IsNumber Num m) → (c'.arena.expr n).ty = result) ∧
        ((∃ m ∈ args, c.IsGap bound m) →
          ∃ unbound, (c'.arena.expr n).ty = .function unbound result isPure))
      fun _ _ => False := by
  simp only [allocCall, createCall, outcome_bind, outcome_definitionType, hty,
    Nat.not_lt.2 hlength.le, if_false]
  refine (coerceArgs_number hNum hargs hparams).imp ?_
  rintro _ c₁ ⟨hquiet, hsize⟩
  have hempty := isEmpty_unboundParams c₁.arena.isMissing hlength
  have hbound₁ : bound ≤ c₁.arena.exprs.size := hsize ▸ hbound
  -- No argument is open if all are numbers, and one is if there is a gap.
  have hnumbers : (∀ m ∈ args, c.IsNumber Num m) → args.any c₁.arena.isMissing = false := by
    intro hall
    refine List.any_eq_false.2 fun m hm => ?_
    simp [((hall m hm).quiet hquiet).isMissing]
  have hgap : (∃ m ∈ args, c.IsGap bound m) → args.any c₁.arena.isMissing = true := by
    rintro ⟨m, hm, hmissing⟩
    exact List.any_eq_true.2 ⟨m, hm, (hmissing.quiet hquiet).isMissing⟩
  simp only [outcome_arena]
  split <;> rename_i hcase <;> rw [hempty] at hcase
  · simp only [outcome_allocExpr]
    refine ⟨hquiet.trans (quiet_allocExpr hbound₁ (by simp [Expression.new])), ?_, ?_, ?_⟩
    · exact congrArg Expression.kind (Arena.expr_allocExpr_self ..)
    · exact fun _ => congrArg Expression.ty (Arena.expr_allocExpr_self ..)
    · intro h
      simp [hgap h] at hcase
  · simp only [outcome_allocExpr]
    let unbound := unboundParams c₁.arena.isMissing params args
    have hquiet₁ := hquiet.trans (quiet_types (c₁.types.functionType unbound result isPure).2)
    refine ⟨hquiet₁.trans (quiet_allocExpr hbound₁ (by simp [Expression.new])), ?_, ?_, ?_⟩
    · exact congrArg Expression.kind (Arena.expr_allocExpr_self ..)
    · intro h
      simp [hnumbers h] at hcase
    · have hissued := TypeStore.functionType_ty c₁.types unbound result isPure
      exact fun _ =>
        ⟨unbound, (congrArg Expression.ty (Arena.expr_allocExpr_self ..)).trans hissued⟩

theorem allocCall_openCall {d : DefId} {args : List ExprId} {params : List Ty} {result : Ty}
    {isPure : Bool} (span : Span)
    (hty : c.arena.definitionType d = .function params result isPure)
    (hlength : args.length = params.length)
    (hargs : ∀ n ∈ args, c.IsNumber Num n ∨ c.IsGap bound n ∨ c.IsOpenCall n)
    (hopen : ∃ n ∈ args, c.IsOpenCall n) (hparams : ∀ param ∈ params, param = .number) :
    Outcome (allocCall d args span) c (fun _ _ => False) fun _ _ => True := by
  simp only [allocCall, createCall, outcome_bind, outcome_definitionType, hty,
    Nat.not_lt.2 hlength.le, if_false]
  exact (coerceArgs_openCall hNum hargs hopen hlength hparams).imp fun _ _ => False.elim

end

end

end Termwise
