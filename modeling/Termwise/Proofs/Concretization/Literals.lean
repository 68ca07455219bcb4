import Termwise.Proofs.Concretization.Widening

/-!
# Arithmetic over literals

A tree of generic arithmetic over literals has a type without anybody declaring one: that of
integers, unless one of its literals is a float, which makes floats of all. The walk finds this
type one call at a time. Whenever the arguments of a call disagree, the one that is an integer so
far is rebuilt, down to its literals; this never fails, since it was rebuilt from literals itself.

The operators may have bodies, which are walked first and may fail or go on for ever. As long as no
body leads back into the tree, that is the only way for the walk of the tree to stop.

## Main definitions

* `Expression.literal?`: the number that an expression stands for
* `Compilation.Arithmetic`: generic arithmetic over literals
* `Compilation.numberType`: the type of such a tree
* `Compilation.Settles`: a tree took its type
* `StopsIn`: the walk of a tree stops in the body of one of its operators

## Main results

* `Typed.widensWithin`: an integer tree can become one of floats
* `typeCall_typed`: a call takes the type of its tree
* `visitWithin_literals`: the walk of a tree gives it its type, or stops in an operator
* `concretize_literals`: arithmetic over literals takes its type
* `not_stopsIn`: operators without a body never stop the walk
-/

namespace Termwise

open Compilation

/-! ## Literals -/

/-- A number as it is written. -/
inductive Literal where
  | integer (value : Int64)
  | decimal (value : Float)

namespace Literal

/-- The type that a literal has on its own. -/
def ty : Literal → Ty
  | integer _ => .int
  | decimal _ => .float

/-- What a literal holds in a tree of a type. -/
def value (ty : Ty) : Literal → Value
  | integer i => if ty = .float then .float (Value.floatOfInt i) else .int i
  | decimal x => .float x

end Literal

/-- The number that an expression stands for: a constant, or a numeric literal whose text can be
read. -/
def Expression.literal? (e : Expression) : Option Literal :=
  match e.ty, e.kind with
  | .int, .value (.int i) => some (.integer i)
  | .float, .value (.float x) => some (.decimal x)
  | .numberLiteral, .value (.string text) =>
    match Text.Integer.read text with
    | some i => some (.integer i)
    | none => (Text.readFloat? text).map .decimal
  | _, _ => none

namespace Compilation

/-- A definition is declared to be generic arithmetic on two operands. -/
def Computes (c : Compilation) (d : DefId) : Prop :=
  ∃ isPure, (c.arena.definition d).declared = some (.function [.number, .number] .number isPure)

/-- Some expressions are literals or generic arithmetic, and have no declared type. -/
def Arithmetic (c : Compilation) (xs : List ExprId) : Prop :=
  ∀ n ∈ xs, (c.arena.expr n).declared = none ∧
    ((∃ l, (c.arena.expr n).literal? = some l) ∨
      ∃ d x y, (c.arena.expr n).kind = .call d [x, y] ∧ c.Computes d)

/-- The type of a tree of arithmetic: that of floats if one of its literals is a float. -/
def numberType (c : Compilation) (xs : List ExprId) : Ty :=
  if xs.any fun n => (c.arena.expr n).literal?.any (·.ty = .float) then .float else .int

end Compilation

/-- An expression took the type of its tree. Integer arithmetic keeps its callee. -/
structure Expression.TypedAs (t : Ty) (e e' : Expression) : Prop where
  ty : e'.ty = t
  declared : e'.declared = e.declared
  literal : ∀ l, e.literal? = some l → e'.kind = .value (l.value t)
  call : ∀ d args, e.kind = .call d args → ∃ d', e'.kind = .call d' args ∧ (t = .int → d' = d)

/-- Only some expressions and those of a region changed. -/
structure Compilation.Besides (R : Set Place) (xs : List ExprId) (c c' : Compilation) : Prop
    extends SameProgram c c' where
  closed : c.Closed R → c'.Closed R
  outside : ∀ n, .expr n ∉ R → n ∉ xs → c'.arena.expr n = c.arena.expr n

/-- A tree took a type. -/
def Compilation.Typed (t : Ty) (xs : List ExprId) (c c' : Compilation) : Prop :=
  ∀ n ∈ xs, (c.arena.expr n).TypedAs t (c'.arena.expr n)

/-- A tree took its type, and only its expressions and those of a region changed. -/
structure Compilation.Settles (R : Set Place) (xs : List ExprId) (c c' : Compilation) : Prop
    extends Besides R xs c c' where
  typed : c.Typed (c.numberType xs) xs c'

variable {c c' c'' : Compilation} {settings : Settings} {R : Set Place} {id n x y : ExprId}
  {ids xs ys : List ExprId} {l : Literal} {e : Expression} {ty : Ty} {d : DefId}

theorem Expression.isValue_of_literal? (h : e.literal? = some l) : e.kind.isValue = true := by
  unfold literal? at h
  split at h
  · simp [*, ExprKind.isValue]
  · simp [*, ExprKind.isValue]
  · simp [*, ExprKind.isValue]
  · cases h

namespace Compilation

theorem numberType_eq (c : Compilation) (xs : List ExprId) :
    c.numberType xs = .int ∨ c.numberType xs = .float := by
  unfold numberType
  split
  · exact .inr rfl
  · exact .inl rfl

/-- A tree is one of floats if one of two parts is. -/
theorem numberType_append (c : Compilation) (xs ys : List ExprId) :
    c.numberType (xs ++ ys) =
      if c.numberType xs = .float ∨ c.numberType ys = .float then .float else .int := by
  simp only [numberType, List.any_append, Bool.or_eq_true]
  split_ifs <;> simp_all

theorem numberType_cons_of_call (h : (c.arena.expr n).literal? = none) (xs : List ExprId) :
    c.numberType (n :: xs) = c.numberType xs := by
  simp only [numberType, List.any_cons, h, Option.any_none, Bool.false_or]

/-- A call takes the type of one of its arguments, or that of floats. -/
theorem numberType_call (h : (c.arena.expr n).literal? = none) (xs ys : List ExprId)
    {zs : List ExprId} (hzs : zs = xs ∨ zs = ys) :
    c.numberType (n :: (xs ++ ys)) = c.numberType zs ∨
      c.numberType (n :: (xs ++ ys)) = .float := by
  rw [numberType_cons_of_call h, numberType_append]
  split_ifs with hfloat
  · exact .inr rfl
  · rw [not_or] at hfloat
    rcases hzs with rfl | rfl
    · exact .inl ((c.numberType_eq _).resolve_right hfloat.1).symm
    · exact .inl ((c.numberType_eq _).resolve_right hfloat.2).symm

theorem numberType_singleton (h : (c.arena.expr n).literal? = some l) :
    c.numberType [n] = l.ty := by
  cases l <;> simp [numberType, h, Literal.ty]

theorem literal?_of_call {args : List ExprId} (h : (c.arena.expr n).kind = .call d args) :
    (c.arena.expr n).literal? = none := by
  unfold Expression.literal?
  split <;> simp_all

theorem SameProgram.computes (h : c.SameProgram c') (hd : c.Computes d) : c'.Computes d := by
  unfold Computes
  rwa [h.definition]

theorem Arithmetic.mono (h : c.Arithmetic ys) (hsub : xs ⊆ ys) : c.Arithmetic xs :=
  fun n hn => h n (hsub hn)

theorem Agrees.arithmetic (h : c.Agrees xs c') (hc : c.Arithmetic xs) : c'.Arithmetic xs := by
  intro n hn
  rw [h.expr n hn]
  refine (hc n hn).imp_right (Or.imp_right ?_)
  rintro ⟨d, x, y, hk, hd⟩
  exact ⟨d, x, y, hk, h.computes hd⟩

theorem Agrees.numberType (h : c.Agrees xs c') : c'.numberType xs = c.numberType xs := by
  have hany : (xs.any fun n => (c'.arena.expr n).literal?.any (·.ty = .float)) =
      xs.any fun n => (c.arena.expr n).literal?.any (·.ty = .float) := by
    rw [Bool.eq_iff_iff, List.any_eq_true, List.any_eq_true]
    refine exists_congr fun n => and_congr_right fun hn => ?_
    rw [h.expr n hn]
  simp only [Compilation.numberType, hany]

theorem Computes.definitionType (h : c.Computes d) :
    ∃ isPure, c.arena.definitionType d = .function [.number, .number] .number isPure := by
  obtain ⟨isPure, h⟩ := h
  exact ⟨isPure, Arena.definitionType_of_declared h⟩

theorem Arithmetic.lt_size (h : c.Arithmetic xs) (hn : n ∈ xs) :
    n.index < c.arena.exprs.size := by
  refine Arena.lt_size_of_kind_ne fun hk => ?_
  rcases (h n hn).2 with ⟨l, hl⟩ | ⟨d, x, y, hcall, -⟩
  · have hvalue := Expression.isValue_of_literal? hl
    rw [hk] at hvalue
    cases hvalue
  · cases hk.symm.trans hcall

theorem Computes.followers (h : c.Computes d) (x y : ExprId) :
    c.followers d [x, y] = [x, y] := by
  obtain ⟨isPure, hty⟩ := h.definitionType
  simp [Compilation.followers, followsCall, hty, Ty.params]

theorem Computes.floatCallee? (h : c.Computes d) : ∃ d', c.floatCallee? d = some d' := by
  obtain ⟨isPure, hty⟩ := h.definitionType
  unfold Compilation.floatCallee?
  split
  · exact ⟨_, rfl⟩
  · exact ⟨d, by rw [hty]⟩

end Compilation

/-! ## Integer trees become trees of floats -/

namespace Compilation

theorem Typed.mono (h : c.Typed ty ys c') (hsub : xs ⊆ ys) : c.Typed ty xs c' :=
  fun n hn => h n (hsub hn)

theorem Typed.agrees (h : c.Typed ty xs c') (h' : c'.Agrees xs c'') : c.Typed ty xs c'' :=
  fun n hn => h'.expr n hn ▸ h n hn

theorem Typed.children (h : c.Typed ty xs c') (hc : c.Arithmetic xs) (hn : n ∈ xs) :
    (c'.arena.expr n).kind.children = (c.arena.expr n).kind.children := by
  rcases (hc n hn).2 with ⟨l, hl⟩ | ⟨d, x, y, hk, -⟩
  · rw [(h n hn).literal l hl, ExprKind.children_of_isValue (Expression.isValue_of_literal? hl)]
    rfl
  · obtain ⟨d', hk', -⟩ := (h n hn).call _ _ hk
    rw [hk, hk']
    rfl

theorem Typed.forest (h : c.Typed ty xs c') (hc : c.Arithmetic xs)
    (hforest : c.arena.Forest ids xs) : c'.arena.Forest ids xs :=
  hforest.congr fun _ hn => h.children hc hn

/-- An integer in a tree that took the type of integers. -/
theorem Typed.int_cases (h : c.Typed .int xs c') (hc : c.Arithmetic xs) (hsame : c.SameProgram c')
    (hn : n ∈ xs) :
    (∃ l, (c.arena.expr n).literal? = some l ∧
      (c'.arena.expr n).kind = .value (l.value .int)) ∨
      ∃ d x y, (c.arena.expr n).kind = .call d [x, y] ∧
        (c'.arena.expr n).kind = .call d [x, y] ∧ c'.Computes d := by
  rcases (hc n hn).2 with ⟨l, hl⟩ | ⟨d, x, y, hk, hd⟩
  · exact .inl ⟨l, hl, (h n hn).literal l hl⟩
  · obtain ⟨d', hk', heq⟩ := (h n hn).call _ _ hk
    obtain rfl := heq rfl
    exact .inr ⟨d', x, y, hk, hk', hsame.computes hd⟩

/-- **An integer tree can become one of floats.** -/
theorem Typed.widensWithin (h : c.Typed .int xs c') (hc : c.Arithmetic xs)
    (hsame : c.SameProgram c') (hforest : c.arena.Forest [id] xs) {depth : Nat}
    (hdepth : xs.length ≤ depth) : c'.widensWithin depth id = some true := by
  induction depth generalizing id xs with
  | zero =>
    obtain ⟨below, rfl, -⟩ := hforest.exists_tree
    simp at hdepth
  | succ depth ih =>
    obtain ⟨below, rfl, hbelow⟩ := hforest.exists_tree
    have hid : id ∈ id :: below := List.mem_cons_self
    rcases h.int_cases hc hsame hid with ⟨l, -, hk⟩ | ⟨d, x, y, hkc, hk, hd⟩
    · simp [Compilation.widensWithin, (h id hid).ty, hk]
    · rw [hkc] at hbelow
      obtain ⟨ys, zs, rfl, hy, hz⟩ := hbelow.exists_pair
      obtain ⟨d', hd'⟩ := hd.floatCallee?
      obtain ⟨isPure, hty⟩ := hd.definitionType
      have hys : ys ⊆ id :: (ys ++ zs) := fun m hm =>
        List.mem_cons_of_mem _ (List.mem_append_left _ hm)
      have hzs : zs ⊆ id :: (ys ++ zs) := fun m hm =>
        List.mem_cons_of_mem _ (List.mem_append_right _ hm)
      simp only [List.length_cons, List.length_append] at hdepth
      have hx := ih (h.mono hys) (hc.mono hys) hy (by omega)
      have hy := ih (h.mono hzs) (hc.mono hzs) hz (by omega)
      simp [Compilation.widensWithin, (h id hid).ty, hk, hd', hd.followers, hty, Ty.isFunction,
        hx, hy]

/-- All of an integer tree is rebuilt. -/
theorem Typed.rebuilt (h : c.Typed .int xs c') (hc : c.Arithmetic xs)
    (hsame : c.SameProgram c') (hforest : c.arena.Forest ids xs) (hn : n ∈ xs) :
    ∃ id ∈ ids, c'.Rebuilt id n := by
  induction hforest with
  | nil => cases hn
  | @cons id ids below rest hbelow hrest ihbelow ihrest =>
    have hid : id ∈ id :: (below ++ rest) := List.mem_cons_self
    rcases List.mem_cons.1 hn with rfl | hn
    · exact ⟨n, List.mem_cons_self, .root (h n List.mem_cons_self).ty⟩
    · rcases List.mem_append.1 hn with hn | hn
      · have hsub : below ⊆ id :: (below ++ rest) := fun m hm =>
          List.mem_cons_of_mem _ (List.mem_append_left _ hm)
        obtain ⟨m, hm, hr⟩ := ihbelow (h.mono hsub) (hc.mono hsub) hn
        refine ⟨id, List.mem_cons_self, ?_⟩
        -- What has something below it is a call, and both of its arguments follow it.
        rcases h.int_cases hc hsame hid with ⟨l, hl, -⟩ | ⟨d, x, y, hkc, hk, hd⟩
        · have hchildren := h.children hc hid
          rw [(h id hid).literal l hl] at hchildren
          rw [← hchildren] at hm
          cases hm
        · rw [hkc] at hm
          exact .argument (h id hid).ty hk (by rwa [hd.followers]) hr
      · have hsub : rest ⊆ id :: (below ++ rest) := fun m hm =>
          List.mem_cons_of_mem _ (List.mem_append_right _ hm)
        obtain ⟨m, hm, hr⟩ := ihrest (h.mono hsub) (hc.mono hsub) hn
        exact ⟨m, List.mem_cons_of_mem _ hm, hr⟩

/-- The callees of an integer tree are declared, and its expressions are in the table. -/
theorem Typed.declares (h : c.Typed .int xs c') (hc : c.Arithmetic xs)
    (hsame : c.SameProgram c') : c'.Declares xs := by
  intro n hn d args hk
  rcases h.int_cases hc hsame hn with ⟨l, -, hk'⟩ | ⟨d', x, y, -, hk', hd⟩
  · cases hk.symm.trans hk'
  · cases hk.symm.trans hk'
    obtain ⟨isPure, hd⟩ := hd
    exact ⟨_, hd⟩

theorem Typed.lt_size (h : c.Typed .int xs c') (hc : c.Arithmetic xs)
    (hsame : c.SameProgram c') (hn : n ∈ xs) : n.index < c'.arena.exprs.size := by
  refine Arena.lt_size_of_kind_ne fun hk => ?_
  rcases h.int_cases hc hsame hn with ⟨l, -, hk'⟩ | ⟨d, x, y, -, hk', -⟩ <;>
    cases hk.symm.trans hk'

/-- Without a float among the literals, all of them are integers. -/
theorem integer_of_numberType (h : c.numberType xs = .int) (hn : n ∈ xs)
    (hl : (c.arena.expr n).literal? = some l) : ∃ i, l = .integer i := by
  cases l with
  | integer i => exact ⟨i, rfl⟩
  | decimal x =>
    have hfloat : c.numberType xs = .float := by
      simp only [numberType, ite_eq_left_iff, Bool.not_eq_true]
      intro hnone
      rw [List.any_eq_false] at hnone
      exact (hnone n hn (by simp [hl, Literal.ty])).elim
    cases h.symm.trans hfloat

/-- **What is rebuilt** takes the type of floats. -/
theorem Typed.widened (h : c.Typed .int xs c') (hc : c.Arithmetic xs)
    (hsame : c.SameProgram c') (hint : c.numberType xs = .int) (hn : n ∈ xs) :
    (c.arena.expr n).TypedAs .float (c'.widened n) := by
  have htyped := h n hn
  rcases h.int_cases hc hsame hn with ⟨l, hl, hk⟩ | ⟨d, x, y, hkc, hk, hd⟩
  · obtain ⟨i, rfl⟩ := integer_of_numberType hint hn hl
    have hk : (c'.arena.expr n).kind = .value (.int i) := hk
    have hwidened : c'.widened n =
        (c'.arena.expr n).withValue (.float (Value.floatOfInt i)) .float := by
      simp only [Compilation.widened, hk, Expression.cast?_int hk, Option.getD_some]
    rw [hwidened]
    refine ⟨rfl, htyped.declared, fun l' hl' => ?_, fun d args hcall => ?_⟩
    · cases hl.symm.trans hl'
      rfl
    · cases (literal?_of_call hcall).symm.trans hl
  · simp only [Compilation.widened, hk]
    refine ⟨rfl, htyped.declared, fun l hl => ?_, fun d' args hcall => ?_⟩
    · cases (literal?_of_call hkc).symm.trans hl
    · cases hkc.symm.trans hcall
      exact ⟨_, rfl, fun h => by cases h⟩

end Compilation

/-- An integer tree is cast or widened to floats, which comes to the same. -/
theorem coerceTo_widens (hc : c.Arithmetic xs) (hforest : c.arena.Forest [id] xs)
    (hnodup : xs.Nodup) (hsame : c.SameProgram c') (h : c.Typed .int xs c')
    (hint : c.numberType xs = .int) :
    Outcome (coerceTo id .float) c' (fun _ => c'.Widens [id]) fun _ _ => False := by
  have hid := hforest.subset (List.mem_singleton_self id)
  have hwiden {depth : Nat} (hdepth : c'.widensWithin depth id = some true) :
      Outcome (widenWithin depth id) c' (fun _ => c'.Widens [id]) fun _ _ => False :=
    widenWithin_outcome depth c' id xs (h.forest hc hforest) hnodup
      ((h.declares hc hsame).aloof xs) (List.Subset.refl xs) hdepth
  simp only [coerceTo_eq, outcome_bind, outcome_get, (h id hid).ty]
  rcases h.int_cases hc hsame hid with ⟨l, hl, hk⟩ | ⟨d, x, y, -, hk, -⟩
  · obtain ⟨i, rfl⟩ := integer_of_numberType hint hid hl
    have hk : (c'.arena.expr id).kind = .value (.int i) := hk
    have hcast := Expression.cast?_int hk
    have hone : c'.widensWithin 1 id = some true := by
      simp [Compilation.widensWithin, (h id hid).ty, hk]
    have hw := hwiden hone
    simp only [widenWithin_succ, outcome_bind, outcome_get, (h id hid).ty, hk, hcast] at hw
    simpa [hk, hcast, ExprKind.isValue] using hw
  · have hlength := Arena.Forest.length_le hnodup fun n hn => h.lt_size hc hsame hn
    have hwidens : c'.widens id = some true :=
      h.widensWithin hc hsame hforest (hlength.trans (Nat.le_succ _))
    simpa [hk, ExprKind.isValue, widensTo, hwidens, widen] using hwiden hwidens

/-- A part of a tree of arithmetic takes a type: its own one, or that of floats. Nothing else
changes. -/
theorem coerceTo_typed (hc : c.Arithmetic xs) (hforest : c.arena.Forest [id] xs)
    (hnodup : xs.Nodup) (hsame : c.SameProgram c') (h : c.Typed (c.numberType xs) xs c')
    (hty : ty = c.numberType xs ∨ ty = .float) :
    Outcome (coerceTo id ty) c' (fun _ c'' => c'.SameProgram c'' ∧
      c''.arena.exprs.size = c'.arena.exprs.size ∧ c.Typed ty xs c'' ∧
        ∀ n ∉ xs, c''.arena.expr n = c'.arena.expr n) fun _ _ => False := by
  have hid := hforest.subset (List.mem_singleton_self id)
  by_cases hsameTy : ty = c.numberType xs
  · subst hsameTy
    simp only [coerceTo_eq, outcome_bind, outcome_get, (h id hid).ty, if_pos]
    exact ⟨.refl c', rfl, h, fun _ _ => rfl⟩
  · obtain rfl := hty.resolve_left hsameTy
    have hint : c.numberType xs = .int := (c.numberType_eq xs).resolve_right (Ne.symm hsameTy)
    rw [hint] at h
    refine (coerceTo_widens hc hforest hnodup hsame h hint).imp fun _ c'' hw => ?_
    refine ⟨hw.toSameProgram, hw.size, fun n hn => ?_, fun n hn => hw.kept n ?_⟩
    · rw [hw.rebuilt n (h.rebuilt hc hsame hforest hn)]
      exact h.widened hc hsame hint hn
    · intro m hm hr
      obtain rfl := List.mem_singleton.1 hm
      exact hn (hr.mem (h.forest hc hforest) hid)

/-! ## Calls -/

/-- **The call** of an operator takes the type of its tree, and so do both of its arguments. -/
theorem typeCall_typed {isPure : Bool} (hc : c.Arithmetic (id :: (xs ++ ys)))
    (hk : (c.arena.expr id).kind = .call d [x, y]) (hx : c.arena.Forest [x] xs)
    (hy : c.arena.Forest [y] ys) (hnodup : (id :: (xs ++ ys)).Nodup) (hsame : c.SameProgram c')
    (hid : c'.arena.expr id = c.arena.expr id) (htx : c.Typed (c.numberType xs) xs c')
    (hty : c.Typed (c.numberType ys) ys c') (hlt : id.index < c'.arena.exprs.size) :
    Outcome (typeCall id (.function [.number, .number] .number isPure) [x, y]) c'
      (fun _ c'' => c'.SameProgram c'' ∧ c''.arena.exprs.size = c'.arena.exprs.size ∧
        c.Typed (c.numberType (id :: (xs ++ ys))) (id :: (xs ++ ys)) c'' ∧
        ∀ n ∉ id :: (xs ++ ys), c''.arena.expr n = c'.arena.expr n) fun _ _ => False := by
  obtain ⟨hidnotin, hnodup'⟩ := List.nodup_cons.1 hnodup
  obtain ⟨hnodupx, hnodupy, hdisjoint⟩ := List.nodup_append'.1 hnodup'
  have hcx : c.Arithmetic xs := hc.mono fun n hn =>
    List.mem_cons_of_mem _ (List.mem_append_left _ hn)
  have hcy : c.Arithmetic ys := hc.mono fun n hn =>
    List.mem_cons_of_mem _ (List.mem_append_right _ hn)
  have hmemx := hx.subset (List.mem_singleton_self x)
  have hmemy := hy.subset (List.mem_singleton_self y)
  -- The type is that of the tree, which is float if one of the arguments is.
  have hunified : unifiedNumber c'.arena [x, y] [.number, .number] =
      c.numberType (id :: (xs ++ ys)) := by
    rw [numberType_cons_of_call (literal?_of_call hk), numberType_append]
    simp [unifiedNumber, (htx x hmemx).ty, (hty y hmemy).ty]
  have hjoinx := numberType_call (literal?_of_call hk) xs ys (.inl rfl)
  have hjoiny := numberType_call (literal?_of_call hk) xs ys (.inr rfl)
  simp only [typeCall, outcome_bind, outcome_arena, hunified, coerceAll, if_true]
  generalize c.numberType (id :: (xs ++ ys)) = u at hjoinx hjoiny ⊢
  refine (coerceTo_typed hcx hx hnodupx hsame htx hjoinx).imp ?_
  rintro _ c₁ ⟨hsame₁, hsize₁, htx₁, hkept₁⟩
  have hty₁ : c.Typed (c.numberType ys) ys c₁ := fun n hn =>
    hkept₁ n (fun hn' => hdisjoint hn' hn) ▸ hty n hn
  refine (coerceTo_typed hcy hy hnodupy (hsame.trans hsame₁) hty₁ hjoiny).imp ?_
  rintro _ c₂ ⟨hsame₂, hsize₂, hty₂, hkept₂⟩
  have htx₂ : c.Typed u xs c₂ := fun n hn =>
    hkept₂ n (fun hn' => hdisjoint hn hn') ▸ htx₁ n hn
  have hid₂ : c₂.arena.expr id = c.arena.expr id := by
    rw [List.mem_append, not_or] at hidnotin
    rw [hkept₂ id hidnotin.2, hkept₁ id hidnotin.1, hid]
  simp only [outcome_pure, outcome_setType]
  have hne : ∀ n ∈ xs ++ ys, n ≠ id := fun n hn heq => hidnotin (heq ▸ hn)
  refine ⟨hsame₁.trans (hsame₂.trans ⟨rfl, rfl, rfl, rfl⟩), ?_, ?_, fun n hn => ?_⟩
  · simp [modifyArena, hsize₁, hsize₂]
  · refine List.forall_mem_cons.2 ⟨?_, fun n hn => ?_⟩
    · simp only [modifyArena, Arena.expr_modifyExpr_self (hsize₂ ▸ hsize₁ ▸ hlt), hid₂]
      refine ⟨rfl, rfl, fun l hl => ?_, fun d' args hcall => ⟨d', hcall, fun _ => rfl⟩⟩
      cases (literal?_of_call hk).symm.trans hl
    · simp only [modifyArena, Arena.expr_modifyExpr_of_ne (hne n hn)]
      exact (List.mem_append.1 hn).elim (htx₂ n) (hty₂ n)
  · simp only [List.mem_cons, List.mem_append, not_or] at hn
    simp only [modifyArena, Arena.expr_modifyExpr_of_ne hn.1, hkept₂ n hn.2.2, hkept₁ n hn.2.1]

/-! ## Literals -/

/-- A literal has its own type already, or it is a text that settles into it. -/
theorem Expression.literal?_cases (h : e.literal? = some l) :
    e.ty = l.ty ∧ e.kind = .value (l.value l.ty) ∨
      e.ty = .numberLiteral ∧ ∃ type : Builtin, l.ty = .builtin type ∧
        e.settle? .numberLiteral = some (e.withValue (l.value l.ty) type) := by
  unfold literal? at h
  split at h
  · cases h
    exact .inl ⟨‹_›, ‹_›⟩
  · cases h
    exact .inl ⟨‹_›, ‹_›⟩
  · rename_i text hty hk
    refine .inr ⟨hty, ?_⟩
    simp only [settle?_eq, value?, hk, Option.bind_some, Value.settle?, Value.convertNumber?]
    split at h <;> rename_i hread
    · cases h
      exact ⟨.int, rfl, by simp [hread, Literal.value, Literal.ty]⟩
    · obtain ⟨x, hx, rfl⟩ := Option.map_eq_some_iff.1 h
      exact ⟨.float, rfl, by simp [hread, hx, Literal.value]⟩
  · cases h

/-- What holds the number of a literal took its type. -/
theorem Expression.typedAs_of_literal {e' : Expression} (h : e.literal? = some l)
    (hty : e'.ty = l.ty) (hdeclared : e'.declared = e.declared)
    (hk : e'.kind = .value (l.value l.ty)) : e.TypedAs l.ty e' := by
  refine ⟨hty, hdeclared, fun l' hl' => ?_, fun d args hcall => ?_⟩
  · cases h.symm.trans hl'
    exact hk
  · have hvalue := isValue_of_literal? h
    rw [hcall] at hvalue
    cases hvalue

/-- **A literal** takes its own type. -/
theorem concretizeValue_literal (hl : (c.arena.expr id).literal? = some l)
    (hlt : id.index < c.arena.exprs.size) :
    Outcome (concretizeValue id) c (fun _ c' => c.SameProgram c' ∧
      c'.arena.exprs.size = c.arena.exprs.size ∧
      (c.arena.expr id).TypedAs l.ty (c'.arena.expr id) ∧
        ∀ n ≠ id, c'.arena.expr n = c.arena.expr n) fun _ _ => False := by
  simp only [concretizeValue_eq, outcome_bind, outcome_expr]
  rcases Expression.literal?_cases hl with ⟨hty, hk⟩ | ⟨hty, type, htype, hsettle⟩
  · have hnative : (c.arena.expr id).ty.native = .yes := by
      rw [hty]
      cases l <;> rfl
    rw [if_pos hnative]
    exact ⟨.refl c, rfl, Expression.typedAs_of_literal hl hty rfl hk, fun _ _ => rfl⟩
  · rw [hty, if_neg (by decide)]
    simp only [hsettle, outcome_bind, outcome_modifyExpr, outcome_emit]
    refine ⟨⟨rfl, rfl, rfl, rfl⟩, by simp [modifyArena, emit], ?_, fun n hn => ?_⟩
    · simp only [emit, modifyArena, Arena.expr_modifyExpr_self hlt]
      exact Expression.typedAs_of_literal hl htype.symm rfl rfl
    · simp only [emit, modifyArena, Arena.expr_modifyExpr_of_ne hn]

/-! ## Bodies of operators -/

/-- The definitions that are called in a tree. -/
def Compilation.operators (c : Compilation) (xs : List ExprId) : Set DefId :=
  { d | ∃ n ∈ xs, ∃ args, (c.arena.expr n).kind = .call d args }

/-- **From one operator of a tree to the next**: the body of an operator was walked to its end, or
nothing but the tree changed. -/
inductive Passes (settings : Settings) (rounds : Nat) (ds : Set DefId) (tree : List ExprId)
    (w : Walk) : Walk → Prop where
  | start : Passes settings rounds ds tree w w
  | body {d : DefId} {w₁ w₂ : Walk} (h : Passes settings rounds ds tree w w₁) (hd : d ∈ ds)
    (hwalk : visitDefinition (visitor settings rounds) [] d w₁ = .ok () w₂) :
    Passes settings rounds ds tree w w₂
  | typed {w₁ : Walk} {c : Compilation} (h : Passes settings rounds ds tree w w₁)
    (hsame : w₁.unit.SameProgram c)
    (hsize : c.arena.exprs.size = w₁.unit.arena.exprs.size)
    (hkept : ∀ n ∉ tree, c.arena.expr n = w₁.unit.arena.expr n) :
    Passes settings rounds ds tree w ⟨c, w₁.finished⟩

/-- **The walk of a tree stops in an operator**: the bodies of some operators were walked, and the
walk of the next one stopped. -/
def StopsIn (settings : Settings) (rounds : Nat) (ds : Set DefId) (tree : List ExprId) (w : Walk)
    (stop : Stop) : Prop :=
  ∃ w₁ w₂ d, Passes settings rounds ds tree w w₁ ∧ d ∈ ds ∧
    visitDefinition (visitor settings rounds) [] d w₁ = .error stop w₂

section

variable {rounds : Nat} {ds : Set DefId} {tree : List ExprId} {w w₁ w₂ : Walk} {stop : Stop}

theorem Passes.trans (h : Passes settings rounds ds tree w w₁)
    (h' : Passes settings rounds ds tree w₁ w₂) : Passes settings rounds ds tree w w₂ := by
  induction h' with
  | start => exact h
  | body _ hd hwalk ih => exact .body ih hd hwalk
  | typed _ hsame hsize hkept ih => exact .typed ih hsame hsize hkept

theorem StopsIn.of_passes (h : Passes settings rounds ds tree w w₁)
    (h' : StopsIn settings rounds ds tree w₁ stop) : StopsIn settings rounds ds tree w stop := by
  obtain ⟨w₂, w₃, d, hpasses, hd, hwalk⟩ := h'
  exact ⟨w₂, w₃, d, h.trans hpasses, hd, hwalk⟩

/-- The walk passes an operator or stops in it. -/
theorem visitDefinition_passes (settings : Settings) (rounds : Nat) (tree : List ExprId) (w : Walk)
    (hd : d ∈ ds) : Outcome (visitDefinition (visitor settings rounds) [] d) w
      (fun _ => Passes settings rounds ds tree w)
      fun stop _ => StopsIn settings rounds ds tree w stop :=
  outcome_self.mono (fun _ _ hwalk => .body .start hd hwalk)
    fun _ w₁ hwalk => ⟨w, w₁, d, .start, hd, hwalk⟩

/-- A definition has no body to walk. -/
def Compilation.Bodiless (c : Compilation) (d : DefId) : Prop :=
  (c.arena.definition d).body = .builtin ∨ (c.arena.definition d).body = .undefined

theorem visitDefinition_of_bodiless {next : Visitor} {active : List DefId}
    (hd : w.unit.Bodiless d) : visitDefinition next active d w = .ok () w := by
  have h : Outcome (visitDefinition next active d) w (fun _ w' => w' = w) fun _ _ => False := by
    simp only [visitDefinition, outcome_bind, outcome_lift, outcome_definition]
    rcases hd with hd | hd <;> rw [hd] <;> rfl
  obtain ⟨⟨⟩, w', heq, rfl⟩ := h.exists_ok
  exact heq

theorem Passes.bodiless (h : Passes settings rounds ds tree w w₁)
    (hds : ∀ d ∈ ds, w.unit.Bodiless d) : ∀ d ∈ ds, w₁.unit.Bodiless d := by
  induction h with
  | start => exact hds
  | body _ hd hwalk ih =>
    cases (visitDefinition_of_bodiless (ih _ hd)).symm.trans hwalk
    exact ih
  | typed _ hsame _ _ ih =>
    intro d hd
    rw [Bodiless, hsame.definition]
    exact ih d hd

/-- **Operators without a body**, as the builtin ones, never stop the walk. -/
theorem not_stopsIn (hds : ∀ d ∈ ds, w.unit.Bodiless d) :
    ¬ StopsIn settings rounds ds tree w stop := by
  rintro ⟨w₁, w₂, d, hpasses, hd, hwalk⟩
  cases (visitDefinition_of_bodiless (hpasses.bodiless hds d hd)).symm.trans hwalk

end

/-! ## Trees -/

namespace Compilation

theorem Agrees.mono (h : c.Agrees ys c') (hsub : xs ⊆ ys) : c.Agrees xs c' :=
  ⟨h.toSameProgram, fun n hn => h.expr n (hsub hn)⟩

theorem Roams.besides (h : c.Roams R c') (xs : List ExprId) : c.Besides R xs c' :=
  ⟨h.toSameProgram, h.closed, fun n hn _ => h.outside n hn⟩

/-- What changes expressions outside of a region leaves the region as it was. -/
theorem besides_of_kept (hsame : c.SameProgram c')
    (hsize : c'.arena.exprs.size = c.arena.exprs.size) (hxs : ∀ n ∈ xs, .expr n ∉ R)
    (hkept : ∀ n ∉ xs, c'.arena.expr n = c.arena.expr n) : c.Besides R xs c' where
  toSameProgram := hsame
  closed hc := hc.of_leadsTo hsame hsize.ge fun n _ hn hq =>
    hc.leadsTo hn (hkept n (fun hmem => hxs n hmem hn) ▸ hq)
  outside n _ hn := hkept n hn

theorem Besides.trans (h : c.Besides R xs c') (h' : c'.Besides R ys c'') {zs : List ExprId}
    (hxs : xs ⊆ zs) (hys : ys ⊆ zs) : c.Besides R zs c'' where
  toSameProgram := h.toSameProgram.trans h'.toSameProgram
  closed hc := h'.closed (h.closed hc)
  outside n hn hmem :=
    (h'.outside n hn fun hn' => hmem (hys hn')).trans (h.outside n hn fun hn' => hmem (hxs hn'))

theorem Besides.agrees (h : c.Besides R xs c') (hys : ∀ n ∈ ys, .expr n ∉ R)
    (hdisjoint : xs.Disjoint ys) : c.Agrees ys c' :=
  ⟨h.toSameProgram, fun n hn => h.outside n (hys n hn) fun hn' => hdisjoint hn' hn⟩

end Compilation

/-- What is known of a tree before it is walked: it lies outside of a region that the walk of its
operators does not leave. -/
structure Compilation.Standing (c : Compilation) (R : Set Place) (ds : Set DefId) (id : ExprId)
    (xs : List ExprId) : Prop where
  forest : c.arena.Forest [id] xs
  nodup : xs.Nodup
  arithmetic : c.Arithmetic xs
  closed : c.Closed R
  outside : ∀ n ∈ xs, .expr n ∉ R
  callee : c.operators xs ⊆ ds
  operator : ∀ d ∈ ds, .definition d ∈ R

section

variable {ds : Set DefId}

/-- A tree stands as long as nothing changes in it. -/
theorem Compilation.Standing.agrees (h : c.Standing R ds id xs) (h' : c.Agrees xs c')
    (hclosed : c'.Closed R) : c'.Standing R ds id xs where
  forest := h'.forest h.forest
  nodup := h.nodup
  arithmetic := h'.arithmetic h.arithmetic
  closed := hclosed
  outside := h.outside
  callee := by
    rintro d ⟨n, hn, args, hk⟩
    exact h.callee ⟨n, hn, args, h'.expr n hn ▸ hk⟩
  operator := h.operator

/-- The arguments of a call that stands do so, too. -/
theorem Compilation.Standing.argument (h : c.Standing R ds id xs) (hforest : c.arena.Forest [x] ys)
    (hsub : ys.Sublist xs) : c.Standing R ds x ys where
  forest := hforest
  nodup := h.nodup.sublist hsub
  arithmetic := h.arithmetic.mono hsub.subset
  closed := h.closed
  outside n hn := h.outside n (hsub.subset hn)
  callee := by
    rintro d ⟨n, hn, hk⟩
    exact h.callee ⟨n, hsub.subset hn, hk⟩
  operator := h.operator

end

/-- The call of an operator takes two arguments, and has them. -/
theorem isPartialCall_of_arithmetic (hc : c.Arithmetic xs) (hd : c.Computes d) (hx : x ∈ xs)
    (hy : y ∈ xs) (hk : (c.arena.expr id).kind = .call d [x, y]) :
    c.arena.isPartialCall id = false := by
  obtain ⟨isPure, hty⟩ := hd.definitionType
  have hmissing (m : ExprId) (hm : m ∈ xs) : c.arena.isMissing m = false := by
    unfold Arena.isMissing
    rcases (hc m hm).2 with ⟨l, hl⟩ | ⟨d, x, y, hk, -⟩
    · have hvalue := Expression.isValue_of_literal? hl
      revert hvalue
      cases (c.arena.expr m).kind <;> simp [ExprKind.isValue, ExprKind.isMissingArg]
    · rw [hk]
      rfl
  simp [Arena.isPartialCall, hk, hty, Ty.arity, Ty.params, hmissing x hx, hmissing y hy]

section

variable {rounds : Nat} {ds : Set DefId} {tree : List ExprId} {w w' : Walk}

/-- A part of a tree took its type, on the way past its operators. -/
structure Arrives (settings : Settings) (rounds : Nat) (ds : Set DefId)
    (tree : List ExprId) (R : Set Place) (xs : List ExprId) (w w' : Walk) : Prop
    extends Settles R xs w.unit w'.unit where
  passes : Passes settings rounds ds tree w w'

/-- A way to walk the parts of a tree: they take their types, or the walk stops in an operator. -/
def Arriving (settings : Settings) (rounds : Nat) (ds : Set DefId) (tree : List ExprId)
    (R : Set Place) (visit : ExprId → WalkM Unit) (xs : List ExprId) : Prop :=
  ∀ (id : ExprId) (w : Walk), w.unit.Standing R ds id xs →
    Outcome (visit id) w (fun _ => Arrives settings rounds ds tree R xs w)
      fun stop _ => StopsIn settings rounds ds tree w stop

/-- What was walked is native and keeps its declared type, which there is none of. -/
theorem finish_arrives {visit : WalkM Unit} {stopped : Stop → Walk → Prop} (hid : id ∈ xs)
    (hdeclared : (w.unit.arena.expr id).declared = none)
    (hvisit : Outcome visit w (fun _ => Arrives settings rounds ds tree R xs w) stopped) :
    Outcome (do
      visit
      liftM (honourDeclared id)
      liftM (requireNative id)) w (fun _ => Arrives settings rounds ds tree R xs w) stopped := by
  rw [outcome_bind]
  refine hvisit.imp fun _ w' h => ?_
  have htyped := h.typed id hid
  have hnative : (w'.unit.arena.expr id).ty.native = .yes := by
    rw [htyped.ty]
    rcases w.unit.numberType_eq xs with hty | hty <;> rw [hty] <;> rfl
  simp only [honourDeclared, requireNative, outcome_bind, outcome_lift, outcome_expr,
    htyped.declared, hdeclared, outcome_pure, hnative, if_true]
  exact h

/-- The two arguments of a call take their types one after the other. -/
theorem visitPair_typed {child : ExprId → WalkM Unit}
    (h : w.unit.Standing R ds id (id :: (xs ++ ys))) (hx : w.unit.arena.Forest [x] xs)
    (hy : w.unit.arena.Forest [y] ys) (hchildx : Arriving settings rounds ds tree R child xs)
    (hchildy : Arriving settings rounds ds tree R child ys) :
    Outcome (visitEach child [x, y]) w (fun _ w' => w.unit.Besides R (xs ++ ys) w'.unit ∧
      w.unit.Typed (w.unit.numberType xs) xs w'.unit ∧
        w.unit.Typed (w.unit.numberType ys) ys w'.unit ∧ Passes settings rounds ds tree w w')
      fun stop _ => StopsIn settings rounds ds tree w stop := by
  have hsubx : xs.Sublist (id :: (xs ++ ys)) := (List.sublist_append_left xs ys).cons id
  have hsuby : ys.Sublist (id :: (xs ++ ys)) := (List.sublist_append_right xs ys).cons id
  have hdisjoint := (List.nodup_append'.1 (List.nodup_cons.1 h.nodup).2).2.2
  simp only [visitEach, outcome_bind, outcome_pure]
  refine (hchildx x w (h.argument hx hsubx)).imp fun _ w₁ h₁ => ?_
  -- The second argument is as it was before the first one was walked.
  have hagrees := h₁.agrees (fun n hn => h.outside n (hsuby.subset hn)) hdisjoint
  have hstanding := (h.argument hy hsuby).agrees hagrees (h₁.closed h.closed)
  refine (hchildy y w₁ hstanding).mono (fun _ w₂ h₂ => ?_) fun _ _ => .of_passes h₁.passes
  have hagrees' : w₁.unit.Agrees xs w₂.unit :=
    h₂.agrees (fun n hn => h.outside n (hsubx.subset hn)) fun n hn hn' => hdisjoint hn' hn
  refine ⟨h₁.toBesides.trans h₂.toBesides (List.subset_append_left xs ys)
    (List.subset_append_right xs ys), h₁.typed.agrees hagrees', fun n hn => ?_,
    h₁.passes.trans h₂.passes⟩
  rw [← hagrees.numberType, ← hagrees.expr n hn]
  exact h₂.typed n hn

/-- **The call of an operator** takes the type of its tree, once the operator was walked. -/
theorem visitCall_literals {child : ExprId → WalkM Unit}
    (h : w.unit.Standing R ds id (id :: (xs ++ ys))) (hsub : id :: (xs ++ ys) ⊆ tree)
    (hx : w.unit.arena.Forest [x] xs) (hy : w.unit.arena.Forest [y] ys)
    (hk : (w.unit.arena.expr id).kind = .call d [x, y]) (hd : w.unit.Computes d)
    (hchildx : Arriving settings rounds ds tree R child xs)
    (hchildy : Arriving settings rounds ds tree R child ys) :
    Outcome (visitCall settings (visitor settings rounds) child [] id d [x, y]) w
      (fun _ => Arrives settings rounds ds tree R (id :: (xs ++ ys)) w)
      fun stop _ => StopsIn settings rounds ds tree w stop := by
  have hid : id ∈ id :: (xs ++ ys) := List.mem_cons_self
  have hmemx : x ∈ id :: (xs ++ ys) :=
    List.mem_cons_of_mem _ (List.mem_append_left _ (hx.subset (List.mem_singleton_self x)))
  have hmemy : y ∈ id :: (xs ++ ys) :=
    List.mem_cons_of_mem _ (List.mem_append_right _ (hy.subset (List.mem_singleton_self y)))
  have hfull := isPartialCall_of_arithmetic h.arithmetic hd hmemx hmemy hk
  have hds : d ∈ ds := h.callee ⟨id, hid, _, hk⟩
  obtain ⟨isPure, hty⟩ := hd.definitionType
  simp only [visitCall, outcome_bind, outcome_lift, outcome_arena, hfull, Bool.false_eq_true,
    if_false, List.isEmpty_cons, outcome_pure, hty]
  -- The body of the operator is walked within the region.
  have hgoes : (roaming settings R).Goes []
      (visitDefinition (visitor settings rounds) [] d) w _ :=
    Discipline.visitDefinition_goes ((roaming settings R).visitor_goes rounds) d h.closed
      (h.operator d hds)
  refine (Outcome.and hgoes (visitDefinition_passes settings rounds tree w hds)).mono ?_
    fun _ _ hstop => hstop.2
  rintro _ w₁ ⟨⟨hroams, -⟩, hpasses₁⟩
  have hbesides : w.unit.Besides R [] w₁.unit := hroams.besides []
  have hagrees := hbesides.agrees h.outside (by simp)
  have h₁ := h.agrees hagrees (hroams.closed h.closed)
  have hx₁ := (hagrees.mono fun n hn => by simp [hn]).forest hx
  have hy₁ := (hagrees.mono fun n hn => by simp [hn]).forest hy
  refine (visitPair_typed h₁ hx₁ hy₁ hchildx hchildy).mono ?_ fun _ _ => .of_passes hpasses₁
  rintro _ w₂ ⟨h₂, htypedx, htypedy, hpasses₂⟩
  have hid₂ := h₂.outside id (h.outside id hid) (List.nodup_cons.1 h.nodup).1
  have hk₁ := hagrees.expr id hid ▸ hk
  have hlt : id.index < w₂.unit.arena.exprs.size :=
    Arena.lt_size_of_kind_ne (by rw [hid₂, hk₁]; simp)
  refine (typeCall_typed h₁.arithmetic hk₁ hx₁ hy₁ h.nodup h₂.toSameProgram hid₂ htypedx htypedy
    hlt).mono ?_ fun _ _ => False.elim
  rintro _ c ⟨hsame, hsize, htyped, hkept⟩
  have h₃ : w₂.unit.Besides R (id :: (xs ++ ys)) c := besides_of_kept hsame hsize h.outside hkept
  refine ⟨⟨hbesides.trans (h₂.trans h₃ (List.subset_cons_self _ _) (List.Subset.refl _))
    (List.nil_subset _) (List.Subset.refl _), fun n hn => ?_⟩,
    .typed (hpasses₁.trans hpasses₂) hsame hsize fun n hn => hkept n fun hmem => hn (hsub hmem)⟩
  rw [← hagrees.numberType, ← hagrees.expr n hn]
  exact htyped n hn

/-- A literal has nothing below it, and takes its own type. -/
theorem visitLiteral_arrives (h : w.unit.Standing R ds id xs) (hid : id ∈ tree)
    (hl : (w.unit.arena.expr id).literal? = some l) :
    Outcome (liftM (concretizeValue id) : WalkM Unit) w
      (fun _ => Arrives settings rounds ds tree R xs w)
      fun stop _ => StopsIn settings rounds ds tree w stop := by
  obtain ⟨below, rfl, hbelow⟩ := h.forest.exists_tree
  rw [ExprKind.children_of_isValue (Expression.isValue_of_literal? hl)] at hbelow
  obtain rfl := hbelow.eq_nil
  rw [outcome_lift]
  refine (concretizeValue_literal hl (h.arithmetic.lt_size List.mem_cons_self)).mono ?_
    fun _ _ => False.elim
  rintro _ c' ⟨hsame, hsize, htyped, hkept⟩
  refine ⟨⟨besides_of_kept hsame hsize h.outside fun n hn => hkept n (by simpa using hn), ?_⟩,
    .typed .start hsame hsize fun n hn => hkept n ?_⟩
  · simpa [Typed, numberType_singleton hl] using htyped
  · rintro rfl
    exact hn hid

/-- **The walk of a tree** gives it its type, or stops in the body of one of its operators. -/
theorem visitWithin_literals (rounds : Nat) (bound depth : Nat)
    (h : w.unit.Standing R ds id xs) (hsub : xs ⊆ tree) (hbound : ∀ n ∈ xs, n.index < bound)
    (hdepth : xs.length ≤ depth) :
    Outcome (visitWithin settings (visitor settings rounds) [] bound depth id) w
      (fun _ => Arrives settings rounds ds tree R xs w)
      fun stop _ => StopsIn settings rounds ds tree w stop := by
  -- On the depth, which is as large as the tree.
  induction depth generalizing id xs w with
  | zero =>
    obtain ⟨below, rfl, -⟩ := h.forest.exists_tree
    simp at hdepth
  | succ depth ih =>
    obtain ⟨below, rfl, hbelow⟩ := h.forest.exists_tree
    have hid : id ∈ id :: below := List.mem_cons_self
    obtain ⟨hdeclared, hcases⟩ := h.arithmetic id hid
    rw [visitWithin, visitExpr, outcome_bind, outcome_lift, outcome_expr]
    rcases hcases with ⟨l, hl⟩ | ⟨d, x, y, hk, hd⟩
    · obtain ⟨v, hk⟩ : ∃ v, (w.unit.arena.expr id).kind = .value v := by
        have hvalue := Expression.isValue_of_literal? hl
        cases hk : (w.unit.arena.expr id).kind <;> simp_all [ExprKind.isValue]
      simp only [hk]
      exact finish_arrives hid hdeclared (visitLiteral_arrives h (hsub hid) hl)
    · -- An argument lies in the tree, so it is walked in the same round.
      rw [hk] at hbelow
      obtain ⟨xs, ys, rfl, hx, hy⟩ := hbelow.exists_pair
      have hchild {zs : List ExprId} (hzs : zs ⊆ id :: (xs ++ ys)) (hlength : zs.length ≤ depth) :
          Arriving settings rounds ds tree R (fun child =>
            if child.index < bound then
              visitWithin settings (visitor settings rounds) [] bound depth child
            else (visitor settings rounds).expr [] child) zs := by
        intro z w' hz
        have hmem := hz.forest.subset (List.mem_singleton_self z)
        simp only [if_pos (hbound z (hzs hmem))]
        exact ih hz (fun n hn => hsub (hzs hn)) (fun n hn => hbound n (hzs hn)) hlength
      simp only [List.length_cons, List.length_append] at hdepth
      simp only [hk]
      exact finish_arrives hid hdeclared (visitCall_literals h hsub hx hy hk hd
        (hchild (by simp) (by omega)) (hchild (by simp) (by omega)))

end

/-! ## Whole trees -/

/-- **Arithmetic over literals takes its type**: every literal holds its number in the type of the
tree, which is that of floats if one of the literals is a float. This fails only where the walk of
the body of an operator does. -/
theorem concretize_literals (settings : Settings) (hforest : c.arena.Forest [id] xs)
    (hnodup : xs.Nodup) (hc : c.Arithmetic xs) (hbehind : ∀ n ∈ xs, .expr n ∉ c.Behind id) :
    (∃ c', concretize settings id c = .ok () c' ∧
      ∀ n ∈ xs, (c'.arena.expr n).ty = c.numberType xs ∧
        ∀ l, (c.arena.expr n).literal? = some l →
          (c'.arena.expr n).kind = .value (l.value (c.numberType xs))) ∨
      ∃ stop c', concretize settings id c = .error stop c' ∧
        StopsIn settings (c.arena.rounds - 1) (c.operators xs) xs ⟨c, []⟩ stop := by
  have hbound : ∀ n ∈ xs, n.index < c.arena.exprs.size := fun n hn => hc.lt_size hn
  have hstanding : c.Standing (c.Surroundings id) (c.operators xs) id xs :=
    { forest := hforest, nodup := hnodup, arithmetic := hc
      closed := c.closed_surroundings id
      outside := fun n hn => not_mem_surroundings (hbehind n hn) (hbound n hn)
      callee := subset_rfl
      operator := by
        rintro d ⟨n, hn, args, hk⟩
        have huse : c.Onward (.expr n) (.definition d) := onward_use (by rw [hk]; rfl)
        exact mem_surroundings ((reaches_of_forest hforest hn).tail huse) }
  -- The whole tree is walked in the first round.
  have hwalk : Outcome (concretize settings id) c
      (fun _ c' => c.Settles (c.Surroundings id) xs c')
      fun stop _ => StopsIn settings (c.arena.rounds - 1) (c.operators xs) xs ⟨c, []⟩ stop := by
    simp only [concretize, outcome_bind, outcome_arena, outcome_runWalk]
    obtain ⟨rounds, hrounds⟩ : ∃ rounds, c.arena.rounds = rounds + 1 :=
      Nat.exists_eq_add_one.2 (Nat.mul_pos (by decide) c.arena.defs.size.succ_pos)
    rw [hrounds, visitor, Nat.add_sub_cancel]
    simp only [outcome_bind, outcome_lift, outcome_arena]
    have hlength := Arena.Forest.length_le hnodup hbound
    exact (visitWithin_literals rounds _ _ hstanding (List.Subset.refl xs) hbound (by omega)).imp
      fun _ _ h => h.toSettles
  unfold Outcome at hwalk
  split at hwalk
  · rename_i c' hok
    exact .inl ⟨c', hok, fun n hn => ⟨(hwalk.typed n hn).ty, (hwalk.typed n hn).literal⟩⟩
  · rename_i stop c' hstop
    exact .inr ⟨stop, c', hstop, hwalk⟩

/-- Behind definitions that have no body lie no expressions. -/
theorem Compilation.not_mem_behind (h : ∀ d, c.Bodiless d) : .expr n ∉ c.Behind id := by
  rintro ⟨d, -, hpath⟩
  rcases hpath.cases_head with heq | ⟨q, honward, -⟩
  · cases heq
  · rcases h d with hd | hd <;> cases honward <;> simp_all

/-- A program of some expressions, with some definitions besides the builtin ones. -/
def Compilation.ofExprs (exprs : Array Expression) (definitions : Array Definition) : Compilation :=
  { Compilation.new with
    arena :=
      { exprs := exprs, defs := Builtins.definitions.toArray ++ definitions, stmts := #[],
        roots := [] } }

/-- The program of `(1 + 0.5) * "7"`. -/
def mixedProduct : Compilation :=
  .ofExprs #[.new (.value (.int 1)) .int .origin, .new (.value (.float 0.5)) .float .origin,
    .new (.call ⟨1⟩ [⟨0⟩, ⟨1⟩]) .number .origin, .new (.value (.string "7")) .numberLiteral .origin,
    .new (.call ⟨3⟩ [⟨2⟩, ⟨3⟩]) .number .origin] #[]

/-- One of the literals is a float, so all of the product is. -/
theorem concretize_mixedProduct : ∃ c', concretize {} ⟨4⟩ mixedProduct = .ok () c' ∧
    (∀ n ∈ [⟨4⟩, ⟨2⟩, ⟨0⟩, ⟨1⟩, ⟨3⟩], (c'.arena.expr n).ty = .float) ∧
    (c'.arena.expr ⟨3⟩).kind = .value (.float (Value.floatOfInt 7)) := by
  have hsum : mixedProduct.arena.Forest [⟨2⟩] [⟨2⟩, ⟨0⟩, ⟨1⟩] :=
    .tree (.append (.leaf rfl) (.leaf rfl))
  have hforest : mixedProduct.arena.Forest [⟨4⟩] [⟨4⟩, ⟨2⟩, ⟨0⟩, ⟨1⟩, ⟨3⟩] :=
    .tree (hsum.append (.leaf rfl))
  have hplus : mixedProduct.Computes ⟨1⟩ := ⟨true, rfl⟩
  have htimes : mixedProduct.Computes ⟨3⟩ := ⟨true, rfl⟩
  have hseven : (mixedProduct.arena.expr ⟨3⟩).literal? = some (.integer 7) := by
    have hread : Text.Integer.read "7" = some 7 := by decide +kernel
    simp [mixedProduct, ofExprs, Arena.expr, Expression.new, Expression.literal?, hread]
  have harithmetic : mixedProduct.Arithmetic [⟨4⟩, ⟨2⟩, ⟨0⟩, ⟨1⟩, ⟨3⟩] := by
    simp only [Arithmetic, List.forall_mem_cons, List.not_mem_nil, false_imp_iff, implies_true]
    exact ⟨⟨rfl, .inr ⟨_, _, _, rfl, htimes⟩⟩, ⟨rfl, .inr ⟨_, _, _, rfl, hplus⟩⟩,
      ⟨rfl, .inl ⟨_, rfl⟩⟩, ⟨rfl, .inl ⟨_, rfl⟩⟩, ⟨rfl, .inl ⟨_, hseven⟩⟩, trivial⟩
  have hbuiltin : ∀ d, mixedProduct.Bodiless d :=
    Arena.forall_definition (p := fun x => x.body = .builtin ∨ x.body = .undefined)
      (by simp [mixedProduct, ofExprs, Builtins.definitions, Builtins.entry]) (.inr rfl)
  rcases concretize_literals {} hforest (by decide) harithmetic
    (fun _ _ => not_mem_behind hbuiltin) with ⟨c', hok, htyped⟩ | ⟨stop, c', -, hstops⟩
  · refine ⟨c', hok, fun n hn => (htyped n hn).1, ?_⟩
    exact (htyped ⟨3⟩ (by decide)).2 _ hseven
  · exact (not_stopsIn (fun d _ => hbuiltin d) hstops).elim

/-- The sum of two integers by an operator whose body is an empty expression. -/
def emptyOperator : Compilation :=
  .ofExprs #[.new (.value (.int 1)) .int .origin, .new (.value (.int 2)) .int .origin,
      .new (.call ⟨9⟩ [⟨0⟩, ⟨1⟩]) .number .origin, .sentinel .empty .origin]
    #[⟨"op", .expression ⟨3⟩, some Builtins.arithmeticType, none, .origin⟩]

/-- The sum of three integers by an operator that takes its type from its body, which refers to
another definition. -/
def inferredOperator : Compilation :=
  .ofExprs #[.new (.value (.int 1)) .int .origin, .new (.value (.int 2)) .int .origin,
      .new (.call ⟨9⟩ [⟨0⟩, ⟨1⟩]) .number .origin, .new (.value (.int 3)) .int .origin,
      .new (.call ⟨9⟩ [⟨2⟩, ⟨3⟩]) .number .origin,
      .new (.reference ⟨10⟩) Builtins.arithmeticType .origin]
    #[⟨"op", .expression ⟨5⟩, none, none, .origin⟩,
      ⟨"f", .builtin, some (.function [.int, .int] .int true), none, .origin⟩]

/-- A sum with one summand. -/
def openSum : Compilation :=
  .ofExprs #[.new (.value (.int 1)) .int .origin,
    .new (.call ⟨1⟩ [⟨0⟩]) (.function [.number] .number true) .origin] #[]

/-- Arithmetic over literals has no type if the body of an operator has none, if the type of an
operator is that of a body and changes as the body is walked, or if a call lacks an argument. -/
theorem concretize_untypedArithmetic :
    (emptyOperator.arena.definitionType ⟨9⟩ = Builtins.arithmeticType ∧
      (∃ c, createCall ⟨9⟩ [⟨0⟩, ⟨1⟩] .origin emptyOperator =
        .ok (emptyOperator.arena.expr ⟨2⟩) c) ∧
      ∃ c, concretize {} ⟨2⟩ emptyOperator = .error (.error ⟨.containsError, .origin⟩) c) ∧
    (inferredOperator.arena.definitionType ⟨9⟩ = Builtins.arithmeticType ∧
      (∃ c, createCall ⟨9⟩ [⟨2⟩, ⟨3⟩] .origin inferredOperator =
        .ok (inferredOperator.arena.expr ⟨4⟩) c) ∧
      ∃ c, concretize {} ⟨4⟩ inferredOperator =
        .error (.error ⟨.notConcretizable .number, .origin⟩) c) ∧
    ((∃ c, createCall ⟨1⟩ [⟨0⟩] .origin openSum = .ok (openSum.arena.expr ⟨1⟩) c) ∧
      ∃ c, concretize {} ⟨1⟩ openSum = .error (.error ⟨.arityShortfall "+" 2 1, .origin⟩) c) := by
  refine ⟨⟨rfl, ?_, ?_⟩, ⟨rfl, ?_, ?_⟩, ?_, ?_⟩
  · exact exists_ok_of_eq (by decide +kernel)
  · exact exists_error_of_eq (by decide +kernel)
  · exact exists_ok_of_eq (by decide +kernel)
  · exact exists_error_of_eq (by decide +kernel)
  · exact exists_ok_of_eq (by decide +kernel)
  · exact exists_error_of_eq (by decide +kernel)

end Termwise
