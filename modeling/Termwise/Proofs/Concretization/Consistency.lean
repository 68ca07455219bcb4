import Termwise.Proofs.Concretization.Groves

/-!
# Consistent calls

After the walk every call has an argument for each parameter of its callee, and each argument has
the type of its parameter, where all those for generic numbers have one type in common. It is not
enough that this holds when a call is typed: the call may be widened later, along with some of its
arguments. But widening follows exactly the generic numbers, and a call whose arguments were widened
is widened itself.

## Main definitions

* `Compilation.Consistent`: a call that is consistent with its callee
* `Compilation.Coherent`: a grove in which all calls are
* `Compilation.Turns`: some trees became coherent

## Main results

* `Widens.consistent`: widening keeps calls consistent
* `typeCall_coherent`: a call is consistent once it is typed
* `visitor_turns`: the walk of a tree makes it coherent
* `concretize_consistent`: all calls that are left are consistent
-/

namespace Termwise

open Compilation

namespace Compilation

/-- A call with arguments for the parameters of its callee. Those for generic numbers have the type
`t`, and so has the call if it returns one. -/
structure Suits (c : Compilation) (n : ExprId) (args : List ExprId) (params : List Ty)
    (result t : Ty) : Prop where
  number : t = .int ∨ t = .float
  length : args.length = params.length
  argument : ∀ arg param, (arg, param) ∈ args.zip params →
    (c.arena.expr arg).ty = if param = .number then t else param
  result : .number ∈ params → result = .number → (c.arena.expr n).ty = t

/-- **An expression is consistent**: if it is a call, it suits the declared type of its callee. -/
def Consistent (c : Compilation) (n : ExprId) : Prop :=
  ∀ d args, (c.arena.expr n).kind = .call d args → ∃ params result isPure t,
    (c.arena.definition d).declared = some (.function params result isPure) ∧
      c.Suits n args params result t

/-- A grove in which all calls are consistent. -/
structure Coherent (c : Compilation) (R : Set Place) (ids xs : List ExprId) : Prop
    extends Grove c R ids xs where
  consistent : ∀ n ∈ xs, c.Consistent n

/-- Some trees became coherent, and nothing but the region beside them changed. -/
def Turns (c : Compilation) (R : Set Place) (ids xs : List ExprId) (c' : Compilation) : Prop :=
  ∃ R' xs', c'.Coherent R' ids xs' ∧ Confined R R' xs xs' c c'

end Compilation

variable {c c' c'' : Compilation} {settings : Settings} {R R' : Set Place} {id n m x : ExprId}
  {d : DefId} {ids ids' xs xs' ys ys' : List ExprId} {args : List ExprId} {params : List Ty}
  {result t : Ty} {depth : Nat} {active : List DefId}

namespace Compilation

/-! ## Coherent groves -/

theorem consistent_of_not_call (h : ∀ d args, (c.arena.expr n).kind ≠ .call d args) :
    c.Consistent n :=
  fun d args hk => (h d args hk).elim

/-- A call is consistent as long as it and the types of its arguments stay. -/
theorem Consistent.of_same (h : c.Consistent n) (hsame : c.SameProgram c')
    (hn : c'.arena.expr n = c.arena.expr n)
    (hargs : ∀ m ∈ (c.arena.expr n).kind.children, (c'.arena.expr m).ty = (c.arena.expr m).ty) :
    c'.Consistent n := by
  intro d args hk
  rw [hn] at hk
  obtain ⟨params, result, isPure, t, hdeclared, hsuits⟩ := h d args hk
  refine ⟨params, result, isPure, t, by rwa [hsame.definition], hsuits.number, hsuits.length,
    fun arg param hmem => ?_, fun hnumber hresult => hn ▸ hsuits.result hnumber hresult⟩
  rw [hargs arg (by rw [hk]; exact (List.of_mem_zip hmem).1)]
  exact hsuits.argument arg param hmem

/-- **A coherent grove** stays one as long as nothing changes in its trees. -/
theorem Coherent.of_agrees (h : c.Coherent R ids xs) (hagrees : c.Agrees xs c')
    (hmaintained : c'.Maintained R') (hregion : R' ⊆ R)
    (hdefinition : ∀ d, .definition d ∈ R → .definition d ∈ R') : c'.Coherent R' ids xs where
  toGrove := h.toGrove.of_agrees hagrees hmaintained hregion hdefinition
  consistent n hn := (h.consistent n hn).of_same hagrees.toSameProgram (hagrees.expr n hn)
    fun m hm => by rw [hagrees.expr m (h.forest.children_subset hn hm)]

theorem Coherent.append (h : c.Coherent R ids xs) (h' : c.Coherent R ids' ys)
    (hdisjoint : xs.Disjoint ys) : c.Coherent R (ids ++ ids') (xs ++ ys) where
  toGrove := h.toGrove.append h'.toGrove hdisjoint
  consistent := List.forall_mem_append.2 ⟨h.consistent, h'.consistent⟩

theorem Coherent.sublist (h : c.Coherent R ids xs) (hforest : c.arena.Forest ids' ys)
    (hsub : ys.Sublist xs) : c.Coherent R ids' ys where
  toGrove := h.toGrove.sublist hforest hsub
  consistent n hn := h.consistent n (hsub.subset hn)

/-- **Two trees** become coherent one after the other. -/
theorem Coherent.after (h : c'.Coherent R' ids xs') (hconfined : Confined R R' xs xs' c c')
    (hys : ∀ n ∈ ys, .expr n ∉ R) (hdisjoint : xs.Disjoint ys) {R'' : Set Place}
    (h' : c''.Coherent R'' ids' ys') (hconfined' : Confined R' R'' ys ys' c' c'') :
    c'.Agrees xs' c'' ∧ c''.Coherent R'' (ids ++ ids') (xs' ++ ys') := by
  have hdisjoint' : ys.Disjoint xs' := fun n hn hn' => hconfined.disjoint hys hdisjoint hn' hn
  have hagrees := hconfined'.agrees h.outside hdisjoint'
  have hfirst := h.of_agrees hagrees h'.toMaintained hconfined'.region hconfined'.definition
  refine ⟨hagrees, hfirst.append h' fun n hn hn' => ?_⟩
  exact hconfined'.disjoint h.outside hdisjoint' hn' hn

theorem Turns.trans {R₁ : Set Place} {xs₁ : List ExprId} (hconfined : Confined R R₁ xs xs₁ c c')
    (h : c'.Turns R₁ ids xs₁ c'') : c.Turns R ids xs c'' := by
  obtain ⟨R', xs', hcoherent, hconfined'⟩ := h
  exact ⟨R', xs', hcoherent, hconfined.trans hconfined'⟩

/-! ## What is rebuilt -/

theorem Rebuilt.ty_int (h : c.Rebuilt id n) : (c.arena.expr n).ty = .int := by
  induction h with
  | root hty => exact hty
  | argument _ _ _ _ ih => exact ih

/-- What follows a call that is rebuilt is rebuilt, too. -/
theorem Rebuilt.follower (h : c.Rebuilt id n) (hk : (c.arena.expr n).kind = .call d args)
    (hm : m ∈ c.followers d args) (hty : (c.arena.expr m).ty = .int) : c.Rebuilt id m := by
  induction h with
  | root hty' => exact .argument hty' hk hm (.root hty)
  | argument hty' hk' hm' _ ih => exact .argument hty' hk' hm' (ih hk)

/-- **What is rebuilt below a call** follows the call, which is rebuilt, too. -/
theorem Rebuilt.parent (h : c.Rebuilt id m) (hforest : c.arena.Forest ids xs) (hnodup : xs.Nodup)
    (hid : id ∈ xs) (hn : n ∈ xs) (hm : m ∈ (c.arena.expr n).kind.children) :
    m = id ∨ c.Rebuilt id n ∧
      ∃ d args, (c.arena.expr n).kind = .call d args ∧ m ∈ c.followers d args := by
  induction h with
  | root => exact .inl rfl
  | @argument id k m callee args hty hk hfollows _ ih =>
    right
    have hchild : k ∈ (c.arena.expr id).kind.children := by
      rw [hk]
      exact (followers_sublist ..).subset hfollows
    rcases ih (hforest.children_subset hid hchild) hm with rfl | ⟨hrebuilt, hcall⟩
    · -- The one node that the follower lies below is the call.
      obtain rfl := hforest.parent_unique hnodup hid hn hchild hm
      exact ⟨.root hty, callee, args, hk, hfollows⟩
    · exact ⟨.argument hty hk hfollows hrebuilt, hcall⟩

theorem ty_of_widensWithin (h : c.widensWithin depth n = some true) :
    (c.arena.expr n).ty = .float ∨ (c.arena.expr n).ty = .int := by
  cases depth with
  | zero => cases h
  | succ depth =>
    simp only [widensWithin] at h
    split_ifs at h with hfloat hint
    · exact .inl hfloat
    · cases h
    · exact .inr (by simpa using hint)

/-- An integer call can become one of floats if it has a float callee, and its followers can. -/
theorem widensWithin_call (h : c.widensWithin depth n = some true) (hty : (c.arena.expr n).ty = .int)
    (hk : (c.arena.expr n).kind = .call d args) : ∃ d' depth', c.floatCallee? d = some d' ∧
      ∀ m ∈ c.followers d args, c.widensWithin depth' m = some true := by
  cases depth with
  | zero => cases h
  | succ depth =>
    have h : (if (c.floatCallee? d).isSome && (c.arena.definitionType d).isFunction then
        (c.followers d args).allM (c.widensWithin depth) else some false) = some true := by
      simpa [widensWithin, hty, hk] using h
    split at h
    · rename_i hfloats
      rw [Bool.and_eq_true, Option.isSome_iff_exists] at hfloats
      obtain ⟨⟨d', hd'⟩, -⟩ := hfloats
      exact ⟨d', depth, hd', allM_eq_true.1 h⟩
    · cases h

theorem Rebuilt.widensWithin (h : c.Rebuilt id n) (hid : c.widensWithin depth id = some true) :
    ∃ depth', c.widensWithin depth' n = some true := by
  induction h generalizing depth with
  | root => exact ⟨depth, hid⟩
  | argument hty hk hm _ ih =>
    obtain ⟨_, _, -, hfollowers⟩ := widensWithin_call hid hty hk
    exact ih (hfollowers _ hm)

/-- **What can become a float** becomes one if it is rebuilt. -/
theorem ty_widened (h : c.widensWithin depth n = some true) (hty : (c.arena.expr n).ty = .int)
    (hbuilt : c.Built (c.arena.expr n)) : (c.widened n).ty = .float := by
  cases depth with
  | zero => cases h
  | succ depth =>
    simp only [Compilation.widensWithin, hty] at h
    cases hk : (c.arena.expr n).kind <;> simp only [hk] at h <;> try cases h
    · rename_i v
      -- A value that fits the type of integers is one.
      have hfits := hbuilt.value v hk
      rw [hty] at hfits
      cases v with
      | int i => simp [widened, hk, Expression.cast?_int hk, Expression.withValue]
      | _ => exact hfits.elim
    · simp only [widened, hk]

/-- A call is rebuilt from a call. -/
theorem exists_call_of_widened {d' : DefId} (hk' : (c.widened n).kind = .call d' args) :
    ∃ d, (c.arena.expr n).kind = .call d args ∧ d' = (c.floatCallee? d).getD d := by
  cases hk : (c.arena.expr n).kind <;> simp only [widened, hk] at hk' <;> try cases hk'
  · cases hcast : (c.arena.expr n).cast? .int .float with
    | none =>
      rw [hcast, Option.getD_none, hk] at hk'
      cases hk'
    | some cast =>
      obtain ⟨v, hv, -⟩ := (Expression.converts_of_cast? hcast (by simp)).fits
      rw [hcast, Option.getD_some, hv] at hk'
      cases hk'
  · exact ⟨_, rfl, rfl⟩

/-! ## Widened calls -/

theorem Widens.expr_eq (h : c.Widens [id] c') (hn : ¬ c.Rebuilt id n) :
    c'.arena.expr n = c.arena.expr n :=
  h.kept n fun _ hid => List.mem_singleton.1 hid ▸ hn

/-- What can become a float is one after its tree was rebuilt. -/
theorem Widens.ty_float (h : c.Widens [id] c') (hn : c.widensWithin depth n = some true)
    (hbuilt : c.Built (c.arena.expr n))
    (hrebuilt : (c.arena.expr n).ty = .int → c.Rebuilt id n) : (c'.arena.expr n).ty = .float := by
  rcases ty_of_widensWithin hn with hty | hty
  · rw [h.expr_eq fun hr => ?_, hty]
    cases hty.symm.trans hr.ty_int
  · rw [h.rebuilt n ⟨id, List.mem_singleton_self id, hrebuilt hty⟩]
    exact ty_widened hn hty hbuilt

/-- Arguments that share nothing stand for one parameter each. -/
theorem eq_of_mem_zip {α β : Type} {a : α} {b b' : β} {as : List α} {bs : List β}
    (hnodup : as.Nodup) (h : (a, b) ∈ as.zip bs) (h' : (a, b') ∈ as.zip bs) : b = b' := by
  obtain ⟨i, hi, heq⟩ := List.mem_iff_getElem.1 h
  obtain ⟨j, hj, heq'⟩ := List.mem_iff_getElem.1 h'
  simp only [List.getElem_zip, Prod.mk.injEq] at heq heq'
  obtain rfl : i = j := (hnodup.getElem_inj_iff).1 (heq.1.trans heq'.1.symm)
  exact heq.2.symm.trans heq'.2

theorem mem_followers (h : (m, t) ∈ args.zip (c.arena.definitionType d).params)
    (hfollows : c.followsCall d t = true) : m ∈ c.followers d args :=
  List.mem_map.2 ⟨(m, t), List.mem_filter.2 ⟨h, hfollows⟩, rfl⟩

/-- An argument follows a call of another function than a negation if it stands for a generic
number, and only then. -/
theorem eq_number_of_mem_followers (hnodup : args.Nodup) (hd : d ≠ c.builtins.unaryMinus)
    (h : (m, t) ∈ args.zip (c.arena.definitionType d).params) (hm : m ∈ c.followers d args) :
    t = .number := by
  obtain ⟨⟨_, t'⟩, hmem, rfl⟩ := List.mem_map.1 hm
  obtain ⟨hmem, hfollows⟩ := List.mem_filter.1 hmem
  obtain rfl := eq_of_mem_zip hnodup h hmem
  simpa [followsCall, hd] using hfollows

section

variable (hc : c.Coherent R [id] xs) (hn : n ∈ xs)

include hc hn

/-- What is rebuilt below a call of a tree follows it, and the call is rebuilt, too. -/
theorem Coherent.rebuilt_parent (hm : m ∈ (c.arena.expr n).kind.children) (hr : c.Rebuilt id m) :
    c.Rebuilt id n ∧
      ∃ d args, (c.arena.expr n).kind = .call d args ∧ m ∈ c.followers d args := by
  have hroot := List.mem_singleton_self id
  refine (hr.parent hc.forest hc.nodup (hc.forest.subset hroot) hn hm).resolve_left ?_
  rintro rfl
  exact hc.forest.not_mem_children hc.nodup hn hroot hm

/-- A call that is not rebuilt is as consistent as before, since none of its arguments is. -/
theorem Widens.consistent_of_not_rebuilt (h : c.Widens [id] c') (hr : ¬ c.Rebuilt id n) :
    c'.Consistent n := by
  refine (hc.consistent n hn).of_same h.toSameProgram (h.expr_eq hr) fun m hm => ?_
  rw [h.expr_eq fun hr' => hr (hc.rebuilt_parent hn hm hr').1]

/-- What follows a call that is rebuilt becomes a float. -/
theorem Widens.ty_follower (h : c.Widens [id] c') (hid : c.widensWithin depth id = some true)
    (hr : c.Rebuilt id n) (hk : (c.arena.expr n).kind = .call d args)
    (hm : m ∈ c.followers d args) : (c'.arena.expr m).ty = .float := by
  obtain ⟨_, hwidens⟩ := hr.widensWithin hid
  obtain ⟨_, _, -, hfollowers⟩ := widensWithin_call hwidens hr.ty_int hk
  have hmem : m ∈ xs := by
    refine hc.forest.children_subset hn ?_
    rw [hk]
    exact (followers_sublist ..).subset hm
  exact h.ty_float (hfollowers m hm) (hc.node m hmem) fun hty => hr.follower hk hm hty

/-- An argument that does not stand for a generic number stays as it was, unless it is that of a
negation. -/
theorem Widens.argument_eq (h : c.Widens [id] c') (hk : (c.arena.expr n).kind = .call d args)
    (hd : d ≠ c.builtins.unaryMinus) (hm : (m, t) ∈ args.zip (c.arena.definitionType d).params)
    (ht : t ≠ .number) : c'.arena.expr m = c.arena.expr m := by
  have hnodup : args.Nodup := by
    have hsub := hc.forest.children_sublist hn
    rw [hk] at hsub
    exact hc.nodup.sublist hsub
  refine h.expr_eq fun hr => ht ?_
  have hchild : m ∈ (c.arena.expr n).kind.children := by
    rw [hk]
    exact (List.of_mem_zip hm).1
  obtain ⟨-, _, _, hk', hfollows⟩ := hc.rebuilt_parent hn hchild hr
  cases hk.symm.trans hk'
  exact eq_number_of_mem_followers hnodup hd hm hfollows

/-- A rebuilt negation of integers suits the negation of floats. -/
theorem Widens.suits_negation (h : c.Widens [id] c') (hid : c.widensWithin depth id = some true)
    (hr : c.Rebuilt id n) (hk : (c.arena.expr n).kind = .call c.builtins.unaryMinus args)
    (hlength : args.length = 1) (hty : (c'.arena.expr n).ty = .float) :
    c'.Suits n args [.float] .float .float := by
  refine ⟨.inr rfl, hlength, fun arg param hmem => ?_, fun _ _ => hty⟩
  have hparams : (c.arena.definitionType c.builtins.unaryMinus).params = [.int] := by
    rw [Arena.definitionType_of_declared hc.registered.unaryMinus]
    rfl
  obtain ⟨arg', rfl⟩ := List.length_eq_one_iff.1 hlength
  simp only [List.zip_cons_cons, List.zip_nil_right, List.mem_singleton, Prod.mk.injEq] at hmem
  obtain ⟨rfl, rfl⟩ := hmem
  have hfollows : arg ∈ c.followers c.builtins.unaryMinus [arg] :=
    mem_followers (t := .int) (by simp [hparams]) (by simp [followsCall])
  exact (h.ty_follower hc hn hid hr hk hfollows).trans (by simp)

/-- A rebuilt call of another function suits it with floats for generic numbers. -/
theorem Widens.suits_float (h : c.Widens [id] c') (hid : c.widensWithin depth id = some true)
    (hr : c.Rebuilt id n) (hk : (c.arena.expr n).kind = .call d args)
    (hd : d ≠ c.builtins.unaryMinus) (hparams : (c.arena.definitionType d).params = params)
    (hsuits : c.Suits n args params result t) (hty : (c'.arena.expr n).ty = .float) :
    c'.Suits n args params result .float := by
  refine ⟨.inr rfl, hsuits.length, fun arg param hmem => ?_, fun _ _ => hty⟩
  have hmem' : (arg, param) ∈ args.zip (c.arena.definitionType d).params := by rwa [hparams]
  split_ifs with hnumber
  · have hfollows : arg ∈ c.followers d args := mem_followers hmem' (by simp [followsCall, hnumber])
    exact h.ty_follower hc hn hid hr hk hfollows
  · rw [h.argument_eq hc hn hk hd hmem' hnumber, hsuits.argument arg param hmem, if_neg hnumber]

/-- **Widening** keeps calls consistent. -/
theorem Widens.consistent (h : c.Widens [id] c') (hid : c.widensWithin depth id = some true) :
    c'.Consistent n := by
  by_cases hr : c.Rebuilt id n
  · obtain ⟨depth', hwidens⟩ := hr.widensWithin hid
    have hty : (c'.arena.expr n).ty = .float := h.ty_float hwidens (hc.node n hn) fun _ => hr
    intro d' args hk'
    rw [h.rebuilt n ⟨id, List.mem_singleton_self id, hr⟩] at hk'
    obtain ⟨d, hk, rfl⟩ := exists_call_of_widened hk'
    obtain ⟨floatCallee, _, hcallee, -⟩ := widensWithin_call hwidens hr.ty_int hk
    obtain ⟨params, result, isPure, t, hdeclared, hsuits⟩ := hc.consistent n hn d args hk
    rw [hcallee, Option.getD_some, h.definition]
    by_cases hd : d = c.builtins.unaryMinus
    · subst hd
      obtain rfl : floatCallee = c.builtins.unaryMinusFloat := by
        simpa [floatCallee?, eq_comm] using hcallee
      cases hc.registered.unaryMinus.symm.trans hdeclared
      exact ⟨[.float], .float, true, .float, hc.registered.unaryMinusFloat,
        h.suits_negation hc hn hid hr hk hsuits.length hty⟩
    · obtain rfl : floatCallee = d := by
        rw [floatCallee?, if_neg hd] at hcallee
        split at hcallee <;> cases hcallee
        rfl
      have hparams : (c.arena.definitionType floatCallee).params = params := by
        rw [Arena.definitionType_of_declared hdeclared]
        rfl
      exact ⟨params, result, isPure, .float, hdeclared,
        h.suits_float hc hn hid hr hk hd hparams hsuits hty⟩
  · exact h.consistent_of_not_rebuilt hc hn hr

end

end Compilation

/-! ## Actions on coherent groves -/

/-- A value that is cast becomes another value, which is no call. -/
theorem cast_coherent {cast : Expression} (hc : c.Grove R [id] xs)
    (hvalue : (c.arena.expr id).kind.isValue = true) (hne : (c.arena.expr id).ty ≠ t)
    (hcast : (c.arena.expr id).cast? (c.arena.expr id).ty t = some cast) :
    (c.modifyArena (·.modifyExpr id fun _ => cast)).Coherent R [id] xs ∧
      Confined R R xs xs c (c.modifyArena (·.modifyExpr id fun _ => cast)) ∧
      ((c.modifyArena (·.modifyExpr id fun _ => cast)).arena.expr id).ty = t := by
  have hroot := hc.forest.subset (List.mem_singleton_self id)
  have hconverts := Expression.converts_of_cast? hcast hne
  obtain ⟨v, hv, -⟩ := hconverts.fits
  have htends : c.Tends [] (c.arena.expr id) cast := tends_converts hconverts
  obtain ⟨hgrove, hconfined⟩ :=
    hc.modifyExpr (f := fun _ => cast) hroot htends (.inr hconverts.isValue.2)
  obtain rfl := hc.eq_singleton (ExprKind.children_of_isValue hvalue)
  have hid : (c.modifyArena (·.modifyExpr id fun _ => cast)).arena.expr id = cast :=
    Arena.expr_modifyExpr_self (hc.lt_size hroot) _
  refine ⟨⟨hgrove, fun n hn => ?_⟩, hconfined, ?_⟩
  · obtain rfl := List.mem_singleton.1 hn
    refine consistent_of_not_call fun d args hk => ?_
    rw [hid, hv] at hk
    cases hk
  · rw [hid]
    exact Expression.ty_of_cast? hcast hne

/-- A tree that can become one of floats does so, and stays coherent. -/
theorem widen_coherent (hc : c.Coherent R [id] xs) (hwidens : c.widens id = some true) :
    Outcome (widen id) c
      (fun _ c' => c'.Coherent R [id] xs ∧ Confined R R xs xs c c' ∧ (c'.arena.expr id).ty = .float)
      fun _ _ => True := by
  have hroot := hc.forest.subset (List.mem_singleton_self id)
  have hdeclares : c.Declares xs := fun n hn d args hk => by
    obtain ⟨_, _, _, hdeclared, -⟩ := (hc.node n hn).call d args hk
    exact ⟨_, hdeclared⟩
  have hwidened := ((widenWithin_outcome _ c id xs hc.forest hc.nodup
    (hdeclares.aloof xs) (List.Subset.refl xs) hwidens).and
    ((retypingLaw_trends []).outcome_widenWithin _ hc.registered)).and
    ((retypingLaw_roams _).outcome_widenWithin _ ⟨hc.closed, Place.mem_exprs R hroot⟩)
  simp only [widen, outcome_bind, outcome_arena]
  refine hwidened.mono ?_ fun _ _ _ => trivial
  rintro _ c' ⟨⟨hw, htrends⟩, hroams⟩
  have hkept (n : ExprId) (hn : n ∉ xs) : c'.arena.expr n = c.arena.expr n :=
    hw.expr_eq fun hr => hn (hr.mem hc.forest hroot)
  obtain ⟨hgrove, hconfined⟩ := hc.toGrove.trends htrends hroams hkept
  refine ⟨⟨hgrove, fun n hn => hw.consistent hc hn hwidens⟩, hconfined, ?_⟩
  exact hw.ty_float hwidens (hc.node id hroot) .root

/-- **A tree** that is brought into a type stays coherent. -/
theorem coerceTo_coherent (hc : c.Coherent R [id] xs) (target : Ty) :
    Outcome (coerceTo id target) c
      (fun _ c' => c'.Coherent R [id] xs ∧ Confined R R xs xs c c' ∧ (c'.arena.expr id).ty = target)
      fun _ _ => True := by
  simp only [coerceTo_eq, outcome_bind, outcome_get]
  split
  · exact ⟨hc, .refl R xs c, ‹_›⟩
  · rename_i hne
    split
    · rename_i cast hcast
      split at hcast
      · exact cast_coherent hc.toGrove ‹_› hne hcast
      · cases hcast
    · split
      · trivial
      · rename_i hwidens
        obtain ⟨rfl, hwidens⟩ := (widensTo_eq_iff (by simp)).1 hwidens
        exact widen_coherent hc hwidens
      · trivial

/-- **Arguments** that are brought into the types of their parameters stay coherent. -/
theorem coerceAll_coherent (u : Ty) (args : List ExprId) (params : List Ty)
    (hc : c.Coherent R args xs) :
    Outcome (coerceAll u args params) c
      (fun _ c' => c'.Coherent R args xs ∧ Confined R R xs xs c c' ∧
        ∀ arg param, (arg, param) ∈ args.zip params →
          (c'.arena.expr arg).ty = if param = .number then u else param)
      fun _ _ => True := by
  induction args generalizing params c xs with
  | nil => exact ⟨hc, .refl R xs c, by simp⟩
  | cons arg args ih =>
    cases params with
    | nil => exact ⟨hc, .refl R xs c, by simp⟩
    | cons param params =>
      obtain ⟨below, rest, rfl, hbelow, hrest⟩ := hc.forest.exists_cons
      rw [← List.cons_append] at hc ⊢
      have hdisjoint := (List.nodup_append'.1 hc.nodup).2.2
      have hfirst := hc.sublist hbelow.tree (List.sublist_append_left _ _)
      have hothers := hc.sublist hrest (List.sublist_append_right _ _)
      simp only [coerceAll, outcome_bind]
      refine (coerceTo_coherent hfirst _).imp ?_
      rintro _ c₁ ⟨hfirst₁, hconfined₁, hty⟩
      have hothers₁ := hothers.of_agrees (hconfined₁.agrees hothers.outside hdisjoint)
        hfirst₁.toMaintained subset_rfl fun _ => id
      refine (ih params hothers₁).imp ?_
      rintro _ c₂ ⟨hothers₂, hconfined₂, htys⟩
      obtain ⟨hagrees, hcoherent⟩ :=
        hfirst₁.after hconfined₁ hothers.outside hdisjoint hothers₂ hconfined₂
      refine ⟨hcoherent, hconfined₁.append hconfined₂, ?_⟩
      simp only [List.zip_cons_cons, List.mem_cons, Prod.mk.injEq]
      rintro arg' param' (⟨rfl, rfl⟩ | hmem)
      · rw [hagrees.expr arg' List.mem_cons_self, hty]
      · exact htys arg' param' hmem

/-- A tree whose root is as it was, over what became of all that lies below it. -/
theorem Compilation.Confined.grove_root (h : Confined R R' xs xs' c c')
    (hc : c.Grove R [id] (id :: xs))
    (hc' : c'.Grove R' (c.arena.expr id).kind.children xs') :
    c'.arena.expr id = c.arena.expr id ∧ c'.Grove R' [id] (id :: xs') := by
  have hid := (List.nodup_cons.1 hc.nodup).1
  have houtside : ∀ n ∈ [id], .expr n ∉ R := fun n hn =>
    hc.outside n (List.mem_cons.2 (.inl (List.mem_singleton.1 hn)))
  have hdisjoint : xs.Disjoint [id] := by simpa using hid
  have hroot := (h.agrees houtside hdisjoint).expr id (List.mem_singleton_self id)
  refine ⟨hroot, ?_⟩
  rw [← hroot] at hc'
  refine hc'.tree ?_ (fun hR => houtside id (List.mem_singleton_self id) (h.region hR)) ?_ ?_
  · simpa using h.disjoint houtside hdisjoint
  · rw [hroot]
    exact h.toSameProgram.built (hc.node id List.mem_cons_self)
  · rw [hroot, h.builtins]
    exact fun d hd => h.definition d (hc.uses id List.mem_cons_self d hd)

/-- **A call** is consistent once it is typed over coherent arguments, one for each parameter. -/
theorem typeCall_coherent {isPure : Bool} (hc : c.Grove R [id] (id :: xs))
    (hconsistent : ∀ n ∈ xs, c.Consistent n) (hk : (c.arena.expr id).kind = .call d args)
    (hdeclared : (c.arena.definition d).declared = some (.function params result isPure))
    (hlength : args.length = params.length) :
    Outcome (typeCall id (.function params result isPure) args) c
      (fun _ c' => c'.Coherent R [id] (id :: xs) ∧ Confined R R (id :: xs) (id :: xs) c c')
      fun _ _ => True := by
  obtain ⟨_, heq, hid, hbelow⟩ := hc.exists_tree
  obtain rfl := (List.cons.inj heq).2
  have hargs : c.Coherent R (c.arena.expr id).kind.children xs := ⟨hbelow, hconsistent⟩
  simp only [typeCall, outcome_bind, outcome_arena]
  generalize hu : unifiedNumber c.arena args params = u
  have hnumber : u = .int ∨ u = .float := by
    rw [← hu, unifiedNumber]
    split
    · exact .inr rfl
    · exact .inl rfl
  rw [hk] at hargs
  refine (coerceAll_coherent u args params hargs).imp ?_
  rintro _ c₁ ⟨hargs₁, hconfined₁, htys⟩
  obtain ⟨hroot, hc₁⟩ := hconfined₁.grove_root hc (by rw [hk]; exact hargs₁.toGrove)
  have hk₁ : (c₁.arena.expr id).kind = .call d args := by rw [hroot, hk]
  have hdeclared₁ : (c₁.arena.definition d).declared = some (.function params result isPure) := by
    rwa [hconfined₁.toSameProgram.definition]
  -- All that is left is the type of the call itself.
  have hsuits {c₂ : Compilation} (hsame : c₁.SameProgram c₂)
      (hk₂ : (c₂.arena.expr id).kind = .call d args)
      (hkept : ∀ n ∈ xs, c₂.arena.expr n = c₁.arena.expr n)
      (hresult : result = .number → (c₂.arena.expr id).ty = u) :
      ∀ n ∈ id :: xs, c₂.Consistent n := by
    refine List.forall_mem_cons.2 ⟨fun d' args' hk' => ?_, fun n hn => ?_⟩
    · cases hk₂.symm.trans hk'
      refine ⟨params, result, isPure, u, by rwa [hsame.definition], hnumber, hlength,
        fun arg param hmem => ?_, fun _ => hresult⟩
      rw [hkept arg (hargs₁.forest.subset (List.of_mem_zip hmem).1)]
      exact htys arg param hmem
    · exact (hargs₁.consistent n hn).of_same hsame (hkept n hn) fun m hm => by
        rw [hkept m (hargs₁.forest.children_subset hn hm)]
  split
  · rename_i hresult
    rw [outcome_setType]
    have htends : c₁.Tends [] (c₁.arena.expr id) { c₁.arena.expr id with ty := u } :=
      tends_retype (by rw [hk₁]; rfl) u
    obtain ⟨hgrove, hconfined⟩ := hc₁.modifyExpr (f := fun e => { e with ty := u })
      List.mem_cons_self htends (.inl rfl)
    have hid₂ := Arena.expr_modifyExpr_self (hc₁.lt_size List.mem_cons_self)
      fun e => { e with ty := u }
    refine ⟨⟨hgrove, hsuits hconfined.toSameProgram ?_ (fun n hn => ?_) fun _ => ?_⟩,
      (hconfined₁.cons id).trans hconfined⟩
    · simp only [modifyArena, hid₂, hk₁]
    · refine Arena.expr_modifyExpr_of_ne ?_ _
      rintro rfl
      exact hid hn
    · simp only [modifyArena, hid₂]
  · rename_i hresult
    exact ⟨⟨hc₁, hsuits (.refl c₁) hk₁ (fun _ _ => rfl) fun h => (hresult h).elim⟩,
      hconfined₁.cons id⟩

/-- **A minus sign** becomes a call, which is still to be typed. -/
theorem callNegation_grove (hc : c.Grove R [id] xs) (hk : (c.arena.expr id).kind = .negated x) :
    Outcome (callNegation id x) c (fun _ c' => c'.Grove R [id] xs ∧ Confined R R xs xs c c')
      fun _ _ => True := by
  have hid := hc.forest.subset (List.mem_singleton_self id)
  have hx : x ∈ xs := hc.forest.children_subset hid (by rw [hk]; simp [ExprKind.children])
  have hneg (d : DefId) (hd : c.IsNegation d) : .definition d ∈ R :=
    hc.uses id hid d (by rw [hk]; exact .negation x hd)
  have htrends : Outcome (callNegation id x) c (fun _ => c.Trends []) fun _ => c.Trends [] :=
    callNegation_trends [] hc.registered (by rw [hk]; exact .refl _)
  have hroams := callNegation_roams (Place.mem_exprs R hid) (Place.mem_exprs R hx)
    fun d hd => .inl (hneg d hd)
  -- Only the minus sign and its operand change.
  have hkept := callNegation_roams (c := c) (R := { p | ∀ n, p = .expr n → n ∈ xs })
    (fun n heq => by cases heq; exact hid) (fun n heq => by cases heq; exact hx)
    fun d _ n heq => by cases heq
  refine ((htrends.and hroams).and hkept).mono ?_ fun _ _ _ => trivial
  rintro _ c' ⟨⟨htrends, hroams⟩, hkept⟩
  refine hc.trends htrends hroams fun n hn => hkept.outside n fun hmem => hn (hmem n rfl)

/-! ## The walk of a tree -/

/-- A way to walk trees. If it ends, the tree is coherent. -/
def Turning (visit : ExprId → WalkM Unit) : Prop :=
  ∀ (R : Set Place) (id : ExprId) (xs : List ExprId) (w : Walk), w.unit.Grove R [id] xs →
    Outcome (visit id) w (fun _ w' => w.unit.Turns R [id] xs w'.unit) fun _ _ => True

variable {next : Visitor} {child : ExprId → WalkM Unit} {w : Walk}

/-- **Trees** are walked one after the other. -/
theorem visitEach_turns (hchild : Turning child) (ids : List ExprId) (hw : w.unit.Grove R ids xs) :
    Outcome (visitEach child ids) w (fun _ w' => w.unit.Turns R ids xs w'.unit)
      fun _ _ => True := by
  induction ids generalizing R xs w with
  | nil =>
    obtain rfl := hw.forest.eq_nil
    exact ⟨R, [], ⟨hw, by simp⟩, .refl R [] w.unit⟩
  | cons id ids ih =>
    obtain ⟨ys, zs, rfl, hdisjoint, hfirst, hothers⟩ := hw.exists_cons
    simp only [visitEach, outcome_bind]
    refine (hchild R id ys w hfirst).imp ?_
    rintro _ w₁ ⟨R₁, ys₁, hfirst₁, hconfined₁⟩
    have hothers₁ := hothers.of_agrees (hconfined₁.agrees hothers.outside hdisjoint)
      hfirst₁.toMaintained hconfined₁.region hconfined₁.definition
    refine (ih hothers₁).imp ?_
    rintro _ w₂ ⟨R₂, zs₂, hothers₂, hconfined₂⟩
    obtain ⟨-, hcoherent⟩ := hfirst₁.after hconfined₁ hothers.outside hdisjoint hothers₂ hconfined₂
    exact ⟨R₂, ys₁ ++ zs₂, hcoherent, hconfined₁.append hconfined₂⟩

/-- **A use** is replaced by a tree that becomes coherent, or nothing changes. -/
theorem trySubstitute_turns (hnext : ∀ active, Turning (next.expr active))
    (hw : w.unit.Grove R [id] [id]) (hd : (w.unit.arena.expr id).kind.definition? = some d) :
    Outcome (trySubstitute settings next active id d) w
      (fun replaced w' =>
        if replaced then w.unit.Turns R [id] [id] w'.unit else w.unit.Unchanged w'.unit)
      fun _ _ => True := by
  rw [trySubstitute]
  split
  · exact Unchanged.refl _
  · rw [outcome_bind, outcome_lift]
    refine ((substitute_outcome settings hd).and (substitute_copies settings hd)).mono ?_
      fun _ _ _ => trivial
    rintro (_ | _) c' ⟨hkept, hcopied⟩
    · exact hkept.kept rfl
    · obtain ⟨b, hreplaced⟩ := hcopied rfl
      obtain ⟨R₁, xs₁, hgrove, hconfined⟩ := hreplaced.grove hw
      simp only [if_true, outcome_bind, outcome_pure]
      exact (hnext (d :: active) R₁ id xs₁ ⟨c', w.finished⟩ hgrove).imp fun _ _ => .trans hconfined

/-- A body is walked within the region and leaves the trees beside it alone. -/
theorem visitDefinition_grove (hgoverns : (upkeep settings R).Governs next)
    (hw : w.unit.Grove R ids xs) (hd : .definition d ∈ R) :
    Outcome (visitDefinition next active d) w
      (fun _ w' => w'.unit.Grove R ids xs ∧ w.unit.Agrees xs w'.unit ∧
        Confined R R xs xs w.unit w'.unit) fun _ _ => True := by
  have hgoes : (upkeep settings R).Goes active (visitDefinition next active d) w _ :=
    Discipline.visitDefinition_goes hgoverns d hw.toMaintained hd
  refine Outcome.mono hgoes ?_ fun _ _ _ => trivial
  rintro _ w' ⟨h, -⟩
  exact ⟨hw.upkeeps h, hw.agrees_of_upkeeps h, h.toRoams.confined xs⟩

/-- Nothing has changed so far. -/
theorem Compilation.Grove.unchanged (hc : c.Grove R ids xs) (h : c.Unchanged c') :
    c'.Grove R ids xs ∧ Confined R R xs xs c c' :=
  ⟨hc.upkeeps ((h.roams R).upkeeps (h.trends [])), (h.roams R).confined xs⟩

/-- **A reference** is replaced by a tree that becomes coherent, or stays one. -/
theorem visitReference_turns (hgoverns : (upkeep settings R).Governs next)
    (hnext : ∀ active, Turning (next.expr active)) (hw : w.unit.Grove R [id] [id])
    (hk : (w.unit.arena.expr id).kind = .reference d ∨ (w.unit.arena.expr id).kind = .operator d) :
    Outcome (visitReference settings next active id d) w
      (fun _ w' => w.unit.Turns R [id] [id] w'.unit) fun _ _ => True := by
  have hid := List.mem_singleton_self id
  have hd : (w.unit.arena.expr id).kind.definition? = some d := by
    rcases hk with hk | hk <;> rw [hk] <;> rfl
  rw [visitReference, outcome_bind]
  refine (trySubstitute_turns hnext hw hd).imp ?_
  rintro (_ | _) w₁ h₁
  · simp only [Bool.false_eq_true, if_false] at h₁ ⊢
    obtain ⟨hw₁, hconfined₁⟩ := hw.unchanged h₁
    rw [outcome_bind]
    refine (visitDefinition_grove hgoverns hw₁ (hw.uses id hid d (.use hd))).imp ?_
    rintro _ w₂ ⟨hw₂, hagrees₂, hconfined₂⟩
    have hk₂ : (w₂.unit.arena.expr id).kind = .reference d ∨
        (w₂.unit.arena.expr id).kind = .operator d := by
      rwa [hagrees₂.expr id hid, h₁.expr]
    simp only [typeReference, outcome_bind, outcome_lift, outcome_definitionType,
      outcome_definition, outcome_expr]
    split
    · trivial
    · split
      · trivial
      · rw [outcome_setType]
        have htends : w₂.unit.Tends [] (w₂.unit.arena.expr id)
            { w₂.unit.arena.expr id with ty := w₂.unit.arena.definitionType d } :=
          tends_retype (by rcases hk₂ with hk₂ | hk₂ <;> rw [hk₂] <;> rfl) _
        obtain ⟨hgrove, hconfined⟩ := hw₂.modifyExpr hid
          (f := fun e => { e with ty := w₂.unit.arena.definitionType d }) htends (.inl rfl)
        refine ⟨R, [id], ⟨hgrove, fun n hn => consistent_of_not_call fun d' args => ?_⟩,
          (hconfined₁.trans hconfined₂).trans hconfined⟩
        obtain rfl := List.mem_singleton.1 hn
        simp only [modifyArena, Arena.expr_modifyExpr_self (hw₂.lt_size hid)]
        rcases hk₂ with hk₂ | hk₂ <;> rw [hk₂] <;> simp
  · simpa using h₁

/-- A call that is not replaced is typed over its arguments, once they and its callee were
walked. -/
theorem visitArguments_turns {isPure : Bool} (hgoverns : (upkeep settings R).Governs next)
    (hchild : Turning child) (hw : w.unit.Grove R [id] xs)
    (hk : (w.unit.arena.expr id).kind = .call d args)
    (hdeclared : (w.unit.arena.definition d).declared = some (.function params result isPure))
    (hlength : args.length = params.length) :
    Outcome (do
        visitDefinition next active d
        visitEach child args
        liftM (typeCall id (.function params result isPure) args)) w
      (fun _ w' => w.unit.Turns R [id] xs w'.unit) fun _ _ => True := by
  have hid := hw.forest.subset (List.mem_singleton_self id)
  have hd : (w.unit.arena.expr id).kind.definition? = some d := by
    rw [hk]
    rfl
  simp only [outcome_bind]
  refine (visitDefinition_grove hgoverns hw (hw.uses id hid d (.use hd))).imp ?_
  rintro _ w₁ ⟨hw₁, hagrees₁, hconfined₁⟩
  have hk₁ : (w₁.unit.arena.expr id).kind = .call d args := by rw [hagrees₁.expr id hid, hk]
  obtain ⟨below, rfl, -, hbelow⟩ := hw₁.exists_tree
  rw [hk₁] at hbelow
  refine (visitEach_turns hchild args hbelow).imp ?_
  rintro _ w₂ ⟨R₂, below₂, hbelow₂, hconfined₂⟩
  obtain ⟨hroot, hw₂⟩ := hconfined₂.grove_root hw₁ (by rw [hk₁]; exact hbelow₂.toGrove)
  have hdeclared₂ : (w₂.unit.arena.definition d).declared =
      some (.function params result isPure) := by
    rwa [hconfined₂.toSameProgram.definition, hconfined₁.toSameProgram.definition]
  rw [outcome_lift]
  refine (typeCall_coherent hw₂ hbelow₂.consistent (by rw [hroot, hk₁]) hdeclared₂ hlength).imp ?_
  rintro _ c₃ ⟨hc₃, hconfined₃⟩
  exact ⟨R₂, id :: below₂, hc₃, hconfined₁.trans ((hconfined₂.cons id).trans hconfined₃)⟩

/-- **A call** is replaced by a tree that becomes coherent, or typed over its arguments, which are
as many as its callee has parameters. -/
theorem visitCall_turns (hgoverns : (upkeep settings R).Governs next)
    (hnext : ∀ active, Turning (next.expr active)) (hchild : Turning child)
    (hw : w.unit.Grove R [id] xs) (hk : (w.unit.arena.expr id).kind = .call d args) :
    Outcome (visitCall settings next child active id d args) w
      (fun _ w' => w.unit.Turns R [id] xs w'.unit) fun _ _ => True := by
  have hid := hw.forest.subset (List.mem_singleton_self id)
  obtain ⟨params, result, isPure, hdeclared, hle⟩ := (hw.node id hid).call d args hk
  have hty := Arena.definitionType_of_declared hdeclared
  simp only [visitCall, outcome_bind, outcome_lift, outcome_arena, hty]
  split
  · trivial
  rename_i hfull
  have hlength : args.length = params.length := by
    refine le_antisymm hle (Nat.le_of_not_lt fun hlt => hfull ?_)
    simp [Arena.isPartialCall, hk, hty, Ty.arity, Ty.params, hlt]
  split
  · rename_i hempty
    -- A call without arguments may be replaced like a reference.
    rw [List.isEmpty_iff] at hempty
    subst hempty
    obtain rfl := hw.eq_singleton (by rw [hk]; rfl)
    rw [outcome_bind]
    refine (trySubstitute_turns hnext hw (d := d) (by rw [hk]; rfl)).imp ?_
    rintro (_ | _) w₁ h₁
    · simp only [Bool.false_eq_true, if_false] at h₁ ⊢
      obtain ⟨hw₁, hconfined₁⟩ := hw.unchanged h₁
      refine (visitArguments_turns hgoverns hchild hw₁ (by rw [h₁.expr, hk])
        (by rwa [h₁.toSameProgram.definition]) hlength).imp fun _ _ => ?_
      exact .trans hconfined₁
    · simpa using h₁
  · rw [outcome_bind, outcome_pure]
    simp only [Bool.false_eq_true, if_false]
    exact visitArguments_turns hgoverns hchild hw hk hdeclared hlength

/-- **A minus sign** becomes a call, which is walked in turn. -/
theorem visitNegation_turns (hnext : ∀ active, Turning (next.expr active))
    (hchild : Turning child) (hw : w.unit.Grove R [id] xs)
    (hk : (w.unit.arena.expr id).kind = .negated x) :
    Outcome (visitNegation next child active id x) w
      (fun _ w' => w.unit.Turns R [id] xs w'.unit) fun _ _ => True := by
  obtain ⟨below, rfl, -, hbelow⟩ := hw.exists_tree
  have hx : w.unit.Grove R [x] below := by
    rw [hk] at hbelow
    exact hbelow
  simp only [visitNegation, outcome_bind, outcome_lift]
  refine (hchild R x below w hx).imp ?_
  rintro _ w₁ ⟨R₁, below₁, hbelow₁, hconfined₁⟩
  obtain ⟨hroot, hw₁⟩ := hconfined₁.grove_root hw (by rw [hk]; exact hbelow₁.toGrove)
  refine (callNegation_grove hw₁ (by rw [hroot, hk])).imp ?_
  rintro _ c₂ ⟨hc₂, hconfined₂⟩
  refine (hnext active R₁ id (id :: below₁) ⟨c₂, w₁.finished⟩ hc₂).imp fun _ _ => ?_
  exact .trans ((hconfined₁.cons id).trans hconfined₂)

/-- A value that takes its native type stays a value. -/
theorem concretizeValue_turns (hc : c.Grove R [id] xs)
    (hvalue : (c.arena.expr id).kind.isValue = true) :
    Outcome (concretizeValue id) c (fun _ c' => c.Turns R [id] xs c') fun _ _ => True := by
  obtain rfl := hc.eq_singleton (ExprKind.children_of_isValue hvalue)
  have hid := List.mem_singleton_self id
  have htrends : Outcome (concretizeValue id) c (fun _ => c.Trends []) c.Refuses :=
    (retypingLaw_trends []).outcome_concretizeValue hc.registered
  have hroams := (retypingLaw_roams _).outcome_concretizeValue ⟨hc.closed, Place.mem_exprs R hid⟩
  have hkept : Outcome (concretizeValue id) c
      (fun _ c' => ∀ n ≠ id, c'.arena.expr n = c.arena.expr n) fun _ _ => True := by
    simp only [concretizeValue_eq, outcome_bind, outcome_expr]
    split
    · exact fun _ _ => rfl
    · split
      · exact fun n hn => Arena.expr_modifyExpr_of_ne hn _
      · split <;> trivial
  refine (((htrends.and hroams).and hkept).and (concretizeValue_outcome id)).mono ?_
    fun _ _ _ => trivial
  rintro _ c' ⟨⟨⟨htrends, hroams⟩, hkept⟩, hcasts⟩
  obtain ⟨hgrove, hconfined⟩ := hc.trends htrends hroams fun n hn =>
    hkept n fun heq => hn (heq ▸ hid)
  refine ⟨R, [id], ⟨hgrove, fun n hn => consistent_of_not_call fun d args hk => ?_⟩, hconfined⟩
  obtain rfl := List.mem_singleton.1 hn
  have hkind := (hcasts.alike n).isValue.trans hvalue
  rw [hk] at hkind
  cases hkind

/-- What became coherent stays so in its declared type. -/
theorem finish_turns {visit : WalkM Unit} (hvisit : Outcome visit w
      (fun _ w' => w.unit.Turns R [id] xs w'.unit) fun _ _ => True) :
    Outcome (do
      visit
      liftM (honourDeclared id)
      liftM (requireNative id)) w (fun _ w' => w.unit.Turns R [id] xs w'.unit)
        fun _ _ => True := by
  have hnative {c : Compilation} (h : w.unit.Turns R [id] xs c) :
      Outcome (requireNative id) c (fun _ c' => w.unit.Turns R [id] xs c') fun _ _ => True := by
    simp only [requireNative, outcome_bind, outcome_expr]
    split
    · exact h
    · trivial
  rw [outcome_bind]
  refine hvisit.imp ?_
  rintro _ w₁ ⟨R₁, xs₁, hcoherent, hconfined⟩
  simp only [honourDeclared, outcome_bind, outcome_lift, outcome_expr]
  split
  · refine (coerceTo_coherent hcoherent _).imp ?_
    rintro _ c₂ ⟨hcoherent₂, hconfined₂, -⟩
    exact hnative ⟨R₁, xs₁, hcoherent₂, hconfined.trans hconfined₂⟩
  · exact hnative ⟨R₁, xs₁, hcoherent, hconfined⟩

/-- **An expression** that was walked is coherent. -/
theorem visitExpr_turns (hgoverns : ∀ R, (upkeep settings R).Governs next)
    (hnext : ∀ active, Turning (next.expr active)) (hchild : Turning child) :
    Turning (visitExpr settings next child active) := by
  intro R id xs w hw
  rw [visitExpr, outcome_bind, outcome_lift, outcome_expr]
  cases hk : (w.unit.arena.expr id).kind <;> simp only
  case value =>
    refine finish_turns ?_
    rw [outcome_lift]
    exact concretizeValue_turns hw (by rw [hk]; rfl)
  case reference =>
    obtain rfl := hw.eq_singleton (by rw [hk]; rfl)
    exact finish_turns (visitReference_turns (hgoverns R) hnext hw (.inl hk))
  case operator =>
    obtain rfl := hw.eq_singleton (by rw [hk]; rfl)
    exact finish_turns (visitReference_turns (hgoverns R) hnext hw (.inr hk))
  case call => exact finish_turns (visitCall_turns (hgoverns R) hnext hchild hw hk)
  case negated => exact finish_turns (visitNegation_turns hnext hchild hw hk)
  all_goals trivial

theorem visitWithin_turns (hgoverns : ∀ R, (upkeep settings R).Governs next)
    (hnext : ∀ active, Turning (next.expr active)) (active : List DefId) (bound depth : Nat) :
    Turning (visitWithin settings next active bound depth) := by
  induction depth with
  | zero => exact fun _ _ _ _ _ => trivial
  | succ depth ih =>
    refine visitExpr_turns hgoverns hnext fun R id xs w hw => ?_
    split
    · exact ih R id xs w hw
    · exact hnext active R id xs w hw

/-- **The walk of a tree** makes it coherent, with any number of rounds. -/
theorem visitor_turns (settings : Settings) (rounds : Nat) (active : List DefId) :
    Turning ((visitor settings rounds).expr active) := by
  induction rounds generalizing active with
  | zero => exact fun _ _ _ _ _ => trivial
  | succ rounds ih =>
    intro R id xs w hw
    simp only [visitor, outcome_bind, outcome_lift, outcome_arena]
    exact visitWithin_turns (fun R => (upkeep settings R).visitor_goes rounds) ih active _ _ R id xs
      w hw

/-! ## Whole trees -/

/-- Where an expression leads to. -/
def Compilation.Ahead (c : Compilation) (id : ExprId) : Set Place :=
  { p | Relation.ReflTransGen c.Onward (.expr id) p }

/-- What lies behind the definitions of a tree, with what will be appended, is sturdy if all that
the tree leads to is. -/
theorem Compilation.Sturdy.surroundings (h : c.Sturdy (c.Ahead id)) :
    c.Sturdy (c.Surroundings id) where
  built n hn := by
    rcases hn with ⟨d, hd, hn⟩ | ⟨m, heq, hm⟩
    · exact h.built n (hd.trans hn)
    · cases heq
      rw [Arena.expr_of_size_le hm]
      refine built_of_not_use rfl ?_
      simp [Expression.tombstone, Expression.sentinel, Expression.new]
  inTable p hp n ho := by
    rcases hp with ⟨d, hd, hp⟩ | ⟨m, rfl, hm⟩
    · exact h.inTable p (hd.trans hp) n ho
    · exact (not_onward_of_size_le hm ho).elim
  acyclic n hn := by
    rcases hn with ⟨d, hd, hn⟩ | ⟨m, heq, hm⟩
    · exact h.acyclic n (hd.trans hn)
    · cases heq
      refine ⟨_, fun k hk => ?_⟩
      rw [Arena.expr_of_size_le hm] at hk
      cases hk

/-- A place in the tables. -/
def Place.InBounds (a : Arena) : Place → Prop
  | .expr n => n.index < a.exprs.size
  | .definition _ => True
  | .statement s => s.index < a.stmts.size

/-- Places in the tables lead to such places only. -/
theorem Compilation.Onward.inBounds {p q : Place} (ho : c.Onward p q) (hc : c.arena.InBounds)
    (hp : p.InBounds c.arena) : q.InBounds c.arena := by
  have hstmt {s : StmtId} (hs : s.index < c.arena.stmts.size) :
      (c.arena.stmt s).kind.InBounds c.arena := by
    refine hc.stmts _ ?_
    rw [Arena.stmt, Array.getD_eq_getD_getElem?, Array.getElem?_eq_getElem hs]
    exact Array.getElem_mem hs
  have hbody (d : DefId) : (c.arena.definition d).body.InBounds c.arena :=
    Arena.forall_definition (p := fun x => x.body.InBounds c.arena) hc.defs trivial d
  cases ho with
  | @expr n q hq =>
    cases q with
    | expr m =>
      exact Arena.forall_expr (p := fun e => m ∈ e.kind.children → m.index < c.arena.exprs.size)
        (fun e he hm => hc.children e he m hm) (fun hm => by cases hm) n hq.mem_children
    | definition d => trivial
    | statement s =>
      generalize (c.arena.expr n).kind = k at hq
      cases hq
  | @body d b h =>
    have := hbody d
    rwa [h] at this
  | @program d s h =>
    have := hbody d
    rwa [h] at this
  | @shown s e h | @result s e h =>
    have := hstmt hp
    rwa [h] at this
  | bind => trivial
  | @block s t ss h ht =>
    have := hstmt hp
    rw [h] at this
    exact this t ht

/-- **A program without cycles**, with well-built expressions and handles that point into its
tables, is sturdy wherever an expression leads to. -/
theorem Compilation.sturdy_ahead (hbuilt : ∀ e ∈ c.arena.exprs, c.Built e)
    (hinBounds : c.arena.InBounds) (hacyclic : c.arena.Acyclic)
    (hid : id.index < c.arena.exprs.size) : c.Sturdy (c.Ahead id) where
  built n _ := Arena.forall_expr (p := c.Built) hbuilt
    (built_of_not_use rfl (by simp [Expression.tombstone, Expression.sentinel, Expression.new])) n
  inTable p hp n ho := by
    have hahead {p : Place} (hp : p ∈ c.Ahead id) : p.InBounds c.arena := by
      induction hp with
      | refl => exact hid
      | tail _ ho ih => exact ho.inBounds hinBounds ih
    exact ho.inBounds hinBounds (hahead hp)
  acyclic n _ := hacyclic.apply n

/-- **All calls that are left are consistent**: they have an argument for each parameter of the
callee, and each of these has the type of its parameter, where those for generic numbers have one
type in common. -/
theorem concretize_consistent (hforest : c.arena.Forest [id] xs) (hnodup : xs.Nodup)
    (hid : id.index < c.arena.exprs.size) (hbehind : ∀ n ∈ xs, .expr n ∉ c.Behind id)
    (hsturdy : c.Sturdy (c.Ahead id)) (hregistered : c.Registered)
    (h : concretize settings id c = .ok () c')
    (hn : Relation.ReflTransGen (fun n m => m ∈ (c'.arena.expr n).kind.children) id n) :
    c'.Consistent n := by
  have hahead (n : ExprId) (hn : n ∈ xs) : .expr n ∈ c.Ahead id := reaches_of_forest hforest hn
  have hbound (n : ExprId) (hn : n ∈ xs) : n.index < c.arena.exprs.size := by
    obtain ⟨m, hm, hpath⟩ := hforest.exists_root hn
    obtain rfl := List.mem_singleton.1 hm
    rcases hpath.cases_tail with rfl | ⟨k, hpath, hk⟩
    · exact hid
    · exact hsturdy.inTable _ (hpath.lift Place.expr fun _ _ => onward_child) n (onward_child hk)
  have hgrove : c.Grove (c.Surroundings id) [id] xs :=
    { toClosed := c.closed_surroundings id
      toSturdy := hsturdy.surroundings
      registered := hregistered
      forest := hforest
      nodup := hnodup
      outside := fun n hn => not_mem_surroundings (hbehind n hn) (hbound n hn)
      node := fun n hn => hsturdy.built n (hahead n hn)
      uses := fun n hn d hd => mem_surroundings ((hahead n hn).tail (.expr hd)) }
  have hturns : Outcome (concretize settings id) c
      (fun _ c' => c.Turns (c.Surroundings id) [id] xs c') fun _ _ => True := by
    simp only [concretize, outcome_bind, outcome_arena, outcome_runWalk]
    exact visitor_turns settings _ [] _ id xs ⟨c, []⟩ hgrove
  obtain ⟨R', xs', hcoherent, -⟩ := hturns.of_ok h
  have hroot := hcoherent.forest.subset (List.mem_singleton_self id)
  exact hcoherent.consistent n (hcoherent.forest.mem_of_reaches hroot hn)

/-- The program of `-3 + k`, where `k` is defined as `0.5`. -/
def shiftedNegation : Compilation :=
  { Compilation.new with
    arena :=
      { exprs := #[.new (.value (.int 3)) .int .origin, .new (.call ⟨7⟩ [⟨0⟩]) .int .origin,
          .new (.reference ⟨9⟩) .float .origin, .new (.call ⟨1⟩ [⟨1⟩, ⟨2⟩]) .number .origin,
          .new (.value (.float 0.5)) .float .origin]
        defs := Builtins.definitions.toArray.push ⟨"k", .expression ⟨4⟩, none, none, .origin⟩
        stmts := #[]
        roots := [] } }

theorem shiftedNegation_inBounds : shiftedNegation.arena.InBounds where
  children := by simp [shiftedNegation, Expression.new, ExprKind.children]
  uses := by simp [shiftedNegation, Expression.new, ExprKind.definition?, Builtins.definitions]
  defs := by simp [shiftedNegation, Builtins.definitions, Builtins.entry, Body.InBounds]
  stmts := by simp [shiftedNegation]
  roots := by simp [shiftedNegation]

theorem shiftedNegation_acyclic : shiftedNegation.arena.Acyclic := by
  refine Subrelation.wf (r := InvImage (· < ·) ExprId.index) ?_ (InvImage.wf _ Nat.lt_wfRel.wf)
  rintro m ⟨_ | _ | _ | _ | _ | n⟩ h <;>
    simp_all [shiftedNegation, Arena.expr, Expression.new, ExprKind.children, InvImage,
      Expression.tombstone, Expression.sentinel]
  rcases h with rfl | rfl <;> simp

theorem shiftedNegation_built : ∀ e ∈ shiftedNegation.arena.exprs, shiftedNegation.Built e := by
  intro e he
  simp only [shiftedNegation, List.mem_toArray, List.mem_cons, List.not_mem_nil, or_false] at he
  rcases he with rfl | rfl | rfl | rfl | rfl
  · exact built_value (by trivial) _
  · exact built_call ⟨[.int], .int, true, rfl, le_rfl⟩ _ _
  · exact built_of_not_use rfl (by simp [Expression.new])
  · exact built_call ⟨[.number, .number], .number, true, rfl, le_rfl⟩ _ _
  · exact built_value (by trivial) _

/-- Nothing but the body of `k` lies behind the definitions. -/
theorem shiftedNegation_behind (h : .expr n ∈ shiftedNegation.Behind ⟨3⟩) : n = ⟨4⟩ := by
  obtain ⟨d, -, hpath⟩ := h
  have hbody (d : DefId) : (shiftedNegation.arena.definition d).body = .builtin ∨
      (shiftedNegation.arena.definition d).body = .expression ⟨4⟩ ∨
        (shiftedNegation.arena.definition d).body = .undefined :=
    Arena.forall_definition
      (p := fun x => x.body = .builtin ∨ x.body = .expression ⟨4⟩ ∨ x.body = .undefined)
      (by simp [shiftedNegation, Builtins.definitions, Builtins.entry]) (.inr (.inr rfl)) d
  rcases hpath.cases_head with heq | ⟨q, ho, hpath⟩
  · cases heq
  · obtain rfl : q = .expr ⟨4⟩ := by
      have := hbody d
      cases ho <;> simp_all
    rcases hpath.cases_head with heq | ⟨q, ho, -⟩
    · cases heq
      rfl
    · -- The body is a value, which leads nowhere.
      cases ho with
      | expr hq =>
        cases hq with
        | child hm => cases hm
        | use hd => cases hd

/-- The negation becomes one of floats, beside a copy of `k`. -/
theorem concretize_shiftedNegation :
    ∃ c', concretize {} ⟨3⟩ shiftedNegation = .ok () c' ∧
      (c'.arena.expr ⟨1⟩).kind = .call ⟨8⟩ [⟨0⟩] ∧ c'.Consistent ⟨1⟩ ∧ c'.Consistent ⟨3⟩ := by
  obtain ⟨_, c', h, hcheck⟩ := exists_ok_of_check (concretize {} ⟨3⟩) shiftedNegation
    (fun _ c' => decide ((c'.arena.expr ⟨3⟩).kind = .call ⟨1⟩ [⟨1⟩, ⟨2⟩] ∧
      (c'.arena.expr ⟨1⟩).kind = .call ⟨8⟩ [⟨0⟩])) (by decide +kernel)
  obtain ⟨hsum, hk⟩ := of_decide_eq_true hcheck
  have hminus : shiftedNegation.arena.Forest [⟨1⟩] [⟨1⟩, ⟨0⟩] := .tree (.leaf rfl)
  have hforest : shiftedNegation.arena.Forest [⟨3⟩] [⟨3⟩, ⟨1⟩, ⟨0⟩, ⟨2⟩] :=
    .tree (hminus.append (.leaf rfl))
  have hbehind : ∀ n ∈ [⟨3⟩, ⟨1⟩, ⟨0⟩, ⟨2⟩], .expr n ∉ shiftedNegation.Behind ⟨3⟩ := by
    intro n hn hmem
    obtain rfl := shiftedNegation_behind hmem
    simp at hn
  have hconsistent (n : ExprId)
      (hn : Relation.ReflTransGen (fun n m => m ∈ (c'.arena.expr n).kind.children) ⟨3⟩ n) :
      c'.Consistent n :=
    concretize_consistent hforest (by decide) (by decide) hbehind
      (sturdy_ahead shiftedNegation_built shiftedNegation_inBounds shiftedNegation_acyclic
        (by decide))
      ⟨rfl, rfl⟩ h hn
  refine ⟨c', h, hk, hconsistent _ (.single ?_), hconsistent _ .refl⟩
  rw [hsum]
  exact List.mem_cons_self

/-- The program of `f + -2`, where `f` is a float and the negation of floats takes a text. -/
def retypedNegation : Compilation :=
  let negation : Definition :=
    ⟨"unary_minus_float", .builtin, some (.function [.string] .string true), none, .origin⟩
  { Compilation.new with
    arena :=
      { exprs := #[.new (.value (.int 2)) .int .origin, .new (.call ⟨7⟩ [⟨0⟩]) .int .origin,
          .new (.reference ⟨9⟩) .float .origin, .new (.call ⟨1⟩ [⟨2⟩, ⟨1⟩]) .number .origin]
        defs := (Builtins.definitions.set 8 negation).toArray.push
          ⟨"f", .builtin, some .float, none, .origin⟩
        stmts := #[]
        roots := [] } }

/-- A use of a definition whose body calls logical negation with two arguments. -/
def overfullBody : Compilation :=
  { Compilation.new with
    arena :=
      { exprs := #[.new (.reference ⟨9⟩) .boolean .origin,
          .new (.call ⟨6⟩ [⟨2⟩, ⟨3⟩]) .boolean .origin,
          .new (.value (.boolean true)) .boolean .origin,
          .new (.value (.boolean false)) .boolean .origin]
        defs := Builtins.definitions.toArray.push ⟨"g", .expression ⟨1⟩, none, none, .origin⟩
        stmts := #[]
        roots := [] } }

/-- Calls are inconsistent where the negation of floats is no function of floats, and where a body
calls a function with more arguments than it has parameters. -/
theorem concretize_inconsistent :
    (retypedNegation.arena.Forest [⟨3⟩] [⟨3⟩, ⟨2⟩, ⟨1⟩, ⟨0⟩] ∧
      (∀ e ∈ retypedNegation.arena.exprs, retypedNegation.Built e) ∧
      ∃ c', concretize {} ⟨3⟩ retypedNegation = .ok () c' ∧
        ⟨1⟩ ∈ (c'.arena.expr ⟨3⟩).kind.children ∧ ¬ c'.Consistent ⟨1⟩) ∧
    (overfullBody.arena.Forest [⟨0⟩] [⟨0⟩] ∧ overfullBody.Built (overfullBody.arena.expr ⟨0⟩) ∧
      ∃ c', concretize {} ⟨0⟩ overfullBody = .ok () c' ∧ ¬ c'.Consistent ⟨0⟩) := by
  refine ⟨⟨?_, fun e he => ?_, ?_⟩, ?_, ?_, ?_⟩
  · have hminus : retypedNegation.arena.Forest [⟨1⟩] [⟨1⟩, ⟨0⟩] := .tree (.leaf rfl)
    exact .tree (.append (.leaf rfl) hminus)
  · simp only [retypedNegation, List.mem_toArray, List.mem_cons, List.not_mem_nil, or_false] at he
    rcases he with rfl | rfl | rfl | rfl
    · exact built_value (by trivial) _
    · exact built_call ⟨[.int], .int, true, rfl, le_rfl⟩ _ _
    · exact built_of_not_use rfl (by simp [Expression.new])
    · exact built_call ⟨[.number, .number], .number, true, rfl, le_rfl⟩ _ _
  · obtain ⟨_, c', h, hcheck⟩ := exists_ok_of_check (concretize {} ⟨3⟩) retypedNegation
      (fun _ c' => decide (⟨1⟩ ∈ (c'.arena.expr ⟨3⟩).kind.children ∧
        (c'.arena.expr ⟨1⟩).kind = .call ⟨8⟩ [⟨0⟩] ∧ (c'.arena.expr ⟨0⟩).ty = .float ∧
        (c'.arena.definition ⟨8⟩).declared = some (.function [.string] .string true)))
      (by decide +kernel)
    obtain ⟨hchild, hk, hty, hdeclared⟩ := of_decide_eq_true hcheck
    refine ⟨c', h, hchild, fun hconsistent => ?_⟩
    obtain ⟨params, result, isPure, t, hdeclared', hsuits⟩ := hconsistent _ _ hk
    cases hdeclared.symm.trans hdeclared'
    have := hsuits.argument ⟨0⟩ .string (by simp)
    rw [hty] at this
    cases this
  · exact .leaf rfl
  · exact built_of_not_use rfl (by simp [overfullBody, Arena.expr, Expression.new])
  · obtain ⟨_, c', h, hcheck⟩ := exists_ok_of_check (concretize {} ⟨0⟩) overfullBody
      (fun _ c' => decide ((c'.arena.expr ⟨0⟩).kind = .call ⟨6⟩ [⟨4⟩, ⟨5⟩] ∧
        (c'.arena.definition ⟨6⟩).declared = some (.function [.boolean] .boolean true)))
      (by decide +kernel)
    obtain ⟨hk, hdeclared⟩ := of_decide_eq_true hcheck
    refine ⟨c', h, fun hconsistent => ?_⟩
    obtain ⟨params, result, isPure, t, hdeclared', hsuits⟩ := hconsistent _ _ hk
    cases hdeclared.symm.trans hdeclared'
    cases hsuits.length

end Termwise
