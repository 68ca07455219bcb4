import Termwise.Proofs.Concretization.Consistency

/-!
# Trees of integers that become trees of floats

Whether a tree can become one of floats is decided by one recursion, and another one rebuilds it
without a way to fail. Both follow the same arguments: those for generic numbers, and the operand of
the negation of integers. So where the first one agrees, the second one reaches every integer that
follows the root, and nothing else. Both stop at a float: it stays as it is, with all that lies
below it.

## Main definitions

* `Compilation.Follows`: what follows an expression when it is widened
* `Compilation.HaltsAt`: where widening stops
* `Compilation.asFloat`: an integer as the float that it becomes

## Main results

* `widen_rebuilds`: what is left of a tree that was widened
-/

namespace Termwise

open Compilation

namespace Compilation

/-- What follows an expression when it is widened: itself, and what stands for generic numbers, or
is the operand of the negation of integers, in a call that follows it and is an integer. -/
inductive Follows (c : Compilation) (id : ExprId) : ExprId → Prop where
  | root : Follows c id id
  | argument {n m : ExprId} {d : DefId} {args : List ExprId} {param : Ty} (h : Follows c id n)
    (hty : (c.arena.expr n).ty = .int) (hk : (c.arena.expr n).kind = .call d args)
    (hm : (m, param) ∈ args.zip (c.arena.definitionType d).params)
    (hparam : param = .number ∨ d = c.builtins.unaryMinus) : Follows c id m

/-- Where widening stops: at a float, and at an argument that neither stands for a generic number
nor is the operand of the negation of integers. -/
inductive HaltsAt (c : Compilation) (n : ExprId) : ExprId → Prop where
  | float (hty : (c.arena.expr n).ty = .float) : HaltsAt c n n
  | argument {m : ExprId} {d : DefId} {args : List ExprId} {i : Nat}
    (hk : (c.arena.expr n).kind = .call d args) (hm : args[i]? = some m)
    (hparam : ∀ param, (c.arena.definitionType d).params[i]? = some param →
      param ≠ .number ∧ d ≠ c.builtins.unaryMinus) : HaltsAt c n m

/-- An integer as the float that it becomes: a literal holds the float of its number, and a call has
the same callee, or the negation of floats in place of that of integers. -/
def asFloat (c : Compilation) (e : Expression) : Expression :=
  match e.kind with
  | .value (.int i) => { e with kind := .value (.float (Value.floatOfInt i)), ty := .float }
  | .call d args =>
    let callee := if d = c.builtins.unaryMinus then c.builtins.unaryMinusFloat else d
    { e with kind := .call callee args, ty := .float }
  | _ => e

variable {c c' : Compilation} {id n m k : ExprId} {d : DefId} {args xs : List ExprId} {param : Ty}
  {depth : Nat}

/-! ## What follows -/

theorem mem_followers_iff : m ∈ c.followers d args ↔
    ∃ param, (m, param) ∈ args.zip (c.arena.definitionType d).params ∧
      (param = .number ∨ d = c.builtins.unaryMinus) := by
  simp [followers, followsCall, or_comm]

theorem Follows.of_rebuilt (h : c.Follows id n) (hk : c.Rebuilt n k) : c.Follows id k := by
  induction hk with
  | root => exact h
  | argument hty hkind hm _ ih =>
    obtain ⟨param, hzip, hparam⟩ := mem_followers_iff.1 hm
    exact ih (.argument h hty hkind hzip hparam)

/-- **What is rebuilt** is what follows the root and is an integer. -/
theorem rebuilt_iff : c.Rebuilt id n ↔ c.Follows id n ∧ (c.arena.expr n).ty = .int := by
  constructor
  · intro h
    exact ⟨Follows.of_rebuilt .root h, h.ty_int⟩
  · rintro ⟨h, hty⟩
    induction h with
    | root => exact .root hty
    | argument _ hn hk hm hparam ih =>
      exact (ih hn).follower hk (mem_followers_iff.2 ⟨_, hm, hparam⟩) hty

/-- What follows a tree that can become one of floats can become a float, too. -/
theorem Follows.widensWithin (h : c.Follows id n) (hid : c.widensWithin depth id = some true) :
    ∃ depth', c.widensWithin depth' n = some true := by
  induction h with
  | root => exact ⟨depth, hid⟩
  | argument _ hty hk hm hparam ih =>
    obtain ⟨depth', hn⟩ := ih
    obtain ⟨_, depth'', -, hfollowers⟩ := widensWithin_call hn hty hk
    exact ⟨depth'', hfollowers _ (mem_followers_iff.2 ⟨_, hm, hparam⟩)⟩

/-! ## What is rebuilt -/

/-- An integer that can become a float does so. -/
theorem widened_eq_asFloat (h : c.widensWithin depth n = some true) (hty : (c.arena.expr n).ty = .int)
    (hfits : ∀ v : Value, (c.arena.expr n).kind = .value v → v.Fits (c.arena.expr n).ty) :
    c.widened n = c.asFloat (c.arena.expr n) ∧ (c.asFloat (c.arena.expr n)).ty = .float := by
  cases hk : (c.arena.expr n).kind with
  | value v =>
    have hint := hfits v hk
    rw [hty] at hint
    cases v with
    | int i => simp [widened, asFloat, hk, Expression.cast?_int hk, Expression.withValue]
    | _ => exact hint.elim
  | call callee args =>
    obtain ⟨floatCallee, _, hcallee, -⟩ := widensWithin_call h hty hk
    simp only [widened, asFloat, hk, hcallee, Option.getD_some, and_true]
    unfold floatCallee? at hcallee
    split at hcallee
    · rename_i hminus
      cases hcallee
      rw [if_pos hminus]
    · rename_i hminus
      rw [if_neg hminus]
      split at hcallee <;> cases hcallee
      rfl
  | _ => cases depth <;> simp [Compilation.widensWithin, hty, hk] at h

theorem children_asFloat (c : Compilation) (e : Expression) :
    (c.asFloat e).kind.children = e.kind.children := by
  cases hk : e.kind with
  | value v => cases v <;> simp [asFloat, hk, ExprKind.children]
  | _ => simp [asFloat, hk, ExprKind.children]

/-! ## What stays -/

section

variable (hforest : c.arena.Forest [id] xs) (hnodup : xs.Nodup)

include hforest hnodup

/-- Nothing is rebuilt below a node that is not rebuilt. -/
theorem not_rebuilt_below (hm : m ∈ xs) (hne : ¬ c.Rebuilt id m)
    (hk : Relation.ReflTransGen (fun n m => m ∈ (c.arena.expr n).kind.children) m k) :
    ¬ c.Rebuilt id k := by
  induction hk with
  | refl => exact hne
  | tail hpath hchild ih =>
    intro hr
    have hroot := List.mem_singleton_self id
    have hparent := hforest.mem_of_reaches hm hpath
    rcases hr.parent hforest hnodup (hforest.subset hroot) hparent hchild with rfl | ⟨hr, -⟩
    · exact hforest.not_mem_children hnodup hparent hroot hchild
    · exact ih hr

/-- Widening rebuilds nothing where it stops. -/
theorem HaltsAt.not_rebuilt (h : c.HaltsAt n m) (hn : n ∈ xs) : ¬ c.Rebuilt id m := by
  intro hr
  cases h with
  | float hty => cases hty.symm.trans hr.ty_int
  | @argument _ d args i hk hm hparam =>
    have hchild : m ∈ (c.arena.expr n).kind.children := by
      rw [hk]
      exact List.mem_of_getElem? hm
    have hroot := List.mem_singleton_self id
    rcases hr.parent hforest hnodup (hforest.subset hroot) hn hchild with rfl | ⟨-, _, _, hk', hf⟩
    · exact hforest.not_mem_children hnodup hn hroot hchild
    · cases hk.symm.trans hk'
      obtain ⟨param, hzip, hfollows⟩ := mem_followers_iff.1 hf
      have hargs : args.Nodup := by
        have hsub := hforest.children_sublist hn
        rw [hk] at hsub
        exact hnodup.sublist hsub
      -- The argument stands at one position only, so that is the one at which it would follow.
      obtain ⟨j, hj, heq⟩ := List.mem_iff_getElem.1 hzip
      simp only [List.getElem_zip, Prod.mk.injEq] at heq
      rw [List.length_zip, lt_min_iff] at hj
      obtain ⟨hi, heq'⟩ := List.getElem?_eq_some_iff.1 hm
      obtain rfl : i = j := (hargs.getElem_inj_iff).1 (heq'.trans heq.1.symm)
      obtain ⟨hnumber, hminus⟩ := hparam param (List.getElem?_eq_some_iff.2 ⟨hj.2, heq.2⟩)
      exact hfollows.elim hnumber hminus

omit hnodup in
theorem HaltsAt.mem (h : c.HaltsAt n m) (hn : n ∈ xs) : m ∈ xs := by
  cases h with
  | float => exact hn
  | argument hk hm =>
    refine hforest.children_subset hn ?_
    rw [hk]
    exact List.mem_of_getElem? hm

end

end Compilation

variable {c : Compilation} {id : ExprId} {xs : List ExprId}

/-- **A tree that can become one of floats** becomes one: what follows the root is a float, where
integer literals hold the float of their number and the negation of integers became that of floats;
everything else is as before, in particular all that lies below a float, and below an argument that
does not follow its call. -/
theorem widen_rebuilds (hforest : c.arena.Forest [id] xs) (hnodup : xs.Nodup)
    (hfits : ∀ n ∈ xs, ∀ v : Value, (c.arena.expr n).kind = .value v → v.Fits (c.arena.expr n).ty)
    (hcallees : ∀ n ∈ xs, ∀ d args, (c.arena.expr n).kind = .call d args →
      ∃ params result isPure,
        (c.arena.definition d).declared = some (.function params result isPure))
    (hwidens : c.widens id = some true) :
    ∃ c', widen id c = .ok () c' ∧ c.SameProgram c' ∧ c'.arena.Forest [id] xs ∧
      (∀ n, c.Follows id n → (c'.arena.expr n).ty = .float) ∧
      (∀ n, c.Follows id n → (c.arena.expr n).ty = .int →
        c'.arena.expr n = c.asFloat (c.arena.expr n)) ∧
      (∀ n, (c.Follows id n → (c.arena.expr n).ty ≠ .int) →
        c'.arena.expr n = c.arena.expr n) ∧
      ∀ n ∈ xs, ∀ m k, c.HaltsAt n m →
        Relation.ReflTransGen (fun n m => m ∈ (c.arena.expr n).kind.children) m k →
        c'.arena.expr k = c.arena.expr k := by
  have hroot := hforest.subset (List.mem_singleton_self id)
  have hdeclares : c.Declares xs := fun n hn d args hk => by
    obtain ⟨_, _, _, hd⟩ := hcallees n hn d args hk
    exact ⟨_, hd⟩
  obtain ⟨_, c', h, hw⟩ :=
    (widenWithin_outcome (c.arena.exprs.size + 1) c id xs hforest hnodup (hdeclares.aloof xs)
      (List.Subset.refl xs) hwidens).exists_ok
  have hmem {n : ExprId} (hn : c.Follows id n) : n ∈ xs := by
    induction hn with
    | root => exact hroot
    | argument _ _ hk hm _ ih =>
      refine hforest.children_subset ih ?_
      rw [hk]
      exact (List.of_mem_zip hm).1
  -- What follows the root as an integer is rebuilt, and nothing else is touched.
  have hkept (n : ExprId) (hn : ¬ c.Rebuilt id n) : c'.arena.expr n = c.arena.expr n := hw.expr_eq hn
  have hrebuilt (n : ExprId) (hn : c.Follows id n) (hty : (c.arena.expr n).ty = .int) :
      c'.arena.expr n = c.asFloat (c.arena.expr n) ∧
        (c.asFloat (c.arena.expr n)).ty = .float := by
    obtain ⟨depth, hdepth⟩ := hn.widensWithin hwidens
    rw [hw.rebuilt n ⟨id, List.mem_singleton_self id, rebuilt_iff.2 ⟨hn, hty⟩⟩]
    exact widened_eq_asFloat hdepth hty (hfits n (hmem hn))
  refine ⟨c', h, hw.toSameProgram, hforest.congr fun n _ => ?_, fun n hn => ?_,
    fun n hn hty => (hrebuilt n hn hty).1, fun n hn => ?_, fun n hn m k hstops hpath => ?_⟩
  · by_cases hr : c.Rebuilt id n
    · obtain ⟨hfollows, hty⟩ := rebuilt_iff.1 hr
      rw [(hrebuilt n hfollows hty).1, children_asFloat]
    · rw [hkept n hr]
  · obtain ⟨depth, hdepth⟩ := hn.widensWithin hwidens
    rcases ty_of_widensWithin hdepth with hty | hty
    · have hkept := hkept n fun hr => by cases hty.symm.trans hr.ty_int
      rw [hkept, hty]
    · obtain ⟨heq, hfloat⟩ := hrebuilt n hn hty
      rw [heq, hfloat]
  · exact hkept n fun hr => hn (rebuilt_iff.1 hr).1 hr.ty_int
  · refine hkept k (not_rebuilt_below hforest hnodup (hstops.mem hforest hn) ?_ hpath)
    exact hstops.not_rebuilt hforest hnodup hn

/-- The program of `scale (-2) 7`, where the factor of `scale` is a generic number and its second
argument is an integer. -/
def scaledNegation : Compilation :=
  { Compilation.new with
    arena :=
      { exprs := #[.new (.value (.int 2)) .int .origin, .new (.call ⟨7⟩ [⟨0⟩]) .int .origin,
          .new (.value (.int 7)) .int .origin, .new (.call ⟨9⟩ [⟨1⟩, ⟨2⟩]) .int .origin]
        defs := Builtins.definitions.toArray.push
          ⟨"scale", .builtin, some (.function [.number, .int] .number true), none, .origin⟩
        stmts := #[]
        roots := [] } }

/-- The negation becomes one of floats, and so does its operand; the second argument stays. -/
theorem widen_scaledNegation :
    ∃ c', widen ⟨3⟩ scaledNegation = .ok () c' ∧
      (c'.arena.expr ⟨3⟩).ty = .float ∧ (c'.arena.expr ⟨1⟩).kind = .call ⟨8⟩ [⟨0⟩] ∧
      (c'.arena.expr ⟨0⟩).kind = .value (.float (Value.floatOfInt 2)) ∧
      (c'.arena.expr ⟨2⟩).kind = .value (.int 7) := by
  have hminus : scaledNegation.arena.Forest [⟨1⟩] [⟨1⟩, ⟨0⟩] := .tree (.leaf rfl)
  have hforest : scaledNegation.arena.Forest [⟨3⟩] [⟨3⟩, ⟨1⟩, ⟨0⟩, ⟨2⟩] :=
    .tree (hminus.append (.leaf rfl))
  obtain ⟨c', h, -, -, hfloat, hrebuilt, -, hkept⟩ :=
    widen_rebuilds (c := scaledNegation) hforest (by decide)
      (by
        intro n hn v hv
        simp only [List.mem_cons, List.not_mem_nil, or_false] at hn
        rcases hn with rfl | rfl | rfl | rfl <;> cases hv <;> trivial)
      (by
        intro n hn d args hk
        simp only [List.mem_cons, List.not_mem_nil, or_false] at hn
        rcases hn with rfl | rfl | rfl | rfl <;> cases hk
        · exact ⟨[.number, .int], .number, true, rfl⟩
        · exact ⟨[.int], .int, true, rfl⟩)
      (by decide +kernel)
  have hminus : scaledNegation.Follows ⟨3⟩ ⟨1⟩ :=
    .argument .root rfl rfl List.mem_cons_self (.inl rfl)
  have hoperand : scaledNegation.Follows ⟨3⟩ ⟨0⟩ :=
    .argument hminus rfl rfl List.mem_cons_self (.inr rfl)
  refine ⟨c', h, hfloat _ .root, ?_, ?_, ?_⟩
  · rw [hrebuilt _ hminus rfl]
    rfl
  · rw [hrebuilt _ hoperand rfl]
    rfl
  · rw [hkept ⟨3⟩ (by decide) ⟨2⟩ ⟨2⟩ (.argument (i := 1) rfl rfl ?_) .refl]
    · rfl
    · rintro param h
      cases h
      exact ⟨by decide, by decide⟩

/-- The program of `-k(1) + 2.5`, where `k` takes a generic number to a float and the negation that
a minus sign stands for takes a float to an integer. -/
def convertedOperand : Compilation :=
  let negation : Definition :=
    ⟨"unary_minus", .builtin, some (.function [.float] .int true), some .leading, .origin⟩
  { Compilation.new with
    arena :=
      { exprs := #[.new (.value (.int 1)) .int .origin, .new (.call ⟨9⟩ [⟨0⟩]) .float .origin,
          .new (.call ⟨7⟩ [⟨1⟩]) .int .origin, .new (.value (.float 2.5)) .float .origin,
          .new (.call ⟨1⟩ [⟨2⟩, ⟨3⟩]) .number .origin]
        defs := (Builtins.definitions.set 7 negation).toArray.push
          ⟨"k", .builtin, some (.function [.number] .float true), none, .origin⟩
        stmts := #[]
        roots := [] } }

/-- A call that is a float already keeps an integer for its generic number, also in a tree that is
widened; and this is what the sum around the tree is left with. -/
theorem widen_convertedOperand :
    (convertedOperand.arena.Forest [⟨2⟩] [⟨2⟩, ⟨1⟩, ⟨0⟩] ∧ convertedOperand.widens ⟨2⟩ = some true ∧
      ∃ c', widen ⟨2⟩ convertedOperand = .ok () c' ∧
        (c'.arena.expr ⟨2⟩).kind = .call ⟨8⟩ [⟨1⟩] ∧ (c'.arena.expr ⟨1⟩).kind = .call ⟨9⟩ [⟨0⟩] ∧
        (c'.arena.definition ⟨9⟩).declared = some (.function [.number] .float true) ∧
        (c'.arena.expr ⟨0⟩).ty = .int) ∧
    ∃ c', concretize {} ⟨4⟩ convertedOperand = .ok () c' ∧
      (c'.arena.expr ⟨2⟩).kind = .call ⟨8⟩ [⟨1⟩] ∧ (c'.arena.expr ⟨0⟩).ty = .int := by
  refine ⟨⟨.tree (.tree (.leaf rfl)), by decide +kernel, ?_⟩, ?_⟩
  · obtain ⟨_, c', h, hcheck⟩ := exists_ok_of_check (widen ⟨2⟩) convertedOperand
      (fun _ c' => decide ((c'.arena.expr ⟨2⟩).kind = .call ⟨8⟩ [⟨1⟩] ∧
        (c'.arena.expr ⟨1⟩).kind = .call ⟨9⟩ [⟨0⟩] ∧
        (c'.arena.definition ⟨9⟩).declared = some (.function [.number] .float true) ∧
        (c'.arena.expr ⟨0⟩).ty = .int)) (by decide +kernel)
    exact ⟨c', h, of_decide_eq_true hcheck⟩
  · obtain ⟨_, c', h, hcheck⟩ := exists_ok_of_check (concretize {} ⟨4⟩) convertedOperand
      (fun _ c' => decide ((c'.arena.expr ⟨2⟩).kind = .call ⟨8⟩ [⟨1⟩] ∧
        (c'.arena.expr ⟨0⟩).ty = .int)) (by decide +kernel)
    exact ⟨c', h, of_decide_eq_true hcheck⟩

end Termwise
