import Termwise.Proofs.Concretization.Forest
import Termwise.Proofs.Concretization.Region

/-!
# What widening rebuilds

A tree that can become one of floats is rebuilt from its root down: integer literals take their
float value, and calls their float callee, for as long as an argument follows the type of its call.
In a tree without shared nodes this is all that happens. Arguments that do not follow their call,
and whatever lies outside the tree, stay as they are.

## Main definitions

* `Compilation.Rebuilt`: what widening rebuilds below an expression
* `Compilation.widened`: the expression that widening puts in place of one
* `Compilation.Widens`: some trees were rebuilt, and nothing else changed

## Main results

* `widenWithin_outcome`: a tree that can become one of floats is rebuilt
-/

namespace Termwise

open Compilation

/-- An integer is cast to a float. -/
theorem Expression.cast?_int {e : Expression} {i : Int64} (hk : e.kind = .value (.int i)) :
    e.cast? .int .float = some (e.withValue (.float (Value.floatOfInt i)) .float) := by
  simp [cast?_eq, converted?, value?, hk, Value.convert?]

namespace Compilation

/-- The expression that widening puts in place of an integer. -/
def widened (c : Compilation) (n : ExprId) : Expression :=
  let e := c.arena.expr n
  match e.kind with
  | .value _ => (e.cast? .int .float).getD e
  | .call callee args =>
    { e with kind := .call ((c.floatCallee? callee).getD callee) args, ty := .float }
  | _ => e

/-- What widening rebuilds below an expression: the expression itself, if it is an integer, and
what it rebuilds below the arguments that follow the type of their call. -/
inductive Rebuilt (c : Compilation) : (root n : ExprId) → Prop where
  | root {n : ExprId} (hty : (c.arena.expr n).ty = .int) : Rebuilt c n n
  | argument {n m k : ExprId} {callee : DefId} {args : List ExprId}
    (hty : (c.arena.expr n).ty = .int) (hk : (c.arena.expr n).kind = .call callee args)
    (hm : m ∈ c.followers callee args) (h : Rebuilt c m k) : Rebuilt c n k

/-- Some trees were rebuilt with floats, and nothing else changed. -/
structure Widens (ids : List ExprId) (c c' : Compilation) : Prop extends SameProgram c c' where
  isValid : c'.isValid = c.isValid
  size : c'.arena.exprs.size = c.arena.exprs.size
  rebuilt : ∀ n, (∃ id ∈ ids, c.Rebuilt id n) → c'.arena.expr n = c.widened n
  kept : ∀ n, (∀ id ∈ ids, ¬ c.Rebuilt id n) → c'.arena.expr n = c.arena.expr n

/-- The same program, with the same expressions at some places. -/
structure Agrees (xs : List ExprId) (c c' : Compilation) : Prop extends SameProgram c c' where
  expr : ∀ n ∈ xs, c'.arena.expr n = c.arena.expr n

/-- The callees of some expressions have a declared type. -/
def Declares (c : Compilation) (xs : List ExprId) : Prop :=
  ∀ n ∈ xs, ∀ d args, (c.arena.expr n).kind = .call d args →
    ∃ ty, (c.arena.definition d).declared = some ty

/-- The callees of the expressions `xs` have types that do not hang on the expressions `zs`. -/
def Aloof (c : Compilation) (xs zs : List ExprId) : Prop :=
  ∀ n ∈ xs, ∀ d args, (c.arena.expr n).kind = .call d args →
    (c.arena.definition d).declared = none →
      ∀ b, (c.arena.definition d).body = .expression b → b ∉ zs

/-- The callees of some expressions have the same types in both programs. -/
def SameCallees (xs : List ExprId) (c c' : Compilation) : Prop :=
  ∀ n ∈ xs, ∀ d args, (c.arena.expr n).kind = .call d args →
    c'.arena.definitionType d = c.arena.definitionType d

variable {c c' c'' : Compilation} {ids xs ys zs : List ExprId} {id n m : ExprId} {d : DefId}
  {args : List ExprId}

theorem Declares.aloof (h : c.Declares xs) (zs : List ExprId) : c.Aloof xs zs := by
  intro n hn d args hk hdeclared
  obtain ⟨ty, hty⟩ := h n hn d args hk
  cases hdeclared.symm.trans hty

theorem Aloof.mono (h : c.Aloof ys zs) (hsub : xs ⊆ ys) : c.Aloof xs zs :=
  fun n hn => h n (hsub hn)

theorem Agrees.aloof (h : c.Agrees xs c') (hc : c.Aloof xs zs) : c'.Aloof xs zs := by
  intro n hn d args hk
  rw [h.expr n hn] at hk
  rw [h.definition]
  exact hc n hn d args hk

theorem SameCallees.symm (h : SameCallees xs c c') (hagrees : c.Agrees xs c') :
    SameCallees xs c' c := by
  intro n hn d args hk
  rw [hagrees.expr n hn] at hk
  exact (h n hn d args hk).symm

/-! ## What widening reads -/

/-- A definition has the type that it had as long as the root of its body is what it was. -/
theorem SameProgram.definitionType (h : c.SameProgram c')
    (hbody : (c.arena.definition d).declared = none →
      ∀ b, (c.arena.definition d).body = .expression b → c'.arena.expr b = c.arena.expr b) :
    c'.arena.definitionType d = c.arena.definitionType d := by
  simp only [Arena.definitionType, h.definition]
  split
  · rfl
  · rename_i b hdeclared hb
    rw [hbody hdeclared b hb]
  · rfl

/-- The callees have the types that they had as long as nothing else changes. -/
theorem Aloof.sameCallees (h : c.Aloof xs zs) (hsame : c.SameProgram c')
    (hkept : ∀ n ∉ zs, c'.arena.expr n = c.arena.expr n) : SameCallees xs c c' :=
  fun n hn d args hk => hsame.definitionType fun hdeclared b hb =>
    hkept b (h n hn d args hk hdeclared b hb)

theorem SameProgram.floatCallee? (h : c.SameProgram c')
    (hd : c'.arena.definitionType d = c.arena.definitionType d) :
    c'.floatCallee? d = c.floatCallee? d := by
  simp only [Compilation.floatCallee?, h.builtins, hd]

theorem SameProgram.followers (h : c.SameProgram c')
    (hd : c'.arena.definitionType d = c.arena.definitionType d) (args : List ExprId) :
    c'.followers d args = c.followers d args := by
  simp only [Compilation.followers, followsCall, h.builtins, hd]

theorem Agrees.widened (h : c.Agrees xs c') (hc : SameCallees xs c c') (hn : n ∈ xs) :
    c'.widened n = c.widened n := by
  simp only [Compilation.widened]
  rw [h.expr n hn]
  split <;> rename_i hk
  · rfl
  · rw [h.floatCallee? (hc n hn _ _ hk)]
  · rfl

/-- The arguments that follow their call are some of its arguments, in order. -/
theorem followers_sublist (c : Compilation) (d : DefId) (args : List ExprId) :
    (c.followers d args).Sublist args := by
  have hzip : ∀ (args : List ExprId) (params : List Ty),
      ((args.zip params).map Prod.fst).Sublist args := by
    intro args
    induction args with
    | nil => simp
    | cons arg args ih =>
      intro params
      cases params with
      | nil => exact List.nil_sublist _
      | cons param params => exact (ih params).cons_cons arg
  exact ((List.filter_sublist).map Prod.fst).trans (hzip _ _)

/-- What is rebuilt below a node of a forest is one of its nodes. -/
theorem Rebuilt.mem (h : c.Rebuilt id n) (hforest : c.arena.Forest ids xs) (hid : id ∈ xs) :
    n ∈ xs := by
  induction h with
  | root => exact hid
  | argument _ hk hm _ ih =>
    refine ih (hforest.children_subset hid ?_)
    rw [hk]
    exact (followers_sublist ..).subset hm

theorem Agrees.rebuilt (h : c.Agrees xs c') (hc : SameCallees xs c c')
    (hforest : c.arena.Forest ids xs) (hid : id ∈ xs) (hn : c.Rebuilt id n) : c'.Rebuilt id n := by
  induction hn with
  | root hty => exact .root (by rwa [h.expr _ hid])
  | argument hty hk hm _ ih =>
    have hmem := hforest.children_subset hid (by rw [hk]; exact (followers_sublist ..).subset hm)
    refine .argument (by rwa [h.expr _ hid]) (by rwa [h.expr _ hid]) ?_ (ih hmem)
    rwa [h.followers (hc _ hid _ _ hk)]

theorem Agrees.symm (h : c.Agrees xs c') : c'.Agrees xs c :=
  ⟨h.toSameProgram.symm, fun n hn => (h.expr n hn).symm⟩

theorem Agrees.forest (h : c.Agrees xs c') (hforest : c.arena.Forest ids xs) :
    c'.arena.Forest ids xs :=
  hforest.congr fun n hn => by rw [h.expr n hn]

theorem Agrees.widensWithin (h : c.Agrees xs c') (hc : SameCallees xs c c')
    (hforest : c.arena.Forest ids xs) (depth : Nat) (hid : id ∈ xs) :
    c'.widensWithin depth id = c.widensWithin depth id := by
  induction depth generalizing id with
  | zero => rfl
  | succ depth ih =>
    simp only [Compilation.widensWithin]
    rw [h.expr id hid]
    split_ifs
    · rfl
    · rfl
    · split
      · rfl
      · rename_i callee args hk
        have hd := hc id hid callee args hk
        rw [h.floatCallee? hd, h.followers hd, hd]
        have hall : (c.followers callee args).allM (c'.widensWithin depth) =
            (c.followers callee args).allM (c.widensWithin depth) := by
          refine allM_congr fun m hm => ih (hforest.children_subset hid ?_)
          rw [hk]
          exact (followers_sublist ..).subset hm
        rw [hall]
      · rfl

/-! ## Trees that were rebuilt -/

/-- Nothing changes beside a forest that is rebuilt. -/
theorem Widens.outside (h : c.Widens ids c') (hforest : c.arena.Forest ids xs) (hn : n ∉ xs) :
    c'.arena.expr n = c.arena.expr n :=
  h.kept n fun _ hid hr => hn (hr.mem hforest (hforest.subset hid))

/-- Two forests that share nothing are rebuilt one after the other. -/
theorem Widens.append {ids' : List ExprId} (h : c.Widens ids c') (h' : c'.Widens ids' c'')
    (hc : c.Aloof ys zs) (hsub : xs ⊆ zs) (hxs : c.arena.Forest ids xs)
    (hys : c.arena.Forest ids' ys) (hdisjoint : xs.Disjoint ys) : c.Widens (ids ++ ids') c'' := by
  have hmem (n : ExprId) (hn : ∃ id ∈ ids, c.Rebuilt id n) : n ∈ xs := by
    obtain ⟨id, hid, hn⟩ := hn
    exact hn.mem hxs (hxs.subset hid)
  -- The second forest is what it was before the first one was rebuilt.
  have hagrees : c.Agrees ys c' :=
    ⟨h.toSameProgram, fun n hn => h.outside hxs fun hn' => hdisjoint hn' hn⟩
  have hcallees : SameCallees ys c c' :=
    hc.sameCallees h.toSameProgram fun n hn => h.outside hxs fun hn' => hn (hsub hn')
  have hiff (id : ExprId) (hid : id ∈ ids') (n : ExprId) : c'.Rebuilt id n ↔ c.Rebuilt id n :=
    ⟨hagrees.symm.rebuilt (hcallees.symm hagrees) (hagrees.forest hys) (hys.subset hid),
      hagrees.rebuilt hcallees hys (hys.subset hid)⟩
  have hmem' (n : ExprId) (hn : ∃ id ∈ ids', c.Rebuilt id n) : n ∈ ys := by
    obtain ⟨id, hid, hn⟩ := hn
    exact hn.mem hys (hys.subset hid)
  refine ⟨h.toSameProgram.trans h'.toSameProgram, h'.isValid.trans h.isValid,
    h'.size.trans h.size, fun n hn => ?_, fun n hn => ?_⟩
  · obtain ⟨id, hid, hn⟩ := hn
    rcases List.mem_append.1 hid with hid | hid
    · have hnxs := hmem n ⟨id, hid, hn⟩
      rw [h'.kept n, h.rebuilt n ⟨id, hid, hn⟩]
      intro id' hid' hn'
      exact hdisjoint hnxs (hmem' n ⟨id', hid', (hiff id' hid' n).1 hn'⟩)
    · have hnys := hmem' n ⟨id, hid, hn⟩
      rw [h'.rebuilt n ⟨id, hid, (hiff id hid n).2 hn⟩, hagrees.widened hcallees hnys]
  · rw [h'.kept n, h.kept n]
    · exact fun id hid => hn id (List.mem_append_left _ hid)
    · exact fun id hid hn' => hn id (List.mem_append_right _ hid) ((hiff id hid n).1 hn')

theorem widens_nil (c : Compilation) : c.Widens [] c :=
  ⟨.refl c, rfl, rfl, by simp, fun _ _ => rfl⟩

/-- A root is rebuilt after the arguments that follow it. -/
theorem Widens.root (h : c.Widens ids c') {f : Expression → Expression}
    (hrebuilt : ∀ n, c.Rebuilt id n ↔ n = id ∨ ∃ m ∈ ids, c.Rebuilt m n)
    (hid : ∀ m ∈ ids, ¬ c.Rebuilt m id) (hlt : id.index < c.arena.exprs.size)
    (hf : f (c.arena.expr id) = c.widened id) :
    c.Widens [id] (c'.modifyArena (·.modifyExpr id f)) where
  builtins := h.builtins
  defs := h.defs
  stmts := h.stmts
  roots := h.roots
  isValid := h.isValid
  size := by simpa [modifyArena] using h.size
  rebuilt n hn := by
    simp only [List.mem_singleton, exists_eq_left, hrebuilt] at hn
    by_cases hne : n = id
    · subst hne
      simp only [modifyArena, Arena.expr_modifyExpr_self (h.size ▸ hlt), h.kept n hid, hf]
    · simp only [modifyArena, Arena.expr_modifyExpr_of_ne hne]
      exact h.rebuilt n (hn.resolve_left hne)
  kept n hn := by
    simp only [List.mem_singleton, forall_eq, hrebuilt, not_or] at hn
    simp only [modifyArena, Arena.expr_modifyExpr_of_ne hn.1]
    exact h.kept n fun m hm hm' => hn.2 ⟨m, hm, hm'⟩

theorem Widens.emit (h : c.Widens ids c') (event : Event) : c.Widens ids (c'.emit event) :=
  ⟨⟨h.builtins, h.defs, h.stmts, h.roots⟩, h.isValid, h.size, h.rebuilt, h.kept⟩

end Compilation

variable {c : Compilation} {ids xs zs args : List ExprId} {id n : ExprId} {d : DefId}

/-- Each tree of a forest is rebuilt if a single one is. -/
theorem forEach_widens {action : ExprId → CheckM Unit}
    {widens : Compilation → ExprId → Option Bool}
    (h : ∀ (c : Compilation) (id : ExprId) (xs : List ExprId), c.arena.Forest [id] xs → xs.Nodup →
      c.Aloof xs zs → xs ⊆ zs → widens c id = some true →
      Outcome (action id) c (fun _ => c.Widens [id]) fun _ _ => False)
    (hwidens : ∀ {c c' : Compilation} {ids xs : List ExprId} {id : ExprId}, c.Agrees xs c' →
      SameCallees xs c c' → c.arena.Forest ids xs → id ∈ xs → widens c' id = widens c id)
    (hforest : c.arena.Forest ids xs) (hnodup : xs.Nodup) (hc : c.Aloof xs zs) (hsub : xs ⊆ zs)
    (hids : ∀ id ∈ ids, widens c id = some true) :
    Outcome (forEach action ids) c (fun _ => c.Widens ids) fun _ _ => False := by
  induction ids generalizing c xs with
  | nil => exact widens_nil c
  | cons id ids ih =>
    obtain ⟨below, rest, rfl, hbelow, hrest⟩ := hforest.exists_cons
    obtain ⟨hid, hids⟩ := List.forall_mem_cons.1 hids
    rw [← List.cons_append] at hnodup hc hsub
    obtain ⟨hnodup₁, hnodup₂, hdisjoint⟩ := List.nodup_append'.1 hnodup
    obtain ⟨hsub₁, hsub₂⟩ := List.append_subset.1 hsub
    have hc₂ := hc.mono (List.subset_append_right _ rest)
    simp only [forEach, outcome_bind]
    refine (h c id _ hbelow.tree hnodup₁ (hc.mono (List.subset_append_left _ _)) hsub₁ hid).imp
      fun _ c₁ h₁ => ?_
    have hkept {n : ExprId} (hn : n ∉ id :: below) : c₁.arena.expr n = c.arena.expr n :=
      h₁.outside hbelow.tree hn
    have hagrees : c.Agrees rest c₁ :=
      ⟨h₁.toSameProgram, fun n hn => hkept fun hn' => hdisjoint hn' hn⟩
    have hcallees : SameCallees rest c c₁ :=
      hc₂.sameCallees h₁.toSameProgram fun n hn => hkept fun hn' => hn (hsub₁ hn')
    refine (ih (hagrees.forest hrest) hnodup₂ (hagrees.aloof hc₂) hsub₂ fun m hm => ?_).imp
      fun _ c₂ h₂ => h₁.append h₂ hc₂ hsub₁ hbelow.tree hrest hdisjoint
    rw [hwidens hagrees hcallees hrest (hrest.subset hm)]
    exact hids m hm

/-- A float is rebuilt no more. -/
theorem widens_of_float (hty : (c.arena.expr id).ty = .float) : c.Widens [id] c := by
  refine ⟨.refl c, rfl, rfl, ?_, fun _ _ => rfl⟩
  rintro n ⟨_, hm, hn⟩
  obtain rfl := List.mem_singleton.1 hm
  cases hn with
  | root hty' | argument hty' => cases hty.symm.trans hty'

theorem rebuilt_iff_of_value {v : Value} (hty : (c.arena.expr id).ty = .int)
    (hk : (c.arena.expr id).kind = .value v) : c.Rebuilt id n ↔ n = id := by
  constructor
  · intro hn
    cases hn with
    | root => rfl
    | argument _ hk' => cases hk.symm.trans hk'
  · rintro rfl
    exact .root hty

theorem rebuilt_iff_of_call (hty : (c.arena.expr id).ty = .int)
    (hk : (c.arena.expr id).kind = .call d args) :
    c.Rebuilt id n ↔ n = id ∨ ∃ m ∈ c.followers d args, c.Rebuilt m n := by
  constructor
  · intro hn
    cases hn with
    | root => exact .inl rfl
    | argument _ hk' hm hn =>
      cases hk.symm.trans hk'
      exact .inr ⟨_, hm, hn⟩
  · rintro (rfl | ⟨m, hm, hn⟩)
    · exact .root hty
    · exact .argument hty hk hm hn

/-- **A tree that can become one of floats** is rebuilt, and nothing else changes. -/
theorem widenWithin_outcome (depth : Nat) (c : Compilation) (id : ExprId) (xs : List ExprId)
    (hforest : c.arena.Forest [id] xs) (hnodup : xs.Nodup) (hc : c.Aloof xs zs) (hsub : xs ⊆ zs)
    (h : c.widensWithin depth id = some true) :
    Outcome (widenWithin depth id) c (fun _ => c.Widens [id]) fun _ _ => False := by
  induction depth generalizing c id xs with
  | zero => cases h
  | succ depth ih =>
    obtain ⟨below, rfl, hbelow⟩ := hforest.exists_tree
    obtain ⟨hid, hnodup⟩ := List.nodup_cons.1 hnodup
    simp only [widensWithin] at h
    simp only [widenWithin_succ, outcome_bind, outcome_get]
    split_ifs at h ⊢ with hfloat hint
    · exact widens_of_float hfloat
    · cases h
    · rw [ne_eq, not_not] at hint
      have hlt : id.index < c.arena.exprs.size := Nat.lt_of_not_le fun hle => by
        rw [Arena.expr_of_size_le hle] at hint
        cases hint
      cases hk : (c.arena.expr id).kind with
      | value v =>
        have hrebuilt (n : ExprId) := rebuilt_iff_of_value (n := n) hint hk
        dsimp only
        cases hcast : (c.arena.expr id).cast? .int .float with
        | some cast =>
          refine (widens_nil c).root (by simpa using hrebuilt) (by simp) hlt ?_
          simp only [widened, hk, hcast, Option.getD_some]
        | none =>
          have hself : c.widened id = c.arena.expr id := by
            simp only [widened, hk, hcast, Option.getD_none]
          refine ⟨.refl c, rfl, rfl, fun n hn => ?_, fun _ _ => rfl⟩
          simp only [List.mem_singleton, exists_eq_left, hrebuilt] at hn
          rw [hn, hself]
      | call callee args =>
        simp only [hk] at h
        split at h
        swap
        · cases h
        rename_i hfloats
        rw [Bool.and_eq_true, Option.isSome_iff_exists] at hfloats
        obtain ⟨⟨floatCallee, hcallee⟩, -⟩ := hfloats
        rw [hk] at hbelow
        -- The arguments that follow the call span a part of the forest below it.
        obtain ⟨ys, hys, hforest⟩ := hbelow.sublist (followers_sublist c callee args)
        have hmem : ys ⊆ id :: below := fun n hn => List.mem_cons_of_mem _ (hys.subset hn)
        have hroot : ∀ m ∈ c.followers callee args, ¬ c.Rebuilt m id := fun m hm hr =>
          hid (hys.subset (hr.mem hforest (hforest.subset hm)))
        simp only [hcallee, outcome_bind, outcome_modifyExpr, outcome_emit]
        refine (forEach_widens ih (fun h hc hf => h.widensWithin hc hf depth) hforest
          (hnodup.sublist hys) (hc.mono hmem) (List.Subset.trans hmem hsub)
          (allM_eq_true.1 h)).imp fun _ c₁ h₁ => ?_
        refine (h₁.root (fun n => rebuilt_iff_of_call hint hk) hroot hlt ?_).emit _
        simp only [widened, hk, hcallee, Option.getD_some]
      | _ =>
        rw [hk] at h
        cases h

end Termwise
