import Termwise.Proofs.Concretization.Consistency
import Termwise.Proofs.Concretization.Estates

/-!
# Coercions that are made again

To bring a tree into a type reads the tree and the types of its callees, and nothing else. So it
comes to the same wherever the same tree stands, and a tree that was brought into a type stays as
it is when it is brought into that type once more. That holds for lists of arguments, too, even if
some of them were already brought where they belong and others are still as they were.

## Main definitions

* `Compilation.Alongside`, `Compilation.Echoes`: callees of the same types, and the same trees
* `Compilation.Enlarged`: a tree of integers and the tree of floats that it becomes
* `Compilation.Brought`, `Compilation.Resists`: trees that a type is imposed on
* `Compilation.BroughtAll`, `Compilation.Meets`: the same for arguments

## Main results

* `coerceTo_brings`: what becomes of a tree
* `Brought.again`, `Brought.fixed`: it becomes the same again, and no more than that
* `coerceAll_brings`, `Meets.coerceAll`: the same for arguments
-/

namespace Termwise

open Compilation

namespace Compilation

variable {c c' c'' c₁ c₂ g : Compilation} {ids ids' xs args : List ExprId} {id n m : ExprId}
  {d : DefId} {t u : Ty} {S S' : Set ExprId} {depth depth' : Nat}

/-! ## Changes in place -/

/-- **Some expressions were changed** where they are, and nothing else. -/
structure Alters (S : Set ExprId) (c c' : Compilation) : Prop extends SameProgram c c' where
  size : c'.arena.exprs.size = c.arena.exprs.size
  expr : ∀ n ∉ S, c'.arena.expr n = c.arena.expr n

theorem Alters.refl (S : Set ExprId) (c : Compilation) : c.Alters S c :=
  ⟨.refl c, rfl, fun _ _ => rfl⟩

theorem Alters.trans (h : c.Alters S c') (h' : c'.Alters S c'') : c.Alters S c'' :=
  ⟨h.toSameProgram.trans h'.toSameProgram, h'.size.trans h.size,
    fun n hn => (h'.expr n hn).trans (h.expr n hn)⟩

theorem Alters.mono (h : c.Alters S c') (hsub : S ⊆ S') : c.Alters S' c' :=
  ⟨h.toSameProgram, h.size, fun n hn => h.expr n fun hmem => hn (hsub hmem)⟩

/-- Changes that come to nothing. -/
theorem Alters.of_kept (h : c.Alters S c') (hkept : ∀ n ∈ S, c'.arena.expr n = c.arena.expr n) :
    c.Alters ∅ c' :=
  ⟨h.toSameProgram, h.size, fun n _ => by
    by_cases hn : n ∈ S
    · exact hkept n hn
    · exact h.expr n hn⟩

theorem Alters.keepsTo (h : c.Alters S c') : c.KeepsTo S c' :=
  ⟨h.toSameProgram, h.size.ge, fun n _ hn => h.expr n hn⟩

theorem alters_modifyExpr (hn : n ∈ S) (f : Expression → Expression) :
    c.Alters S (c.modifyArena (·.modifyExpr n f)) := by
  refine ⟨⟨rfl, rfl, rfl, rfl⟩, by simp [modifyArena], fun m hm => ?_⟩
  refine Arena.expr_modifyExpr_of_ne ?_ f
  rintro rfl
  exact hm hn

theorem alters_of_arena_eq (harena : c'.arena = c.arena) (hbuiltins : c'.builtins = c.builtins) :
    c.Alters ∅ c' :=
  ⟨⟨hbuiltins, by rw [harena], by rw [harena], by rw [harena]⟩, by rw [harena],
    fun n _ => by rw [harena]⟩

theorem Alters.emit (h : c.Alters S c') (event : Event) : c.Alters S (c'.emit event) :=
  ⟨⟨h.builtins, h.defs, h.stmts, h.roots⟩, h.size, h.expr⟩

/-- An expression that is changed into what it is. -/
theorem alters_of_eq {f : Expression → Expression} (hf : f (c.arena.expr n) = c.arena.expr n) :
    c.Alters ∅ (c.modifyArena (·.modifyExpr n f)) := by
  refine (alters_modifyExpr (Set.mem_singleton n) f).of_kept fun m hm => ?_
  obtain rfl := Set.mem_singleton_iff.1 hm
  simp only [modifyArena, Arena.expr_modifyExpr]
  split
  · exact hf
  · rfl

/-! ## The same trees elsewhere -/

/-- Trees that share nothing and contain no body of their callees. -/
structure Rooted (c : Compilation) (ids : List ExprId) : Prop where
  forest : ∃ xs, c.arena.Forest ids xs ∧ xs.Nodup
  inTable : ∀ n ∈ c.trees ids, n.index < c.arena.exprs.size
  free : ∀ n ∈ c.trees ids, ∀ d args, (c.arena.expr n).kind = .call d args →
    ∀ b, (c.arena.definition d).body = .expression b → b ∉ c.trees ids

/-- **The callees of some trees have the same types** in a program that may have grown. -/
structure Alongside (c : Compilation) (ids : List ExprId) (c' : Compilation) : Prop
    extends SameProgram c c' where
  size : c.arena.exprs.size ≤ c'.arena.exprs.size
  callees : ∀ n ∈ c.trees ids, ∀ d args, (c.arena.expr n).kind = .call d args →
    c'.arena.definitionType d = c.arena.definitionType d

/-- **The same trees**, with callees of the same types. -/
structure Echoes (c : Compilation) (ids : List ExprId) (c' : Compilation) : Prop
    extends Alongside c ids c' where
  expr : ∀ n ∈ c.trees ids, c'.arena.expr n = c.arena.expr n

theorem Alongside.mono (h : c.Alongside ids c') (hsub : c.trees ids' ⊆ c.trees ids) :
    c.Alongside ids' c' :=
  ⟨h.toSameProgram, h.size, fun n hn => h.callees n (hsub hn)⟩

/-- The first tree and the others. -/
theorem Rooted.uncons (h : c.Rooted (m :: ids)) :
    c.Rooted [m] ∧ c.Rooted ids ∧ Disjoint (c.trees [m]) (c.trees ids) := by
  have hmem {n : ExprId} : n ∈ c.trees (m :: ids) ↔ n ∈ c.trees [m] ∨ n ∈ c.trees ids := by
    rw [trees_cons]
    rfl
  obtain ⟨xs, hforest, hnodup⟩ := h.forest
  obtain ⟨below, rest, rfl, hbelow, hrest⟩ := hforest.exists_cons
  rw [← List.cons_append] at hnodup
  obtain ⟨hnodup₁, hnodup₂, hdisjoint⟩ := List.nodup_append'.1 hnodup
  refine ⟨⟨⟨_, hbelow.tree, hnodup₁⟩, fun n hn => h.inTable n (hmem.2 (.inl hn)),
      fun n hn d args hk b hb hmem' => h.free n (hmem.2 (.inl hn)) d args hk b hb
        (hmem.2 (.inl hmem'))⟩,
    ⟨⟨_, hrest, hnodup₂⟩, fun n hn => h.inTable n (hmem.2 (.inr hn)),
      fun n hn d args hk b hb hmem' => h.free n (hmem.2 (.inr hn)) d args hk b hb
        (hmem.2 (.inr hmem'))⟩, ?_⟩
  rw [Set.disjoint_left]
  intro n hn hn'
  exact hdisjoint ((mem_trees_of_forest hbelow.tree).1 hn) ((mem_trees_of_forest hrest).1 hn')

theorem Rooted.of_mem (h : c.Rooted ids) (hm : m ∈ ids) : c.Rooted [m] := by
  induction ids with
  | nil => cases hm
  | cons id ids ih =>
    obtain ⟨hfirst, hrest, -⟩ := h.uncons
    rcases List.mem_cons.1 hm with rfl | hm
    · exact hfirst
    · exact ih hrest hm

/-- Trees with different roots share nothing. -/
theorem Rooted.disjoint {m' : ExprId} (h : c.Rooted ids) (hm : m ∈ ids) (hm' : m' ∈ ids)
    (hne : m ≠ m') : Disjoint (c.trees [m]) (c.trees [m']) := by
  induction ids with
  | nil => cases hm
  | cons id ids ih =>
    obtain ⟨-, hrest, hdisjoint⟩ := h.uncons
    have hsub {k : ExprId} (hk : k ∈ ids) : c.trees [k] ⊆ c.trees ids :=
      trees_mono (by simpa using hk)
    rcases List.mem_cons.1 hm with rfl | hmem <;> rcases List.mem_cons.1 hm' with rfl | hmem'
    · exact absurd rfl hne
    · exact hdisjoint.mono_right (hsub hmem')
    · exact (hdisjoint.mono_right (hsub hmem)).symm
    · exact ih hrest hmem hmem'

theorem Rooted.nodup (h : c.Rooted ids) : ids.Nodup := by
  obtain ⟨xs, hforest, hnodup⟩ := h.forest
  exact hnodup.sublist hforest.roots_sublist

/-- What lies below the root of a tree. -/
theorem Rooted.children (h : c.Rooted [m]) :
    c.Rooted (c.arena.expr m).kind.children ∧ m ∉ c.trees (c.arena.expr m).kind.children := by
  have hsub {n : ExprId} (hn : n ∈ c.trees (c.arena.expr m).kind.children) : n ∈ c.trees [m] :=
    mem_trees_iff_children.2 (.inr hn)
  obtain ⟨xs, hforest, hnodup⟩ := h.forest
  obtain ⟨below, rfl, hbelow⟩ := hforest.exists_tree
  obtain ⟨hm, hnodup⟩ := List.nodup_cons.1 hnodup
  exact ⟨⟨⟨below, hbelow, hnodup⟩, fun n hn => h.inTable n (hsub hn),
    fun n hn d args hk b hb hmem => h.free n (hsub hn) d args hk b hb (hsub hmem)⟩,
    fun hmem => hm ((mem_trees_of_forest hbelow).1 hmem)⟩

theorem Rooted.lt_size (h : c.Rooted [m]) : m.index < c.arena.exprs.size :=
  h.inTable m (c.mem_trees_self (List.mem_singleton_self m))

theorem Rooted.shallow (h : c.Rooted [m]) :
    c.arena.Shallow (fun _ => True) c.arena.exprs.size m := by
  obtain ⟨xs, hforest, -⟩ := h.forest
  refine Arena.shallow_size (hforest.acc m (hforest.subset (List.mem_singleton_self m)))
    fun n hn => ⟨h.inTable n (mem_trees_singleton.2 hn), trivial⟩

theorem Rooted.aloof (h : c.Rooted ids) (hforest : c.arena.Forest ids xs) : c.Aloof xs xs := by
  intro n hn d args hk _ b hb hmem
  exact h.free n ((mem_trees_of_forest hforest).2 hn) d args hk b hb
    ((mem_trees_of_forest hforest).2 hmem)

theorem Echoes.trees (h : c.Echoes ids c') : c'.trees ids = c.trees ids :=
  trees_congr fun n hn => by rw [h.expr n hn]

theorem Echoes.mono (h : c.Echoes ids c') (hsub : c.trees ids' ⊆ c.trees ids) :
    c.Echoes ids' c' :=
  ⟨h.toAlongside.mono hsub, fun n hn => h.expr n (hsub hn)⟩

theorem Echoes.rooted (h : c.Echoes ids c') (hc : c.Rooted ids) : c'.Rooted ids := by
  obtain ⟨xs, hforest, hnodup⟩ := hc.forest
  refine ⟨⟨xs, hforest.congr fun n hn => ?_, hnodup⟩, fun n hn => ?_,
    fun n hn d args hk b hb hmem => ?_⟩
  · rw [h.expr n ((mem_trees_of_forest hforest).2 hn)]
  · rw [h.trees] at hn
    exact (hc.inTable n hn).trans_le h.size
  · rw [h.trees] at hn hmem
    rw [h.expr n hn] at hk
    exact hc.free n hn d args hk b (by rwa [h.definition] at hb) hmem

/-- A change beside some trees that contain no body of their callees. -/
theorem Alters.echoes (h : c.Alters S c') (hdisjoint : Disjoint S (c.trees ids))
    (hfree : ∀ n ∈ c.trees ids, ∀ d args, (c.arena.expr n).kind = .call d args →
      ∀ b, (c.arena.definition d).body = .expression b → b ∉ S) : c.Echoes ids c' where
  toSameProgram := h.toSameProgram
  size := h.size.ge
  expr n hn := h.expr n fun hmem => Set.disjoint_left.1 hdisjoint hmem hn
  callees n hn d args hk := h.toSameProgram.definitionType fun _ b hb =>
    h.expr b (hfree n hn d args hk b hb)

theorem Echoes.agrees (h : c.Echoes ids c') (hforest : c.arena.Forest ids xs) :
    c.Agrees xs c' :=
  ⟨h.toSameProgram, fun n hn => h.expr n ((mem_trees_of_forest hforest).2 hn)⟩

theorem Echoes.sameCallees (h : c.Echoes ids c') (hforest : c.arena.Forest ids xs) :
    SameCallees xs c c' :=
  fun n hn => h.callees n ((mem_trees_of_forest hforest).2 hn)

/-! ## Widening -/

/-- An answer at any depth is the one at a depth that the tree does not exceed. -/
theorem widensWithin_of_shallow {P : Expression → Prop} {answer : Bool}
    (h : c.arena.Shallow P depth n) (h' : c.widensWithin depth' n = some answer) :
    c.widensWithin depth n = some answer := by
  induction depth generalizing depth' n answer with
  | zero => exact h.elim
  | succ depth ih =>
    cases depth' with
    | zero => cases h'
    | succ depth' =>
      simp only [widensWithin] at h' ⊢
      split_ifs at h' ⊢ with hfloat hint
      · exact h'
      · exact h'
      · split at h'
        · exact h'
        · rename_i d args hk
          split at h' <;> rename_i hfloats
          · rw [if_pos hfloats]
            refine allM_of_answers (fun m hm answer => ih (h.2.2 m ?_)) h'
            rw [hk]
            exact mem_of_mem_followers hm
          · rwa [if_neg hfloats]
        · exact h'

theorem Rooted.widens {answer : Bool} (h : c.Rooted [m])
    (hm : c.widensWithin depth m = some answer) : c.widens m = some answer :=
  widensWithin_of_shallow (h.shallow.mono (Nat.le_succ _)) hm

theorem Rooted.exists_widens (h : c.Rooted [m]) : ∃ answer, c.widens m = some answer :=
  Option.ne_none_iff_exists'.1 (widens_ne_none fun _ => h.shallow)

/-- The same trees can become ones of floats. -/
theorem Echoes.widens (h : c.Echoes [m] c') (hc : c.Rooted [m]) : c'.widens m = c.widens m := by
  obtain ⟨xs, hforest, -⟩ := hc.forest
  have hm := hforest.subset (List.mem_singleton_self m)
  have heq (depth : Nat) : c'.widensWithin depth m = c.widensWithin depth m :=
    (h.agrees hforest).widensWithin (h.sameCallees hforest) hforest depth hm
  obtain ⟨answer, hanswer⟩ := (h.rooted hc).exists_widens
  have hsame := hanswer
  rw [Compilation.widens, heq] at hsame
  rw [hanswer, hc.widens hsame]

theorem Echoes.rebuilt (h : c.Echoes [m] c') (hc : c.Rooted [m]) :
    c'.Rebuilt m n ↔ c.Rebuilt m n := by
  obtain ⟨xs, hforest, -⟩ := hc.forest
  have hm := hforest.subset (List.mem_singleton_self m)
  have hagrees := h.agrees hforest
  have hcallees := h.sameCallees hforest
  exact ⟨hagrees.symm.rebuilt (hcallees.symm hagrees) (hagrees.forest hforest) hm,
    hagrees.rebuilt hcallees hforest hm⟩

theorem Echoes.widened (h : c.Echoes [m] c') (hc : c.Rooted [m]) (hn : n ∈ c.trees [m]) :
    c'.widened n = c.widened n := by
  obtain ⟨xs, hforest, -⟩ := hc.forest
  exact (h.agrees hforest).widened (h.sameCallees hforest) ((mem_trees_of_forest hforest).1 hn)

/-- **A tree of integers becomes one of floats.** -/
structure Enlarged (c g : Compilation) (m : ExprId) : Prop where
  ty : (c.arena.expr m).ty = .int
  widens : c.widens m = some true
  rebuilt : ∀ n ∈ c.trees [m], c.Rebuilt m n → g.arena.expr n = c.widened n
  kept : ∀ n ∈ c.trees [m], ¬ c.Rebuilt m n → g.arena.expr n = c.arena.expr n

/-- What a tree becomes does not depend on where it stands. -/
theorem Enlarged.unique (h : c.Enlarged g m) (h' : c.Enlarged c' m) (hn : n ∈ c.trees [m]) :
    c'.arena.expr n = g.arena.expr n := by
  by_cases hr : c.Rebuilt m n
  · rw [h'.rebuilt n hn hr, h.rebuilt n hn hr]
  · rw [h'.kept n hn hr, h.kept n hn hr]

theorem Enlarged.echo (h : c.Enlarged g m) (he : c.Echoes [m] c') (hc : c.Rooted [m]) :
    c'.Enlarged g m where
  ty := by
    rw [he.expr m (c.mem_trees_self (List.mem_singleton_self m))]
    exact h.ty
  widens := (he.widens hc).trans h.widens
  rebuilt n hn hr := by
    rw [he.trees] at hn
    rw [he.widened hc hn]
    exact h.rebuilt n hn ((he.rebuilt hc).1 hr)
  kept n hn hr := by
    rw [he.trees] at hn
    rw [he.expr n hn]
    exact h.kept n hn fun hr' => hr ((he.rebuilt hc).2 hr')

theorem Enlarged.congr (h : c.Enlarged g m)
    (hg : ∀ n ∈ c.trees [m], c'.arena.expr n = g.arena.expr n) : c.Enlarged c' m where
  ty := h.ty
  widens := h.widens
  rebuilt n hn hr := (hg n hn).trans (h.rebuilt n hn hr)
  kept n hn hr := (hg n hn).trans (h.kept n hn hr)

/-- What lies below the nodes of a tree stays there when the tree is widened. -/
theorem children_widened (c : Compilation) (n : ExprId) :
    (c.widened n).kind.children = (c.arena.expr n).kind.children := by
  simp only [Compilation.widened]
  split <;> rename_i hk
  · cases hcast : (c.arena.expr n).cast? .int .float with
    | none => rfl
    | some e =>
      rw [Option.getD_some]
      exact ExprKind.children_eq (Expression.cast?_kind hcast)
  · rw [hk]
    rfl
  · rfl

theorem Enlarged.children (h : c.Enlarged g m) (hn : n ∈ c.trees [m]) :
    (g.arena.expr n).kind.children = (c.arena.expr n).kind.children := by
  by_cases hr : c.Rebuilt m n
  · rw [h.rebuilt n hn hr, children_widened]
  · rw [h.kept n hn hr]

theorem Enlarged.root (h : c.Enlarged g m) : g.arena.expr m = c.widened m :=
  h.rebuilt m (c.mem_trees_self (List.mem_singleton_self m)) (.root h.ty)

/-- Nothing can become a float but values and calls. -/
theorem Enlarged.isValue_or_call (h : c.Enlarged g m) : (c.arena.expr m).kind.isValue = true ∨
    ∃ d args, (c.arena.expr m).kind = .call d args ∧ (g.arena.expr m).ty = .float := by
  have hwidens := h.widens
  have hfloat : Ty.int ≠ Ty.float := by decide
  simp only [Compilation.widens, widensWithin, h.ty, if_neg hfloat] at hwidens
  have hroot := h.root
  cases hk : (c.arena.expr m).kind <;> simp only [hk] at hwidens <;> try cases hwidens
  · exact .inl rfl
  · refine .inr ⟨_, _, rfl, ?_⟩
    rw [hroot]
    simp only [Compilation.widened, hk]

/-- A tree that can become one of floats does so. -/
theorem widen_enlarges (hc : c.Rooted [m]) (hty : (c.arena.expr m).ty = .int)
    (hwidens : c.widens m = some true) :
    Outcome (widen m) c (fun _ c' => c.Enlarged c' m ∧ c.Alters (c.trees [m]) c')
      fun _ _ => False := by
  obtain ⟨xs, hforest, hnodup⟩ := hc.forest
  simp only [widen, outcome_bind, outcome_arena]
  refine (widenWithin_outcome _ c m xs hforest hnodup (hc.aloof hforest) (List.Subset.refl xs)
    hwidens).imp fun _ c' h => ⟨⟨hty, hwidens, fun n _ hr => ?_, fun n _ hr => ?_⟩,
      h.toSameProgram, h.size, fun n hn => ?_⟩
  · exact h.rebuilt n ⟨m, List.mem_singleton_self m, hr⟩
  · refine h.kept n fun id hid hr' => hr ?_
    obtain rfl := List.mem_singleton.1 hid
    exact hr'
  · exact h.outside hforest fun hn' => hn ((mem_trees_of_forest hforest).2 hn')

/-! ## A single tree -/

/-- **A tree was brought into a type**: it had that type, it was cast, or it was widened. -/
inductive Brought (c g : Compilation) (m : ExprId) (t : Ty) : Prop where
  | same (hty : (c.arena.expr m).ty = t)
    (h : ∀ n ∈ c.trees [m], g.arena.expr n = c.arena.expr n) : Brought c g m t
  | cast {e : Expression} (hne : (c.arena.expr m).ty ≠ t)
    (hvalue : (c.arena.expr m).kind.isValue = true)
    (hcast : (c.arena.expr m).cast? (c.arena.expr m).ty t = some e) (h : g.arena.expr m = e) :
    Brought c g m t
  | widened (hne : (c.arena.expr m).ty ≠ t)
    (hcast : (c.arena.expr m).kind.isValue = true →
      (c.arena.expr m).cast? (c.arena.expr m).ty t = none)
    (ht : t = .float) (h : c.Enlarged g m) : Brought c g m t

/-- A tree cannot be brought into a type. -/
structure Resists (c : Compilation) (m : ExprId) (t : Ty) : Prop where
  ne : (c.arena.expr m).ty ≠ t
  cast : (c.arena.expr m).kind.isValue = true →
    (c.arena.expr m).cast? (c.arena.expr m).ty t = none
  widens : t = .float → c.widens m = some false

theorem trees_of_isValue (h : (c.arena.expr m).kind.isValue = true) : c.trees [m] = {m} := by
  ext n
  rw [mem_trees_iff_children, ExprKind.children_of_isValue h, trees_nil]
  simp

theorem Brought.congr (h : c.Brought g m t)
    (hg : ∀ n ∈ c.trees [m], c'.arena.expr n = g.arena.expr n) : c.Brought c' m t := by
  have hm := c.mem_trees_self (List.mem_singleton_self m)
  cases h with
  | same hty h => exact .same hty fun n hn => (hg n hn).trans (h n hn)
  | cast hne hvalue hcast h => exact .cast hne hvalue hcast ((hg m hm).trans h)
  | widened hne hcast ht h => exact .widened hne hcast ht (h.congr hg)

theorem Brought.echo (h : c.Brought g m t) (he : c.Echoes [m] c') (hc : c.Rooted [m]) :
    c'.Brought g m t := by
  have hm := he.expr m (c.mem_trees_self (List.mem_singleton_self m))
  cases h with
  | same hty h =>
    refine .same (by rwa [hm]) fun n hn => ?_
    rw [he.trees] at hn
    rw [h n hn, he.expr n hn]
  | cast hne hvalue hcast h => exact .cast (by rwa [hm]) (by rwa [hm]) (by rwa [hm]) h
  | widened hne hcast ht h => exact .widened (by rwa [hm]) (by rwa [hm]) ht (h.echo he hc)

theorem Resists.echo (h : c.Resists m t) (he : c.Echoes [m] c') (hc : c.Rooted [m]) :
    c'.Resists m t := by
  have hm := he.expr m (c.mem_trees_self (List.mem_singleton_self m))
  exact ⟨by rw [hm]; exact h.ne, by rw [hm]; exact h.cast,
    fun ht => (he.widens hc).trans (h.widens ht)⟩

/-- **What becomes of a tree** that is brought into a type. -/
theorem coerceTo_brings (hc : c.Rooted [m]) (t : Ty) :
    Outcome (coerceTo m t) c
      (fun _ c' => c.Brought c' m t ∧ c.Alters (c.trees [m]) c')
      fun stop c' => stop ≠ .cyclic ∧ c' = c ∧ c.Resists m t := by
  simp only [coerceTo_eq, outcome_bind, outcome_get]
  split
  · rename_i hty
    exact ⟨.same hty fun _ _ => rfl, .refl _ c⟩
  · rename_i hne
    have hm := c.mem_trees_self (List.mem_singleton_self m)
    split
    · rename_i cast hcast
      split at hcast
      · refine ⟨.cast hne ‹_› hcast ?_, alters_modifyExpr hm _⟩
        exact Arena.expr_modifyExpr_self hc.lt_size _
      · cases hcast
    · rename_i hcast
      have hcast : (c.arena.expr m).kind.isValue = true →
          (c.arena.expr m).cast? (c.arena.expr m).ty t = none := by
        intro hvalue
        simpa [hvalue] using hcast
      obtain ⟨answer, hanswer⟩ := hc.exists_widens
      split <;> rename_i hwidens
      · obtain ⟨-, hdeep⟩ := (widensTo_eq_iff (by simp)).1 hwidens
        cases hanswer.symm.trans hdeep
      · obtain ⟨rfl, hwidens⟩ := (widensTo_eq_iff (by simp)).1 hwidens
        have hty := (ty_of_widensWithin hwidens).resolve_left hne
        exact (widen_enlarges hc hty hwidens).mono
          (fun _ c' h => ⟨.widened hne hcast rfl h.1, h.2⟩) fun _ _ => False.elim
      · refine ⟨by simp, rfl, hne, hcast, fun ht => ?_⟩
        rwa [widensTo, if_pos ht] at hwidens

/-- **The same tree** becomes the same again. -/
theorem Brought.again (h : c.Brought g m t) (hc : c.Rooted [m]) :
    Outcome (coerceTo m t) c (fun _ c' => c.Alters (c.trees [m]) c' ∧
        ∀ n ∈ c.trees [m], c'.arena.expr n = g.arena.expr n) fun _ _ => False := by
  refine (coerceTo_brings hc t).mono ?_ ?_
  · rintro - c' ⟨h', halters⟩
    refine ⟨halters, fun n hn => ?_⟩
    cases h with
    | same hty hg =>
      cases h' with
      | same _ hc' => rw [hc' n hn, hg n hn]
      | cast hne | widened hne => exact (hne hty).elim
    | cast hne hvalue hcast hg =>
      cases h' with
      | same hty => exact (hne hty).elim
      | cast _ _ hcast' hc' =>
        rw [trees_of_isValue hvalue] at hn
        obtain rfl := Set.mem_singleton_iff.1 hn
        rw [hg, hc', Option.some.inj (hcast.symm.trans hcast')]
      | widened _ hnone => cases hcast.symm.trans (hnone hvalue)
    | widened hne hnone ht hg =>
      cases h' with
      | same hty => exact (hne hty).elim
      | cast _ hvalue hcast' => cases hcast'.symm.trans (hnone hvalue)
      | widened _ _ _ hc' => exact hg.unique hc' hn
  · rintro stop c' ⟨-, -, hresists⟩
    cases h with
    | same hty => exact hresists.ne hty
    | cast _ hvalue hcast => cases hcast.symm.trans (hresists.cast hvalue)
    | widened _ _ ht h => cases h.widens.symm.trans (hresists.widens ht)

/-- A tree that cannot be brought into a type is left alone. -/
theorem Resists.again (h : c.Resists m t) :
    Outcome (coerceTo m t) c (fun _ _ => False) fun stop c' => stop ≠ .cyclic ∧ c' = c := by
  simp only [coerceTo_eq, outcome_bind, outcome_get, if_neg h.ne]
  have hcast : (if (c.arena.expr m).kind.isValue = true then
      (c.arena.expr m).cast? (c.arena.expr m).ty t else none) = none := by
    split
    · exact h.cast ‹_›
    · rfl
  rw [hcast]
  have hwidens : c.widensTo t m = some false := by
    unfold widensTo
    split
    · exact h.widens ‹_›
    · rfl
  simp only [hwidens, outcome_fail]
  exact ⟨by simp, trivial⟩

/-- A value that is typed as an integer and is none is not changed by widening. -/
theorem coerceTo_misfit (hty : (c.arena.expr m).ty = .int)
    (hvalue : (c.arena.expr m).kind.isValue = true)
    (hcast : (c.arena.expr m).cast? .int .float = none) :
    Outcome (coerceTo m .float) c (fun _ c' => c.Alters ∅ c') fun _ _ => False := by
  obtain ⟨v, hk⟩ : ∃ v, (c.arena.expr m).kind = .value v := by
    cases hk : (c.arena.expr m).kind <;> simp_all [ExprKind.isValue]
  have hwidens : c.widens m = some true := by
    simp [Compilation.widens, widensWithin, hty, hk]
  have hwiden : Outcome (widen m) c (fun _ c' => c.Alters ∅ c') fun _ _ => False := by
    simp only [widen, outcome_bind, outcome_arena, widenWithin_succ, outcome_get, hty, hk, hcast]
    simpa using Alters.refl ∅ c
  simpa [coerceTo_eq, hty, hvalue, hcast, widensTo, hwidens] using hwiden

/-- **A tree that was brought into a type** is left alone when that is done again. -/
theorem Brought.fixed (h : c.Brought g m t) (hc' : ∀ n ∈ c.trees [m], c'.arena.expr n =
    g.arena.expr n) : Outcome (coerceTo m t) c' (fun _ c'' => c'.Alters ∅ c'') fun _ _ => False := by
  have hm := c.mem_trees_self (List.mem_singleton_self m)
  have hdone (hty : (c'.arena.expr m).ty = t) :
      Outcome (coerceTo m t) c' (fun _ c'' => c'.Alters ∅ c'') fun _ _ => False := by
    simp only [coerceTo_eq, outcome_bind, outcome_get, if_pos hty]
    exact Alters.refl ∅ c'
  cases h with
  | same hty h => exact hdone (by rw [hc' m hm, h m hm, hty])
  | cast hne _ hcast h => exact hdone (by rw [hc' m hm, h, Expression.ty_of_cast? hcast hne])
  | widened _ hcast ht h =>
    subst ht
    rcases h.isValue_or_call with hvalue | ⟨d, args, -, hty⟩
    · have hroot : c'.arena.expr m = c.widened m := (hc' m hm).trans h.root
      have hnone : (c.arena.expr m).cast? .int .float = none := by
        rw [← h.ty]
        exact hcast hvalue
      have heq : c.widened m = c.arena.expr m := by
        simp only [Compilation.widened]
        split
        · rw [hnone]
          rfl
        · rename_i hk
          rw [hk] at hvalue
          cases hvalue
        · rfl
      rw [heq] at hroot
      exact coerceTo_misfit (by rw [hroot, h.ty]) (by rwa [hroot]) (by rwa [hroot])
    · exact hdone (by rw [hc' m hm, hty])

/-! ## Arguments -/

/-- **Arguments were brought into the types of their parameters**, generic numbers into the type
`u`, as far as there are parameters or until one could not be. -/
inductive BroughtAll (c g : Compilation) (u : Ty) : Bool → List ExprId → List Ty → Prop where
  | done {args : List ExprId} {params : List Ty} (hend : args = [] ∨ params = [])
    (h : ∀ n ∈ c.trees args, g.arena.expr n = c.arena.expr n) : BroughtAll c g u true args params
  | fail {m : ExprId} {args : List ExprId} {param : Ty} {params : List Ty}
    (hresists : c.Resists m (if param = .number then u else param))
    (h : ∀ n ∈ c.trees (m :: args), g.arena.expr n = c.arena.expr n) :
    BroughtAll c g u false (m :: args) (param :: params)
  | cons {ok : Bool} {m : ExprId} {args : List ExprId} {param : Ty} {params : List Ty}
    (h : c.Brought g m (if param = .number then u else param))
    (hrest : BroughtAll c g u ok args params) : BroughtAll c g u ok (m :: args) (param :: params)

theorem Echoes.symm (h : c.Echoes ids c') (hsize : c'.arena.exprs.size = c.arena.exprs.size) :
    c'.Echoes ids c where
  toSameProgram := h.toSameProgram.symm
  size := hsize.le
  expr n hn := (h.expr n (h.trees ▸ hn)).symm
  callees n hn d args hk := by
    rw [h.trees] at hn
    rw [h.expr n hn] at hk
    exact (h.callees n hn d args hk).symm

/-- A change of the first tree beside the others. -/
theorem Rooted.echoes (hc : c.Rooted (m :: ids)) (h : c.Alters (c.trees [m]) c') :
    c.Echoes ids c' := by
  have hsub {n : ExprId} (hn : n ∈ c.trees [m]) : n ∈ c.trees (m :: ids) :=
    trees_mono (by simp) hn
  refine h.echoes hc.uncons.2.2 fun n hn d args hk b hb hmem => ?_
  exact hc.free n (trees_mono (List.subset_cons_self m ids) hn) d args hk b hb (hsub hmem)

theorem BroughtAll.echo {params : List Ty} {ok : Bool} (h : c.BroughtAll g u ok args params)
    (he : c.Echoes args c') (hc : c.Rooted args) : c'.BroughtAll g u ok args params := by
  induction h with
  | done hend h =>
    refine .done hend fun n hn => ?_
    rw [he.trees] at hn
    rw [h n hn, he.expr n hn]
  | @fail m args _ _ hresists h =>
    have hsub : c.trees [m] ⊆ c.trees (m :: args) := trees_mono (by simp)
    refine .fail (hresists.echo (he.mono hsub) hc.uncons.1) fun n hn => ?_
    rw [he.trees] at hn
    rw [h n hn, he.expr n hn]
  | @cons _ m args _ _ h _ ih =>
    have hsub : c.trees [m] ⊆ c.trees (m :: args) := trees_mono (by simp)
    exact .cons (h.echo (he.mono hsub) hc.uncons.1)
      (ih (he.mono (trees_mono (List.subset_cons_self m args))) hc.uncons.2.1)

theorem BroughtAll.congr {params : List Ty} {ok : Bool} (h : c.BroughtAll g u ok args params)
    (hg : ∀ n ∈ c.trees args, c'.arena.expr n = g.arena.expr n) :
    c.BroughtAll c' u ok args params := by
  induction h with
  | done hend h => exact .done hend fun n hn => (hg n hn).trans (h n hn)
  | fail hresists h => exact .fail hresists fun n hn => (hg n hn).trans (h n hn)
  | @cons _ m args _ _ h _ ih =>
    exact .cons (h.congr fun n hn => hg n (trees_mono (by simp) hn))
      (ih fun n hn => hg n (trees_mono (List.subset_cons_self m args) hn))

/-- **What becomes of arguments** that are brought into the types of their parameters. -/
theorem coerceAll_brings (hc : c.Rooted args) (u : Ty) (params : List Ty) :
    Outcome (coerceAll u args params) c
      (fun _ c' => c.BroughtAll c' u true args params ∧ c.Alters (c.trees args) c')
      fun stop c' => stop ≠ .cyclic ∧ c.BroughtAll c' u false args params ∧
        c.Alters (c.trees args) c' := by
  induction args generalizing c params with
  | nil => exact ⟨.done (.inl rfl) fun _ _ => rfl, .refl _ c⟩
  | cons m args ih =>
    cases params with
    | nil => exact ⟨.done (.inr rfl) fun _ _ => rfl, .refl _ c⟩
    | cons param params =>
      obtain ⟨hfirst, hrest, hdisjoint⟩ := hc.uncons
      have hsub : c.trees [m] ⊆ c.trees (m :: args) := trees_mono (by simp)
      have hsub' : c.trees args ⊆ c.trees (m :: args) := trees_mono (List.subset_cons_self m args)
      simp only [coerceAll, outcome_bind]
      refine (coerceTo_brings hfirst _).mono ?_ ?_
      · rintro - c₁ ⟨hbrought, halters⟩
        have hecho := hc.echoes halters
        -- What is brought later leaves the first tree as it is by then.
        have hjoin {ok : Bool} {c' : Compilation} (h : c₁.BroughtAll c' u ok args params)
            (h' : c₁.Alters (c₁.trees args) c') : c.BroughtAll c' u ok (m :: args)
              (param :: params) ∧ c.Alters (c.trees (m :: args)) c' := by
          rw [hecho.trees] at h'
          refine ⟨.cons (hbrought.congr fun n hn => h'.expr n ?_)
            (h.echo (hecho.symm halters.size) (hecho.rooted hrest)),
            (halters.mono hsub).trans (h'.mono hsub')⟩
          exact Set.disjoint_left.1 hdisjoint hn
        exact (ih (hecho.rooted hrest) params).mono (fun _ _ h => hjoin h.1 h.2)
          fun _ _ h => ⟨h.1, hjoin h.2.1 h.2.2⟩
      · rintro stop c' ⟨hstop, rfl, hresists⟩
        exact ⟨hstop, .fail hresists fun _ _ => rfl, .refl _ c'⟩

/-- A tree that comes to what it is elsewhere when it is brought into a type, or is that already. -/
def Nears (c g : Compilation) (m : ExprId) (t : Ty) : Prop :=
  c.Brought g m t ∨ ∃ c₀ : Compilation, c₀.Brought g m t ∧
    ∀ n ∈ c₀.trees [m], c.arena.expr n = g.arena.expr n

/-- Nothing is moved when a tree is brought into a type. -/
theorem Brought.children (h : c.Brought g m t) (hn : n ∈ c.trees [m]) :
    (g.arena.expr n).kind.children = (c.arena.expr n).kind.children := by
  cases h with
  | same _ h => rw [h n hn]
  | cast _ hvalue hcast h =>
    rw [trees_of_isValue hvalue] at hn
    obtain rfl := Set.mem_singleton_iff.1 hn
    rw [h]
    exact ExprKind.children_eq (Expression.cast?_kind hcast)
  | widened _ _ _ h => exact h.children hn

theorem Brought.trees (h : c.Brought g m t)
    (hc' : ∀ n ∈ c.trees [m], c'.arena.expr n = g.arena.expr n) : c'.trees [m] = c.trees [m] :=
  trees_congr fun n hn => by rw [hc' n hn, h.children hn]

theorem Nears.coerceTo (h : c.Nears g m t) (hc : c.Rooted [m]) :
    Outcome (coerceTo m t) c (fun _ c' => c.Alters (c.trees [m]) c' ∧
        ∀ n ∈ c.trees [m], c'.arena.expr n = g.arena.expr n) fun _ _ => False := by
  rcases h with h | ⟨c₀, h, hsame⟩
  · exact h.again hc
  · refine (h.fixed hsame).imp fun _ c' halters => ⟨halters.mono (Set.empty_subset _), ?_⟩
    intro n hn
    rw [h.trees hsame] at hn
    rw [halters.expr n (Set.notMem_empty n), hsame n hn]

theorem Nears.echo (h : c.Nears g m t) (he : c.Echoes [m] c') (hc : c.Rooted [m]) :
    c'.Nears g m t := by
  rcases h with h | ⟨c₀, h, hsame⟩
  · exact .inl (h.echo he hc)
  · refine .inr ⟨c₀, h, fun n hn => ?_⟩
    rw [he.expr n (by rwa [h.trees hsame]), hsame n hn]

/-- Arguments that come to what they are elsewhere, or to the same failure. -/
inductive Meets (c g : Compilation) (u : Ty) : Bool → List ExprId → List Ty → Prop where
  | done {args : List ExprId} {params : List Ty} (hend : args = [] ∨ params = [])
    (h : ∀ n ∈ c.trees args, c.arena.expr n = g.arena.expr n) : Meets c g u true args params
  | fail {m : ExprId} {args : List ExprId} {param : Ty} {params : List Ty}
    (hresists : c.Resists m (if param = .number then u else param))
    (h : ∀ n ∈ c.trees (m :: args), c.arena.expr n = g.arena.expr n) :
    Meets c g u false (m :: args) (param :: params)
  | cons {ok : Bool} {m : ExprId} {args : List ExprId} {param : Ty} {params : List Ty}
    (h : c.Nears g m (if param = .number then u else param)) (hrest : Meets c g u ok args params) :
    Meets c g u ok (m :: args) (param :: params)

theorem Meets.echo {params : List Ty} {ok : Bool} (h : c.Meets g u ok args params)
    (he : c.Echoes args c') (hc : c.Rooted args) : c'.Meets g u ok args params := by
  induction h with
  | done hend h =>
    refine .done hend fun n hn => ?_
    rw [he.trees] at hn
    rw [he.expr n hn, h n hn]
  | @fail m args _ _ hresists h =>
    have hsub : c.trees [m] ⊆ c.trees (m :: args) := trees_mono (by simp)
    refine .fail (hresists.echo (he.mono hsub) hc.uncons.1) fun n hn => ?_
    rw [he.trees] at hn
    rw [he.expr n hn, h n hn]
  | @cons _ m args _ _ h _ ih =>
    have hsub : c.trees [m] ⊆ c.trees (m :: args) := trees_mono (by simp)
    exact .cons (h.echo (he.mono hsub) hc.uncons.1)
      (ih (he.mono (trees_mono (List.subset_cons_self m args))) hc.uncons.2.1)

/-- **Arguments** are brought to where they come to elsewhere. -/
theorem Meets.coerceAll {params : List Ty} {ok : Bool} (h : c.Meets g u ok args params)
    (hc : c.Rooted args) :
    Outcome (coerceAll u args params) c
      (fun _ c' => ok = true ∧ c.Alters (c.trees args) c' ∧
        ∀ n ∈ c.trees args, c'.arena.expr n = g.arena.expr n)
      fun stop c' => ok = false ∧ stop ≠ .cyclic ∧ c.Alters (c.trees args) c' ∧
        ∀ n ∈ c.trees args, c'.arena.expr n = g.arena.expr n := by
  induction args generalizing c params with
  | nil =>
    cases h with
    | done _ h => exact ⟨rfl, .refl _ c, h⟩
  | cons m args ih =>
    cases params with
    | nil =>
      cases h with
      | done _ h => exact ⟨rfl, .refl _ c, h⟩
    | cons param params =>
      obtain ⟨hfirst, hrest', hdisjoint⟩ := hc.uncons
      simp only [Termwise.coerceAll, outcome_bind]
      cases h with
      | done hend => simp at hend
      | fail hresists h =>
        refine hresists.again.mono (fun _ _ => False.elim) ?_
        rintro stop c' ⟨hstop, rfl⟩
        exact ⟨rfl, hstop, .refl _ c', h⟩
      | cons h hrest =>
        refine (h.coerceTo hfirst).mono ?_ fun _ _ => False.elim
        rintro _ c₁ ⟨halters, hgoal⟩
        have hecho := hc.echoes halters
        -- The trees of the arguments share nothing, so what the others do leaves the first one alone.
        have hjoin {c' : Compilation} (h' : c₁.Alters (c₁.trees args) c')
            (hgoal' : ∀ n ∈ c₁.trees args, c'.arena.expr n = g.arena.expr n) :
            c.Alters (c.trees (m :: args)) c' ∧
              ∀ n ∈ c.trees (m :: args), c'.arena.expr n = g.arena.expr n := by
          rw [hecho.trees] at h' hgoal'
          refine ⟨(halters.mono (trees_mono (by simp))).trans
            (h'.mono (trees_mono (List.subset_cons_self m args))), fun n hn => ?_⟩
          rw [trees_cons] at hn
          rcases hn with hn | hn
          · rw [h'.expr n (Set.disjoint_left.1 hdisjoint hn), hgoal n hn]
          · exact hgoal' n hn
        exact (ih (hrest.echo hecho hrest') (hecho.rooted hrest')).mono
          (fun _ _ h => ⟨h.1, hjoin h.2.1 h.2.2⟩)
          fun _ _ h => ⟨h.1, h.2.1, hjoin h.2.2.1 h.2.2.2⟩

/-- A program between two others: each argument is what it is in the one or in the other. -/
structure Between (c g : Compilation) (args : List ExprId) (c' : Compilation) : Prop
    extends Alongside c args c' where
  each : ∀ m ∈ args, (∀ n ∈ c.trees [m], c'.arena.expr n = c.arena.expr n) ∨
    ∀ n ∈ c.trees [m], c'.arena.expr n = g.arena.expr n

theorem Between.of_cons (h : c.Between g (m :: args) c') : c.Between g args c' :=
  ⟨h.toAlongside.mono (trees_mono (List.subset_cons_self m args)),
    fun m' hm => h.each m' (List.mem_cons_of_mem m hm)⟩

theorem Between.echoes (h : c.Between g args c') (hm : m ∈ args)
    (hsame : ∀ n ∈ c.trees [m], c'.arena.expr n = c.arena.expr n) : c.Echoes [m] c' :=
  ⟨h.toAlongside.mono (trees_mono (by simpa using hm)), hsame⟩

/-- Trees that do not differ are what they are on either side. -/
theorem Between.kept (h : c.Between g args c')
    (hg : ∀ n ∈ c.trees args, g.arena.expr n = c.arena.expr n) :
    c'.trees args = c.trees args ∧ ∀ n ∈ c.trees args, c'.arena.expr n = c.arena.expr n := by
  have hkept : ∀ n ∈ c.trees args, c'.arena.expr n = c.arena.expr n := by
    rintro n ⟨m, hm, hn⟩
    have hn' : n ∈ c.trees [m] := mem_trees_singleton.2 hn
    rcases h.each m hm with hsame | hsame
    · exact hsame n hn'
    · rw [hsame n hn', hg n ⟨m, hm, hn⟩]
  exact ⟨trees_congr fun n hn => by rw [hkept n hn], hkept⟩

/-- **Arguments between two programs** come to what they came to. -/
theorem BroughtAll.meets {params : List Ty} {ok : Bool} (h : c.BroughtAll g u ok args params)
    (hb : c.Between g args c') (hc : c.Rooted args) : c'.Meets g u ok args params := by
  induction h with
  | done hend h =>
    obtain ⟨htrees, hkept⟩ := hb.kept h
    refine .done hend fun n hn => ?_
    rw [htrees] at hn
    rw [hkept n hn, h n hn]
  | @fail m args _ _ hresists h =>
    obtain ⟨htrees, hkept⟩ := hb.kept h
    have hecho := hb.echoes (List.mem_cons_self) fun n hn => hkept n (trees_mono (by simp) hn)
    refine .fail (hresists.echo hecho hc.uncons.1) fun n hn => ?_
    rw [htrees] at hn
    rw [hkept n hn, h n hn]
  | @cons _ m args _ _ h _ ih =>
    refine .cons ?_ (ih hb.of_cons hc.uncons.2.1)
    rcases hb.each m List.mem_cons_self with hsame | hsame
    · exact .inl (h.echo (hb.echoes List.mem_cons_self hsame) hc.uncons.1)
    · exact .inr ⟨c, h, hsame⟩

/-- Arguments that each come to what they are elsewhere. -/
theorem meets_of_nears {params : List Ty}
    (h : ∀ m param, (m, param) ∈ args.zip params →
      c.Nears g m (if param = .number then u else param))
    (hrest : ∀ m ∈ args.drop params.length, ∀ n ∈ c.trees [m], c.arena.expr n = g.arena.expr n) :
    c.Meets g u true args params := by
  induction args generalizing params with
  | nil => exact .done (.inl rfl) fun n hn => by simp [trees_nil] at hn
  | cons m args ih =>
    cases params with
    | nil =>
      refine .done (.inr rfl) fun n hn => ?_
      obtain ⟨m', hm', hn⟩ := hn
      exact hrest m' hm' n (mem_trees_singleton.2 hn)
    | cons param params =>
      refine .cons (h m param (by simp)) (ih (fun m' param' hmem => h m' param' ?_) hrest)
      exact List.mem_cons_of_mem _ hmem

/-- **What a call becomes** that is widened, and what becomes of its arguments. -/
theorem Enlarged.argument (h : c.Enlarged g id) (hc : c.Rooted [id])
    (hk : (c.arena.expr id).kind = .call d args) (hm : m ∈ args) :
    (m ∈ c.followers d args ∧ (c.arena.expr m).ty = .int ∧ c.Enlarged g m) ∨
      ((m ∈ c.followers d args → (c.arena.expr m).ty = .float) ∧
        ∀ n ∈ c.trees [m], g.arena.expr n = c.arena.expr n) := by
  obtain ⟨hargs, hroot⟩ := hc.children
  rw [hk] at hargs hroot
  have hsub {n : ExprId} (hn : n ∈ c.trees [m]) : n ∈ c.trees [id] := by
    refine mem_trees_iff_children.2 (.inr ?_)
    rw [hk]
    exact trees_mono (by simpa [ExprKind.children] using hm) hn
  -- What is rebuilt of an argument is rebuilt from that argument.
  have hrebuilt {n : ExprId} (hn : n ∈ c.trees [m]) :
      c.Rebuilt id n ↔ m ∈ c.followers d args ∧ c.Rebuilt m n := by
    rw [rebuilt_iff_of_call h.ty hk]
    constructor
    · rintro (rfl | ⟨m', hm', hr⟩)
      · exact (hroot (trees_mono (by simpa [ExprKind.children] using hm) hn)).elim
      · by_cases hne : m' = m
        · exact hne ▸ ⟨hm', hr⟩
        · have hmem' := (followers_sublist c d args).subset hm'
          obtain ⟨xs, hforest, -⟩ := (hargs.of_mem hmem').forest
          have hn' : n ∈ c.trees [m'] := (mem_trees_of_forest hforest).2
            (hr.mem hforest (hforest.subset (List.mem_singleton_self m')))
          exact (Set.disjoint_left.1 (hargs.disjoint hmem' hm hne) hn' hn).elim
    · rintro ⟨hm', hr⟩
      exact .inr ⟨m, hm', hr⟩
  have hwidens := h.widens
  rw [Compilation.widens] at hwidens
  obtain ⟨_, depth, -, hfollowers⟩ := widensWithin_call hwidens h.ty hk
  by_cases hint : m ∈ c.followers d args ∧ (c.arena.expr m).ty = .int
  · refine .inl ⟨hint.1, hint.2, hint.2, (hargs.of_mem hm).widens (hfollowers m hint.1),
      fun n hn hr => h.rebuilt n (hsub hn) ((hrebuilt hn).2 ⟨hint.1, hr⟩),
      fun n hn hr => h.kept n (hsub hn) fun hr' => hr ((hrebuilt hn).1 hr').2⟩
  · refine .inr ⟨fun hm' => ?_, fun n hn => h.kept n (hsub hn) fun hr => ?_⟩
    · exact (ty_of_widensWithin (hfollowers m hm')).resolve_right fun hty => hint ⟨hm', hty⟩
    · obtain ⟨hm', hr⟩ := (hrebuilt hn).1 hr
      refine hint ⟨hm', ?_⟩
      cases hr with
      | root hty => exact hty
      | argument hty => exact hty

end Compilation

theorem Prospect.Plot.rooted {P : Prospect} {c : Compilation} {k : Nat} {ids : List ExprId}
    (h : P.Plot c k ids) : c.Rooted ids where
  forest := h.forest
  inTable := h.inTable
  free n hn d args hk b hb := h.free d ((h.fits n hn).uses d (by rw [hk]; exact .use rfl)) b hb

end Termwise
