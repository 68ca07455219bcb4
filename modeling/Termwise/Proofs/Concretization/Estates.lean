import Mathlib.Data.Set.BooleanAlgebra
import Mathlib.Order.CompletePartialOrder
import Termwise.Proofs.Concretization.Combing
import Termwise.Proofs.Concretization.Transplant
import Termwise.Proofs.Concretization.Upkeep
import Termwise.Proofs.Concretization.Widening
import Termwise.Proofs.Run.Apart

/-!
# Trees and bodies that share nothing

A walk goes into a body where it stands and comes back to the tree that it left. If the trees and
the bodies that it may get to share no node, then each is changed only while it is being walked
itself, whether the walk ends or stops with an error. Definitions that are not recursive can be
ranked: whatever a body uses is of a lower rank, so the walk of a body gets to bodies of lower rank
only.

## Main definitions

* `Arena.bodyRoots`: the expressions that a body consists of
* `Prospect`: the ranks of definitions, and the types that are fixed for some of them
* `Prospect.Lot`, `Prospect.Estate`: trees, and the bodies below a rank
* `Prospect.Passes`: what a part of a walk does to them

## Main results

* `Ready.touch`: a step that changes a tree only
* `Passes.append`, `Passes.node`: trees one after the other, and a root after what lies below it
* `Ready.body`: the walk of a body
-/

namespace Termwise

open Compilation

/-! ## Trees -/

namespace Compilation

variable {c c' : Compilation} {ids ids' : List ExprId} {id n : ExprId}

theorem trees_nil (c : Compilation) : c.trees [] = ∅ := by
  simp [trees]

theorem trees_append (c : Compilation) (ids ids' : List ExprId) :
    c.trees (ids ++ ids') = c.trees ids ∪ c.trees ids' := by
  ext n
  simp only [trees, List.mem_append, Set.mem_ofPred_eq, Set.mem_union, or_and_right, exists_or]

theorem trees_cons (c : Compilation) (id : ExprId) (ids : List ExprId) :
    c.trees (id :: ids) = c.trees [id] ∪ c.trees ids :=
  c.trees_append [id] ids

theorem mem_trees_singleton : n ∈ c.trees [id] ↔ c.Below id n := by
  simp [trees]

theorem mem_trees_self (c : Compilation) (h : id ∈ ids) : id ∈ c.trees ids := ⟨id, h, .refl⟩

theorem child_mem_trees {m : ExprId} (h : n ∈ c.trees ids)
    (hm : m ∈ (c.arena.expr n).kind.children) : m ∈ c.trees ids := by
  obtain ⟨r, hr, hn⟩ := h
  exact ⟨r, hr, hn.tail hm⟩

/-- What lies below an expression, and the expression itself. -/
theorem mem_trees_iff_children :
    n ∈ c.trees [id] ↔ n = id ∨ n ∈ c.trees (c.arena.expr id).kind.children := by
  rw [mem_trees_singleton]
  constructor
  · intro h
    rcases h.cases_head with rfl | ⟨m, hm, h⟩
    · exact .inl rfl
    · exact .inr ⟨m, hm, h⟩
  · rintro (rfl | ⟨m, hm, h⟩)
    · exact .refl
    · exact h.head hm

/-- **Trees** have the same nodes as long as these have the same children. -/
theorem trees_congr (h : ∀ n ∈ c.trees ids,
    (c'.arena.expr n).kind.children = (c.arena.expr n).kind.children) :
    c'.trees ids = c.trees ids := by
  ext n
  constructor
  · rintro ⟨r, hr, hn⟩
    induction hn with
    | refl => exact ⟨r, hr, .refl⟩
    | tail _ hm ih => exact child_mem_trees ih (h _ ih ▸ hm)
  · rintro ⟨r, hr, hn⟩
    induction hn with
    | refl => exact ⟨r, hr, .refl⟩
    | tail hp hm ih => exact child_mem_trees ih ((h _ ⟨r, hr, hp⟩).symm ▸ hm)

theorem mem_trees_of_forest {xs : List ExprId} (h : c.arena.Forest ids xs) :
    n ∈ c.trees ids ↔ n ∈ xs := by
  constructor
  · rintro ⟨r, hr, hn⟩
    exact h.mem_of_reaches (h.subset hr) hn
  · exact h.exists_root

/-- Nothing but new nodes comes to lie in a tree. -/
theorem Branches.trees_or (h : c.Branches c') (hn : n ∈ c'.trees ids) :
    n ∈ c.trees ids ∨ c.arena.exprs.size ≤ n.index := by
  obtain ⟨r, hr, hn⟩ := hn
  exact (h.below_or hn).imp_left fun hn => ⟨r, hr, hn⟩

/-- **Trees that stay as they are** share nothing with what others grow into: what is new there was
not in the table. -/
theorem Branches.disjoint_trees (h : c.Branches c')
    (hlt : ∀ n ∈ c.trees ids', n.index < c.arena.exprs.size)
    (hkept : ∀ n ∈ c.trees ids', c'.arena.expr n = c.arena.expr n)
    (hdisjoint : Disjoint (c.trees ids) (c.trees ids')) :
    Disjoint (c'.trees ids) (c'.trees ids') := by
  have htrees : c'.trees ids' = c.trees ids' := trees_congr fun n hn => by rw [hkept n hn]
  rw [htrees]
  refine Set.disjoint_left.2 fun n hn hn' => ?_
  rcases h.trees_or hn with hn | hnew
  · exact Set.disjoint_left.1 hdisjoint hn hn'
  · exact Nat.not_le.2 (hlt n hn') hnew

end Compilation

/-! ## Bodies -/

namespace Arena

variable {a a' : Arena}

/-- The expressions that a statement consists of, read to a given depth of blocks. -/
def stated (a : Arena) : (depth : Nat) → StmtId → List ExprId
  | 0, _ => []
  | depth + 1, s =>
    match (a.stmt s).kind with
    | .expression e | .result e => [e]
    | .block ss => ss.flatMap (a.stated depth)
    | .bind _ | .empty | .deleted => []

/-- The definitions that a statement makes known, read to a given depth of blocks. -/
def bound (a : Arena) : (depth : Nat) → StmtId → List DefId
  | 0, _ => []
  | depth + 1, s =>
    match (a.stmt s).kind with
    | .bind d => [d]
    | .block ss => ss.flatMap (a.bound depth)
    | .expression _ | .result _ | .empty | .deleted => []

/-- **The expressions that a body consists of.** -/
def bodyRoots (a : Arena) (d : DefId) : List ExprId :=
  match (a.definition d).body with
  | .expression b => [b]
  | .statement s => a.stated (a.stmts.size + 1) s
  | .builtin | .undefined => []

/-- The definitions that a body makes known. -/
def bodyBound (a : Arena) (d : DefId) : List DefId :=
  match (a.definition d).body with
  | .statement s => a.bound (a.stmts.size + 1) s
  | .expression _ | .builtin | .undefined => []

theorem stated_congr (h : a'.stmts = a.stmts) (depth : Nat) : a'.stated depth = a.stated depth := by
  induction depth with
  | zero => rfl
  | succ depth ih =>
    funext s
    simp only [stated, stmt, h, ih]

theorem bound_congr (h : a'.stmts = a.stmts) (depth : Nat) : a'.bound depth = a.bound depth := by
  induction depth with
  | zero => rfl
  | succ depth ih =>
    funext s
    simp only [bound, stmt, h, ih]

theorem mem_bodyRoots {d : DefId} {b : ExprId} (h : (a.definition d).body = .expression b) :
    b ∈ a.bodyRoots d := by
  simp [bodyRoots, h]

end Arena

theorem Compilation.SameProgram.bodyRoots {c c' : Compilation} (h : c.SameProgram c') (d : DefId) :
    c'.arena.bodyRoots d = c.arena.bodyRoots d := by
  simp only [Arena.bodyRoots, h.definition, h.stmts, Arena.stated_congr h.stmts]

theorem Compilation.SameProgram.bodyBound {c c' : Compilation} (h : c.SameProgram c') (d : DefId) :
    c'.arena.bodyBound d = c.arena.bodyBound d := by
  simp only [Arena.bodyBound, h.definition, h.stmts, Arena.bound_congr h.stmts]

/-! ## Estates -/

/-- **How definitions depend on each other**: the rank of each, and the types that are fixed for
some of them while a tree is walked. -/
structure Prospect where
  rank : DefId → Nat
  fixed : DefId → Option Ty

namespace Prospect

/-- An expression without a declared type that uses definitions below a rank. Those that it calls
have a fixed type. -/
structure Fits (P : Prospect) (b : Builtins) (k : Nat) (e : Expression) : Prop where
  declared : e.declared = none
  uses : ∀ d, e.kind.LeadsTo b (.definition d) → P.rank d < k
  called : ∀ d args, e.kind = .call d args → ∃ ty, P.fixed d = some ty

/-- **Trees that share nothing**, of expressions that use definitions below a rank and contain none
of their bodies. -/
structure Plot (P : Prospect) (c : Compilation) (k : Nat) (ids : List ExprId) : Prop where
  forest : ∃ xs, c.arena.Forest ids xs ∧ xs.Nodup
  inTable : ∀ n ∈ c.trees ids, n.index < c.arena.exprs.size
  fits : ∀ n ∈ c.trees ids, P.Fits c.builtins k (c.arena.expr n)
  free : ∀ d, P.rank d < k → ∀ b, (c.arena.definition d).body = .expression b → b ∉ c.trees ids

/-- Trees that share nothing with the bodies below a rank either. -/
structure Lot (P : Prospect) (c : Compilation) (k : Nat) (ids : List ExprId) : Prop
    extends P.Plot c k ids where
  apart : ∀ d, P.rank d < k → Disjoint (c.trees ids) (c.trees (c.arena.bodyRoots d))

/-- **The bodies below a rank** share nothing, and each uses definitions below its own rank. A
definition has its fixed type as long as its body was not walked, and all that are functions until
then have one. The negations are as they were registered. -/
structure Estate (P : Prospect) (c : Compilation) (finished : List DefId) (k : Nat) : Prop where
  plot : ∀ d, P.rank d < k → P.Plot c (P.rank d) (c.arena.bodyRoots d)
  apart : ∀ d e, P.rank d < k → P.rank e < k → d ≠ e →
    Disjoint (c.trees (c.arena.bodyRoots d)) (c.trees (c.arena.bodyRoots e))
  bound : ∀ d, P.rank d < k → ∀ e ∈ c.arena.bodyBound d, P.rank e < P.rank d
  fixed : ∀ d, P.rank d < k → d ∉ finished → ∀ ty ∈ P.fixed d, c.arena.definitionType d = ty
  function : ∀ d, P.rank d < k → d ∉ finished → (c.arena.definitionType d).isFunction = true →
    ∃ ty, P.fixed d = some ty
  registered : c.Registered
  negation : ∀ d, c.IsNegation d →
    (c.arena.definition d).body = .builtin ∧ ∃ ty, P.fixed d = some ty

/-- Definitions below a rank have their fixed types. -/
def Steadfast (P : Prospect) (c : Compilation) (k : Nat) : Prop :=
  ∀ d, P.rank d < k → ∀ ty ∈ P.fixed d, c.arena.definitionType d = ty

/-- A walk may go into some trees and the bodies below a rank. -/
structure Ready (P : Prospect) (k : Nat) (ids : List ExprId) (w : Walk) : Prop where
  upright : w.unit.Upright
  estate : P.Estate w.unit w.finished k
  lot : P.Lot w.unit k ids

end Prospect

/-- What a walk may change: some trees, and the bodies that were not finished when it began. -/
def Walk.ground (w : Walk) (finished : List DefId) (ids : List ExprId) : Set ExprId :=
  { n | n ∈ w.unit.trees ids ∨
    ∃ d ∈ finished, d ∉ w.finished ∧ n ∈ w.unit.trees (w.unit.arena.bodyRoots d) }

/-- **What a part of a walk does** to some trees and to the bodies below a rank: it finishes some of
these and changes nothing else. What it leaves is ready to be walked again. -/
structure Prospect.Passes (P : Prospect) (k : Nat) (ids : List ExprId) (w w' : Walk) : Prop
    extends w.unit.Proceeds w'.unit where
  finished : w.finished ⊆ w'.finished
  rank : ∀ d ∈ w'.finished, d ∉ w.finished → P.rank d < k
  missing : ∀ n, n.index < w.unit.arena.exprs.size →
    (w'.unit.arena.expr n).kind = .missingArg → (w.unit.arena.expr n).kind = .missingArg
  kept : w.unit.KeepsTo (w.ground w'.finished ids) w'.unit
  ready : P.Ready k ids w'

namespace Prospect

variable {P : Prospect} {c c' : Compilation} {w w₀ w₁ w' : Walk} {k k' : Nat}
  {id n : ExprId} {d e : DefId} {ids ids' : List ExprId} {finished finished' : List DefId}

/-! ## Plots -/

theorem Fits.mono {b : Builtins} {x : Expression} (h : P.Fits b k x) (hle : k ≤ k') :
    P.Fits b k' x :=
  ⟨h.declared, fun d hd => (h.uses d hd).trans_le hle, h.called⟩

/-- **Trees** are what they were as long as none of their nodes changes. -/
theorem Plot.of_kept (h : P.Plot c k ids) (hsame : c.SameProgram c')
    (hsize : c.arena.exprs.size ≤ c'.arena.exprs.size)
    (hkept : ∀ n ∈ c.trees ids, c'.arena.expr n = c.arena.expr n) :
    c'.trees ids = c.trees ids ∧ P.Plot c' k ids := by
  have htrees : c'.trees ids = c.trees ids := trees_congr fun n hn => by rw [hkept n hn]
  obtain ⟨xs, hforest, hnodup⟩ := h.forest
  refine ⟨htrees, ⟨xs, hforest.congr fun n hn => ?_, hnodup⟩, fun n hn => ?_, fun n hn => ?_,
    fun d hd b hb => ?_⟩
  · rw [hkept n ((mem_trees_of_forest hforest).2 hn)]
  · rw [htrees] at hn
    exact (h.inTable n hn).trans_le hsize
  · rw [htrees] at hn
    rw [hkept n hn, hsame.builtins]
    exact h.fits n hn
  · rw [htrees]
    exact h.free d hd b (by rwa [hsame.definition] at hb)

/-- Some of the trees and the others. -/
theorem Plot.split (h : P.Plot c k (ids ++ ids')) :
    P.Plot c k ids ∧ P.Plot c k ids' ∧ Disjoint (c.trees ids) (c.trees ids') := by
  have hmem : ∀ {n}, n ∈ c.trees (ids ++ ids') ↔ n ∈ c.trees ids ∨ n ∈ c.trees ids' := by
    intro n
    rw [trees_append]
    rfl
  obtain ⟨xs, hforest, hnodup⟩ := h.forest
  obtain ⟨ys, zs, rfl, hys, hzs⟩ := hforest.exists_append
  obtain ⟨hnodup₁, hnodup₂, hdisjoint⟩ := List.nodup_append'.1 hnodup
  refine ⟨⟨⟨_, hys, hnodup₁⟩, fun n hn => h.inTable n (hmem.2 (.inl hn)),
      fun n hn => h.fits n (hmem.2 (.inl hn)), fun d hd b hb hn => h.free d hd b hb
        (hmem.2 (.inl hn))⟩,
    ⟨⟨_, hzs, hnodup₂⟩, fun n hn => h.inTable n (hmem.2 (.inr hn)),
      fun n hn => h.fits n (hmem.2 (.inr hn)), fun d hd b hb hn => h.free d hd b hb
        (hmem.2 (.inr hn))⟩, ?_⟩
  rw [Set.disjoint_left]
  intro n hn hn'
  exact hdisjoint ((mem_trees_of_forest hys).1 hn) ((mem_trees_of_forest hzs).1 hn')

/-- The first tree and the others. -/
theorem Plot.uncons (h : P.Plot c k (id :: ids)) :
    P.Plot c k [id] ∧ P.Plot c k ids ∧ Disjoint (c.trees [id]) (c.trees ids) :=
  Plot.split (show P.Plot c k ([id] ++ ids) from h)

theorem Plot.append (h : P.Plot c k ids) (h' : P.Plot c k ids')
    (hdisjoint : Disjoint (c.trees ids) (c.trees ids')) : P.Plot c k (ids ++ ids') := by
  obtain ⟨xs, hxs, hnodup⟩ := h.forest
  obtain ⟨ys, hys, hnodup'⟩ := h'.forest
  have hmem : ∀ {n}, n ∈ c.trees (ids ++ ids') → n ∈ c.trees ids ∨ n ∈ c.trees ids' := by
    intro n hn
    rwa [trees_append] at hn
  refine ⟨⟨xs ++ ys, hxs.append hys, List.nodup_append'.2 ⟨hnodup, hnodup', fun n hn hn' => ?_⟩⟩,
    fun n hn => ?_, fun n hn => ?_, fun d hd b hb hn => ?_⟩
  · exact Set.disjoint_left.1 hdisjoint ((mem_trees_of_forest hxs).2 hn)
      ((mem_trees_of_forest hys).2 hn')
  · exact (hmem hn).elim (h.inTable n) (h'.inTable n)
  · exact (hmem hn).elim (h.fits n) (h'.fits n)
  · exact (hmem hn).elim (h.free d hd b hb) (h'.free d hd b hb)

/-- What lies below the root of a tree. -/
theorem Plot.children (h : P.Plot c k [id]) :
    P.Plot c k (c.arena.expr id).kind.children ∧ id ∉ c.trees (c.arena.expr id).kind.children := by
  have hsub : ∀ n ∈ c.trees (c.arena.expr id).kind.children, n ∈ c.trees [id] :=
    fun n hn => mem_trees_iff_children.2 (.inr hn)
  obtain ⟨xs, hforest, hnodup⟩ := h.forest
  obtain ⟨below, rfl, hbelow⟩ := hforest.exists_tree
  obtain ⟨hid, hnodup⟩ := List.nodup_cons.1 hnodup
  exact ⟨⟨⟨below, hbelow, hnodup⟩, fun n hn => h.inTable n (hsub n hn),
    fun n hn => h.fits n (hsub n hn), fun d hd b hb hn => h.free d hd b hb (hsub b hn)⟩,
    fun hmem => hid ((mem_trees_of_forest hbelow).1 hmem)⟩

theorem Lot.lt_size (h : P.Lot c k [id]) : id.index < c.arena.exprs.size :=
  h.inTable id (c.mem_trees_self (List.mem_singleton_self id))

/-! ## Estates -/

theorem Estate.mono (h : P.Estate c finished k) (hle : k' ≤ k)
    (hsub : ∀ d ∈ finished, d ∈ finished') : P.Estate c finished' k' where
  plot d hd := h.plot d (hd.trans_le hle)
  apart d e hd he := h.apart d e (hd.trans_le hle) (he.trans_le hle)
  bound d hd := h.bound d (hd.trans_le hle)
  fixed d hd hnew := h.fixed d (hd.trans_le hle) fun hmem => hnew (hsub d hmem)
  function d hd hnew := h.function d (hd.trans_le hle) fun hmem => hnew (hsub d hmem)
  registered := h.registered
  negation := h.negation

theorem Steadfast.mono (h : P.Steadfast c k) (hle : k' ≤ k) : P.Steadfast c k' :=
  fun d hd => h d (hd.trans_le hle)

/-- **Bodies of which some were changed**: the others are what they were. -/
theorem Estate.of_part (h : P.Estate c finished k) (hb : c.Branches c') (changed : DefId → Prop)
    (hkept : ∀ d, P.rank d < k → ¬ changed d → ∀ n ∈ c.trees (c.arena.bodyRoots d),
      c'.arena.expr n = c.arena.expr n)
    (hplot : ∀ d, changed d → P.Plot c' (P.rank d) (c'.arena.bodyRoots d))
    (hapart : ∀ d e, changed d → changed e → d ≠ e →
      Disjoint (c'.trees (c'.arena.bodyRoots d)) (c'.trees (c'.arena.bodyRoots e)))
    (hfixed : ∀ d, changed d → d ∉ finished' → ∀ ty ∈ P.fixed d, c'.arena.definitionType d = ty)
    (hfunction : ∀ d, changed d → d ∉ finished' →
      (c'.arena.definitionType d).isFunction = true → ∃ ty, P.fixed d = some ty)
    (hlater : ∀ d, ¬ changed d → d ∉ finished' → d ∉ finished) : P.Estate c' finished' k := by
  have hsame : c.SameProgram c' := hb.toSameProgram
  have hty (d : DefId) (hd : P.rank d < k) (hch : ¬ changed d) :
      c'.arena.definitionType d = c.arena.definitionType d :=
    hsame.definitionType fun _ b hb =>
      hkept d hd hch b (c.mem_trees_self (Arena.mem_bodyRoots hb))
  -- It is enough that the second body was not changed.
  have hbeside (d e : DefId) (hd : P.rank d < k) (he : P.rank e < k) (hch : ¬ changed e)
      (hne : d ≠ e) :
      Disjoint (c'.trees (c'.arena.bodyRoots d)) (c'.trees (c'.arena.bodyRoots e)) := by
    rw [hsame.bodyRoots, hsame.bodyRoots]
    exact hb.disjoint_trees (h.plot e he).inTable (hkept e he hch) (h.apart d e hd he hne)
  refine ⟨fun d hd => ?_, fun d e hd he hne => ?_, fun d hd => ?_, fun d hd hnew => ?_,
    fun d hd hnew => ?_, hsame.registered h.registered, fun d hd => ?_⟩
  · by_cases hch : changed d
    · exact hplot d hch
    · rw [hsame.bodyRoots]
      exact ((h.plot d hd).of_kept hsame hb.size (hkept d hd hch)).2
  · by_cases hch : changed d
    · by_cases hch' : changed e
      · exact hapart d e hch hch' hne
      · exact hbeside d e hd he hch' hne
    · exact (hbeside e d he hd hch hne.symm).symm
  · rw [hsame.bodyBound]
    exact h.bound d hd
  · by_cases hch : changed d
    · exact hfixed d hch hnew
    · rw [hty d hd hch]
      exact h.fixed d hd (hlater d hch hnew)
  · by_cases hch : changed d
    · exact hfunction d hch hnew
    · rw [hty d hd hch]
      exact h.function d hd (hlater d hch hnew)
  · rw [hsame.definition]
    exact h.negation d (hsame.isNegation.1 hd)

/-- **Bodies** are what they were as long as none of their nodes changes. -/
theorem Estate.of_kept (h : P.Estate c finished k) (hb : c.Branches c')
    (hkept : ∀ d, P.rank d < k → ∀ n ∈ c.trees (c.arena.bodyRoots d),
      c'.arena.expr n = c.arena.expr n) : P.Estate c' finished k :=
  h.of_part hb (fun _ => False) (fun d hd _ => hkept d hd) (fun _ => False.elim)
    (fun _ _ => False.elim) (fun _ => False.elim) (fun _ => False.elim) fun _ _ => id

/-- Trees that share nothing with bodies contain none of them. -/
theorem Lot.of_apart (h : ∃ xs, c.arena.Forest ids xs ∧ xs.Nodup)
    (hlt : ∀ n ∈ c.trees ids, n.index < c.arena.exprs.size)
    (hfits : ∀ n ∈ c.trees ids, P.Fits c.builtins k (c.arena.expr n))
    (hapart : ∀ d, P.rank d < k → Disjoint (c.trees ids) (c.trees (c.arena.bodyRoots d))) :
    P.Lot c k ids :=
  ⟨⟨h, hlt, hfits, fun d hd _ hb hn => Set.disjoint_left.1 (hapart d hd) hn
    (c.mem_trees_self (Arena.mem_bodyRoots hb))⟩, hapart⟩

/-! ## Parts of walks -/

theorem Ready.mem_lt (h : P.Ready k ids w) (hd : P.rank d < k)
    (hn : n ∈ w.unit.trees (w.unit.arena.bodyRoots d)) : n.index < w.unit.arena.exprs.size :=
  (h.estate.plot d hd).inTable n hn

/-- A body that a part of a walk did not finish is what it was. -/
theorem Passes.body_kept (h : P.Passes k ids w w') (hw : P.Ready k ids w) (hd : P.rank d < k)
    (hpast : d ∈ w.finished ∨ d ∉ w'.finished) :
    ∀ n ∈ w.unit.trees (w.unit.arena.bodyRoots d),
      w'.unit.arena.expr n = w.unit.arena.expr n := by
  intro n hn
  refine h.kept.expr n (hw.mem_lt hd hn) ?_
  rintro (hmem | ⟨e, he, hnew, hmem⟩)
  · exact Set.disjoint_left.1 (hw.lot.apart d hd) hmem hn
  · have hne : e ≠ d := by
      rintro rfl
      exact hpast.elim hnew fun hnot => hnot he
    exact Set.disjoint_left.1 (hw.estate.apart e d (h.rank e he hnew) hd hne) hmem hn

/-- Trees beside those that were walked are what they were. -/
theorem Passes.kept_beside (h : P.Passes k ids w w') (hlot : P.Lot w.unit k ids')
    (hdisjoint : Disjoint (w.unit.trees ids) (w.unit.trees ids')) :
    ∀ n ∈ w.unit.trees ids', w'.unit.arena.expr n = w.unit.arena.expr n := by
  intro n hn
  refine h.kept.expr n (hlot.inTable n hn) ?_
  rintro (hmem | ⟨e, he, hnew, hmem⟩)
  · exact Set.disjoint_left.1 hdisjoint hmem hn
  · exact Set.disjoint_left.1 (hlot.apart e (h.rank e he hnew)) hn hmem

/-- Trees that did not change share nothing with the bodies that did. -/
theorem Lot.of_kept {w w' : Walk} (h : P.Lot w.unit k ids) (hp : w.unit.Proceeds w'.unit)
    (hkept : ∀ n ∈ w.unit.trees ids, w'.unit.arena.expr n = w.unit.arena.expr n) :
    w'.unit.trees ids = w.unit.trees ids ∧ P.Lot w'.unit k ids := by
  obtain ⟨htrees, hplot⟩ :=
    h.toPlot.of_kept hp.toBranches.toSameProgram hp.toBranches.size hkept
  refine ⟨htrees, hplot, fun d hd => ?_⟩
  rw [hp.toBranches.toSameProgram.bodyRoots]
  exact (hp.toBranches.disjoint_trees h.inTable hkept (h.apart d hd).symm).symm

theorem Passes.refl (hw : P.Ready k ids w) : P.Passes k ids w w :=
  { Proceeds.refl w.unit with
    finished := List.Subset.refl _
    rank := fun _ hd hnew => absurd hd hnew
    missing := fun _ _ => id
    kept := .refl _ _
    ready := hw }

/-- What may be changed later lies in what might be changed before, or is new. -/
theorem Passes.ground_or (h : P.Passes k ids w w₁) (hn : n ∈ w₁.ground finished ids) :
    n ∈ w.ground finished ids ∨ w.unit.arena.exprs.size ≤ n.index := by
  rcases hn with hn | ⟨d, hd, hnew, hn⟩
  · exact (h.toBranches.trees_or hn).imp_left .inl
  · rw [h.toBranches.toSameProgram.bodyRoots] at hn
    exact (h.toBranches.trees_or hn).imp_left fun hn =>
      .inr ⟨d, hd, fun hmem => hnew (h.finished hmem), hn⟩

theorem ground_mono {finished' : List DefId} (hsub : finished ⊆ finished') :
    w.ground finished ids ⊆ w.ground finished' ids := by
  rintro n (hn | ⟨d, hd, hnew, hn⟩)
  · exact .inl hn
  · exact .inr ⟨d, hsub hd, hnew, hn⟩

/-- **Parts of a walk** in the same trees, one after the other. -/
theorem Passes.trans (h : P.Passes k ids w w₁) (h' : P.Passes k ids w₁ w') :
    P.Passes k ids w w' :=
  { h.toProceeds.trans h'.toProceeds with
    finished := List.Subset.trans h.finished h'.finished
    rank := fun d hd hnew => by
      by_cases hmem : d ∈ w₁.finished
      · exact h.rank d hmem hnew
      · exact h'.rank d hd hmem
    missing := fun n hn hk =>
      h.missing n hn (h'.missing n (hn.trans_le h.toBranches.size) hk)
    kept := (h.kept.mono fun _ hn _ => ground_mono h'.finished hn).trans h'.kept
      fun n hn hlt => (h.ground_or hn).resolve_right (Nat.not_le.2 hlt)
    ready := h'.ready }

/-- **A step that changes a tree only**, and finishes nothing. -/
theorem Ready.touch (hw : P.Ready k [id] w) (hp : w.unit.Proceeds c')
    (hkept : w.unit.KeepsTo (w.unit.trees [id]) c')
    (hmissing : ∀ n, n.index < w.unit.arena.exprs.size →
      (c'.arena.expr n).kind = .missingArg → (w.unit.arena.expr n).kind = .missingArg)
    (hfits : ∀ n ∈ c'.trees [id], P.Fits c'.builtins k (c'.arena.expr n)) :
    P.Passes k [id] w ⟨c', w.finished⟩ := by
  have hup := hp.upright hw.upright
  have hsame := hp.toBranches.toSameProgram
  have hbodies (d : DefId) (hd : P.rank d < k) :
      ∀ n ∈ w.unit.trees (w.unit.arena.bodyRoots d), c'.arena.expr n = w.unit.arena.expr n :=
    fun n hn => hkept.expr n (hw.mem_lt hd hn) fun hmem =>
      Set.disjoint_left.1 (hw.lot.apart d hd) hmem hn
  have hlot : P.Lot c' k [id] := by
    refine .of_apart (hp.trees id hw.lot.forest) (fun n hn => ?_) hfits fun d hd => ?_
    · exact hup.lt_size_of_below (hw.lot.lt_size.trans_le hp.toBranches.size)
        (mem_trees_singleton.1 hn)
    · rw [hsame.bodyRoots]
      exact hp.toBranches.disjoint_trees (fun n hn => hw.mem_lt hd hn) (hbodies d hd)
        (hw.lot.apart d hd)
  exact { hp with
    finished := List.Subset.refl _
    rank := fun _ hd hnew => absurd hd hnew
    missing := hmissing
    kept := hkept.mono fun n hn _ => .inl hn
    ready := ⟨hup, hw.estate.of_kept hp.toBranches hbodies, hlot⟩ }

/-- The trees that come after those that were walked are still to be walked. -/
theorem Passes.rest (h : P.Passes k ids w w₁) (hw : P.Ready k (ids ++ ids') w) :
    (∀ n ∈ w.unit.trees ids', w₁.unit.arena.expr n = w.unit.arena.expr n) ∧
      w₁.unit.trees ids' = w.unit.trees ids' ∧ P.Ready k ids' w₁ := by
  obtain ⟨-, hrest, hdisjoint⟩ := hw.lot.toPlot.split
  have hlot : P.Lot w.unit k ids' := ⟨hrest, fun d hd =>
    (hw.lot.apart d hd).mono_left (trees_mono (List.subset_append_right ids ids'))⟩
  have hkept := h.kept_beside hlot hdisjoint
  obtain ⟨htrees, hlot'⟩ := hlot.of_kept h.toProceeds hkept
  exact ⟨hkept, htrees, h.ready.upright, h.ready.estate, hlot'⟩

theorem Ready.first (hw : P.Ready k (ids ++ ids') w) : P.Ready k ids w := by
  refine ⟨hw.upright, hw.estate, hw.lot.toPlot.split.1, fun d hd => ?_⟩
  exact (hw.lot.apart d hd).mono_left (trees_mono (List.subset_append_left ids ids'))

/-- **Trees one after the other.** The first ones are left alone while the others are walked. -/
theorem Passes.append (h : P.Passes k ids w w₁) (h' : P.Passes k ids' w₁ w')
    (hw : P.Ready k (ids ++ ids') w) :
    (∀ n ∈ w₁.unit.trees ids, w'.unit.arena.expr n = w₁.unit.arena.expr n) ∧
      P.Passes k (ids ++ ids') w w' := by
  obtain ⟨hkept, hrest, hw₁⟩ := h.rest hw
  have hdisjoint := hw.lot.toPlot.split.2.2
  -- What grew out of the first trees is no part of the others.
  have hdisjoint₁ : Disjoint (w₁.unit.trees ids) (w₁.unit.trees ids') :=
    h.toBranches.disjoint_trees (fun n hn =>
      hw.lot.inTable n (trees_mono (List.subset_append_right ids ids') hn)) hkept hdisjoint
  have hfirst := h'.kept_beside h.ready.lot hdisjoint₁.symm
  obtain ⟨htrees, hlot⟩ := h.ready.lot.of_kept h'.toProceeds hfirst
  have hdisjoint' : Disjoint (w'.unit.trees ids) (w'.unit.trees ids') :=
    (h'.toBranches.disjoint_trees h.ready.lot.inTable hfirst hdisjoint₁.symm).symm
  have hground : ∀ n ∈ w₁.ground w'.finished ids', n.index < w.unit.arena.exprs.size →
      n ∈ w.ground w'.finished (ids ++ ids') := by
    rintro n (hn | ⟨d, hd, hnew, hn⟩) hlt
    · rw [hrest] at hn
      exact .inl (trees_mono (List.subset_append_right ids ids') hn)
    · rw [h.toBranches.toSameProgram.bodyRoots] at hn
      refine .inr ⟨d, hd, fun hmem => hnew (h.finished hmem), ?_⟩
      exact (h.toBranches.trees_or hn).resolve_right (Nat.not_le.2 hlt)
  have hground₁ : ∀ n ∈ w.ground w₁.finished ids, n.index < w.unit.arena.exprs.size →
      n ∈ w.ground w'.finished (ids ++ ids') := by
    rintro n (hn | hn) -
    · exact .inl (trees_mono (List.subset_append_left ids ids') hn)
    · exact ground_mono h'.finished (.inr hn)
  exact ⟨hfirst, { h.toProceeds.trans h'.toProceeds with
    finished := List.Subset.trans h.finished h'.finished
    rank := fun d hd hnew => by
      by_cases hmem : d ∈ w₁.finished
      · exact h.rank d hmem hnew
      · exact h'.rank d hd hmem
    missing := fun n hn hk =>
      h.missing n hn (h'.missing n (hn.trans_le h.toBranches.size) hk)
    kept := (h.kept.mono hground₁).trans h'.kept hground
    ready := by
      refine ⟨h'.ready.upright, h'.ready.estate, hlot.toPlot.append h'.ready.lot.toPlot hdisjoint',
        fun d hd => ?_⟩
      rw [trees_append]
      exact Disjoint.sup_left (hlot.apart d hd) (h'.ready.lot.apart d hd) }⟩

/-- What lies below the root of a tree is still to be walked. -/
theorem Ready.children (hw : P.Ready k [id] w) :
    P.Ready k (w.unit.arena.expr id).kind.children w := by
  refine ⟨hw.upright, hw.estate, hw.lot.toPlot.children.1, fun d hd => ?_⟩
  exact (hw.lot.apart d hd).mono_left fun n hn => mem_trees_iff_children.2 (.inr hn)

/-- **A root** stays as it is while what lies below it is walked. -/
theorem Passes.node (h : P.Passes k (w.unit.arena.expr id).kind.children w w')
    (hw : P.Ready k [id] w) :
    w'.unit.arena.expr id = w.unit.arena.expr id ∧ P.Passes k [id] w w' := by
  have hid := w.unit.mem_trees_self (List.mem_singleton_self id)
  have hlt := hw.lot.lt_size
  have hsame := h.toBranches.toSameProgram
  have hroot : w'.unit.arena.expr id = w.unit.arena.expr id := by
    refine h.kept.expr id hlt ?_
    rintro (hmem | ⟨e, he, hnew, hmem⟩)
    · exact hw.lot.toPlot.children.2 hmem
    · exact Set.disjoint_left.1 (hw.lot.apart e (h.rank e he hnew)) hid hmem
  have hmem {n : ExprId} : n ∈ w'.unit.trees [id] ↔
      n = id ∨ n ∈ w'.unit.trees (w.unit.arena.expr id).kind.children := by
    rw [mem_trees_iff_children, hroot]
  refine ⟨hroot, { h.toProceeds with
    finished := h.finished
    rank := h.rank
    missing := h.missing
    kept := h.kept.mono fun n hn _ => hn.imp_left fun hn => mem_trees_iff_children.2 (.inr hn)
    ready := ⟨h.ready.upright, h.ready.estate, .of_apart (h.trees id hw.lot.forest)
      (fun n hn => ?_) (fun n hn => ?_) fun d hd => Set.disjoint_left.2 fun n hn hn' => ?_⟩ }⟩
  · rcases hmem.1 hn with rfl | hn
    · exact hlt.trans_le h.toBranches.size
    · exact h.ready.lot.inTable n hn
  · rcases hmem.1 hn with rfl | hn
    · rw [hroot, hsame.builtins]
      exact hw.lot.fits n hid
    · exact h.ready.lot.fits n hn
  · rcases hmem.1 hn with rfl | hn
    · rw [hsame.bodyRoots] at hn'
      rcases h.toBranches.trees_or hn' with hn' | hnew
      · exact Set.disjoint_left.1 (hw.lot.apart d hd) hid hn'
      · exact Nat.not_le.2 hlt hnew
    · exact Set.disjoint_left.1 (h.ready.lot.apart d hd) hn hn'

/-! ## Fixed types -/

/-- Types that are fixed in the end were so all along. -/
theorem Passes.steadfast (h : P.Passes k ids w w') (hw : P.Ready k ids w)
    (hs : P.Steadfast w'.unit k) : P.Steadfast w.unit k := by
  intro d hd ty hty
  by_cases hmem : d ∈ w.finished
  · rw [← hs d hd ty hty]
    exact (h.toBranches.toSameProgram.definitionType fun _ b hb => h.body_kept hw hd (.inl hmem) b
      (w.unit.mem_trees_self (Arena.mem_bodyRoots hb))).symm
  · exact hw.estate.fixed d hd hmem ty hty

/-! ## Lower ranks -/

/-- Trees that use definitions of lower ranks only. -/
theorem Ready.lower (hw : P.Ready k ids w) (hle : k' ≤ k)
    (hfits : ∀ n ∈ w.unit.trees ids, P.Fits w.unit.builtins k' (w.unit.arena.expr n)) :
    P.Ready k' ids w :=
  ⟨hw.upright, hw.estate.mono hle fun _ => id,
    ⟨hw.lot.forest, hw.lot.inTable, hfits, fun d hd => hw.lot.free d (hd.trans_le hle)⟩,
    fun d hd => hw.lot.apart d (hd.trans_le hle)⟩

/-- **A body of a higher rank** is left alone by a walk among lower ones. -/
theorem Passes.kept_above (h : P.Passes k' ids w w') (hw : P.Estate w.unit finished k)
    (hle : k' ≤ k) (hd : P.rank d < k) (hrank : k' ≤ P.rank d)
    (hids : Disjoint (w.unit.trees ids) (w.unit.trees (w.unit.arena.bodyRoots d))) :
    ∀ n ∈ w.unit.trees (w.unit.arena.bodyRoots d),
      w'.unit.arena.expr n = w.unit.arena.expr n := by
  intro n hn
  refine h.kept.expr n ((hw.plot d hd).inTable n hn) ?_
  rintro (hmem | ⟨e, he, hnew, hmem⟩)
  · exact Set.disjoint_left.1 hids hmem hn
  · have hlt := h.rank e he hnew
    have hne : e ≠ d := by
      rintro rfl
      exact hrank.not_gt hlt
    exact Set.disjoint_left.1 (hw.apart e d (hlt.trans_le hle) hd hne) hmem hn

/-- **A walk among lower ranks** is one among higher ones, whose bodies it leaves alone. -/
theorem Passes.mono (h : P.Passes k' ids w w') (hw : P.Ready k ids w) (hle : k' ≤ k) :
    P.Passes k ids w w' := by
  have hsame : w.unit.SameProgram w'.unit := h.toBranches.toSameProgram
  have hkept (d : DefId) (hd : P.rank d < k) (hrank : ¬ P.rank d < k') :=
    h.kept_above hw.estate hle hd (Nat.not_lt.1 hrank) (hw.lot.apart d hd)
  have hestate : P.Estate w'.unit w'.finished k :=
    hw.estate.of_part h.toBranches (fun d => P.rank d < k') hkept h.ready.estate.plot
      (fun d e hd he => h.ready.estate.apart d e hd he) h.ready.estate.fixed
      h.ready.estate.function fun _ _ hnew hmem => hnew (h.finished hmem)
  have hlot : P.Lot w'.unit k ids :=
    .of_apart h.ready.lot.forest h.ready.lot.inTable
      (fun n hn => (h.ready.lot.fits n hn).mono hle) fun d hd => by
      by_cases hrank : P.rank d < k'
      · exact h.ready.lot.apart d hrank
      · rw [hsame.bodyRoots]
        exact h.toBranches.disjoint_trees (fun n hn => hw.mem_lt hd hn) (hkept d hd hrank)
          (hw.lot.apart d hd)
  exact { h.toProceeds with
    finished := h.finished
    rank := fun d hd hnew => (h.rank d hd hnew).trans_le hle
    missing := h.missing
    kept := h.kept
    ready := ⟨h.ready.upright, hestate, hlot⟩ }

/-! ## Walks of bodies -/

/-- The trees of a body are ready to be walked before it is finished. -/
theorem Ready.ofBody (hw : P.Ready k ids w) (hd : P.rank d < k)
    (hfinished : w.finished ⊆ finished) :
    P.Ready (P.rank d) (w.unit.arena.bodyRoots d) ⟨w.unit, finished⟩ :=
  ⟨hw.upright, hw.estate.mono hd.le hfinished, hw.estate.plot d hd, fun e he =>
    hw.estate.apart d e hd (he.trans hd) fun heq => he.ne (heq ▸ rfl)⟩

/-- The bodies after one of them was walked. -/
theorem Estate.body (hw : P.Estate w.unit w.finished k) (hd : P.rank d < k)
    (hfinished : w.finished ⊆ finished)
    (h : P.Passes (P.rank d) (w.unit.arena.bodyRoots d) ⟨w.unit, finished⟩ w₁)
    (hend : ∀ e, e ∈ finished' ↔ e = d ∨ e ∈ w₁.finished) : P.Estate w₁.unit finished' k := by
  have hsame : w.unit.SameProgram w₁.unit := h.toBranches.toSameProgram
  have hapart {e : DefId} (he : P.rank e < P.rank d) :
      Disjoint (w₁.unit.trees (w₁.unit.arena.bodyRoots d))
        (w₁.unit.trees (w₁.unit.arena.bodyRoots e)) := by
    rw [hsame.bodyRoots d]
    exact h.ready.lot.apart e he
  -- The walk can reach the body itself and those of lower ranks.
  refine hw.of_part h.toBranches (fun e => e = d ∨ P.rank e < P.rank d) (fun e he hch => ?_)
    ?_ ?_ ?_ ?_ fun e _ hnew hmem => hnew ((hend e).2 (.inr (h.finished (hfinished hmem))))
  · rw [not_or, Nat.not_lt] at hch
    exact h.kept_above hw hd.le he hch.2 (hw.apart d e hd he (Ne.symm hch.1))
  · rintro e (rfl | he)
    · rw [hsame.bodyRoots]
      exact h.ready.lot.toPlot
    · exact h.ready.estate.plot e he
  · rintro e f (rfl | he) (rfl | hf) hne
    · exact absurd rfl hne
    · exact hapart hf
    · exact (hapart he).symm
    · exact h.ready.estate.apart e f he hf hne
  all_goals
    intro e he hnew
    rw [hend, not_or] at hnew
    replace he := he.resolve_left hnew.1
  · exact h.ready.estate.fixed e he hnew.2
  · exact h.ready.estate.function e he hnew.2

/-- **The walk of a body**, which is finished before or after it, leaves the trees alone from which
it was entered. -/
theorem Ready.body (hw : P.Ready k ids w) (hd : P.rank d < k) (hnew : d ∉ w.finished)
    (hfinished : w.finished ⊆ finished) (hstart : ∀ e ∈ finished, e = d ∨ e ∈ w.finished)
    (h : P.Passes (P.rank d) (w.unit.arena.bodyRoots d) ⟨w.unit, finished⟩ w₁)
    (hend : ∀ e, e ∈ finished' ↔ e = d ∨ e ∈ w₁.finished) :
    P.Passes k ids w ⟨w₁.unit, finished'⟩ := by
  have hids : ∀ n ∈ w.unit.trees ids, w₁.unit.arena.expr n = w.unit.arena.expr n := by
    intro n hn
    refine h.kept.expr n (hw.lot.inTable n hn) ?_
    rintro (hmem | ⟨e, he, hne, hmem⟩)
    · exact Set.disjoint_left.1 (hw.lot.apart d hd) hn hmem
    · exact Set.disjoint_left.1 (hw.lot.apart e ((h.rank e he hne).trans hd)) hn hmem
  have hproceeds : w.unit.Proceeds w₁.unit := h.toProceeds
  have hestate : P.Estate w₁.unit finished' k := hw.estate.body hd hfinished h hend
  obtain ⟨-, hlot⟩ := hw.lot.of_kept hproceeds hids
  refine { h.toProceeds with
    finished := fun e he => (hend e).2 (.inr (h.finished (hfinished he)))
    rank := fun e he hlate => ?_
    missing := h.missing
    kept := h.kept.mono fun n hn _ => ?_
    ready := ⟨h.ready.upright, hestate, hlot⟩ }
  · rcases (hend e).1 he with rfl | he
    · exact hd
    · by_cases hmem : e ∈ finished
      · rcases hstart e hmem with rfl | hmem
        · exact hd
        · exact absurd hmem hlate
      · exact (h.rank e he hmem).trans hd
  · rcases hn with hn | ⟨e, he, hne, hn⟩
    · exact .inr ⟨d, (hend d).2 (.inl rfl), hnew, hn⟩
    · exact .inr ⟨e, (hend e).2 (.inr he), fun hmem => hne (hfinished hmem), hn⟩

end Prospect

end Termwise
