import Termwise.Proofs.Concretization.Upkeep
import Termwise.Proofs.Concretization.Widening

/-!
# Trees beside a region

The tree that is being walked lies outside of the region that its definitions lead to: the bodies,
and all that will be appended. The walk goes back and forth between the two. A body is walked
within the region and leaves the tree alone; a use in the tree takes a copy of a body, whose nodes
were part of the region until then and belong to the tree from there on; a call is typed within the
tree and leaves the region alone. Trees that share nothing are walked one after the other, each
within what the others left of the region.

## Main definitions

* `Compilation.Grove`: well-built trees beside a sturdy region
* `Compilation.Confined`: some trees and the region changed, and nothing else

## Main results

* `Grove.of_agrees`: trees stand as long as nothing changes in them
* `Grove.trends`: what changes expressions of the trees only
* `Replaced.grove`: a replaced use takes its tree from the region
-/

namespace Termwise

open Compilation

/-- Some expressions, as places. -/
def Place.exprs (xs : List ExprId) : Set Place := { p | ∃ n ∈ xs, p = .expr n }

/-- Trees of well-built expressions, which share nothing, beside a region that holds whatever the
trees lead to. -/
structure Compilation.Grove (c : Compilation) (R : Set Place) (ids xs : List ExprId) : Prop
    extends Maintained c R where
  forest : c.arena.Forest ids xs
  nodup : xs.Nodup
  outside : ∀ n ∈ xs, .expr n ∉ R
  node : ∀ n ∈ xs, c.Built (c.arena.expr n)
  uses : ∀ n ∈ xs, ∀ d, (c.arena.expr n).kind.LeadsTo c.builtins (.definition d) →
    .definition d ∈ R

/-- Only some trees and the region beside them changed. The trees may have grown, but only out of
the region. -/
structure Compilation.Confined (R R' : Set Place) (xs xs' : List ExprId) (c c' : Compilation) : Prop
    extends SameProgram c c' where
  region : R' ⊆ R
  definition : ∀ d, .definition d ∈ R → .definition d ∈ R'
  mem : ∀ n ∈ xs', n ∈ xs ∨ .expr n ∈ R
  kept : ∀ n ∉ xs, .expr n ∉ R → c'.arena.expr n = c.arena.expr n

variable {c c' c'' : Compilation} {settings : Settings} {R R' R'' : Set Place} {id n : ExprId}
  {d : DefId} {ids ids' xs xs' xs'' ys ys' : List ExprId} {active : List DefId}

theorem Place.mem_exprs (R : Set Place) (hn : n ∈ xs) : Place.expr n ∈ R ∪ exprs xs :=
  .inr ⟨n, hn, rfl⟩

namespace Compilation

/-! ## Confined changes -/

theorem Confined.refl (R : Set Place) (xs : List ExprId) (c : Compilation) :
    Confined R R xs xs c c :=
  ⟨.refl c, subset_rfl, fun _ => id, fun _ => .inl, fun _ _ _ => rfl⟩

theorem Confined.trans (h : Confined R R' xs xs' c c') (h' : Confined R' R'' xs' xs'' c' c'') :
    Confined R R'' xs xs'' c c'' where
  toSameProgram := h.toSameProgram.trans h'.toSameProgram
  region := h'.region.trans h.region
  definition d hd := h'.definition d (h.definition d hd)
  mem n hn := (h'.mem n hn).elim (h.mem n) fun hR => .inr (h.region hR)
  kept n hn hR := by
    rw [h'.kept n (fun hmem => (h.mem n hmem).elim hn hR) fun hR' => hR (h.region hR')]
    exact h.kept n hn hR

/-- Trees beside each other change one after the other. -/
theorem Confined.append (h : Confined R R' xs xs' c c') (h' : Confined R' R'' ys ys' c' c'') :
    Confined R R'' (xs ++ ys) (xs' ++ ys') c c'' where
  toSameProgram := h.toSameProgram.trans h'.toSameProgram
  region := h'.region.trans h.region
  definition d hd := h'.definition d (h.definition d hd)
  mem n hn := by
    rcases List.mem_append.1 hn with hn | hn
    · exact (h.mem n hn).imp_left (List.mem_append_left _)
    · exact (h'.mem n hn).imp (List.mem_append_right _) (h.region ·)
  kept n hn hR := by
    rw [List.mem_append, not_or] at hn
    rw [h'.kept n hn.2 fun hR' => hR (h.region hR'), h.kept n hn.1 hR]

/-- Whatever changes below a root changes at or below it. -/
theorem Confined.cons (h : Confined R R' xs xs' c c') (id : ExprId) :
    Confined R R' (id :: xs) (id :: xs') c c' :=
  (Confined.refl R [id] c).append h

/-- What lies beside the trees and the region is as it was. -/
theorem Confined.agrees (h : Confined R R' xs xs' c c') (hys : ∀ n ∈ ys, .expr n ∉ R)
    (hdisjoint : xs.Disjoint ys) : c.Agrees ys c' :=
  ⟨h.toSameProgram, fun n hn => h.kept n (fun hn' => hdisjoint hn' hn) (hys n hn)⟩

/-- What grew out of the region is disjoint from what lies beside it. -/
theorem Confined.disjoint (h : Confined R R' xs xs' c c') (hys : ∀ n ∈ ys, .expr n ∉ R)
    (hdisjoint : xs.Disjoint ys) : xs'.Disjoint ys :=
  fun n hn hn' => (h.mem n hn).elim (hdisjoint · hn') (hys n hn')

theorem Roams.confined (h : c.Roams R c') (xs : List ExprId) : Confined R R xs xs c c' :=
  ⟨h.toSameProgram, subset_rfl, fun _ => id, fun _ => .inl, fun n _ => h.outside n⟩

/-! ## Parts of groves -/

theorem Grove.lt_size (h : c.Grove R ids xs) (hn : n ∈ xs) : n.index < c.arena.exprs.size :=
  Nat.lt_of_not_le fun hle => h.outside n hn (h.fresh n hle)

theorem Grove.sublist (h : c.Grove R ids xs) (hforest : c.arena.Forest ids' ys)
    (hsub : ys.Sublist xs) : c.Grove R ids' ys where
  toMaintained := h.toMaintained
  forest := hforest
  nodup := h.nodup.sublist hsub
  outside n hn := h.outside n (hsub.subset hn)
  node n hn := h.node n (hsub.subset hn)
  uses n hn := h.uses n (hsub.subset hn)

/-- The first tree and the others. -/
theorem Grove.exists_cons (h : c.Grove R (id :: ids) xs) : ∃ ys zs, xs = ys ++ zs ∧
    ys.Disjoint zs ∧ c.Grove R [id] ys ∧ c.Grove R ids zs := by
  obtain ⟨below, rest, rfl, hbelow, hrest⟩ := h.forest.exists_cons
  rw [← List.cons_append] at h
  exact ⟨_, rest, rfl, (List.nodup_append'.1 h.nodup).2.2,
    h.sublist hbelow.tree (List.sublist_append_left _ _),
    h.sublist hrest (List.sublist_append_right _ _)⟩

theorem Grove.append (h : c.Grove R ids xs) (h' : c.Grove R ids' ys) (hdisjoint : xs.Disjoint ys) :
    c.Grove R (ids ++ ids') (xs ++ ys) where
  toMaintained := h.toMaintained
  forest := h.forest.append h'.forest
  nodup := List.nodup_append'.2 ⟨h.nodup, h'.nodup, hdisjoint⟩
  outside := List.forall_mem_append.2 ⟨h.outside, h'.outside⟩
  node := List.forall_mem_append.2 ⟨h.node, h'.node⟩
  uses := List.forall_mem_append.2 ⟨h.uses, h'.uses⟩

/-- The root of a tree and what lies below it. -/
theorem Grove.exists_tree (h : c.Grove R [id] xs) : ∃ below, xs = id :: below ∧ id ∉ below ∧
    c.Grove R (c.arena.expr id).kind.children below := by
  obtain ⟨below, rfl, hbelow⟩ := h.forest.exists_tree
  exact ⟨below, rfl, (List.nodup_cons.1 h.nodup).1,
    h.sublist hbelow (List.sublist_cons_self id below)⟩

/-- A tree with nothing below its root. -/
theorem Grove.eq_singleton (h : c.Grove R [id] xs) (hnil : (c.arena.expr id).kind.children = []) :
    xs = [id] := by
  obtain ⟨below, rfl, -, hbelow⟩ := h.exists_tree
  rw [hnil] at hbelow
  rw [hbelow.forest.eq_nil]

/-- A root over what lies below it. -/
theorem Grove.tree (h : c.Grove R (c.arena.expr id).kind.children xs) (hid : id ∉ xs)
    (houtside : .expr id ∉ R) (hbuilt : c.Built (c.arena.expr id))
    (huses : ∀ d, (c.arena.expr id).kind.LeadsTo c.builtins (.definition d) → .definition d ∈ R) :
    c.Grove R [id] (id :: xs) where
  toMaintained := h.toMaintained
  forest := h.forest.tree
  nodup := List.nodup_cons.2 ⟨hid, h.nodup⟩
  outside := List.forall_mem_cons.2 ⟨houtside, h.outside⟩
  node := List.forall_mem_cons.2 ⟨hbuilt, h.node⟩
  uses := List.forall_mem_cons.2 ⟨huses, h.uses⟩

/-! ## What leaves a grove as it is -/

/-- **A grove** stands as long as nothing changes in its trees, next to less of its region. -/
theorem Grove.of_agrees (h : c.Grove R ids xs) (hagrees : c.Agrees xs c')
    (hmaintained : c'.Maintained R') (hregion : R' ⊆ R)
    (hdefinition : ∀ d, .definition d ∈ R → .definition d ∈ R') : c'.Grove R' ids xs where
  toMaintained := hmaintained
  forest := hagrees.forest h.forest
  nodup := h.nodup
  outside n hn hR := h.outside n hn (hregion hR)
  node n hn := by
    rw [hagrees.expr n hn]
    exact hagrees.toSameProgram.built (h.node n hn)
  uses n hn d hd := by
    rw [hagrees.expr n hn, hagrees.builtins] at hd
    exact hdefinition d (h.uses n hn d hd)

theorem Grove.agrees_of_upkeeps (h : c.Grove R ids xs) (h' : c.Upkeeps R active c') :
    c.Agrees xs c' :=
  ⟨h'.toSameProgram, fun n hn => h'.outside n (h.outside n hn)⟩

/-- The walk of the region leaves the trees beside it alone. -/
theorem Grove.upkeeps (h : c.Grove R ids xs) (h' : c.Upkeeps R active c') : c'.Grove R ids xs :=
  h.of_agrees (h.agrees_of_upkeeps h') (h'.maintained h.toMaintained) subset_rfl fun _ => id

/-! ## Changes in a grove -/

/-- The trees and the region lead nowhere else. -/
theorem Grove.closed (h : c.Grove R ids xs) : c.Closed (R ∪ Place.exprs xs) where
  onward p hp q ho := by
    rcases hp with hp | ⟨n, hn, rfl⟩
    · exact .inl (h.onward p hp q ho)
    · cases ho with
      | expr hq =>
        cases q with
        | expr m => exact .inr ⟨m, h.forest.children_subset hn hq.mem_children, rfl⟩
        | definition d => exact .inl (h.uses n hn d hq)
        | statement s =>
          generalize (c.arena.expr n).kind = k at hq
          cases hq
  fresh n hn := .inl (h.fresh n hn)

/-- A region whose expressions are as they were leads to where it did. -/
theorem Onward.of_kept {p q : Place} (ho : c'.Onward p q) (hsame : c.SameProgram c')
    (hexpr : ∀ n, p = .expr n → c'.arena.expr n = c.arena.expr n) : c.Onward p q := by
  cases ho with
  | expr hq => exact .expr (by rwa [hexpr _ rfl, hsame.builtins] at hq)
  | body hb => exact .body (by rwa [← hsame.definition])
  | program hb => exact .program (by rwa [← hsame.definition])
  | shown hk => exact .shown (by rwa [← hsame.stmt])
  | result hk => exact .result (by rwa [← hsame.stmt])
  | bind hk => exact .bind (by rwa [← hsame.stmt])
  | block hk ht => exact .block (by rwa [← hsame.stmt]) ht

/-- **Trees that change** without being replaced stay a grove, if nothing else changes. -/
theorem Grove.trends (h : c.Grove R ids xs) (htrends : c.Trends active c')
    (hroams : c.Roams (R ∪ Place.exprs xs) c')
    (hkept : ∀ n ∉ xs, c'.arena.expr n = c.arena.expr n) :
    c'.Grove R ids xs ∧ Confined R R xs xs c c' := by
  have hregion : ∀ n, .expr n ∈ R → c'.arena.expr n = c.arena.expr n := fun n hn =>
    hkept n fun hmem => h.outside n hmem hn
  refine ⟨{ onward := fun p hp q ho => ?_, fresh := fun n hn => ?_
            toSturdy := htrends.sturdy h.toSturdy
            registered := htrends.toSameProgram.registered h.registered
            forest := h.forest.congr fun n _ => (htrends.expr n).children
            nodup := h.nodup, outside := h.outside
            node := fun n hn => htrends.toSameProgram.built ((htrends.expr n).built (h.node n hn))
            uses := fun n hn d hd => ?_ },
    ⟨htrends.toSameProgram, subset_rfl, fun _ => id, fun _ => .inl, fun n hn _ => hkept n hn⟩⟩
  · exact h.onward p hp q (ho.of_kept htrends.toSameProgram fun n heq => hregion n (heq ▸ hp))
  · exact h.fresh n (htrends.size ▸ hn)
  · rcases (hroams.closed h.closed).leadsTo (Place.mem_exprs R hn) hd with hd | ⟨_, _, heq⟩
    · exact hd
    · cases heq

/-- A change to one expression of the trees. -/
theorem Grove.modifyExpr (h : c.Grove R ids xs) (hid : id ∈ xs) {f : Expression → Expression}
    (htends : c.Tends active (c.arena.expr id) (f (c.arena.expr id)))
    (hf : (f (c.arena.expr id)).kind = (c.arena.expr id).kind ∨
      (f (c.arena.expr id)).kind.isValue = true) :
    (c.modifyArena (·.modifyExpr id f)).Grove R ids xs ∧
      Confined R R xs xs c (c.modifyArena (·.modifyExpr id f)) := by
  have hroams := roams_retouch (f := f) (Place.mem_exprs R hid) hf
  refine h.trends (trends_modifyExpr htends) hroams fun n hn => ?_
  refine Arena.expr_modifyExpr_of_ne ?_ f
  rintro rfl
  exact hn hid

/-! ## Replaced uses -/

/-- What was planted is fresh, so it lies in the region unless it is the root. -/
theorem Planted.fresh (h : c.Planted id xs c') (hc : c.Closed R) (hn : n ∈ xs) : .expr n ∈ R :=
  hc.fresh n ((h.mem n).1 hn).1

/-- What is left of a region without the tree that was planted beside it is still closed. -/
theorem Planted.closed (h : c.Planted id xs c') (hc : c.Maintained R) (hid : .expr id ∉ R) :
    c'.Closed (R \ Place.exprs xs) where
  onward p hp q ho := by
    have ho' : c.Onward p q := by
      refine ho.of_kept h.toSameProgram fun n heq => ?_
      subst heq
      exact h.kept n (fun hn => hp.2 ⟨n, hn, rfl⟩) fun heq => hid (heq ▸ hp.1)
    refine ⟨hc.onward p hp.1 q ho', ?_⟩
    rintro ⟨n, hn, rfl⟩
    exact (hc.inTable p hp.1 n ho').not_ge ((h.mem n).1 hn).1
  fresh n hn := by
    refine ⟨hc.fresh n (h.size.trans hn), ?_⟩
    rintro ⟨m, hm, heq⟩
    cases heq
    exact ((h.mem n).1 hm).2.not_ge hn

/-- **A use that is replaced** takes its tree from the region. -/
theorem Replaced.grove {b : ExprId} (h : c.Replaced id d b c') (hc : c.Grove R [id] [id]) :
    ∃ R' xs', c'.Grove R' [id] xs' ∧ Confined R R' [id] xs' c c' := by
  have hroot := List.mem_singleton_self id
  have hid : Place.expr id ∉ R := hc.outside id hroot
  obtain ⟨xs, hp⟩ := h.planted hc.toMaintained (hc.uses id hroot d (.use h.definition?))
  have hmaintained : c'.Maintained (R \ Place.exprs xs) :=
    { toClosed := hp.closed hc.toMaintained hid
      toSturdy := (hp.sturdy hc.toMaintained).mono Set.sdiff_subset
      registered := hp.toSameProgram.registered hc.registered }
  have hdefinition (d : DefId) (hd : .definition d ∈ R) : .definition d ∈ R \ Place.exprs xs :=
    ⟨hd, fun ⟨_, _, heq⟩ => by cases heq⟩
  -- The copy leads to where the region does.
  have huses : ∀ n ∈ id :: xs, ∀ d, (c'.arena.expr n).kind.LeadsTo c'.builtins (.definition d) →
      .definition d ∈ R \ Place.exprs xs := by
    intro n hn d hd
    have hn : Place.expr n ∈ R ∪ Place.exprs [id] := by
      rcases List.mem_cons.1 hn with rfl | hn
      · exact Place.mem_exprs R hroot
      · exact .inl (hp.fresh hc.toClosed hn)
    have hclosed : c'.Closed (R ∪ Place.exprs [id]) :=
      (h.roams hc.closed (Place.mem_exprs R hroot)).closed hc.closed
    rcases hclosed.leadsTo hn hd with hd | ⟨_, _, heq⟩
    · exact hdefinition d hd
    · cases heq
  have hnotin : id ∉ xs := fun hn => hid (hp.fresh hc.toClosed hn)
  refine ⟨R \ Place.exprs xs, id :: xs,
    { toMaintained := hmaintained, forest := hp.forest.tree
      nodup := List.nodup_cons.2 ⟨hnotin, hp.nodup⟩
      outside := List.forall_mem_cons.2 ⟨fun hn => hid hn.1, fun n hn hn' => hn'.2 ⟨n, hn, rfl⟩⟩
      node := List.forall_mem_cons.2 ⟨hp.root, hp.each⟩
      uses := huses },
    ⟨hp.toSameProgram, Set.sdiff_subset, hdefinition, fun n hn => ?_, fun n hn hnR => ?_⟩⟩
  · rcases List.mem_cons.1 hn with rfl | hn
    · exact .inl hroot
    · exact .inr (hp.fresh hc.toClosed hn)
  · refine hp.kept n (fun hmem => hnR (hp.fresh hc.toClosed hmem)) fun heq => ?_
    exact hn (heq ▸ hroot)

end Compilation

end Termwise
