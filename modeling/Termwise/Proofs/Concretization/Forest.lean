import Mathlib.Data.List.Nodup
import Mathlib.Data.List.Perm.Subperm
import Mathlib.Logic.Relation
import Termwise.Proofs.Run.Steady

/-!
# Trees whose nodes are not shared

A list of expressions spans a forest if every expression below them lies below one of them only,
and on one path. The nodes are listed from the roots down, left to right; that none is shared is
that the list has no duplicates. There is no cycle in a forest, so it is taken apart by induction.

## Main definitions

* `Arena.Forest`: the nodes of the trees below some expressions

## Main results

* `Arena.Forest.congr`: a forest is one as long as its nodes have the same children
* `Arena.Forest.sublist`: some of the trees of a forest
-/

namespace Termwise

namespace Arena

/-- The trees below some expressions have these nodes, once for every path. -/
inductive Forest (a : Arena) : (roots nodes : List ExprId) → Prop where
  | nil : Forest a [] []
  | cons {id : ExprId} {ids below rest : List ExprId}
    (hbelow : Forest a (a.expr id).kind.children below) (hrest : Forest a ids rest) :
    Forest a (id :: ids) (id :: (below ++ rest))

namespace Forest

variable {a a' : Arena} {id n m : ExprId} {ids ids' xs xs' below rest : List ExprId}

theorem eq_nil (h : a.Forest [] xs) : xs = [] := by
  cases h
  rfl

/-- The first tree and the others. -/
theorem exists_cons (h : a.Forest (id :: ids) xs) :
    ∃ below rest, xs = id :: (below ++ rest) ∧ a.Forest (a.expr id).kind.children below ∧
      a.Forest ids rest := by
  cases h with
  | cons hbelow hrest => exact ⟨_, _, rfl, hbelow, hrest⟩

/-- A single tree. -/
theorem exists_tree (h : a.Forest [id] xs) :
    ∃ below, xs = id :: below ∧ a.Forest (a.expr id).kind.children below := by
  obtain ⟨below, rest, rfl, hbelow, hrest⟩ := h.exists_cons
  rw [hrest.eq_nil, List.append_nil]
  exact ⟨below, rfl, hbelow⟩

theorem tree (h : a.Forest (a.expr id).kind.children below) : a.Forest [id] (id :: below) := by
  have := Forest.cons h .nil
  rwa [List.append_nil] at this

/-- A tree with nothing below its root. -/
theorem leaf (h : (a.expr id).kind.children = []) : a.Forest [id] [id] := by
  refine tree ?_
  rw [h]
  exact .nil

/-- Some of the trees and the others. -/
theorem exists_append (h : a.Forest (ids ++ ids') xs) :
    ∃ ys zs, xs = ys ++ zs ∧ a.Forest ids ys ∧ a.Forest ids' zs := by
  induction ids generalizing xs with
  | nil => exact ⟨[], xs, rfl, .nil, h⟩
  | cons id ids ih =>
    obtain ⟨below, rest, rfl, hbelow, hrest⟩ := exists_cons h
    obtain ⟨ys, zs, rfl, hys, hzs⟩ := ih hrest
    exact ⟨id :: (below ++ ys), zs, by simp, .cons hbelow hys, hzs⟩

/-- Two trees. -/
theorem exists_pair (h : a.Forest [n, m] xs) :
    ∃ ys zs, xs = ys ++ zs ∧ a.Forest [n] ys ∧ a.Forest [m] zs :=
  exists_append (show a.Forest ([n] ++ [m]) xs from h)

theorem append (h : a.Forest ids xs) (h' : a.Forest ids' xs') :
    a.Forest (ids ++ ids') (xs ++ xs') := by
  induction h with
  | nil => exact h'
  | cons hbelow _ _ ih =>
    rw [List.cons_append, List.cons_append, List.append_assoc]
    exact .cons hbelow ih

theorem roots_sublist (h : a.Forest ids xs) : ids.Sublist xs := by
  induction h with
  | nil => exact .slnil
  | cons _ _ _ ih => exact (ih.trans (List.sublist_append_right _ _)).cons_cons _

theorem children_sublist (h : a.Forest ids xs) (hn : n ∈ xs) :
    (a.expr n).kind.children.Sublist xs := by
  induction h with
  | nil => cases hn
  | cons hbelow _ ihbelow ihrest =>
    rcases List.mem_cons.1 hn with rfl | hn
    · exact (hbelow.roots_sublist.trans (List.sublist_append_left _ _)).cons _
    · rcases List.mem_append.1 hn with hn | hn
      · exact ((ihbelow hn).trans (List.sublist_append_left _ _)).cons _
      · exact ((ihrest hn).trans (List.sublist_append_right _ _)).cons _

theorem subset (h : a.Forest ids xs) : ids ⊆ xs := h.roots_sublist.subset

/-- All that lies below a node of the forest is one of its nodes. -/
theorem children_subset (h : a.Forest ids xs) (hn : n ∈ xs) : (a.expr n).kind.children ⊆ xs :=
  (h.children_sublist hn).subset

/-- Every node of the forest lies below a root. -/
theorem exists_root (h : a.Forest ids xs) (hn : n ∈ xs) :
    ∃ id ∈ ids, Relation.ReflTransGen (fun n m => m ∈ (a.expr n).kind.children) id n := by
  induction h with
  | nil => cases hn
  | @cons id ids below rest _ _ ihbelow ihrest =>
    rcases List.mem_cons.1 hn with rfl | hn
    · exact ⟨n, List.mem_cons_self, .refl⟩
    · rcases List.mem_append.1 hn with hn | hn
      · obtain ⟨m, hm, hpath⟩ := ihbelow hn
        exact ⟨id, List.mem_cons_self, hpath.head hm⟩
      · obtain ⟨m, hm, hpath⟩ := ihrest hn
        exact ⟨m, List.mem_cons_of_mem _ hm, hpath⟩

theorem mem_of_reaches (h : a.Forest ids xs) (hn : n ∈ xs)
    (hm : Relation.ReflTransGen (fun n m => m ∈ (a.expr n).kind.children) n m) : m ∈ xs := by
  induction hm with
  | refl => exact hn
  | tail _ hm ih => exact h.children_subset ih hm

/-- There is no cycle in a forest. -/
theorem acc (h : a.Forest ids xs) :
    ∀ n ∈ xs, Acc (fun m n => m ∈ (a.expr n).kind.children) n := by
  induction h with
  | nil => simp
  | cons hbelow _ ihbelow ihrest =>
    refine List.forall_mem_cons.2 ⟨⟨_, fun m hm => ihbelow m (hbelow.subset hm)⟩, ?_⟩
    exact List.forall_mem_append.2 ⟨ihbelow, ihrest⟩

/-! ## Parents -/

/-- A root lies below no node. -/
theorem not_mem_children (h : a.Forest ids xs) (hnodup : xs.Nodup) (hn : n ∈ xs) (hm : m ∈ ids) :
    m ∉ (a.expr n).kind.children := by
  induction h with
  | nil => cases hn
  | @cons id ids below rest hbelow hrest _ ihrest =>
    obtain ⟨hid, hnodup⟩ := List.nodup_cons.1 hnodup
    obtain ⟨-, hnodup, hdisjoint⟩ := List.nodup_append'.1 hnodup
    intro hchild
    -- Whatever lies below a node of the first tree is one of its nodes, and not its root.
    have hmem (hchild : m ∈ below) : False := by
      rcases List.mem_cons.1 hm with rfl | hm
      · exact hid (List.mem_append_left _ hchild)
      · exact hdisjoint hchild (hrest.subset hm)
    rcases List.mem_cons.1 hn with rfl | hn
    · exact hmem (hbelow.subset hchild)
    · rcases List.mem_append.1 hn with hbel | hres
      · exact hmem (hbelow.children_subset hbel hchild)
      · rcases List.mem_cons.1 hm with rfl | hm
        · exact hid (List.mem_append_right _ (hrest.children_subset hres hchild))
        · exact ihrest hnodup hres hm hchild

/-- A node lies below one node only. -/
theorem parent_unique (h : a.Forest ids xs) (hnodup : xs.Nodup) {n' : ExprId} (hn : n ∈ xs)
    (hn' : n' ∈ xs) (hm : m ∈ (a.expr n).kind.children) (hm' : m ∈ (a.expr n').kind.children) :
    n = n' := by
  induction h with
  | nil => cases hn
  | @cons id ids below rest hbelow hrest ihbelow ihrest =>
    obtain ⟨-, hnodup⟩ := List.nodup_cons.1 hnodup
    obtain ⟨hnodup₁, hnodup₂, hdisjoint⟩ := List.nodup_append'.1 hnodup
    have hroot {k : ExprId} (hk : k ∈ below ++ rest) (hmk : m ∈ (a.expr k).kind.children) :
        m ∉ (a.expr id).kind.children := by
      rcases List.mem_append.1 hk with hk | hk
      · exact fun hmid => hbelow.not_mem_children hnodup₁ hk hmid hmk
      · exact fun hmid => hdisjoint (hbelow.subset hmid) (hrest.children_subset hk hmk)
    rcases List.mem_cons.1 hn with heq | hn <;> rcases List.mem_cons.1 hn' with heq' | hn'
    · exact heq.trans heq'.symm
    · exact (hroot hn' hm' (heq ▸ hm)).elim
    · exact (hroot hn hm (heq' ▸ hm')).elim
    · rcases List.mem_append.1 hn with hn | hn <;> rcases List.mem_append.1 hn' with hn' | hn'
      · exact ihbelow hnodup₁ hn hn'
      · exact (hdisjoint (hbelow.children_subset hn hm) (hrest.children_subset hn' hm')).elim
      · exact (hdisjoint (hbelow.children_subset hn' hm') (hrest.children_subset hn hm)).elim
      · exact ihrest hnodup₂ hn hn'

/-- **A forest** is one as long as its nodes have the same children. -/
theorem congr (h : a.Forest ids xs)
    (hxs : ∀ n ∈ xs, (a'.expr n).kind.children = (a.expr n).kind.children) : a'.Forest ids xs := by
  induction h with
  | nil => exact .nil
  | cons _ _ ihbelow ihrest =>
    obtain ⟨hid, hxs⟩ := List.forall_mem_cons.1 hxs
    obtain ⟨hbelow, hrest⟩ := List.forall_mem_append.1 hxs
    refine .cons ?_ (ihrest hrest)
    rw [hid]
    exact ihbelow hbelow

/-- Some of the trees of a forest. -/
theorem sublist (h : a.Forest ids xs) (hids : ids'.Sublist ids) :
    ∃ xs', xs'.Sublist xs ∧ a.Forest ids' xs' := by
  induction hids generalizing xs with
  | slnil => exact ⟨[], List.nil_sublist xs, .nil⟩
  | cons id _ ih =>
    obtain ⟨below, rest, rfl, -, hrest⟩ := h.exists_cons
    obtain ⟨xs', hsub, h'⟩ := ih hrest
    exact ⟨xs', (hsub.trans (List.sublist_append_right below rest)).cons id, h'⟩
  | cons_cons id _ ih =>
    obtain ⟨below, rest, rfl, hbelow, hrest⟩ := h.exists_cons
    obtain ⟨xs', hsub, h'⟩ := ih hrest
    exact ⟨_, (hsub.append_left below).cons_cons id, .cons hbelow h'⟩

/-- A tree has no more nodes than the table, if it shares none. -/
theorem length_le (hnodup : xs.Nodup) (hxs : ∀ n ∈ xs, n.index < a.exprs.size) :
    xs.length ≤ a.exprs.size := by
  have hmap : (xs.map ExprId.index).Nodup := hnodup.map fun _ _ => ExprId.ext
  have hsub : xs.map ExprId.index ⊆ List.range a.exprs.size := by
    intro i hi
    obtain ⟨n, hn, rfl⟩ := List.mem_map.1 hi
    exact List.mem_range.2 (hxs n hn)
  simpa using (hmap.subperm hsub).length_le

end Forest

end Arena

end Termwise
