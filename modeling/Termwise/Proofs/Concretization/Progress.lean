import Termwise.Proofs.Wellformedness

/-!
# What a walk leaves behind it

A walk keeps what lies below an expression, or puts a tree of new nodes below one that had nothing
there. Trees stay trees, so whatever was appended is one. As long as no body is walked on the way,
more can be said of what a walk leaves behind: it changed nothing beside what it walked, it left no
minus sign there, and it left none elsewhere that was not there before.

## Main definitions

* `Compilation.IsTree`: no two paths below an expression meet
* `Compilation.Clear`: no minus sign waits at or below an expression
* `Compilation.Proceeds`: what a walk does to the expressions
* `Compilation.Combed`: what a walk that walks no body leaves behind

## Main results

* `Grafted.proceeds`: what a replaced use does to the expressions
* `Combed.node`, `Combed.cons`: a call is combed after its arguments, and those one after the other
* `Grafted.combed`: a replaced use is combed after its tree
-/

namespace Termwise

open Compilation

/-! ## Grafts -/

namespace Arena.Forest

variable {a a' : Arena} {id n : ExprId} {ids xs ys : List ExprId}

/-- A node of a forest is the root of a tree in it. -/
theorem exists_subtree (h : a.Forest ids xs) (hn : n ∈ xs) :
    ∃ ys, a.Forest [n] ys ∧ ys.Sublist xs := by
  induction h with
  | nil => cases hn
  | @cons id ids below rest hbelow hrest ihbelow ihrest =>
    rcases List.mem_cons.1 hn with rfl | hn
    · exact ⟨n :: below, hbelow.tree, (List.sublist_append_left below rest).cons_cons n⟩
    · rcases List.mem_append.1 hn with hn | hn
      · obtain ⟨ys, htree, hsub⟩ := ihbelow hn
        exact ⟨ys, htree, (hsub.trans (List.sublist_append_left below rest)).cons id⟩
      · obtain ⟨ys, htree, hsub⟩ := ihrest hn
        exact ⟨ys, htree, (hsub.trans (List.sublist_append_right below rest)).cons id⟩

/-- **A tree is put** at the place of a node. -/
theorem graft (h : a.Forest ids xs) (hnodup : xs.Nodup) (hdisjoint : xs.Disjoint ys)
    (htree : a'.Forest (a'.expr id).kind.children ys) (hys : ys.Nodup)
    (hkept : ∀ n ∈ xs, n ≠ id → (a'.expr n).kind.children = (a.expr n).kind.children) :
    ∃ zs, a'.Forest ids zs ∧ zs.Nodup ∧ ∀ n ∈ zs, n ∈ xs ∨ id ∈ xs ∧ n ∈ ys := by
  induction h with
  | nil => exact ⟨[], .nil, List.nodup_nil, by simp⟩
  | @cons root ids below rest hbelow hrest ihbelow ihrest =>
    obtain ⟨hroot, hnodup⟩ := List.nodup_cons.1 hnodup
    obtain ⟨hnodup₁, hnodup₂, hapart⟩ := List.nodup_append'.1 hnodup
    obtain ⟨hroot', hdisjoint⟩ := List.disjoint_cons_left.1 hdisjoint
    obtain ⟨hdisjoint₁, hdisjoint₂⟩ := List.disjoint_append_left.1 hdisjoint
    obtain ⟨hkeptRoot, hkept⟩ := List.forall_mem_cons.1 hkept
    obtain ⟨hkept₁, hkept₂⟩ := List.forall_mem_append.1 hkept
    obtain ⟨rest', hrest', hnodup', hmem'⟩ := ihrest hnodup₂ hdisjoint₂ hkept₂
    -- The tree of the root: a new one, or what becomes of the old one.
    have hfirst : ∃ below', a'.Forest (a'.expr root).kind.children below' ∧ below'.Nodup ∧
        ∀ n ∈ below', n ∈ below ∨ (id = root ∨ id ∈ below) ∧ n ∈ ys := by
      by_cases heq : root = id
      · exact ⟨ys, heq ▸ htree, hys, fun n hn => .inr ⟨.inl heq.symm, hn⟩⟩
      · obtain ⟨below', hbelow', hnodup'', hmem''⟩ := ihbelow hnodup₁ hdisjoint₁ hkept₁
        rw [← hkeptRoot heq] at hbelow'
        exact ⟨below', hbelow', hnodup'', fun n hn => (hmem'' n hn).imp_right
          fun h => ⟨.inr h.1, h.2⟩⟩
    obtain ⟨below', hbelow', hnodup'', hmem''⟩ := hfirst
    refine ⟨root :: (below' ++ rest'), .cons hbelow' hrest', ?_, ?_⟩
    · refine List.nodup_cons.2 ⟨fun hmem => ?_, List.nodup_append'.2 ⟨hnodup'', hnodup', ?_⟩⟩
      · rcases List.mem_append.1 hmem with hmem | hmem
        · rcases hmem'' root hmem with hmem | ⟨-, hmem⟩
          · exact hroot (List.mem_append_left _ hmem)
          · exact hroot' hmem
        · rcases hmem' root hmem with hmem | ⟨-, hmem⟩
          · exact hroot (List.mem_append_right _ hmem)
          · exact hroot' hmem
      · -- The new tree is put below one of the two only.
        intro n hn hn'
        rcases hmem'' n hn with hn | ⟨hid, hn⟩
        · rcases hmem' n hn' with hn' | ⟨-, hn'⟩
          · exact hapart hn hn'
          · exact hdisjoint₁ hn hn'
        · rcases hmem' n hn' with hn' | ⟨hid', -⟩
          · exact hdisjoint₂ hn' hn
          · rcases hid with rfl | hid
            · exact hroot (List.mem_append_right _ hid')
            · exact hapart hid hid'
    · refine List.forall_mem_cons.2 ⟨.inl List.mem_cons_self,
        List.forall_mem_append.2 ⟨fun n hn => ?_, fun n hn => ?_⟩⟩
      · rcases hmem'' n hn with hn | ⟨hid, hn⟩
        · exact .inl (List.mem_cons_of_mem _ (List.mem_append_left _ hn))
        · refine .inr ⟨?_, hn⟩
          rcases hid with rfl | hid
          · exact List.mem_cons_self
          · exact List.mem_cons_of_mem _ (List.mem_append_left _ hid)
      · rcases hmem' n hn with hn | ⟨hid, hn⟩
        · exact .inl (List.mem_cons_of_mem _ (List.mem_append_right _ hn))
        · exact .inr ⟨List.mem_cons_of_mem _ (List.mem_append_right _ hid), hn⟩

end Arena.Forest

namespace Compilation

variable {c c' c'' : Compilation} {id n m x : ExprId} {ids xs args : List ExprId}

/-! ## Trees -/

/-- **No two paths below an expression meet.** -/
def IsTree (c : Compilation) (n : ExprId) : Prop := ∃ xs, c.arena.Forest [n] xs ∧ xs.Nodup

/-- **No minus sign waits** at or below an expression. -/
def Clear (c : Compilation) (n : ExprId) : Prop :=
  ∀ m, c.Below n m → ∀ x, (c.arena.expr m).kind ≠ .negated x

/-- **What a walk does to the expressions**: it sustains the tables, nothing but new nodes comes to
lie below others, and trees stay trees. -/
structure Proceeds (c c' : Compilation) : Prop extends Sustains c c', Branches c c' where
  trees : ∀ n, c.IsTree n → c'.IsTree n

theorem Proceeds.refl (c : Compilation) : c.Proceeds c :=
  { Sustains.refl c, Branches.refl c with trees := fun _ => id }

theorem Proceeds.trans (h : c.Proceeds c') (h' : c'.Proceeds c'') : c.Proceeds c'' :=
  { h.toSustains.trans h'.toSustains, h.toBranches.trans h'.toBranches with
    trees := fun n hn => h'.trees n (h.trees n hn) }

theorem Proceeds.upright (h : c.Proceeds c') (hc : c.Upright) : c'.Upright :=
  h.toSustains.upright hc

theorem isTree_of_size_le (hn : c.arena.exprs.size ≤ n.index) : c.IsTree n := by
  refine ⟨[n], .leaf ?_, List.nodup_singleton n⟩
  rw [Arena.expr_of_size_le hn]
  rfl

/-- **What was appended** is a tree. -/
theorem Proceeds.isTree (h : c.Proceeds c') (hn : c.arena.exprs.size ≤ n.index) : c'.IsTree n :=
  h.trees n (isTree_of_size_le hn)

theorem Retouches.proceeds (h : c.Retouches c') : c.Proceeds c' :=
  { h.sustains, branches_of_children h.toSameProgram h.trees.size h.trees.children with
    trees := by
      rintro n ⟨xs, hforest, hnodup⟩
      exact ⟨xs, hforest.congr fun m _ => h.trees.children m, hnodup⟩ }

/-- What lies below an expression of the table is in the table. -/
theorem Upright.lt_size_of_below (hc : c.Upright) (hn : n.index < c.arena.exprs.size)
    (hm : c.Below n m) : m.index < c.arena.exprs.size := by
  rcases hm.cases_tail with rfl | ⟨p, -, hm⟩
  · exact hn
  · exact hc.children p m hm

/-- **A replaced use** keeps the trees. -/
theorem Grafted.proceeds (h : c.Grafted id xs c') (hc : c.Upright) : c.Proceeds c' := by
  have hnew (n : ExprId) (hn : n ∈ xs) : c.arena.exprs.size ≤ n.index := ((h.mem n).1 hn).1
  have hnotin : id ∉ xs := fun hid => Nat.not_le.2 h.inTable (hnew id hid)
  refine { h.toSustains with children := fun n => ?_, trees := ?_ }
  · by_cases heq : n = id
    · subst heq
      exact .inr ⟨h.leaf, fun m hm => hnew m (h.forest.subset hm)⟩
    · by_cases hn : n ∈ xs
      · refine .inr ⟨?_, fun m hm => hnew m (h.forest.children_subset hn hm)⟩
        rw [Arena.expr_of_size_le (hnew n hn)]
        rfl
      · exact .inl (congrArg _ (h.kept n hn heq))
  · rintro n ⟨ys, hforest, hnodup⟩
    by_cases hn : n ∈ xs
    · obtain ⟨zs, htree, hsub⟩ := h.forest.exists_subtree hn
      exact ⟨zs, htree, h.nodup.sublist hsub⟩
    · by_cases hlt : n.index < c.arena.exprs.size
      · -- The tree is one of the table, so the new nodes are beside it.
        have hold (m : ExprId) (hm : m ∈ ys) : m.index < c.arena.exprs.size := by
          obtain ⟨root, hroot, hpath⟩ := hforest.exists_root hm
          obtain rfl := List.mem_singleton.1 hroot
          exact hc.lt_size_of_below hlt hpath
        have hdisjoint : ys.Disjoint xs := fun m hm hm' =>
          Nat.not_le.2 (hold m hm) (hnew m hm')
        obtain ⟨zs, htree, hnodup', -⟩ := hforest.graft hnodup hdisjoint h.forest h.nodup
          fun m hm hne => congrArg _ (h.kept m (fun hm' => hdisjoint hm hm') hne)
        exact ⟨zs, htree, hnodup'⟩
      · apply isTree_of_size_le
        by_contra hlt'
        exact hn ((h.mem n).2 ⟨by omega, by omega⟩)

/-! ## Paths -/

theorem Branches.below (h : c.Branches c') (hm : c.Below n m) : c'.Below n m := by
  induction hm with
  | refl => exact .refl
  | tail _ hk ih =>
    refine ih.tail ?_
    rw [h.children_eq (List.ne_nil_of_mem hk)]
    exact hk

/-- Whatever lies below an expression did so before, or it is new. -/
theorem Branches.below_or (h : c.Branches c') (hm : c'.Below n m) :
    c.Below n m ∨ c.arena.exprs.size ≤ m.index := by
  induction hm with
  | refl => exact .inl .refl
  | @tail p m _ hm ih =>
    by_cases hlt : m.index < c.arena.exprs.size
    · have hold := h.mem_children hm hlt
      rcases ih with ih | ih
      · exact .inl (ih.tail hold)
      · rw [Arena.expr_of_size_le ih] at hold
        cases hold
    · exact .inr (Nat.le_of_not_lt hlt)

/-- Below a new node there are only new ones. -/
theorem Branches.size_le_of_below (h : c.Branches c') (hn : c.arena.exprs.size ≤ n.index)
    (hm : c'.Below n m) : c.arena.exprs.size ≤ m.index := by
  rcases h.below_or hm with hold | hnew
  · rcases hold.cases_head with rfl | ⟨k, hk, -⟩
    · exact hn
    · rw [Arena.expr_of_size_le hn] at hk
      cases hk
  · exact hnew

/-- No minus sign comes about below an expression without one. -/
theorem Clear.of_branches (hn : c.Clear n) (h : c.Branches c')
    (hnegated : ∀ m x, (c'.arena.expr m).kind = .negated x → (c.arena.expr m).kind = .negated x) :
    c'.Clear n := by
  intro m hm x hx
  have hold := hnegated m x hx
  rcases h.below_or hm with hm | hm
  · exact hn m hm x hold
  · rw [Arena.expr_of_size_le hm] at hold
    cases hold

theorem clear_of_children (hid : ∀ x, (c.arena.expr id).kind ≠ .negated x)
    (hchildren : ∀ n ∈ (c.arena.expr id).kind.children, c.Clear n) : c.Clear id := by
  intro m hm
  rcases hm.cases_head with rfl | ⟨n, hn, hm⟩
  · exact hid
  · exact hchildren n hn m hm

/-! ## What was combed -/

/-- **What a walk leaves behind** that walks some expressions, and no body on the way: no minus sign
at or below them, none elsewhere that was not there, and all else as it was. -/
structure Combed (ids : List ExprId) (c c' : Compilation) : Prop where
  negated : ∀ n x, (c'.arena.expr n).kind = .negated x → (c.arena.expr n).kind = .negated x
  aside : ∀ n, n.index < c.arena.exprs.size → (∀ id ∈ ids, ¬ c.Below id n) →
    (c'.arena.expr n).kind.children = (c.arena.expr n).kind.children
  clear : ∀ id ∈ ids, c'.Clear id

theorem Combed.nil (c : Compilation) : c.Combed [] c :=
  ⟨fun _ _ => id, fun _ _ _ => rfl, by simp⟩

/-- **Expressions one after the other.** -/
theorem Combed.cons (h : Combed [id] c c') (h' : Combed ids c' c'') (hbranches : c.Branches c')
    (hbranches' : c'.Branches c'') : Combed (id :: ids) c c'' where
  negated n x hn := h.negated n x (h'.negated n x hn)
  aside n hn haside := by
    obtain ⟨hid, hids⟩ := List.forall_mem_cons.1 haside
    rw [h'.aside n (hn.trans_le hbranches.size), h.aside n hn (by simpa using hid)]
    intro m hm hpath
    rcases hbranches.below_or hpath with hpath | hnew
    · exact hids m hm hpath
    · exact Nat.not_le.2 hn hnew
  clear := by
    have hfirst : c'.Clear id := h.clear id (List.mem_singleton_self id)
    exact List.forall_mem_cons.2 ⟨hfirst.of_branches hbranches' h'.negated, h'.clear⟩

/-- Expressions may be changed where they are before that. -/
theorem Retouches.combed (h : c.Retouches c') (h' : Combed ids c' c'') : Combed ids c c'' where
  negated n x hn := h.negated n x (h'.negated n x hn)
  aside n hn haside := by
    rw [h'.aside n (hn.trans_eq h.trees.size.symm), h.trees.children]
    intro m hm hpath
    rcases h.proceeds.toBranches.below_or hpath with hpath | hnew
    · exact haside m hm hpath
    · exact Nat.not_le.2 hn hnew
  clear := h'.clear

/-- Expressions may be changed where they are after that. -/
theorem Combed.retouched (h : Combed ids c c') (h' : c'.Retouches c'') : Combed ids c c'' where
  negated n x hn := h.negated n x (h'.negated n x hn)
  aside n hn haside := (h'.trees.children n).trans (h.aside n hn haside)
  clear n hn := (h.clear n hn).of_branches h'.proceeds.toBranches h'.negated

/-- **An expression** is combed after what lies below it. -/
theorem Combed.node (h : Combed (c.arena.expr id).kind.children c c') (hc : c.Upright)
    (hlt : id.index < c.arena.exprs.size) (hid : ∀ x, (c.arena.expr id).kind ≠ .negated x) :
    Combed [id] c c' where
  negated := h.negated
  aside n hn haside := by
    refine h.aside n hn fun m hm hpath => ?_
    exact haside id (List.mem_singleton_self id) (hpath.head hm)
  clear := by
    have hclear : c'.Clear id := by
      refine clear_of_children (fun x hx => hid x (h.negated id x hx)) ?_
      -- An expression does not lie below its own children.
      rw [h.aside id hlt fun n hn => Arena.not_reaches_of_acc (hc.acyclic.apply id) hn]
      exact h.clear
    simpa using hclear

/-- **A replaced use** is combed with its tree. -/
theorem Grafted.combed (h : c.Grafted id xs c') (h' : Combed [id] c' c'') (hc : c.Upright)
    (hbranches : c'.Branches c'') : Combed [id] c c'' where
  negated n x hn := by
    have hold := h'.negated n x hn
    have hclear : c''.Clear id := h'.clear id (List.mem_singleton_self id)
    by_cases hmem : n ∈ xs ∨ n = id
    · -- No minus sign is left of the tree.
      refine absurd hn (hclear n (hbranches.below ?_) x)
      rcases hmem with hmem | rfl
      · obtain ⟨root, hroot, hpath⟩ := h.forest.exists_root hmem
        exact hpath.head hroot
      · exact .refl
    · rw [not_or] at hmem
      exact (h.kept n hmem.1 hmem.2).symm.trans hold
  aside n hn haside := by
    have hbranched := (h.proceeds hc).toBranches
    have hid : ¬ c.Below id n := haside id (List.mem_singleton_self id)
    have hne : n ≠ id := by
      rintro rfl
      exact hid .refl
    have hmem : n ∉ xs := fun hmem => Nat.not_le.2 hn ((h.mem n).1 hmem).1
    rw [h'.aside n (hn.trans_le hbranched.size), h.kept n hmem hne]
    intro m hm hpath
    obtain rfl := List.mem_singleton.1 hm
    rcases hbranched.below_or hpath with hpath | hnew
    · exact hid hpath
    · exact Nat.not_le.2 hn hnew
  clear := h'.clear

end Compilation

end Termwise
