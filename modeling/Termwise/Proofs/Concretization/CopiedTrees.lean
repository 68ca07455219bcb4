import Mathlib.Data.Finset.Card
import Mathlib.Data.Finset.Image
import Termwise.Proofs.Concretization.Forest
import Termwise.Proofs.Concretization.Region

/-!
# Copies of trees

A copy takes fresh nodes for all that lies below an expression. It descends no deeper than the table
is large, which is deep enough: without a cycle, no path meets an expression twice. So the copy
shares nothing with what it is a copy of, and its nodes are a forest, even where the original
shares nodes.

## Main definitions

* `Arena.Shallow`: every path below an expression ends within a depth
* `Arena.Sprouts`: a forest of fresh nodes was appended

## Main results

* `Arena.shallow_size`: without cycles, every path ends within the size of the table
* `Arena.Shallow.exists_copyWithin`: a tree within a depth has a copy
* `Compilation.CutOff.not_shallow`: no use is cut off over a body of such a depth
* `Arena.copyWithin_sprouts`: a copy is a forest of fresh nodes
-/

namespace Termwise.Arena

variable {a a' a'' : Arena} {P : Expression → Prop} {n m : ExprId} {ids ids' xs xs' : List ExprId}
  {depth : Nat}

/-! ## Depth -/

/-- Every path below an expression ends within a depth, and meets only expressions of the table
that have a property. -/
def Shallow (a : Arena) (P : Expression → Prop) : (depth : Nat) → ExprId → Prop
  | 0, _ => False
  | depth + 1, n => n.index < a.exprs.size ∧ P (a.expr n) ∧
      ∀ m ∈ (a.expr n).kind.children, a.Shallow P depth m

theorem Shallow.mono (h : a.Shallow P depth n) {depth' : Nat} (hle : depth ≤ depth') :
    a.Shallow P depth' n := by
  induction depth generalizing depth' n with
  | zero => exact h.elim
  | succ depth ih =>
    obtain ⟨depth', rfl⟩ := Nat.exists_eq_add_one.2 (Nat.zero_lt_of_lt hle)
    exact ⟨h.1, h.2.1, fun m hm => ih (h.2.2 m hm) (by omega)⟩

theorem Shallow.imp {Q : Expression → Prop} (h : a.Shallow P depth n) (hPQ : ∀ e, P e → Q e) :
    a.Shallow Q depth n := by
  induction depth generalizing n with
  | zero => exact h
  | succ depth ih => exact ⟨h.1, hPQ _ h.2.1, fun m hm => ih (h.2.2 m hm)⟩

/-- A path that ends at once is within the size of the table. -/
theorem shallow_of_leaf (hlt : n.index < a.exprs.size) (hleaf : (a.expr n).kind.children = []) :
    a.Shallow (fun _ => True) a.exprs.size n := by
  have hone : a.Shallow (fun _ => True) 1 n := ⟨hlt, trivial, by simp [hleaf]⟩
  exact hone.mono (Nat.zero_lt_of_lt hlt)

/-- What is appended later changes nothing below an expression. -/
theorem Appends.shallow (h : a.Appends a') (hn : a.Shallow P depth n) : a'.Shallow P depth n := by
  induction depth generalizing n with
  | zero => exact hn
  | succ depth ih =>
    obtain ⟨hlt, hP, hchildren⟩ := hn
    refine ⟨hlt.trans_le h.size, ?_, ?_⟩ <;> rw [h.expr n hlt]
    · exact hP
    · exact fun m hm => ih (hchildren m hm)

/-- An expression that is replaced by one with nothing below it makes no path longer. -/
theorem Shallow.modifyExpr {id : ExprId} {f : Expression → Expression} (h : a.Shallow P depth n)
    (hchildren : (f (a.expr id)).kind.children = []) (hP : P (f (a.expr id))) :
    (a.modifyExpr id f).Shallow P depth n := by
  induction depth generalizing n with
  | zero => exact h.elim
  | succ depth ih =>
    obtain ⟨hlt, hn, hbelow⟩ := h
    refine ⟨by rwa [size_modifyExpr], ?_⟩
    by_cases hne : n = id
    · subst hne
      rw [expr_modifyExpr_self hlt, hchildren]
      exact ⟨hP, by simp⟩
    · rw [expr_modifyExpr_of_ne hne]
      exact ⟨hn, fun m hm => ih (hbelow m hm)⟩

/-- Without cycles, no expression lies below itself. -/
theorem not_reaches_of_acc (h : Acc (fun m n => m ∈ (a.expr n).kind.children) n)
    (hm : m ∈ (a.expr n).kind.children) :
    ¬ Relation.ReflTransGen (fun n m => m ∈ (a.expr n).kind.children) m n := by
  induction h generalizing m with
  | intro n _ ih =>
    intro hpath
    -- A cycle through an expression is one through each of its children, too.
    rcases hpath.cases_head with rfl | ⟨k, hk, hpath⟩
    · exact ih m hm hm .refl
    · exact ih m hm hk (hpath.tail hm)

/-- A path through some expressions is no longer than they are many. -/
theorem shallow_card (h : Acc (fun m n => m ∈ (a.expr n).kind.children) n) (S : Finset ExprId)
    (hS : ∀ m, Relation.ReflTransGen (fun n m => m ∈ (a.expr n).kind.children) n m → m ∈ S)
    (hP : ∀ m ∈ S, m.index < a.exprs.size ∧ P (a.expr m)) : a.Shallow P S.card n := by
  induction h generalizing S with
  | intro n hacc ih =>
    have hn := hS n .refl
    rw [← Finset.card_erase_add_one hn]
    refine ⟨(hP n hn).1, (hP n hn).2, fun m hm => ?_⟩
    refine ih m hm (S.erase n) (fun k hk => ?_) fun k hk => hP k (Finset.mem_of_mem_erase hk)
    refine Finset.mem_erase.2 ⟨?_, hS k (hk.head hm)⟩
    rintro rfl
    exact not_reaches_of_acc ⟨k, hacc⟩ hm hk

/-- **Without cycles**, every path below an expression ends within the size of the table. -/
theorem shallow_size (h : Acc (fun m n => m ∈ (a.expr n).kind.children) n)
    (hP : ∀ m, Relation.ReflTransGen (fun n m => m ∈ (a.expr n).kind.children) n m →
      m.index < a.exprs.size ∧ P (a.expr m)) : a.Shallow P a.exprs.size n := by
  classical
  let S := ((Finset.range a.exprs.size).image ExprId.mk).filter fun m =>
    Relation.ReflTransGen (fun n m => m ∈ (a.expr n).kind.children) n m
  have hcard : S.card ≤ a.exprs.size :=
    (Finset.card_filter_le ..).trans (Finset.card_image_le.trans_eq (Finset.card_range _))
  refine (shallow_card h S (fun m hm => ?_) fun m hm => ?_).mono hcard
  · refine Finset.mem_filter.2 ⟨Finset.mem_image.2 ⟨m.index, ?_, rfl⟩, hm⟩
    exact Finset.mem_range.2 (hP m hm).1
  · exact hP m (Finset.mem_filter.1 hm).2

/-! ## Trees that have a copy -/

/-- Trees are copied one after the other: what was appended for the first ones makes no path below
the later ones longer. -/
theorem exists_copyEach {copy : ExprId → StateT Arena Option Expression}
    (hcopy : ∀ {id a}, Shallow a P depth id → ∃ copied, copy id a = some copied ∧ a.Appends copied.2)
    (h : ∀ n ∈ ids, a.Shallow P depth n) :
    ∃ copies, copyEach? copy ids a = some copies ∧ a.Appends copies.2 := by
  induction ids generalizing a with
  | nil => exact ⟨([], a), rfl, .refl a⟩
  | cons id ids ih =>
    obtain ⟨hid, hids⟩ := List.forall_mem_cons.1 h
    obtain ⟨copied, hcopied, happends⟩ := hcopy hid
    have hfirst := happends.trans (appends_allocExpr copied.2 copied.1)
    obtain ⟨rest, hrest, happends'⟩ := ih fun n hn => hfirst.shallow (hids n hn)
    refine ⟨((copied.2.allocExpr copied.1).1 :: rest.1, rest.2), ?_, hfirst.trans happends'⟩
    simp only [copyEach?_cons, hcopied, Option.bind_some, hrest, Option.map_some]

/-- **A tree within a depth** has a copy within that depth. -/
theorem Shallow.exists_copyWithin (h : a.Shallow P depth n) :
    ∃ copied, copyWithin? depth n a = some copied ∧ a.Appends copied.2 := by
  induction depth generalizing a n with
  | zero => exact h.elim
  | succ depth ih =>
    obtain ⟨-, -, hbelow⟩ := h
    rw [copyWithin?_succ]
    split <;> rename_i hk
    · rename_i callee args
      have hargs : ∀ n ∈ args, a.Shallow P depth n := by rwa [hk] at hbelow
      obtain ⟨copies, hcopies, happends⟩ := exists_copyEach ih hargs
      exact ⟨_, by rw [hcopies]; rfl, happends⟩
    · rename_i operand
      obtain ⟨copied, hcopied, happends⟩ := ih (hbelow operand (by rw [hk]; simp [ExprKind.children]))
      exact ⟨_, by rw [hcopied]; rfl, happends.trans (appends_allocExpr ..)⟩
    · rename_i terms
      have hterms : ∀ n ∈ terms, a.Shallow P depth n := by rwa [hk] at hbelow
      obtain ⟨copies, hcopies, happends⟩ := exists_copyEach ih hterms
      exact ⟨_, by rw [hcopies]; rfl, happends⟩
    · exact ⟨_, rfl, .refl a⟩

theorem Shallow.copy_ne_none (h : a.Shallow P a.exprs.size n) : a.copy? n ≠ none := by
  obtain ⟨copied, hcopied, -⟩ := h.exists_copyWithin
  rw [copy?, hcopied]
  exact Option.some_ne_none copied

/-! ## Fresh forests -/

/-- A forest of fresh nodes was appended, and nothing else changed. -/
structure Sprouts (P : Expression → Prop) (a a' : Arena) (ids xs : List ExprId) : Prop
    extends Appends a a' where
  forest : a'.Forest ids xs
  nodup : xs.Nodup
  mem : ∀ n, n ∈ xs ↔ a.exprs.size ≤ n.index ∧ n.index < a'.exprs.size
  each : ∀ n ∈ xs, P (a'.expr n)

theorem Sprouts.nil (a : Arena) : Sprouts P a a [] [] where
  toAppends := .refl a
  forest := .nil
  nodup := List.nodup_nil
  mem n := by simp
  each := by simp

theorem Appends.forest (h : a.Appends a') (hforest : a.Forest ids xs)
    (hlt : ∀ n ∈ xs, n.index < a.exprs.size) : a'.Forest ids xs :=
  hforest.congr fun n hn => by rw [h.expr n (hlt n hn)]

/-- Two forests, one after the other. -/
theorem Sprouts.append (h : Sprouts P a a' ids xs) (h' : Sprouts P a' a'' ids' xs') :
    Sprouts P a a'' (ids ++ ids') (xs ++ xs') where
  toAppends := h.toAppends.trans h'.toAppends
  forest := (h'.toAppends.forest h.forest fun n hn => ((h.mem n).1 hn).2).append h'.forest
  nodup := List.nodup_append'.2 ⟨h.nodup, h'.nodup, fun n hn hn' =>
    ((h.mem n).1 hn).2.not_ge ((h'.mem n).1 hn').1⟩
  mem n := by
    have := h.size
    have := h'.size
    rw [List.mem_append, h.mem, h'.mem]
    omega
  each := by
    refine List.forall_mem_append.2 ⟨fun n hn => ?_, h'.each⟩
    rw [h'.expr n ((h.mem n).1 hn).2]
    exact h.each n hn

/-- A root over a fresh forest. -/
theorem Sprouts.root {e : Expression} (h : Sprouts P a a' e.kind.children xs) (he : P e) :
    Sprouts P a (a'.allocExpr e).2 [(a'.allocExpr e).1] ((a'.allocExpr e).1 :: xs) where
  toAppends := h.toAppends.trans (appends_allocExpr a' e)
  forest := by
    refine .tree ?_
    rw [expr_allocExpr_self]
    exact (appends_allocExpr a' e).forest h.forest fun n hn => ((h.mem n).1 hn).2
  nodup := List.nodup_cons.2 ⟨fun hn => ((h.mem _).1 hn).2.ne rfl, h.nodup⟩
  mem n := by
    have := h.size
    rw [List.mem_cons, h.mem, ExprId.ext_iff]
    simp only [allocExpr, Array.size_push]
    omega
  each := by
    refine List.forall_mem_cons.2 ⟨by rwa [expr_allocExpr_self], fun n hn => ?_⟩
    rw [expr_allocExpr_of_lt ((h.mem n).1 hn).2]
    exact h.each n hn

theorem copyEach_sprouts {copy : ExprId → StateM Arena Expression}
    (hcopy : ∀ id a, Shallow a P depth id →
      P (copy id a).1 ∧ ∃ xs, Sprouts P a (copy id a).2 (copy id a).1.kind.children xs)
    (ids : List ExprId) (h : ∀ n ∈ ids, a.Shallow P depth n) :
    ∃ xs, Sprouts P a (copyEach copy ids a).2 (copyEach copy ids a).1 xs := by
  induction ids generalizing a with
  | nil => exact ⟨[], .nil a⟩
  | cons id ids ih =>
    obtain ⟨hid, hids⟩ := List.forall_mem_cons.1 h
    obtain ⟨hroot, xs, hcopied⟩ := hcopy id a hid
    have hfirst := hcopied.root hroot
    obtain ⟨xs', hrest⟩ := ih fun n hn => hfirst.toAppends.shallow (hids n hn)
    rw [copyEach_cons]
    exact ⟨_, hfirst.append hrest⟩

/-- **A copy** of a tree is a forest of fresh nodes below its root. Whatever the type and the shape
of the original have, they have. -/
theorem copyWithin_sprouts
    (hP : ∀ e e' : Expression, P e → e'.ty = e.ty → e.kind.Resembles e'.kind → P e')
    (depth : Nat) (id : ExprId) (a : Arena) (h : a.Shallow P depth id) :
    P (copyWithin depth id a).1 ∧
      ∃ xs, Sprouts P a (copyWithin depth id a).2 (copyWithin depth id a).1.kind.children xs := by
  induction depth generalizing id a with
  | zero => exact h.elim
  | succ depth ih =>
    obtain ⟨-, hid, hchildren⟩ := h
    obtain ⟨hty, hkind⟩ := copyWithin_resembles (depth + 1) id a
    refine ⟨hP _ _ hid hty hkind, ?_⟩
    rw [copyWithin_succ]
    split <;> rename_i hk
    · exact copyEach_sprouts ih _ (by rwa [hk] at hchildren)
    · rename_i x
      obtain ⟨hroot, xs, hcopied⟩ := ih x a (hchildren x (by rw [hk]; simp [ExprKind.children]))
      exact ⟨_, hcopied.root hroot⟩
    · exact copyEach_sprouts ih _ (by rwa [hk] at hchildren)
    · -- Nothing lies below any other expression.
      have hnil : (a.expr id).kind.children = [] := by
        cases hk' : (a.expr id).kind <;> simp_all [ExprKind.children]
      exact ⟨[], by rw [hnil]; exact .nil a⟩

end Termwise.Arena

namespace Termwise.Compilation

variable {c c' : Compilation} {P : Expression → Prop} {id b n : ExprId} {d : DefId} {stop : Stop}
  {depth : Nat}

/-- **No attempt to replace a use is cut off** if the body is within the depth of the table. To read
a use as a reference leaves nothing below it. -/
theorem CutOff.not_shallow (h : c.CutOff id d stop c')
    (hb : ∀ b, (c.arena.definition d).body = .expression b → b.index < c.arena.exprs.size →
      c.arena.Shallow P c.arena.exprs.size b) : False := by
  obtain ⟨-, -, rfl, b, hbody, hsubst, hdeep⟩ := h
  have hlt : b.index < (c.readAs id d).arena.exprs.size :=
    Arena.lt_size_of_kind_ne fun hk => by rw [hk] at hsubst; cases hsubst
  have hsize : (c.readAs id d).arena.exprs.size = c.arena.exprs.size := Arena.size_modifyExpr ..
  have hshallow : (c.readAs id d).arena.Shallow (fun _ => True) c.arena.exprs.size b :=
    ((hb b hbody (hsize ▸ hlt)).imp fun _ _ => trivial).modifyExpr rfl trivial
  rw [← hsize] at hshallow
  exact hshallow.copy_ne_none hdeep

/-- **Whether a tree within a depth can become one of floats** is told within that depth. -/
theorem widensWithin_ne_none (h : c.arena.Shallow P depth n) : c.widensWithin depth n ≠ none := by
  induction depth generalizing n with
  | zero => exact h.elim
  | succ depth ih =>
    obtain ⟨-, -, hbelow⟩ := h
    simp only [widensWithin]
    split
    · simp
    split
    · simp
    split <;> rename_i hk
    · simp
    · split
      · refine allM_ne_none fun m hm => ih (hbelow m ?_)
        rw [hk]
        exact mem_of_mem_followers hm
      · simp
    · simp

/-- What is not in the table is no number. -/
theorem widensWithin_of_size_le (h : c.arena.exprs.size ≤ n.index) (depth : Nat) :
    c.widensWithin (depth + 1) n = some false := by
  simp [widensWithin, Arena.expr_of_size_le h, Expression.tombstone, Expression.sentinel,
    Expression.new]

theorem widens_ne_none (h : n.index < c.arena.exprs.size →
    c.arena.Shallow P c.arena.exprs.size n) : c.widens n ≠ none := by
  rcases Nat.lt_or_ge n.index c.arena.exprs.size with hlt | hge
  · exact widensWithin_ne_none ((h hlt).mono (Nat.le_succ _))
  · rw [widens, widensWithin_of_size_le hge]
    exact Option.some_ne_none false

end Termwise.Compilation
