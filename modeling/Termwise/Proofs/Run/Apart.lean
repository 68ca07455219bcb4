import Mathlib.Data.List.Pairwise
import Termwise.Proofs.Run.Territory
import Termwise.Proofs.Run.Wholeness

/-!
# Terms that are apart

The terms of a run are classified one after the other, and classifying one may change the tables:
a group among them is resolved, and a reference is typed anew. If the trees of the terms share no
node, and no term is typed by a node of another tree, then each of them is taken for the same,
whatever was done to the others before, and however deep in groups it stands.

## Main definitions

* `Compilation.KeepsTo`: nothing but some nodes was changed
* `Compilation.Independent`: trees that have nothing to do with each other
* `Compilation.TakenAs`: what an operand is taken for on its own
* `Expression.Akin`: two expressions are the same up to the nodes below them

## Main results

* `Compilation.Independent.classify_elsewhere`: an operand is taken for the same in any company
-/

namespace Termwise

open Compilation

/-! ## Expressions that are akin -/

/-- Two expressions are the same, wherever the nodes below them stand. -/
def Expression.Akin (e e' : Expression) : Prop := e.Mirrors (fun _ _ => True) (fun _ _ => True) e'

namespace Expression

variable {e e' : Expression}

/-- The value is the same: a value has nothing below it. -/
theorem Akin.value? (h : e.Akin e') : e'.value? = e.value? := by
  obtain ⟨hkind, -, -, -⟩ := h
  unfold Expression.value?
  generalize e.kind = kind at hkind ⊢
  generalize e'.kind = kind' at hkind ⊢
  cases hkind <;> rfl

theorem Akin.ne_negated (h : e.Akin e') (he : ∀ n, e.kind ≠ .negated n) (n : ExprId) :
    e'.kind ≠ .negated n := by
  obtain ⟨hkind, -, -, -⟩ := h
  intro hk
  generalize e.kind = kind at hkind he
  rw [hk] at hkind
  cases hkind with
  | leaf hleaf => cases hleaf
  | negated => exact he _ rfl

end Expression

namespace Compilation

variable {c c' c'' s s' : Compilation} {S S' : Set ExprId} {roots : List ExprId}
  {x r r' n : ExprId} {depth : Nat} {e e' : Expression}

/-! ## What is left alone -/

/-- **Nothing but some nodes was changed**, and what was appended. -/
structure KeepsTo (S : Set ExprId) (c c' : Compilation) : Prop extends SameProgram c c' where
  size : c.arena.exprs.size ≤ c'.arena.exprs.size
  expr : ∀ n : ExprId, n.index < c.arena.exprs.size → n ∉ S → c'.arena.expr n = c.arena.expr n

theorem KeepsTo.refl (S : Set ExprId) (c : Compilation) : c.KeepsTo S c :=
  ⟨.refl c, le_rfl, fun _ _ _ => rfl⟩

/-- What was changed later counts if it was there at first. -/
theorem KeepsTo.trans (h : c.KeepsTo S c') (h' : c'.KeepsTo S' c'')
    (hS : ∀ n ∈ S', n.index < c.arena.exprs.size → n ∈ S) : c.KeepsTo S c'' where
  toSameProgram := h.toSameProgram.trans h'.toSameProgram
  size := h.size.trans h'.size
  expr n hn hnot := by
    rw [h'.expr n (hn.trans_le h.size) fun hmem => hnot (hS n hmem hn), h.expr n hn hnot]

theorem KeepsTo.mono (h : c.KeepsTo S c') (hS : ∀ n ∈ S, n.index < c.arena.exprs.size → n ∈ S') :
    c.KeepsTo S' c' :=
  ⟨h.toSameProgram, h.size, fun n hn hnot => h.expr n hn fun hmem => hnot (hS n hmem hn)⟩

theorem keepsTo_modifyExpr (hn : n ∈ S) (f : Expression → Expression) :
    c.KeepsTo S (c.modifyArena (·.modifyExpr n f)) where
  toSameProgram := ⟨rfl, rfl, rfl, rfl⟩
  size := by simp [modifyArena]
  expr m _ hnot := by
    have hne : m ≠ n := by
      rintro rfl
      exact hnot hn
    exact Arena.expr_modifyExpr_of_ne hne f

theorem keepsTo_allocExpr (S : Set ExprId) (c : Compilation) (e : Expression) :
    c.KeepsTo S (c.allocExpr e).2 where
  toSameProgram := ⟨rfl, rfl, rfl, rfl⟩
  size := by simp [Compilation.allocExpr]
  expr _ hn _ := Arena.expr_allocExpr_of_lt hn e

theorem keepsTo_refreshed (c : Compilation) (n : ExprId) : c.KeepsTo {n} (c.refreshed n) := by
  unfold refreshed
  split
  · exact keepsTo_modifyExpr (Set.mem_singleton n) _
  · exact keepsTo_modifyExpr (Set.mem_singleton n) _
  · exact .refl _ c

/-! ## Trees that are independent -/

/-- The nodes at and below some nodes. -/
def trees (c : Compilation) (roots : List ExprId) : Set ExprId := {n | ∃ r ∈ roots, c.Below r n}

theorem trees_mono {roots' : List ExprId} (h : roots ⊆ roots') :
    c.trees roots ⊆ c.trees roots' := by
  rintro n ⟨r, hr, hn⟩
  exact ⟨r, h hr, hn⟩

/-- A node is read as a term when another one is classified: the node itself, and the terms of the
runs at and below it. -/
def ReadWith (c : Compilation) (r t : ExprId) : Prop :=
  t = r ∨ ∃ n ts, c.Below r n ∧ (c.arena.expr n).kind = .run ts ∧ t ∈ ts

/-- **Trees that have nothing to do with each other**: they share no node, and no term of one of
them names a definition that takes its type from a node of another one. -/
structure Independent (c : Compilation) (roots : List ExprId) : Prop where
  inside : ∀ r ∈ roots, ∀ n, c.Below r n → n.index < c.arena.exprs.size
  apart : roots.Pairwise fun r r' => ∀ n, c.Below r n → ¬ c.Below r' n
  bodies : ∀ r ∈ roots, ∀ t, c.ReadWith r t → ∀ d ∈ (c.arena.expr t).kind.named c.builtins,
    (c.arena.definition d).declared = none → ∀ b, (c.arena.definition d).body = .expression b →
    b.index < c.arena.exprs.size ∧ ∀ r' ∈ roots, c.Below r' b → r' = r

theorem Independent.disjoint (h : c.Independent roots) (hr : r ∈ roots) (hr' : r' ∈ roots)
    (hne : r ≠ r') (hn : c.Below r n) : ¬ c.Below r' n := by
  have hsymm : Std.Symm fun r r' => ∀ n, c.Below r n → ¬ c.Below r' n :=
    ⟨fun _ _ h n hn hn' => h n hn' hn⟩
  exact h.apart.forall hr hr' hne n hn

/-- Where one of the trees is looked at, with the other ones around it. -/
def extentOf (c : Compilation) (roots : List ExprId) (x : ExprId) : Extent where
  builtins := c.builtins
  floor := c.arena.exprs.size
  zone := {n | c.arena.exprs.size ≤ n.index ∨ n ∈ c.trees roots}
  terms := {t | c.arena.exprs.size ≤ t.index ∨ c.ReadWith x t}
  names := {d | ∃ t, c.ReadWith x t ∧ d ∈ (c.arena.expr t).kind.named c.builtins}
  late _ _ := False
  zone_of_le _ := .inl
  terms_of_le _ := .inl

/-- **A tree that was left alone** is the same as before, and so is all that it depends on. -/
theorem Independent.alike (h : c.Independent roots) (hx : x ∈ roots) (hs : c.KeepsTo S s)
    (hS : ∀ n ∈ S, n ∈ c.trees roots ∧ ¬ c.Below x n) :
    Alike (c.extentOf roots x) (identityOn {n | c.Below x n}) c s where
  program := hs.toSameProgram
  builtins := rfl
  floor := le_rfl
  floor' := hs.size
  inside := by
    rintro n _ ⟨rfl, hn⟩
    exact ⟨h.inside x hx n hn, (h.inside x hx n hn).trans_le hs.size⟩
  zone := by
    rintro n _ ⟨rfl, hn⟩
    exact ⟨.inr ⟨x, hx, hn⟩, .inr ⟨x, hx, hn⟩⟩
  left_unique := by
    rintro n n' m ⟨rfl, -⟩ ⟨rfl, -⟩
    rfl
  right_unique := by
    rintro n m m' ⟨rfl, -⟩ ⟨rfl, -⟩
    rfl
  expr := by
    rintro n _ ⟨rfl, hn⟩
    rw [hs.expr n (h.inside x hx n hn) fun hmem => (hS n hmem).2 hn]
    have hbelow : ∀ m ∈ (c.arena.expr n).kind.children, c.Below x m := fun m hm => hn.tail hm
    refine ⟨.refl (fun ts hk t ht => .inl ⟨rfl, hbelow t ?_⟩) fun _ m hm => ⟨rfl, hbelow m hm⟩,
      rfl, rfl, rfl⟩
    rwa [hk]
  admits := by
    rintro n _ ⟨rfl, hn⟩
    refine ⟨fun hterm d hd => ?_, fun ts hk t ht => .inr (.inr ⟨n, ts, hn, hk, ht⟩)⟩
    exact ⟨n, hterm.resolve_left (Nat.not_le.2 (h.inside x hx n hn)), hd⟩
  outside n hn := by
    obtain ⟨hlt, hnot⟩ := not_or.1 hn
    exact hs.expr n (Nat.lt_of_not_le hlt) fun hmem => hnot (hS n hmem).1
  -- A definition that is named here may have its body in this tree, but in no other one.
  body := by
    rintro d ⟨t, ht, hd⟩ hdeclared b hb
    obtain ⟨hlt, honly⟩ := h.bodies x hx t ht d hd hdeclared b hb
    by_cases hbelow : b ∈ c.trees roots
    · obtain ⟨r, hr, hb⟩ := hbelow
      cases honly r hr hb
      exact .inr ⟨rfl, hb⟩
    · exact .inl (not_or.2 ⟨Nat.not_le.2 hlt, hbelow⟩)

/-- What does not lie below itself did not before either, if all at and below it was left alone. -/
theorem acc_termOf_congr (hacc : Acc s.TermOf x)
    (hsame : ∀ n, c.Below x n → s.arena.expr n = c.arena.expr n) : Acc c.TermOf x := by
  induction hacc with
  | intro x _ ih =>
    constructor
    rintro t ⟨ts, hk, ht⟩
    refine ih t ⟨ts, by rw [hsame x .refl, hk], ht⟩ fun n hn => hsame n (.head ?_ hn)
    rw [hk]
    exact ht

/-- An operand that is taken for something does not lie below itself. -/
theorem acc_of_classify {term : Term}
    (hok : classify (resolveWithin depth) x c = .ok term c') : Acc c.TermOf x := by
  have hread := classify_unfolds (resolveWithin_outcome depth) c (List.mem_singleton_self x)
  obtain ⟨hunfolds, hsettled, -⟩ := hread.of_ok hok
  exact hunfolds.acc (acc_of_settled hsettled)

/-- Without cycles, classifying an operand does not go too deep. -/
theorem classify_ne_cyclic (h : c.NestsWithin depth x) :
    classify (resolveWithin depth) x c ≠ .error .cyclic c' := by
  intro hcyclic
  have hcalm := classify_calm (c := c) (resolveWithin_reports depth) x
  rw [Outcome, hcyclic] at hcalm
  exact hcalm.2 h

/-- Runs nest as deep as before if their terms were left alone. -/
theorem NestsWithin.congr (h : c.NestsWithin depth x)
    (hsame : ∀ n, c.Below x n → s.arena.expr n = c.arena.expr n) : s.NestsWithin depth x := by
  induction depth generalizing x with
  | zero =>
    intro ts hk
    rw [hsame x .refl] at hk
    exact h ts hk
  | succ depth ih =>
    rintro t ⟨ts, hk, ht⟩
    rw [hsame x .refl] at hk
    refine ih (h t ⟨ts, hk, ht⟩) fun n hn => hsame n (.head ?_ hn)
    rw [hk]
    exact ht

/-! ## Operands on their own -/

/-- **What stands for itself as an argument**: an operand that is no open parameter and no minus
sign with its operand. -/
structure IsArgument (c : Compilation) (x : ExprId) : Prop where
  role : c.role x = .operand
  given : (c.arena.expr x).kind.isMissingArg = false
  whole : ∀ n, (c.arena.expr x).kind ≠ .negated n

theorem isArgument_of_value {v : Value} (h : (c.arena.expr x).kind = .value v) :
    c.IsArgument x := by
  refine ⟨?_, ?_, ?_⟩ <;> simp [role, h, ExprKind.isMissingArg]

/-- **What an argument is taken for on its own**, before any other term is classified. -/
def TakenAs (c : Compilation) (x : ExprId) (e : Expression) : Prop :=
  ∃ c', classify (resolveWithin (c.arena.exprs.size + 1)) x c = .ok (.operand x) c' ∧
    c'.arena.expr x = e ∧ e.kind.isMissingArg = false ∧ ∀ n, e.kind ≠ .negated n

theorem TakenAs.unique (h : c.TakenAs x e) (h' : c.TakenAs x e') : e' = e := by
  obtain ⟨c₁, hok, rfl, -, -⟩ := h
  obtain ⟨c₂, hok', rfl, -, -⟩ := h'
  cases hok.symm.trans hok'
  rfl

/-- What comes to an argument is taken for one. -/
theorem classify_argument
    (h : Outcome (resolve x) c (fun _ c' => c'.IsArgument x) fun _ _ => True) :
    Outcome (classify (resolveWithin (c.arena.exprs.size + 1)) x) c
      (fun term c' => term = .operand x ∧ (c'.arena.expr x).kind.isMissingArg = false ∧
        ∀ n, (c'.arena.expr x).kind ≠ .negated n) fun _ _ => True := by
  have hresolved {c₁ : Compilation} (h₁ : c₁.IsArgument x) (span : Span) :
      Outcome (classifyResolved x span) c₁
        (fun term c' => term = .operand x ∧ (c'.arena.expr x).kind.isMissingArg = false ∧
          ∀ n, (c'.arena.expr x).kind ≠ .negated n) fun _ _ => True := by
    have hrole := h₁.role
    have hgood : ((c₁.refreshed x).arena.expr x).kind.isMissingArg = false ∧
        ∀ n, ((c₁.refreshed x).arena.expr x).kind ≠ .negated n := by
      rw [kind_refreshed]
      exact ⟨h₁.given, h₁.whole⟩
    simp only [classifyResolved, outcome_bind, outcome_refreshReference, outcome_expr,
      kind_refreshed]
    split <;> rename_i hk
    · trivial
    · trivial
    · trivial
    · simp [role, hk] at hrole
    · simp only [role, hk] at hrole
      simp only [operatorTerm, outcome_bind, outcome_definition,
        (steady_refreshed c₁ x).extends.definition]
      split <;> rename_i hop <;> simp only [hop] at hrole
      · cases hrole
      · cases hrole
      · cases hrole
      · exact ⟨rfl, hgood⟩
    · exact ⟨rfl, hgood⟩
  simp only [classify, outcome_bind, outcome_expr]
  split
  · simp only [outcome_bind, outcome_attempt]
    refine h.mono (fun _ c₁ h₁ => hresolved h₁ _) ?_
    rintro (e | _) c₁ - <;> trivial
  · rename_i hk
    exact hresolved (h.of_ok (resolve_of_ne_run hk)) _

/-- **An argument is taken for the same in any company**: whatever was done to the trees around it,
and however deep in groups it stands. -/
theorem Independent.classify_elsewhere (h : c.Independent roots) (hx : x ∈ roots)
    (hargument : Outcome (resolve x) c (fun _ c' => c'.IsArgument x) fun _ _ => True)
    (hs : c.KeepsTo S s) (hS : ∀ n ∈ S, n ∈ c.trees roots ∧ ¬ c.Below x n)
    (hdepth : c.arena.exprs.size ≤ depth) :
    Outcome (classify (resolveWithin depth) x) s
      (fun term s' => term = .operand x ∧ s.KeepsTo {n | c.Below x n} s' ∧
        ∃ e, c.TakenAs x e ∧ e.Akin (s'.arena.expr x))
      fun _ _ => ¬ ∃ e, c.TakenAs x e := by
  have hsame (n : ExprId) (hn : c.Below x n) : s.arena.expr n = c.arena.expr n :=
    hs.expr n (h.inside x hx n hn) fun hmem => (hS n hmem).2 hn
  have hstart : InStep (c.extentOf roots x) {⟨c, s, identityOn {n | c.Below x n}⟩}
      (identityOn {n | c.Below x n}) c s :=
    ⟨h.alike hx hs hS, _, rfl, Outset.leads_start _⟩
  -- Both runs are read side by side, on the tree of the operand and on what is appended.
  have hresolves := resolves_prompt (Z := c.extentOf roots x)
    (O := {⟨c, s, identityOn {n | c.Below x n}⟩}) (c.arena.exprs.size + 1) depth
  have hcoupled := hresolves.classify (n := x) (m := x) ⟨⟨rfl, .refl⟩, .inr (.inl rfl)⟩ c s hstart
  cases hfirst : classify (resolveWithin (c.arena.exprs.size + 1)) x c with
  | ok term c' =>
    obtain ⟨rfl, hgiven, hwhole⟩ := (classify_argument hargument).of_ok hfirst
    -- What is taken for something has no cycle, so it is not too deep elsewhere either.
    have hnests := nestsWithin_size (acc_of_classify hfirst)
    have hshallow' : ∀ s', classify (resolveWithin depth) x s ≠ .error .cyclic s' :=
      fun s' => classify_ne_cyclic ((hnests.mono hdepth).congr hsame)
    obtain ⟨term', s', hok, R, hR, ⟨halike, F, hF, hleads⟩, hterm, -⟩ :=
      hcoupled.of_ok hfirst hshallow'
    cases hF
    have hxx : R x x := hR x x ⟨rfl, .refl⟩
    rw [outcome_of_eq_ok hok]
    refine ⟨?_, ⟨hleads.same', hleads.size', fun n hn hnot => ?_⟩, c'.arena.expr x,
      ⟨c', hfirst, rfl, hgiven, hwhole⟩, ?_⟩
    · cases hterm with
      | operand hm => rw [halike.right_unique hm.1 hxx]
    · refine hleads.right n hn ?_
      rintro _ ⟨rfl, hbelow⟩
      exact hnot hbelow
    · exact (halike.expr hxx).mono (fun _ _ _ => trivial) fun _ _ _ => trivial
  | error stop c' =>
    have hnot : ¬ ∃ e, c.TakenAs x e := by
      rintro ⟨e, c₁, hok, -⟩
      rw [hfirst] at hok
      cases hok
    refine outcome_self.mono (fun term' s' hok => ?_) fun _ _ _ => hnot
    rcases hcoupled.of_ok_right hok with ⟨c₁, hcyclic⟩ | ⟨_, c₁, hok', -⟩
    · have hacc := acc_termOf_congr (acc_of_classify hok) hsame
      exact (classify_ne_cyclic ((nestsWithin_size hacc).mono (Nat.le_succ _)) hcyclic).elim
    · rw [hfirst] at hok'
      cases hok'

end Compilation

end Termwise
