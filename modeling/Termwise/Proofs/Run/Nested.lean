import Mathlib.Logic.Relation
import Termwise.Proofs.Run.Classification

/-!
# Runs among the terms of runs

A term of a run may be a run itself, which is resolved when the term is classified. Resolution
changes what a run is and nothing else, so it matters that no run is resolved while it is being
resolved already: what was read off it would be lost. An accepted run cannot lie below itself,
because its terms are accepted first, and theirs before them.

## Main definitions

* `Compilation.TermOf`: a term of a run
* `Compilation.Unfolds`: only runs at or below some nodes were resolved

## Main results

* `Compilation.Unfolds.run_self`: a run is still there when its terms are settled
* `Compilation.Unfolds.resolved`: the step that then replaces it
-/

namespace Termwise.Compilation

/-- A term of a run. -/
def TermOf (c : Compilation) (m n : ExprId) : Prop :=
  ∃ ts, (c.arena.expr n).kind = .run ts ∧ m ∈ ts

/-- Only runs at or below some nodes were resolved, and none of them lies below itself. -/
structure Unfolds (c c' : Compilation) (roots : List ExprId) : Prop extends Extends c c' where
  run : ∀ (n : ExprId) (ts : List ExprId), (c'.arena.expr n).kind = .run ts →
    (c.arena.expr n).kind = .run ts
  below : ∀ (n : ExprId) (ts : List ExprId), (c.arena.expr n).kind = .run ts →
    (c'.arena.expr n).kind ≠ .run ts →
    Acc c.TermOf n ∧ ∃ t ∈ roots, Relation.ReflTransGen c.TermOf n t

variable {c c' c'' : Compilation} {roots roots' : List ExprId} {n t : ExprId} {ts : List ExprId}

theorem acc_of_settled (h : c.Settled t) : Acc c.TermOf t := by
  constructor
  rintro _ ⟨ts, hk, -⟩
  simp [Settled, hk, ExprKind.isSettled] at h

theorem not_transGen_termOf (h : Acc c.TermOf n) : ¬ Relation.TransGen c.TermOf n n := by
  have hacc := h.transGen
  clear h
  induction hacc with
  | intro n _ ih => exact fun hself => ih n hself hself

theorem Steady.unfolds (h : c.Steady c') (roots : List ExprId) : c.Unfolds c' roots where
  toExtends := h.extends
  run := h.run
  below n ts hk hne := by
    have hlt : n.index < c.arena.exprs.size := Arena.lt_size_of_kind_ne (by simp [hk])
    exact (hne ((h.kind n hlt (by simp [hk, ExprKind.isValue])).trans hk)).elim

theorem Unfolds.mono (h : c.Unfolds c' roots) (hroots : roots ⊆ roots') :
    c.Unfolds c' roots' where
  toExtends := h.toExtends
  run := h.run
  below n ts hk hne := by
    obtain ⟨hacc, t, ht, hn⟩ := h.below n ts hk hne
    exact ⟨hacc, t, hroots ht, hn⟩

theorem Unfolds.termOf (h : c.Unfolds c' roots) (hn : c'.TermOf n t) : c.TermOf n t := by
  obtain ⟨ts, hk, hmem⟩ := hn
  exact ⟨ts, h.run t ts hk, hmem⟩

/-- What does not lie below itself after some runs were resolved did not before. -/
theorem Unfolds.acc (h : c.Unfolds c' roots) (hn : Acc c'.TermOf n) : Acc c.TermOf n := by
  induction hn with
  | intro n _ ih =>
    constructor
    rintro m ⟨ts, hk, hm⟩
    by_cases hk' : (c'.arena.expr n).kind = .run ts
    · exact ih m ⟨ts, hk', hm⟩
    · exact (h.below n ts hk hk').1.inv ⟨ts, hk, hm⟩

theorem Unfolds.trans (h : c.Unfolds c' roots) (h' : c'.Unfolds c'' roots) :
    c.Unfolds c'' roots where
  toExtends := h.toExtends.trans h'.toExtends
  run n ts hk := h.run n ts (h'.run n ts hk)
  below n ts hk hne := by
    by_cases hk' : (c'.arena.expr n).kind = .run ts
    · obtain ⟨hacc, t, ht, hn⟩ := h'.below n ts hk' hne
      exact ⟨h.acc hacc, t, ht, Relation.ReflTransGen.mono (fun _ _ => h.termOf) _ _ hn⟩
    · exact h.below n ts hk hk'

/-- **A run is still there** when its terms are settled: it does not lie below any of them. -/
theorem Unfolds.run_self (h : c.Unfolds c' ts) (hk : (c.arena.expr n).kind = .run ts) :
    (c'.arena.expr n).kind = .run ts := by
  by_contra hne
  obtain ⟨hacc, t, ht, hn⟩ := h.below n ts hk hne
  exact not_transGen_termOf hacc (.tail' hn ⟨ts, hk, ht⟩)

/-- **A run whose terms are settled** may be replaced by anything that is no run. -/
theorem Unfolds.resolved {e : Expression} (h : c.Unfolds c' ts)
    (hk : (c.arena.expr n).kind = .run ts) (hsettled : ∀ t ∈ ts, c'.Settled t)
    (he : ∀ us, e.kind ≠ .run us) :
    c.Unfolds (c'.modifyArena (·.modifyExpr n (·.replaceBy e))) [n] where
  toExtends := h.toExtends.trans (extends_modifyExpr_run (h.run_self hk))
  run m us hm := by
    simp only [modifyArena, Arena.expr_modifyExpr] at hm
    split at hm
    · exact (he us hm).elim
    · exact h.run m us hm
  below m us hm hne := by
    by_cases hmn : m = n
    · subst hmn
      refine ⟨?_, m, List.mem_singleton_self m, .refl⟩
      constructor
      rintro t ⟨vs, hvs, ht⟩
      cases hk.symm.trans hvs
      exact h.acc (acc_of_settled (hsettled t ht))
    · simp only [modifyArena, Arena.expr_modifyExpr_of_ne hmn] at hne
      obtain ⟨hacc, t, ht, hbelow⟩ := h.below m us hm hne
      exact ⟨hacc, n, List.mem_singleton_self n, hbelow.tail ⟨ts, hk, ht⟩⟩

end Termwise.Compilation
