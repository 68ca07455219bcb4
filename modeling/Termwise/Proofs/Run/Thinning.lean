import Termwise.Proofs.Concretization.StepLaws
import Termwise.Proofs.Run.Failures

/-!
# Runs that are left

Resolution brings no run about: whether a run is resolved or fails, the runs that are left were
runs before, with the same terms, and what was there keeps its place. So runs that are nested
without a cycle stay so, and a queue is worked off to its end.

## Main definitions

* `Compilation.Thins`: no run was brought about

## Main results

* `resolveWithin_thins`: resolving a run brings no run about
* `resolveEach_ends`: a queue is worked off
-/

namespace Termwise

open Compilation

/-- **Runs become fewer**: none is brought about or queued, and what is on record stays. -/
structure Compilation.Thins (c c' : Compilation) : Prop extends Placed c c' where
  run : ∀ (n : ExprId) (ts : List ExprId), (c'.arena.expr n).kind = .run ts →
    (c.arena.expr n).kind = .run ts
  diagnostics : c.diagnostics <+: c'.diagnostics
  queue : c'.queue = c.queue

variable {c c' c'' : Compilation} {id n t : ExprId} {e : Expression} {terms : List ExprId}
  {resolveRun : ExprId → CheckM Unit}

namespace Compilation

theorem Thins.refl (c : Compilation) : c.Thins c :=
  { Placed.refl c with run := fun _ _ => id, diagnostics := List.prefix_rfl, queue := rfl }

theorem Thins.trans (h : c.Thins c') (h' : c'.Thins c'') : c.Thins c'' :=
  { h.toPlaced.trans h'.toPlaced with
    run := fun n ts hk => h.run n ts (h'.run n ts hk)
    diagnostics := h.diagnostics.trans h'.diagnostics
    queue := h'.queue.trans h.queue }

theorem Calm.thins (h : c.Calm c') (hqueue : c'.queue = c.queue) : c.Thins c' :=
  { h.toPlaced with run := h.run, diagnostics := h.diagnostics ▸ List.prefix_rfl, queue := hqueue }

/-- A node that becomes no run. -/
theorem thins_replaceBy (h : ∀ ts, e.kind ≠ .run ts) (id : ExprId) :
    c.Thins (c.modifyArena (·.modifyExpr id (·.replaceBy e))) :=
  { placed_modifyExpr rfl rfl with
    run := fun n ts hk => by
      simp only [modifyArena, Arena.expr_modifyExpr] at hk
      split at hk
      · exact (h ts hk).elim
      · exact hk
    diagnostics := List.prefix_rfl
    queue := rfl }

theorem Thins.ne_run (h : c.Thins c') (hn : ∀ ts, (c.arena.expr n).kind ≠ .run ts)
    (ts : List ExprId) : (c'.arena.expr n).kind ≠ .run ts := fun hk => hn ts (h.run n ts hk)

theorem Thins.termOf (h : c.Thins c') (ht : c'.TermOf t n) : c.TermOf t n := by
  obtain ⟨ts, hk, hmem⟩ := ht
  exact ⟨ts, h.run n ts hk, hmem⟩

theorem Thins.acc (h : c.Thins c') (hn : Acc c.TermOf n) : Acc c'.TermOf n :=
  Subrelation.accessible (fun ht => h.termOf ht) hn

end Compilation

/-! ## Resolution -/

/-- An action brings no run about, whether it succeeds or not. -/
def ThinsRuns (action : CheckM Unit) : Prop :=
  ∀ c, Outcome action c (fun _ => c.Thins) fun _ => c.Thins

theorem classifyResolved_thins (id : ExprId) (span : Span) :
    Outcome (classifyResolved id span) c (fun _ => c.Thins) fun _ => c.Thins := by
  have hqueue : (c.refreshed id).queue = c.queue := by
    unfold refreshed
    split <;> rfl
  have hthins := (calm_refreshed c id).thins hqueue
  simp only [classifyResolved, outcome_bind, outcome_refreshReference, outcome_expr, kind_refreshed]
  split
  · exact hthins
  · exact hthins
  · exact hthins
  · exact hthins
  · simp only [operatorTerm, outcome_bind, outcome_definition]
    split <;> exact hthins
  · exact hthins

theorem classify_thins (hthins : ∀ id, ThinsRuns (resolveRun id)) (id : ExprId) :
    Outcome (classify resolveRun id) c (fun _ => c.Thins) fun _ => c.Thins := by
  have hrest {c₁ : Compilation} (h : c.Thins c₁) (span : Span) :
      Outcome (classifyResolved id span) c₁ (fun _ => c.Thins) fun _ => c.Thins :=
    (classifyResolved_thins id span).mono (fun _ _ => h.trans) fun _ _ => h.trans
  simp only [classify, outcome_bind, outcome_expr]
  split
  · simp only [outcome_bind, outcome_attempt]
    refine (hthins id c).mono (fun _ c₁ h => hrest h _) ?_
    rintro (e | _) c₁ h <;> exact h
  · exact hrest (Thins.refl c) _

/-- That nothing is queued, as a law. -/
def keepsQueue : StepLaw where
  Rel c c' := c'.queue = c.queue
  refl _ := rfl
  trans h h' := h'.trans h
  modifyExpr _ _ _ _ := rfl
  emit _ _ := rfl
  types _ _ := rfl
  copy _ _ _ := rfl

theorem allocCall_thins (d : DefId) (args : List ExprId) (span : Span) :
    Outcome (allocCall d args span) c (fun _ => c.Thins) fun _ => c.Thins := by
  have hqueue : Outcome (allocCall d args span) c (fun _ c' => c'.queue = c.queue)
      fun _ c' => c'.queue = c.queue := by
    simp only [allocCall, outcome_bind, outcome_allocExpr]
    exact keepsQueue.obeys_createCall d args span c
  refine ((allocCall_calm d args span).and hqueue).mono ?_ ?_
  · rintro _ c' ⟨hcalm, hqueue⟩
    exact hcalm.thins hqueue
  · rintro _ c' ⟨⟨-, -, -, hcalm⟩, hqueue⟩
    exact hcalm.thins hqueue

/-- That runs become fewer, as a watch. -/
def thinning (hthins : ∀ id, ThinsRuns (resolveRun id)) (terms : List ExprId) :
    Watch resolveRun terms where
  Rel := Thins
  Stops c _ c' := c.Thins c'
  refl := Thins.refl
  trans := Thins.trans
  later := Thins.trans
  refuse c _ _ _ := Thins.refl c
  call _ := allocCall_thins
  missing c span :=
    (calm_allocExpr (e := .new .missingArg .hole span) c nofun nofun).thins rfl
  classify _ _ _ := classify_thins hthins _

theorem thins_reportNew (c : Compilation) (error : CompileError) :
    c.Thins (Compilation.reportNew { c with isValid := false } error) := by
  have hinvalid : c.Thins { c with isValid := false } :=
    { size := le_rfl, span := fun _ _ => rfl, declared := fun _ _ => rfl, run := fun _ _ => id,
      diagnostics := List.prefix_rfl, queue := rfl }
  unfold reportNew
  split
  · exact hinvalid
  · exact { hinvalid with diagnostics := List.prefix_append _ _ }

theorem markFailed_thins (id : ExprId) (error : CompileError) :
    Outcome (markFailed id error) c (fun _ => c.Thins) fun _ => c.Thins := by
  simp only [markFailed, outcome_bind, outcome_modifyExpr, outcome_modify]
  have hfailed := thins_replaceBy (c := c) (e := .sentinel .syntaxError .origin)
    (fun _ h => by cases h) id
  exact hfailed.trans (thins_reportNew _ error)

/-- **Resolving a run** brings no run about. -/
theorem resolveWithin_thins (depth : Nat) : ∀ id, ThinsRuns (resolveWithin depth id) := by
  -- On the depth of nesting: a run is resolved with what resolves the runs among its terms.
  induction depth with
  | zero => exact fun id c => Thins.refl c
  | succ depth ih =>
    intro id c
    simp only [resolveWithin, resolveNode, outcome_bind, outcome_expr]
    split
    · rename_i ts hk
      have hterms := ((thinning ih ts).goes_resolveTerms (c.arena.expr id).span c).and
        (resolveTerms_settled (resolveWithin_outcome depth) ts (c.arena.expr id).span)
      simp only [outcome_bind, outcome_attempt]
      refine hterms.mono ?_ ?_
      · rintro e c₁ ⟨hthins, -, -, he⟩
        simp only [outcome_modifyExpr, outcome_expr, outcome_emit]
        have hrun : ∀ us, e.kind ≠ .run us := fun us hk => by simp [hk, ExprKind.isSettled] at he
        exact (hthins.trans (thins_replaceBy hrun id)).trans ((calm_emit _ _).thins rfl)
      · rintro (error | _) c₁ ⟨hthins, -⟩
        · simp only [outcome_throw]
          exact (markFailed_thins id error).mono (fun _ _ => hthins.trans) fun _ _ => hthins.trans
        · exact hthins
    · exact Thins.refl c

theorem resolve_thins (id : ExprId) : ThinsRuns (resolve id) :=
  fun c => resolveWithin_thins (c.arena.exprs.size + 1) id c

/-! ## Single runs -/

/-- **A run that is resolved** is no minus sign. -/
theorem resolveWithin_ne_minusSign (depth : Nat) {ts : List ExprId}
    (hk : (c.arena.expr id).kind = .run ts) :
    Outcome (resolveWithin depth id) c (fun _ c' => (c'.arena.expr id).kind ≠ .minusSign)
      fun _ _ => True := by
  cases depth with
  | zero => trivial
  | succ depth =>
    refine (resolveNode_becomes (resolveWithin_outcome depth) hk).imp ?_
    rintro _ c' ⟨-, e, he, hkind⟩
    rw [hkind]
    exact he.ne_minusSign

/-! ## Queues -/

/-- Anything but a run is left alone. -/
theorem resolve_of_ne_run (h : ∀ ts, (c.arena.expr id).kind ≠ .run ts) :
    resolve id c = .ok () c := by
  have hskip : Outcome (resolve id) c (fun _ c' => c' = c) fun _ _ => False := by
    simp only [resolve, resolveWithin, resolveNode, outcome_bind, outcome_arena, outcome_expr]
    trivial
  obtain ⟨⟨⟩, c', hok, rfl⟩ := hskip.exists_ok
  exact hok

/-- A queue without runs changes nothing. -/
theorem resolveEach_of_ne_run {ids : List ExprId}
    (h : ∀ id ∈ ids, ∀ ts, (c.arena.expr id).kind ≠ .run ts) : resolveEach ids c = .ok 0 c := by
  induction ids with
  | nil => rfl
  | cons id ids ih =>
    obtain ⟨hid, hids⟩ := List.forall_mem_cons.1 h
    simp only [resolveEach, bind, EStateM.bind, CheckM.attempt, resolve_of_ne_run hid, ih hids]
    rfl

/-- **An entry of a queue** is dealt with: afterwards it is no run. -/
theorem resolve_leaves_no_run (hacc : Acc c.TermOf id) :
    Outcome (CheckM.attempt (resolve id)) c
      (fun _ c' => c.Thins c' ∧ ∀ ts, (c'.arena.expr id).kind ≠ .run ts) fun _ _ => False := by
  rw [outcome_attempt]
  by_cases hrun : ∃ ts, (c.arena.expr id).kind = .run ts
  · obtain ⟨ts, hk⟩ := hrun
    refine (((resolve_calm hk hacc).and (resolve_thins id c)).and
      (resolveWithin_outcome (c.arena.exprs.size + 1) c id)).mono ?_ ?_
    · rintro _ c' ⟨⟨-, hthins⟩, -, hne⟩
      exact ⟨hthins, hne⟩
    · rintro stop c' ⟨⟨⟨error, rfl, hfailed⟩, hthins⟩, -⟩
      exact ⟨hthins, by simp [hfailed.node]⟩
  · have hne : ∀ ts, (c.arena.expr id).kind ≠ .run ts := fun ts hts => hrun ⟨ts, hts⟩
    rw [outcome_of_eq_ok (resolve_of_ne_run hne)]
    exact ⟨Thins.refl c, hne⟩

/-- **A queue is worked off** to its end if runs are nested without a cycle, and no run that was in
it is left. -/
theorem resolveEach_ends (ids : List ExprId) (hacc : ∀ n, Acc c.TermOf n) :
    Outcome (resolveEach ids) c
      (fun _ c' => c.Thins c' ∧ ∀ n ∈ ids, ∀ ts, (c'.arena.expr n).kind ≠ .run ts)
      fun _ _ => False := by
  induction ids generalizing c with
  | nil => exact ⟨Thins.refl c, nofun⟩
  | cons id ids ih =>
    simp only [resolveEach, outcome_bind, outcome_pure]
    refine (resolve_leaves_no_run (hacc id)).imp ?_
    rintro outcome c₁ ⟨hthins, hid⟩
    refine (ih fun n => hthins.acc (hacc n)).imp ?_
    rintro failures c' ⟨hthins', hrest⟩
    exact ⟨hthins.trans hthins', List.forall_mem_cons.2 ⟨hthins'.ne_run hid, hrest⟩⟩

end Termwise
