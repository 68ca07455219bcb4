import Termwise.Proofs.Run.Arithmetic

/-!
# Precedence and associativity

A run in which operands over numbers and binary operators take turns is always resolved. It becomes
the grouping of its operands by how its operators bind, with no term lost and nothing reported, and
that grouping is well bound: no operator takes an operand that another one binds more tightly.

## Main definitions

* `Arranged`: a node is built after a grouping of operands

## Main results

* `resolve_outcome`: a run is resolved to what its terms come to
* `resolve_alternating`: a run of operands and binary operators is resolved to its grouping
-/

namespace Termwise

open Compilation Grouping

variable {c c' : Compilation} {id n t : ExprId} {terms : List ExprId}

/-! ## Resolution of a run -/

/-- **A run is resolved** to what its terms come to, or else it becomes a failed term. -/
theorem resolve_outcome {ended : Unit → Compilation → Prop} {stopped : Stop → Compilation → Prop}
    (hk : (c.arena.expr id).kind = .run terms)
    (h : Outcome
      (resolveTerms (resolveWithin c.arena.exprs.size) terms (c.arena.expr id).span) c
      (fun e c' => ∀ event,
        ended () ((c'.modifyArena (·.modifyExpr id (·.replaceBy e))).emit event))
      fun stop c' => stop ≠ .cyclic ∧ ∀ c'' : Compilation,
        c''.arena = c'.arena.modifyExpr id (fun e => { e with kind := .syntaxError, ty := .absurd }) →
          stopped stop c'') :
    Outcome (resolve id) c ended stopped := by
  simp only [resolve, outcome_bind, outcome_arena]
  unfold resolveWithin
  simp only [resolveNode, outcome_bind, outcome_expr, hk, outcome_attempt]
  refine h.mono ?_ ?_
  · intro e c' hended
    simp only [outcome_modifyExpr, outcome_emit]
    exact hended _
  · rintro (error | _) c' ⟨hcyclic, hfailed⟩
    · simp only [outcome_bind, markFailed, outcome_modifyExpr, outcome_modify, outcome_throw]
      apply hfailed
      unfold reportNew
      split <;> rfl
    · exact (hcyclic rfl).elim

/-- A run of three terms or more is arranged. -/
theorem resolveTerms_of_le (resolveRun : ExprId → CheckM Unit) (span : Span)
    (h : 3 ≤ terms.length) :
    resolveTerms resolveRun terms span = arrange resolveRun terms span := by
  match terms, h with
  | _ :: _ :: _ :: _, _ => rfl

/-! ## Groupings of operands -/

/-- A node is built after a grouping: a call for each operator, over the operands themselves. -/
inductive Arranged (c : Compilation) : Grouping ExprId → ExprId → Prop where
  | operand (n : ExprId) : Arranged c (single n) n
  | call {left right : Grouping ExprId} {o : Joint} {x y n : ExprId}
    (hk : (c.arena.expr n).kind = .call o.callee [x, y]) (hleft : Arranged c left x)
    (hright : Arranged c right y) : Arranged c (join left o right) n

theorem Arranged.extends {tree : Grouping ExprId} (h : Arranged c tree n) (hc : c.Extends c') :
    Arranged c' tree n := by
  induction h with
  | operand n => exact .operand n
  | call hk _ _ ihl ihr =>
    refine .call ?_ ihl ihr
    rw [hc.kind _ (by rw [hk]; rfl), hk]

/-- A node that becomes of the kind of a call is built after the grouping of that call. -/
theorem Arranged.of_kind_eq {left right : Grouping ExprId} {o : Joint} {m : ExprId}
    (h : Arranged c (join left o right) n) (hc : c.Extends c')
    (hk : (c'.arena.expr m).kind = (c.arena.expr n).kind) :
    Arranged c' (join left o right) m := by
  cases h with
  | call hkn hleft hright => exact .call (hk.trans hkn) (hleft.extends hc) (hright.extends hc)

variable {Num : Ty → Prop} {bound : Nat}

/-- The node of an operand with nothing applied to it is the operand. -/
theorem Realizes.eq_of_atom (h : Realizes Num bound c (single (some (.atom t))) n) : n = t := by
  generalize hp : Phrase.atom t = p at h
  cases h with
  | atom =>
    have hhead := congrArg Phrase.head hp
    exact hhead.symm
  | sign =>
    have hsigns := congrArg Phrase.signs hp
    cases hsigns
  | trail =>
    have htrails := congrArg Phrase.trails hp
    simp [Phrase.atom] at htrails

theorem Realizes.arranged {tree : Grouping ExprId}
    (h : Realizes Num bound c (tree.map fun t => some (.atom t)) n) : Arranged c tree n := by
  induction tree generalizing n with
  | single t =>
    obtain rfl := h.eq_of_atom
    exact .operand n
  | join left o right ihl ihr =>
    cases h with
    | join hk hleft hright => exact .call hk (ihl hleft) (ihr hright)

/-! ## Runs of operands and binary operators -/

theorem NumberOperator.exists_joint (h : NumberOperator c t) : ∃ o, o.term = t ∧ c.Joins o := by
  cases h with
  | @binary d precedence associativity hop hty =>
    refine ⟨⟨t, d, ⟨precedence, associativity⟩⟩, rfl, ?_, ?_⟩
    · rw [Settled, hop.1]
      rfl
    · rw [role_of_refersTo hop]
      rfl
  | @minusSign binding hk hop hty =>
    refine ⟨⟨t, c.builtins.minus, binding⟩, rfl, ?_, ?_⟩
    · rw [Settled, hk]
      rfl
    · simp only [role, hk, hop]
      rfl

/-- The operators of a run, with what is known of them by their definitions. -/
theorem exists_joints {rest : List (ExprId × ExprId)} (h : ∀ x ∈ rest, NumberOperator c x.1) :
    ∃ joints : List (Joint × ExprId), rest = joints.map (fun x => (x.1.term, x.2)) ∧
      ∀ x ∈ joints, c.Joins x.1 := by
  induction rest with
  | nil => exact ⟨[], rfl, by simp⟩
  | cons x rest ih =>
    obtain ⟨hx, hrest⟩ := List.forall_mem_cons.1 h
    obtain ⟨o, ho, hjoins⟩ := hx.exists_joint
    obtain ⟨joints, rfl, hjoints⟩ := ih hrest
    refine ⟨(o, x.2) :: joints, ?_, List.forall_mem_cons.2 ⟨hjoins, hjoints⟩⟩
    rw [List.map_cons, ho]

/-- A run of operands with binary operators between them has the grouping of its operands as its
plan. -/
theorem planned_alternating {applies : Prop} {role : ExprId → Role} {first : ExprId}
    {joints : List (Joint × ExprId)} (hfirst : role first = .operand)
    (hjoints : ∀ x ∈ joints, (role x.1.term).joint? x.1.term = some x.1 ∧ role x.2 = .operand) :
    Planned applies role (first :: joints.flatMap fun x => [x.1.term, x.2])
      ((Grouping.ofRun first joints).map fun t => some (.atom t)) := by
  have hatom : ∀ {t}, role t = .operand → (Phrase.atom t).Fits role := fun ht =>
    ⟨by simp [Phrase.atom], ht, rfl, by simp [Phrase.atom]⟩
  have hrest : ∀ x ∈ joints.map fun x => (x.1, Phrase.atom x.2),
      (role x.1.term).joint? x.1.term = some x.1 ∧ x.2.Fits role := by
    intro x hx
    obtain ⟨y, hy, rfl⟩ := List.mem_map.1 hx
    exact ⟨(hjoints y hy).1, hatom (hjoints y hy).2⟩
  have hplan : Planned applies role _ _ := planned_ofRun (hatom hfirst) hrest
  rw [List.flatMap_map, List.map_map] at hplan
  rw [Grouping.ofRun, map_appendAll]
  exact hplan

theorem numberTerm_alternating {Num : Ty → Prop} {first : ExprId} {rest : List (ExprId × ExprId)}
    (hfirst : NumberOperand Num c first)
    (hrest : ∀ x ∈ rest, NumberOperator c x.1 ∧ NumberOperand Num c x.2) :
    ∀ t ∈ first :: rest.flatMap (fun x => [x.1, x.2]), NumberTerm Num False c t := by
  intro t ht
  rcases List.mem_cons.1 ht with rfl | ht
  · exact .operand hfirst
  · obtain ⟨x, hx, ht⟩ := List.mem_flatMap.1 ht
    obtain ⟨ho, ha⟩ := hrest x hx
    rcases List.mem_pair.1 ht with rfl | rfl
    · exact .operator ho False.elim
    · exact .operand ha

/-- The grouping of a run with an operator has one at its root. -/
theorem exists_join_ofRun {α : Type} (first : α) {joints : List (Joint × α)} (h : joints ≠ []) :
    ∃ left o right, Grouping.ofRun first joints = join left o right := by
  cases htree : Grouping.ofRun first joints with
  | single a =>
    have hjoints := joints_appendAll (single first) joints
    rw [← Grouping.ofRun, htree] at hjoints
    simp_all [Grouping.joints]
  | join left o right => exact ⟨left, o, right, rfl⟩

/-- A run of operands with binary operators between them becomes the calls of its grouping. -/
theorem resolve_joints {first : ExprId} {joints : List (Joint × ExprId)}
    (hk : (c.arena.expr id).kind =
      .run (first :: (joints.map fun x => (x.1.term, x.2)).flatMap fun x => [x.1, x.2]))
    (hne : joints ≠ []) (hfirst : NumberOperand (·.numeric = .yes) c first)
    (hterms : ∀ x ∈ joints.map fun x => (x.1.term, x.2),
      NumberOperator c x.1 ∧ NumberOperand (·.numeric = .yes) c x.2)
    (hjoints : ∀ x ∈ joints, c.Joins x.1) :
    Outcome (resolve id) c
      (fun _ c' => c'.diagnostics = c.diagnostics ∧ c'.isValid = c.isValid ∧
        Arranged c' (Grouping.ofRun first joints) id) fun _ _ => False := by
  have hNum : IsNumberClass (·.numeric = .yes) := ⟨fun h => h, rfl⟩
  have hroles : ∀ x ∈ joints,
      (c.role x.1.term).joint? x.1.term = some x.1 ∧ c.role x.2 = .operand := fun x hx =>
    ⟨(hjoints x hx).2, (hterms _ (List.mem_map_of_mem hx)).2.role⟩
  -- No term leads an operand, so no minus sign is a negation.
  have hsigns : Sketch.SignsAre (fun _ => False) False c.role .start
      (first :: (joints.map fun x => (x.1.term, x.2)).flatMap fun x => [x.1, x.2]) := by
    refine Sketch.signsAre_alternating [] hfirst.role fun x hx => ?_
    obtain ⟨y, hy, rfl⟩ := List.mem_map.1 hx
    exact ⟨⟨y.1, (hroles y hy).1⟩, (hroles y hy).2⟩
  have hplan : Planned False c.role _ _ := planned_alternating hfirst.role hroles
  have hall := numberTerm_alternating hfirst hterms
  rw [List.flatMap_map] at hk hall hsigns
  have harrange := arrange_arithmetic hNum (resolveWithin c.arena.exprs.size)
    (c.arena.expr id).span hall False.elim (.inr hsigns)
  obtain ⟨left, o, right, htree⟩ := exists_join_ofRun first hne
  refine resolve_outcome hk ?_
  rw [resolveTerms_of_le]
  · refine harrange.mono ?_ ?_
    · rintro e c₁ ⟨hquiet, plan, n, hplanned, hn, rfl⟩ event
      obtain rfl := hplanned.unique hplan
      have hrun := hquiet.kind_eq hk (by simp)
      have hlt : id.index < c₁.arena.exprs.size := Arena.lt_size_of_kind_ne (by simp [hrun])
      refine ⟨hquiet.diagnostics, hquiet.isValid, ?_⟩
      have harranged := hn.arranged
      rw [htree] at harranged ⊢
      refine harranged.of_kind_eq
        ((extends_modifyExpr_run hrun).trans (steady_emit _ event).extends) ?_
      simp only [emit, modifyArena, Arena.expr_modifyExpr_self hlt]
      rfl
    · -- An exact account refuses what is open below its root only, and nothing is open here.
      rintro stop c₁ ⟨-, hnone⟩
      exact (hnone ⟨_, hplan, (Plan.whole_map _ _).openAtRoot⟩).elim
  · cases joints with
    | nil => exact (hne rfl).elim
    | cons x joints => simp

/-- **A run of operands with binary operators between them** is resolved, and nothing is reported.
It becomes the calls of a grouping that has its operands and operators in their order, and in which
no operator takes an operand that another one binds more tightly. -/
theorem resolve_alternating {first : ExprId} {rest : List (ExprId × ExprId)}
    (hk : (c.arena.expr id).kind = .run (first :: rest.flatMap fun x => [x.1, x.2]))
    (hrest : rest ≠ []) (hfirst : NumberOperand (·.numeric = .yes) c first)
    (hterms : ∀ x ∈ rest, NumberOperator c x.1 ∧ NumberOperand (·.numeric = .yes) c x.2) :
    ∃ c' tree, resolve id c = .ok () c' ∧
      c'.diagnostics = c.diagnostics ∧ c'.isValid = c.isValid ∧ Arranged c' tree id ∧
      tree.operands = first :: rest.map Prod.snd ∧
      tree.flatten (fun t => [t]) = (first :: rest.flatMap fun x => [x.1, x.2]) ∧
      (∀ o ∈ tree.joints, c.Joins o) ∧ tree.WellBound := by
  obtain ⟨joints, rfl, hjoints⟩ := exists_joints fun x hx => (hterms x hx).1
  have hne : joints ≠ [] := by
    rintro rfl
    exact hrest rfl
  obtain ⟨_, c', hok, hdiagnostics, hvalid, harranged⟩ :=
    (resolve_joints hk hne hfirst hterms hjoints).exists_ok
  refine ⟨c', Grouping.ofRun first joints, hok, hdiagnostics, hvalid, harranged, ?_, ?_, ?_,
    wellBound_ofRun first joints⟩
  · rw [Grouping.ofRun, operands_appendAll, List.map_map]
    rfl
  · rw [Grouping.ofRun, flatten_appendAll, List.flatMap_map]
    rfl
  · intro o ho
    rw [Grouping.ofRun, joints_appendAll] at ho
    obtain ⟨x, hx, rfl⟩ := List.mem_map.1 ho
    exact hjoints x hx

/-- The run `1 - x * (unary_minus 1)` over an integer `x`. -/
def subtractedProduct : Compilation :=
  .ofRun [⟨"x", .builtin, some .int, none, .origin⟩]
    [.new (.value (.int 1)) .int .origin, .new .minusSign .hole .origin,
      .new (.reference ⟨9⟩) .hole .origin, .new (.operator ⟨3⟩) .hole .origin,
      .new (.call ⟨7⟩ [⟨0⟩]) .int .origin]

theorem resolve_subtractedProduct :
    ∃ c' tree, resolve ⟨5⟩ subtractedProduct = .ok () c' ∧
      c'.diagnostics = [] ∧ c'.isValid = true ∧ Arranged c' tree ⟨5⟩ ∧
      tree.operands = [⟨0⟩, ⟨2⟩, ⟨4⟩] ∧
      tree.flatten (fun t => [t]) = [⟨0⟩, ⟨1⟩, ⟨2⟩, ⟨3⟩, ⟨4⟩] ∧
      (∀ o ∈ tree.joints, subtractedProduct.Joins o) ∧ tree.WellBound := by
  have hbody : ∀ n, ¬ subtractedProduct.IsBody n := not_isBody_ofRun (by simp) _
  have hbinding : (subtractedProduct.arena.definition subtractedProduct.builtins.minus).binding? =
      some ⟨1, .left⟩ := rfl
  have hminus : NumberOperator subtractedProduct ⟨1⟩ := .minusSign rfl hbinding ⟨true, rfl⟩
  have htimes : NumberOperator subtractedProduct ⟨3⟩ :=
    .binary ⟨rfl, rfl⟩ ⟨true, rfl⟩ fun h => (hbody _ h).elim
  have hx : NumberOperand (·.numeric = .yes) subtractedProduct ⟨2⟩ :=
    .reference rfl rfl fun h => (hbody _ h).elim
  have hcall : NumberOperand (·.numeric = .yes) subtractedProduct ⟨4⟩ :=
    .call ⟨rfl, rfl, by decide, fun b h => by cases h⟩ rfl
  have hterms : ∀ x ∈ [((⟨1⟩, ⟨2⟩) : ExprId × ExprId), (⟨3⟩, ⟨4⟩)],
      NumberOperator subtractedProduct x.1 ∧
        NumberOperand (·.numeric = .yes) subtractedProduct x.2 := by
    simp [hminus, htimes, hx, hcall]
  refine resolve_alternating (c := subtractedProduct) ?_ (by simp) (.value rfl rfl) hterms
  rfl

end Termwise
