import Termwise.Proofs.Run.Steady

/-!
# The two stacks of a run

A run is read over a stack of operands and a stack of operators. While an operand is due, every
operand that was pushed waits for an operator that was pushed after it, so both stacks are equally
high; once an operator is due there is one operand more. Sections, signs, operators with one
operand and partial reductions all keep to that. So an operand is never taken off an empty stack,
and a run that is read to its end comes to exactly one operand: the error that a run came to
another number of operands cannot arise, whatever the terms are and however the operators bind.

## Main definitions

* `Cause.blamesStacks`: the error about the number of operands
* `Arrangement.Balanced`: the heights of the two stacks
* `Blameless`: an action neither reports that error nor stops for it

## Main results

* `advance_blameless`, `finish_blameless`: the invariant of the reader of a run
* `resolve_never_blames_stacks`, `resolveAll_never_blames_stacks`: the error is unreachable
-/

namespace Termwise

open Compilation

/-! ## Blame -/

/-- Whether a cause is that a run came to another number of operands than one. -/
def Cause.blamesStacks : Cause → Bool
  | .stackNotReduced _ => true
  | _ => false

/-- Whether an action stops because a run came to another number of operands than one. -/
def Stop.blamesStacks : Stop → Bool
  | .error e => e.cause.blamesStacks
  | .cyclic => false

/-- What was reported on the way does not blame the stacks. -/
def Compilation.AddsNoBlame (c c' : Compilation) : Prop :=
  ∃ added, c'.diagnostics = c.diagnostics ++ added ∧
    ∀ d ∈ added, d.error.cause.blamesStacks = false

/-- **An action is blameless**: nothing that it reports blames the stacks, nor does the reason why
it stops; and what it hands over meets a condition. -/
def Blameless {α : Type} (action : CheckM α) (P : α → Prop) : Prop :=
  ∀ c, Outcome action c (fun a c' => c.AddsNoBlame c' ∧ P a)
    fun stop c' => c.AddsNoBlame c' ∧ stop.blamesStacks = false

section

variable {c c' c'' : Compilation} {α β : Type}

theorem addsNoBlame_of_diagnostics (h : c'.diagnostics = c.diagnostics) : c.AddsNoBlame c' :=
  ⟨[], by rw [h, List.append_nil], nofun⟩

theorem Compilation.AddsNoBlame.trans (h : c.AddsNoBlame c') (h' : c'.AddsNoBlame c'') :
    c.AddsNoBlame c'' := by
  obtain ⟨added, hd, hadded⟩ := h
  obtain ⟨added', hd', hadded'⟩ := h'
  refine ⟨added ++ added', by rw [hd', hd, List.append_assoc], fun d hmem => ?_⟩
  exact (List.mem_append.1 hmem).elim (hadded d) (hadded' d)

theorem addsNoBlame_reportNew {e : CompileError} (he : e.cause.blamesStacks = false) :
    c.AddsNoBlame (c.reportNew e) := by
  unfold reportNew
  split
  · exact addsNoBlame_of_diagnostics rfl
  · refine ⟨[⟨.error, e⟩], rfl, fun d hd => ?_⟩
    rw [List.mem_singleton.1 hd]
    exact he

/-! ## Rules -/

variable {action : CheckM α} {P P' : α → Prop}

theorem Blameless.imp (h : Blameless action P) (himp : ∀ a, P a → P' a) : Blameless action P' :=
  fun c => (h c).imp fun a _ hc => ⟨hc.1, himp a hc.2⟩

/-- A sequence is blameless if the rest is after all that the first part hands over. -/
theorem Blameless.bind {first : CheckM β} {rest : β → CheckM α} {Q : β → Prop}
    (h : Blameless first Q) (hrest : ∀ b, Q b → Blameless (rest b) P) :
    Blameless (first >>= rest) P := by
  intro c
  rw [outcome_bind]
  refine (h c).imp fun b c₁ ⟨hc₁, hb⟩ => ?_
  exact (hrest b hb c₁).mono (fun _ _ hc => ⟨hc₁.trans hc.1, hc.2⟩)
    fun _ _ hc => ⟨hc₁.trans hc.1, hc.2⟩

theorem blameless_pure {a : α} (h : P a) : Blameless (pure a) P :=
  fun _ => ⟨addsNoBlame_of_diagnostics rfl, h⟩

theorem blameless_get : Blameless get fun _ => True :=
  fun _ => ⟨addsNoBlame_of_diagnostics rfl, trivial⟩

theorem blameless_arena : Blameless CheckM.arena fun _ => True :=
  fun _ => ⟨addsNoBlame_of_diagnostics rfl, trivial⟩

theorem blameless_expr (id : ExprId) : Blameless (CheckM.expr id) fun _ => True :=
  fun _ => ⟨addsNoBlame_of_diagnostics rfl, trivial⟩

theorem blameless_definition (d : DefId) : Blameless (CheckM.definition d) fun _ => True :=
  fun _ => ⟨addsNoBlame_of_diagnostics rfl, trivial⟩

theorem blameless_modifyExpr (id : ExprId) (f : Expression → Expression) :
    Blameless (CheckM.modifyExpr id f) fun _ => True :=
  fun _ => ⟨addsNoBlame_of_diagnostics rfl, trivial⟩

theorem blameless_emit (event : Event) : Blameless (CheckM.emit event) fun _ => True :=
  fun _ => ⟨addsNoBlame_of_diagnostics rfl, trivial⟩

theorem blameless_fail {cause : Cause} (span : Span) (h : cause.blamesStacks = false) :
    Blameless (CheckM.fail cause span : CheckM α) P :=
  fun _ => ⟨addsNoBlame_of_diagnostics rfl, h⟩

/-- An attempt hands over an error that does not blame the stacks either. -/
theorem Blameless.attempt (h : Blameless action P) :
    Blameless (CheckM.attempt action) fun outcome =>
      ∀ e, outcome = .error e → e.cause.blamesStacks = false := by
  intro c
  rw [outcome_attempt]
  refine (h c).mono (fun a c' hc => ⟨hc.1, nofun⟩) ?_
  rintro (e | _) c' ⟨hc, he⟩
  · refine ⟨hc, fun e' heq => ?_⟩
    cases heq
    exact he
  · exact ⟨hc, rfl⟩

end

/-! ## Calls -/

/-- What refuses a call does not blame the stacks. -/
theorem Stop.RefusesCall.blamesStacks {stop : Stop} (h : stop.RefusesCall) :
    stop.blamesStacks = false := by
  obtain ⟨⟨cause, span⟩, rfl, hcause⟩ := h
  cases cause <;> first | rfl | exact hcause.elim

/-- A call is refused for its arguments, and nothing is reported. -/
theorem blameless_allocCall (d : DefId) (args : List ExprId) (span : Span) :
    Blameless (allocCall d args span) fun _ => True := by
  intro c
  refine (allocCall_steady d args span).mono ?_ ?_
  · exact fun _ _ h => ⟨addsNoBlame_of_diagnostics h.1.diagnostics, trivial⟩
  · exact fun _ _ h => ⟨addsNoBlame_of_diagnostics h.2.diagnostics, h.1.blamesStacks⟩

theorem blameless_allocMissing (span : Span) :
    Blameless (Arrangement.allocMissing span) fun _ => True :=
  fun _ => ⟨addsNoBlame_of_diagnostics rfl, trivial⟩

/-! ## The invariant -/

/-- **The stacks are balanced**: as many operands as operators wait while an operand is due or a
function collects, and one operand more once an operator is due. -/
def Arrangement.Balanced (s : Arrangement) : Prop :=
  s.operands.length = s.operators.length + if s.phase = .operatorDue then 1 else 0

namespace Arrangement

variable {s : Arrangement} {operands : List ExprId} {operators : List PendingOperator}

theorem balanced_start : start.Balanced := rfl

theorem Balanced.of_operatorDue (h : s.Balanced) (hphase : s.phase = .operatorDue) :
    s.operands.length = s.operators.length + 1 := by
  rw [Balanced, if_pos hphase] at h
  exact h

theorem Balanced.of_not_operatorDue (h : s.Balanced) (hphase : s.phase ≠ .operatorDue) :
    s.operands.length = s.operators.length := by
  rw [Balanced, if_neg hphase] at h
  exact h

/-! ## Operands -/

theorem blameless_normalizeOperand (id : ExprId) :
    Blameless (normalizeOperand id) fun _ => True := by
  unfold normalizeOperand
  refine (blameless_expr id).bind fun e _ => ?_
  split
  · exact blameless_get.bind fun _ _ => blameless_allocCall _ _ _
  · exact blameless_pure trivial

theorem blameless_applyCollected (callee : ExprId) (args : List ExprId) :
    Blameless (applyCollected callee args) fun _ => True := by
  unfold applyCollected
  split
  · exact blameless_pure trivial
  · refine blameless_arena.bind fun arena _ => ?_
    dsimp only
    split
    · exact blameless_allocCall _ _ _
    · exact blameless_allocCall _ _ _
    · exact blameless_pure trivial

theorem blameless_applyLeading (operand : ExprId) (leading : List (DefId × Span)) :
    Blameless (applyLeading operand leading) fun _ => True := by
  induction leading generalizing operand with
  | nil => exact blameless_pure trivial
  | cons entry leading ih =>
    exact blameless_get.bind fun _ _ => (blameless_allocCall _ _ _).bind fun applied _ => ih applied

/-- An operand is pushed when one is due, and then an operator is. -/
theorem blameless_pushOperand (h : s.operands.length = s.operators.length) (callee : ExprId)
    (args : List ExprId) :
    Blameless (s.pushOperand callee args) fun s' => s'.phase = .operatorDue ∧ s'.Balanced := by
  refine (blameless_applyCollected callee args).bind fun applied _ => ?_
  refine (blameless_applyLeading applied s.leading).bind fun operand _ => blameless_pure ⟨rfl, ?_⟩
  simp [Balanced, h]

/-! ## Stacks -/

theorem blameless_popOperand (span : Span) (h : 0 < operands.length) :
    Blameless (popOperand span operands) fun popped => operands = popped.1 :: popped.2 := by
  cases operands with
  | nil => cases h
  | cons top rest => exact blameless_pure rfl

/-- **One reduction** makes one operand of two, so two have to wait. -/
theorem blameless_reduce (span : Span) (op : PendingOperator) (h : 2 ≤ operands.length) :
    Blameless (reduce span op operands) fun reduced => reduced.length + 1 = operands.length := by
  unfold reduce
  refine (blameless_popOperand span (by omega)).bind fun right hright => ?_
  subst hright
  rw [List.length_cons] at h
  refine (blameless_popOperand span (by omega)).bind fun left hleft => ?_
  refine blameless_arena.bind fun arena _ => (blameless_allocCall _ _ _).bind fun call _ => ?_
  exact blameless_pure (by simp [hleft])

/-- The operators in front of the next one are reduced, and one operand more than there are
operators left is left. -/
theorem blameless_reduceBefore (span : Span) (next : BindingPower)
    (h : operands.length = operators.length + 1) :
    Blameless (reduceBefore span next operators operands) fun rest =>
      rest.2.length = rest.1.length + 1 := by
  -- On the operators: a reduction takes one off each stack, so the difference stays.
  induction operators generalizing operands with
  | nil => exact blameless_pure h
  | cons top rest ih =>
    unfold reduceBefore
    split
    · exact blameless_pure h
    · rw [List.length_cons] at h
      refine (blameless_reduce span top (by omega)).bind fun reduced hreduced => ih ?_
      omega

theorem blameless_reduceAll (span : Span) (h : operands.length = operators.length + 1) :
    Blameless (reduceAll span operators operands) fun rest => rest.length = 1 := by
  induction operators generalizing operands with
  | nil => exact blameless_pure h
  | cons top rest ih =>
    unfold reduceAll
    rw [List.length_cons] at h
    refine (blameless_reduce span top (by omega)).bind fun reduced hreduced => ih ?_
    omega

/-- A binary operator waits behind one operand more than there are operators. -/
theorem blameless_pushBinary (h : s.operands.length = s.operators.length + 1) (span : Span)
    (op : PendingOperator) : Blameless (s.pushBinary span op) Balanced := by
  unfold pushBinary
  refine (blameless_reduceBefore span op.power h).bind fun rest hrest => ?_
  exact blameless_pure (by simpa [Balanced] using hrest)

/-! ## Terms -/

theorem placeOperandDue_blameless (h : s.operands.length = s.operators.length) (span : Span)
    (term : Term) (hphase : s.phase = .operandDue) :
    Blameless (s.placeOperandDue span term) Balanced := by
  have hlead (leading : List (DefId × Span)) : Balanced { s with leading } := by
    simpa [Balanced, hphase] using h
  cases term with
  | operand id =>
    refine (blameless_normalizeOperand id).bind fun operand _ =>
      blameless_arena.bind fun arena _ => ?_
    dsimp only
    split
    · exact (blameless_pushOperand h operand []).imp fun _ => And.right
    · exact blameless_pure (by simpa [Balanced] using h)
  | minusSign place => exact blameless_get.bind fun _ _ => blameless_pure (hlead _)
  | leading d place => exact blameless_pure (hlead _)
  | trailing d place => exact blameless_fail place rfl
  | binary op =>
    rw [placeOperandDue]
    split <;> rename_i hempty
    -- A section with its left side open: nothing was read before it.
    · have hoperators : s.operators = [] := by
        simp only [Bool.and_eq_true, List.isEmpty_iff] at hempty
        exact hempty.1.2
      refine (blameless_allocMissing op.span).bind fun missing _ => blameless_pushBinary ?_ span op
      simp [hoperators]
    · exact blameless_fail op.span rfl

theorem placeOperatorDue_blameless (h : s.Balanced) (hphase : s.phase = .operatorDue) (span : Span)
    (term : Term) : Blameless (s.placeOperatorDue span term) Balanced := by
  have hlength := h.of_operatorDue hphase
  cases term with
  | operand id => exact (blameless_expr id).bind fun e _ => blameless_fail _ rfl
  | minusSign place =>
    refine blameless_get.bind fun c _ => (blameless_definition _).bind fun definition _ => ?_
    split
    · exact blameless_pushBinary hlength span _
    · exact blameless_fail place rfl
  | leading d place => exact blameless_fail place rfl
  | trailing d place =>
    refine (blameless_popOperand span (by omega)).bind fun popped hpopped => ?_
    refine (blameless_allocCall _ _ _).bind fun applied _ => blameless_pure ?_
    rw [hpopped] at hlength
    simpa [Balanced, hphase] using hlength
  | binary op => exact blameless_pushBinary hlength span op

end Arrangement

/-! ## Runs -/

theorem classifyResolved_blameless (id : ExprId) (span : Span) :
    Blameless (classifyResolved id span) fun _ => True := by
  have hrefresh : Blameless (refreshReference id) fun _ => True := by
    unfold refreshReference
    refine (blameless_expr id).bind fun e _ => ?_
    split
    · exact fun _ => ⟨addsNoBlame_of_diagnostics rfl, trivial⟩
    · exact fun _ => ⟨addsNoBlame_of_diagnostics rfl, trivial⟩
    · exact blameless_pure trivial
  unfold classifyResolved
  refine hrefresh.bind fun _ _ => (blameless_expr id).bind fun e _ => ?_
  split
  · exact blameless_fail span rfl
  · exact blameless_fail span rfl
  · exact blameless_fail span rfl
  · exact blameless_pure trivial
  · rename_i d _
    unfold operatorTerm
    refine (blameless_definition d).bind fun definition _ => ?_
    split <;> exact blameless_pure trivial
  · exact blameless_pure trivial

section

variable {resolveRun : ExprId → CheckM Unit} (hrun : ∀ id, Blameless (resolveRun id) fun _ => True)
include hrun

theorem classify_blameless (id : ExprId) : Blameless (classify resolveRun id) fun _ => True := by
  unfold classify
  refine (blameless_expr id).bind fun e _ => ?_
  split
  · refine (hrun id).attempt.bind fun outcome _ => ?_
    dsimp only
    split
    · exact Blameless.bind (Q := fun _ => True) (blameless_fail _ rfl) fun _ _ =>
        classifyResolved_blameless id _
    · exact classifyResolved_blameless id _
  · exact classifyResolved_blameless id _

/-- **One term more** keeps the stacks balanced. -/
theorem advance_blameless {s : Arrangement} (h : s.Balanced) (span : Span) (id : ExprId) :
    Blameless (Arrangement.advance resolveRun span s id) Arrangement.Balanced := by
  unfold Arrangement.advance
  refine (classify_blameless hrun id).bind fun term _ => ?_
  cases hphase : s.phase with
  | operandDue =>
    have hlength := h.of_not_operatorDue (by simp [hphase])
    exact Arrangement.placeOperandDue_blameless hlength span term hphase
  | operatorDue => exact Arrangement.placeOperatorDue_blameless h hphase span term
  | collecting callee slots args =>
    have hlength := h.of_not_operatorDue (by simp [hphase])
    split
    · contradiction
    · contradiction
    -- The function takes the operand, and is pushed once it has all that it takes.
    · rename_i arg heq
      cases heq
      refine (Arrangement.blameless_normalizeOperand arg).bind fun arg _ => ?_
      dsimp only
      split
      · exact (Arrangement.blameless_pushOperand hlength callee _).imp fun _ => And.right
      · exact blameless_pure (by simpa [Arrangement.Balanced] using hlength)
    -- The function is pushed with what it has, and the term stands where an operator is due.
    · rename_i heq _
      cases heq
      refine (Arrangement.blameless_pushOperand hlength callee args).bind fun s' hs' => ?_
      refine (classify_blameless hrun id).bind fun term _ => ?_
      exact Arrangement.placeOperatorDue_blameless hs'.2 hs'.1 span term

omit hrun in
/-- **The end of a run**: whatever waits comes to one operand. -/
theorem finish_blameless {s : Arrangement} (h : s.Balanced) (span : Span) :
    Blameless (s.finish span) fun _ => True := by
  unfold Arrangement.finish
  extract_lets last
  -- A function that still collects is pushed first, and then the run ends as the others do.
  have hlast : ∀ s : Arrangement, s.Balanced →
      (s.phase = .operandDue ∨ s.phase = .operatorDue) → Blameless (last s) fun _ => True := by
    intro s hs hphase
    dsimp -zeta only [last]
    extract_lets reduced
    have hreduced : ∀ operands : List ExprId, operands.length = s.operators.length + 1 →
        Blameless (reduced operands) fun _ => True := by
      intro operands hoperands
      refine (Arrangement.blameless_reduceAll span hoperands).bind fun rest hrest => ?_
      obtain ⟨result, rfl⟩ := List.length_eq_one_iff.1 hrest
      exact blameless_expr result
    rcases hphase with hphase | hphase
    -- An operator that still waits for its right side gets an open one.
    · have hlength := hs.of_not_operatorDue (by simp [hphase])
      have hrefused (place : Span) :
          Blameless (CheckM.fail .missingOperand place : CheckM (List ExprId))
            fun operands => operands.length = s.operators.length + 1 := blameless_fail place rfl
      split
      · exact (hrefused _).bind hreduced
      · refine (blameless_allocMissing _).bind fun missing _ => ?_
        exact (blameless_pure (P := (· = missing :: s.operands)) rfl).bind fun operands hoperands =>
          hreduced operands (by simp [hoperands, hlength])
      · exact (hrefused span).bind hreduced
      · rename_i hleading hoperators hnone
        cases hl : s.leading with
        | cons entry rest => exact (hleading _ _ _ hphase hl).elim
        | nil =>
          cases ho : s.operators with
          | cons op rest => exact (hoperators _ _ hphase hl ho).elim
          | nil => exact (hnone hphase hl ho).elim
    · simp only [hphase]
      exact (blameless_pure (P := (· = s.operands)) rfl).bind fun operands hoperands =>
        hreduced operands (hoperands ▸ hs.of_operatorDue hphase)
  cases hphase : s.phase with
  | collecting callee slots args =>
    have hlength := h.of_not_operatorDue (by simp [hphase])
    refine (Arrangement.blameless_pushOperand hlength callee args).bind fun s' hs' => ?_
    exact hlast s' hs'.2 (.inr hs'.1)
  | operandDue =>
    refine (blameless_pure (P := (· = s)) rfl).bind fun s' hs' => ?_
    subst hs'
    exact hlast s' h (.inl hphase)
  | operatorDue =>
    refine (blameless_pure (P := (· = s)) rfl).bind fun s' hs' => ?_
    subst hs'
    exact hlast s' h (.inr hphase)

theorem foldlM_advance_blameless {s : Arrangement} (h : s.Balanced) (span : Span)
    (terms : List ExprId) :
    Blameless (terms.foldlM (Arrangement.advance resolveRun span) s) Arrangement.Balanced := by
  induction terms generalizing s with
  | nil => exact blameless_pure h
  | cons id terms ih =>
    rw [List.foldlM_cons]
    exact (advance_blameless hrun h span id).bind fun s' hs' => ih hs'

theorem arrange_blameless (terms : List ExprId) (span : Span) :
    Blameless (arrange resolveRun terms span) fun _ => True :=
  (foldlM_advance_blameless hrun Arrangement.balanced_start span terms).bind fun _ hs =>
    finish_blameless hs span

/-- **Resolving a list of terms** is blameless. -/
theorem resolveTerms_blameless (terms : List ExprId) (span : Span) :
    Blameless (resolveTerms resolveRun terms span) fun _ => True := by
  unfold resolveTerms
  split
  · exact blameless_pure trivial
  · rename_i only
    refine (classify_blameless hrun only).bind fun term _ => ?_
    split
    · exact blameless_fail _ rfl
    · exact blameless_expr only
  · rename_i first second
    refine (blameless_expr first).bind fun e _ => ?_
    -- A minus sign and one operand are kept as they are; all else goes over the stacks.
    split
    · refine (classify_blameless hrun second).bind fun term _ =>
        blameless_arena.bind fun arena _ => ?_
      split
      · split
        · exact blameless_pure trivial
        · exact arrange_blameless hrun _ span
      · exact arrange_blameless hrun _ span
    · exact arrange_blameless hrun _ span
  · exact arrange_blameless hrun _ span

/-- A run that fails is marked as failed, for a reason that is blameless. -/
theorem resolveNode_blameless (id : ExprId) :
    Blameless (resolveNode resolveRun id) fun _ => True := by
  unfold resolveNode
  refine (blameless_expr id).bind fun e _ => ?_
  split
  · rename_i terms _
    refine (resolveTerms_blameless hrun terms e.span).attempt.bind fun outcome houtcome => ?_
    split
    · refine (blameless_modifyExpr id _).bind fun _ _ => (blameless_expr id).bind fun _ _ => ?_
      exact blameless_emit _
    · rename_i error
      have herror : error.cause.blamesStacks = false := houtcome error rfl
      have hmarked : Blameless (markFailed id error) fun _ => True :=
        (blameless_modifyExpr id _).bind fun _ _ c =>
          ⟨addsNoBlame_reportNew (c := { c with isValid := false }) herror, trivial⟩
      exact hmarked.bind fun _ _ c => ⟨addsNoBlame_of_diagnostics rfl, herror⟩
  · exact blameless_pure trivial

end

theorem resolveWithin_blameless (depth : Nat) (id : ExprId) :
    Blameless (resolveWithin depth id) fun _ => True := by
  -- On the depth: what a nested run stops for is blameless, so it may be handed on.
  induction depth generalizing id with
  | zero => exact fun _ => ⟨addsNoBlame_of_diagnostics rfl, rfl⟩
  | succ depth ih => exact resolveNode_blameless ih id

theorem resolve_blameless (id : ExprId) : Blameless (resolve id) fun _ => True :=
  blameless_arena.bind fun _ _ => resolveWithin_blameless _ id

theorem resolveEach_blameless (ids : List ExprId) : Blameless (resolveEach ids) fun _ => True := by
  induction ids with
  | nil => exact blameless_pure trivial
  | cons id ids ih =>
    exact (resolve_blameless id).attempt.bind fun _ _ => ih.bind fun _ _ => blameless_pure trivial

theorem resolveAll_blameless : Blameless resolveAll fun _ => True := by
  refine blameless_get.bind fun c _ => ?_
  refine Blameless.bind (Q := fun _ => True) (fun _ => ⟨addsNoBlame_of_diagnostics rfl, trivial⟩)
    fun _ _ => (resolveEach_blameless c.queue).bind fun failures _ => ?_
  exact (blameless_emit _).bind fun _ _ => blameless_get.bind fun _ _ => blameless_pure trivial

/-! ## The error is unreachable -/

/-- A stop that does not blame the stacks, by its cause. -/
theorem Stop.ne_stackNotReduced {stop : Stop} (h : stop.blamesStacks = false) {e : CompileError}
    (he : stop = .error e) (remaining : Nat) : e.cause ≠ .stackNotReduced remaining := by
  subst he
  intro heq
  simp [Stop.blamesStacks, heq, Cause.blamesStacks] at h

theorem Compilation.AddsNoBlame.ne_stackNotReduced {c c' : Compilation} (h : c.AddsNoBlame c') :
    ∃ added, c'.diagnostics = c.diagnostics ++ added ∧
      ∀ d ∈ added, ∀ remaining, d.error.cause ≠ .stackNotReduced remaining := by
  obtain ⟨added, hd, hadded⟩ := h
  refine ⟨added, hd, fun d hmem remaining heq => ?_⟩
  simpa [heq, Cause.blamesStacks] using hadded d hmem

/-- A blameless action, by the causes of what it reports and of its stop. -/
theorem Blameless.never {α : Type} {action : CheckM α} {P : α → Prop} (h : Blameless action P)
    (c : Compilation) :
    Outcome action c
      (fun _ c' => ∃ added, c'.diagnostics = c.diagnostics ++ added ∧
        ∀ d ∈ added, ∀ remaining, d.error.cause ≠ .stackNotReduced remaining)
      fun stop c' => (∀ e remaining, stop = .error e → e.cause ≠ .stackNotReduced remaining) ∧
        ∃ added, c'.diagnostics = c.diagnostics ++ added ∧
          ∀ d ∈ added, ∀ remaining, d.error.cause ≠ .stackNotReduced remaining := by
  refine (h c).mono (fun _ c' hc => hc.1.ne_stackNotReduced) fun stop c' hc => ?_
  exact ⟨fun e remaining he => Stop.ne_stackNotReduced hc.2 he remaining, hc.1.ne_stackNotReduced⟩

/-- **The error about the number of operands is unreachable.** Whatever a program holds, and
whatever the terms of a run are, how deep runs nest and how the operators among them bind,
resolving a node never stops because a run came to another number of operands than one, and never
reports that for the node or for a run below it. -/
theorem resolve_never_blames_stacks (c : Compilation) (id : ExprId) :
    Outcome (resolve id) c
      (fun _ c' => ∃ added, c'.diagnostics = c.diagnostics ++ added ∧
        ∀ d ∈ added, ∀ remaining, d.error.cause ≠ .stackNotReduced remaining)
      fun stop c' => (∀ e remaining, stop = .error e → e.cause ≠ .stackNotReduced remaining) ∧
        ∃ added, c'.diagnostics = c.diagnostics ++ added ∧
          ∀ d ∈ added, ∀ remaining, d.error.cause ≠ .stackNotReduced remaining :=
  (resolve_blameless id).never c

/-- Nor does resolving all that waits report that error. -/
theorem resolveAll_never_blames_stacks (c : Compilation) :
    Outcome resolveAll c
      (fun _ c' => ∃ added, c'.diagnostics = c.diagnostics ++ added ∧
        ∀ d ∈ added, ∀ remaining, d.error.cause ≠ .stackNotReduced remaining)
      fun stop c' => (∀ e remaining, stop = .error e → e.cause ≠ .stackNotReduced remaining) ∧
        ∃ added, c'.diagnostics = c.diagnostics ++ added ∧
          ∀ d ∈ added, ∀ remaining, d.error.cause ≠ .stackNotReduced remaining :=
  resolveAll_blameless.never c

end Termwise
