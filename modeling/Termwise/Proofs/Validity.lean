import Termwise.Proofs.Concretization.Reports
import Termwise.Proofs.Run.Failures

/-!
# Validity along a history

A program is invalid if and only if an error is on record. That is so by definition when an error
is reported; but a run that fails because of a term that failed before makes the program invalid
without a word, and it takes a look at how failed terms come about to see that an error is on
record then, too. A failed term stands for a name that nothing defines, which is an error, or for
a run that failed, which is one; all others are copies of these.

## Main definitions

* `Compilation.Step`: one operation on a compilation
* `Compilation.Honest`: the invariant of a history
* `Compilation.Records`: what each operation does to the diagnostics

## Main results

* `Step.records`: each operation keeps a compilation honest and the diagnostics on record
* `isValid_iff_of_reached`: a reached program is invalid if and only if an error is on record
-/

namespace Termwise

open Compilation

namespace Compilation

/-- An error is on record. -/
def HasError (c : Compilation) : Prop := ∃ d ∈ c.diagnostics, d.severity = .error

/-- Some expression is a failed term. -/
def HasFailed (c : Compilation) : Prop := ∃ n, (c.arena.expr n).kind = .syntaxError

/-- **The invariant of a history**: a program is invalid exactly if an error is on record, and that
is so wherever there is a failed term. -/
structure Honest (c : Compilation) : Prop where
  isValid : c.isValid = false ↔ c.HasError
  failed : c.HasFailed → c.HasError

/-- **What an operation does to the diagnostics.** They stay on record, in order; an invalid
program stays invalid, and an honest one honest. -/
structure Records (c c' : Compilation) : Prop where
  diagnostics : c.diagnostics <+: c'.diagnostics
  isValid : c.isValid = false → c'.isValid = false
  honest : c.Honest → c'.Honest

/-- A compilation that runs an action to its end, or until it stops. -/
def after {α : Type} (c : Compilation) (action : CheckM α) : Compilation :=
  match action c with
  | .ok _ c' | .error _ c' => c'

/-- **One operation on a compilation.** Tables are built in any way that brings no failed term
about by itself; a pass counts whether it ends or stops. -/
inductive Step : Compilation → Compilation → Prop where
  | build {c : Compilation} (types : TypeStore) (arena : Arena)
    (h : (∃ n, (arena.expr n).kind = .syntaxError) → c.HasFailed) :
    Step c { c with types, arena }
  | unknownName (c : Compilation) (cause : Cause) (span : Span) :
    Step c (c.unknownName cause span).2
  | report (c : Compilation) (d : Diagnostic) : Step c (c.report d)
  | allocRun (c : Compilation) (terms : List ExprId) (span : Span) :
    Step c (c.allocRun terms span).2
  | enqueue (c : Compilation) (id : ExprId) : Step c (c.enqueue id)
  | resolve (c : Compilation) (id : ExprId) : Step c (c.after (resolve id))
  | resolveAll (c : Compilation) : Step c (c.after resolveAll)
  | substitute (c : Compilation) (settings : Settings) (id : ExprId) :
    Step c (c.after (substitute settings id))
  | concretize (c : Compilation) (settings : Settings) (id : ExprId) :
    Step c (c.after (concretize settings id))
  | concretizeAll (c : Compilation) (settings : Settings) :
    Step c (c.after (concretizeAll settings))
  | check (c : Compilation) (settings : Settings) : Step c (c.after (check settings))

variable {c c' c'' : Compilation} {α : Type}

theorem Records.refl (c : Compilation) : c.Records c := ⟨List.prefix_rfl, id, id⟩

theorem Records.trans (h : c.Records c') (h' : c'.Records c'') : c.Records c'' :=
  ⟨h.diagnostics.trans h'.diagnostics, h'.isValid ∘ h.isValid, h'.honest ∘ h.honest⟩

/-- What reports nothing and brings no failed term about. -/
theorem records_of_same (hd : c'.diagnostics = c.diagnostics) (hv : c'.isValid = c.isValid)
    (hfailed : c'.HasFailed → c.HasFailed) : c.Records c' := by
  have herror : c'.HasError ↔ c.HasError := by rw [HasError, hd, HasError]
  refine ⟨hd ▸ List.prefix_rfl, fun h => hv.trans h, fun h => ⟨?_, fun hn => ?_⟩⟩
  · rw [hv, herror]
    exact h.isValid
  · exact herror.2 (h.failed (hfailed hn))

/-- What is invalid with an error on record is honest, whatever is in the tables. -/
theorem Honest.of_hasError (hv : c.isValid = false) (h : c.HasError) : c.Honest :=
  ⟨⟨fun _ => h, fun _ => hv⟩, fun _ => h⟩

theorem honest_new : new.Honest where
  isValid := by simp [new, HasError]
  failed := by
    rintro ⟨n, hn⟩
    rw [Arena.expr_of_size_le (Nat.zero_le _)] at hn
    cases hn

/-! ## Reports -/

theorem records_report (c : Compilation) (d : Diagnostic) : c.Records (c.report d) := by
  refine ⟨List.prefix_append _ _, fun h => by simp [report, h], fun h => ?_⟩
  have hold : c.HasError → (c.report d).HasError := by
    rintro ⟨e, he, hs⟩
    exact ⟨e, List.mem_append_left _ he, hs⟩
  cases hd : d.severity.isError with
  | true =>
    have hs : d.severity = .error := by
      cases hs : d.severity <;> simp [hs, Severity.isError] at hd ⊢
    refine .of_hasError (by simp [report, hd]) ⟨d, List.mem_append_right _ ?_, hs⟩
    exact List.mem_singleton_self d
  | false =>
    refine ⟨?_, fun hn => hold (h.failed hn)⟩
    have hv : (c.report d).isValid = c.isValid := by simp [report, hd]
    rw [hv, h.isValid]
    refine ⟨hold, ?_⟩
    rintro ⟨e, he, hs⟩
    rcases List.mem_append.1 he with he | he
    · exact ⟨e, he, hs⟩
    · cases List.mem_singleton.1 he
      simp [hs, Severity.isError] at hd

theorem records_reportNew (c : Compilation) (e : CompileError) : c.Records (c.reportNew e) := by
  unfold reportNew
  split
  · exact Records.refl c
  · exact records_report c _

/-! ## Passes -/

theorem Calm.records (h : c.Calm c') : c.Records c' := by
  refine records_of_same h.diagnostics h.isValid ?_
  rintro ⟨n, hn⟩
  exact ⟨n, h.failed n hn⟩

/-- A run that failed makes the program invalid; if that was not reported, an earlier failure
was. -/
theorem Failed.records {id : ExprId} {error : CompileError} (h : c.Failed id error c') :
    c.Records c' := by
  obtain ⟨origin, hfails, hd⟩ := h.recorded
  rw [RecordsOnly] at hd
  refine ⟨hd ▸ List.prefix_append _ _, fun _ => h.isValid, fun hc => .of_hasError h.isValid ?_⟩
  cases origin with
  | some e => exact ⟨⟨.error, e⟩, by simp [hd], rfl⟩
  | none =>
    obtain ⟨n, -, hn⟩ := hfails.exists_failed rfl
    rw [HasError, hd, Option.toList_none, List.map_nil, List.append_nil]
    exact hc.failed ⟨n, hn⟩

/-- An action keeps the record, whether it ends or stops. -/
def KeepsRecord (action : CheckM α) : Prop :=
  ∀ c, Outcome action c (fun _ => c.Records) fun _ => c.Records

theorem KeepsRecord.after {action : CheckM α} (h : KeepsRecord action) (c : Compilation) :
    c.Records (c.after action) := by
  have hc := h c
  unfold Outcome at hc
  unfold Compilation.after
  split at hc <;> rename_i heq <;> rw [heq] <;> exact hc

theorem keepsRecord_resolve (id : ExprId) : KeepsRecord (Termwise.resolve id) := by
  intro c
  simp only [Termwise.resolve, outcome_bind, outcome_arena]
  by_cases hrun : ∃ ts, (c.arena.expr id).kind = .run ts
  · obtain ⟨ts, hk⟩ := hrun
    refine (resolveWithin_reports _ c id ts hk).mono (fun _ _ h => h.1.records) ?_
    rintro (_ | _) c' h
    · exact Failed.records h
    · exact h.1.records
  · have hne : ∀ ts, (c.arena.expr id).kind ≠ .run ts := fun ts hts => hrun ⟨ts, hts⟩
    simp only [resolveWithin, resolveNode, outcome_bind, outcome_expr]
    exact Records.refl c

theorem keepsRecord_resolveEach (ids : List ExprId) : KeepsRecord (resolveEach ids) := by
  induction ids with
  | nil => exact Records.refl
  | cons id ids ih =>
    intro c
    have hrest (c₁ : Compilation) (h : c.Records c₁) (outcome : Except CompileError Unit) :
        Outcome (do
          let failures ← resolveEach ids
          return (if outcome.isOk then failures else failures + 1)) c₁ (fun _ => c.Records)
          fun _ => c.Records := by
      rw [outcome_bind]
      exact (ih c₁).mono (fun _ _ => h.trans) fun _ _ => h.trans
    rw [resolveEach, outcome_bind, outcome_attempt]
    refine (keepsRecord_resolve id c).mono (fun _ c₁ h => hrest c₁ h _) ?_
    rintro (_ | _) c₁ h
    · exact hrest c₁ h _
    · exact h

theorem keepsRecord_resolveAll : KeepsRecord Termwise.resolveAll := by
  intro c
  simp only [Termwise.resolveAll, outcome_bind, outcome_get, outcome_modify, outcome_emit]
  have hemptied : c.Records { c with queue := [] } := records_of_same rfl rfl id
  refine (keepsRecord_resolveEach c.queue _).mono (fun failures c₁ h => ?_) fun _ _ => hemptied.trans
  exact (hemptied.trans h).trans (records_of_same rfl rfl id)

/-! ## Walks -/

/-- A change that reports nothing and brings no failed term about. -/
def harmless : StepLaw where
  Rel c c' := c.SameReports c' ∧ (c'.HasFailed → c.HasFailed)
  refl _ := ⟨⟨rfl, rfl⟩, id⟩
  trans h h' := ⟨⟨h'.1.diagnostics.trans h.1.diagnostics, h'.1.isValid.trans h.1.isValid⟩,
    h.2 ∘ h'.2⟩
  modifyExpr c id f hf := by
    refine ⟨⟨rfl, rfl⟩, ?_⟩
    rintro ⟨n, hn⟩
    simp only [modifyArena, Arena.expr_modifyExpr] at hn
    split at hn <;> rename_i heq
    · rw [heq.1] at hn
      rcases hf with hkind | hvalue
      · exact ⟨id, hkind.symm.trans hn⟩
      · simp [hn, ExprKind.isSentinel] at hvalue
    · exact ⟨n, hn⟩
  emit _ _ := ⟨⟨rfl, rfl⟩, id⟩
  types _ _ := ⟨⟨rfl, rfl⟩, id⟩
  copy c id b := by
    refine ⟨⟨rfl, rfl⟩, fun hfailed => ?_⟩
    by_contra hnone
    -- A tree without failed terms has copies without any.
    have hkinds : c.arena.Encloses Set.univ (· ≠ .syntaxError) :=
      ⟨fun _ _ _ _ => trivial, fun n _ hn => hnone ⟨n, hn⟩, fun _ _ => trivial⟩
    have hcopied := Arena.copyWithin_encloses (fun k k' hk hne => ?_) c.arena.exprs.size b c.arena
      hkinds trivial
    · obtain ⟨n, hn⟩ := hfailed
      simp only [modifyArena, Arena.replaceExpr, Arena.expr_modifyExpr] at hn
      split at hn
      · exact hcopied.kind hn
      · exact hcopied.encloses.kind n trivial hn
    · cases hk with
      | refl => exact hne
      | call | negated | run => exact nofun

theorem records_of_harmless (h : harmless.Rel c c') : c.Records c' :=
  records_of_same h.1.diagnostics h.1.isValid h.2

theorem keepsRecord_of_obeys {action : CheckM α} (h : harmless.Obeys action) :
    KeepsRecord action := fun c =>
  (h c).mono (fun _ _ => records_of_harmless) fun _ _ => records_of_harmless

theorem keepsRecord_substitute (settings : Settings) (id : ExprId) :
    KeepsRecord (Termwise.substitute settings id) :=
  keepsRecord_of_obeys (StepLaw.obeys_substitute settings id)

/-- That the record is kept, as a discipline. -/
def onRecord (settings : Settings) : Discipline settings where
  region := Set.univ
  Valid _ := True
  Rel _ c c' := c.Records c'
  refl _ := Records.refl
  trans := Records.trans
  inner h := h
  valid _ _ := trivial
  onward _ _ _ := trivial
  report {c} _ e _ := records_reportNew c e
  value _ _ _ _ := keepsRecord_of_obeys (StepLaw.obeys_concretizeValue _) _
  coerce _ _ _ _ _ := keepsRecord_of_obeys (StepLaw.obeys_coerceTo _ _) _
  retype _ _ _ _ _ _ _ := records_of_harmless (harmless.modifyExpr _ _ _ (.inl rfl))
  replace _ _ _ _ := keepsRecord_substitute settings _ _
  negate _ _ _ _ _ := keepsRecord_of_obeys (StepLaw.obeys_callNegation _ _) _

theorem keepsRecord_concretize (settings : Settings) (id : ExprId) :
    KeepsRecord (Termwise.concretize settings id) := by
  intro c
  simp only [Termwise.concretize, outcome_bind, outcome_arena, outcome_runWalk]
  have hgoes := ((onRecord settings).visitor_goes c.arena.rounds).expr [] id ⟨c, []⟩ trivial trivial
  exact Outcome.mono hgoes (fun _ _ h => h.1) fun _ _ h => h

theorem keepsRecord_concretizeAll (settings : Settings) :
    KeepsRecord (Termwise.concretizeAll settings) := fun _ =>
  (onRecord settings).concretizeAll_rel trivial fun _ => trivial

theorem keepsRecord_check (settings : Settings) : KeepsRecord (Termwise.check settings) := by
  intro c
  simp only [Termwise.check, outcome_bind, outcome_get, outcome_emit]
  refine (keepsRecord_resolveAll c).imp fun afterRuns c₁ h₁ => ?_
  refine (keepsRecord_concretizeAll settings c₁).mono (fun afterValues c₂ h₂ => ?_) fun _ _ =>
    h₁.trans
  exact (h₁.trans h₂).trans (records_of_same rfl rfl id)

/-! ## Histories -/

/-- A name that nothing defines is an error, so the failed term that stands for it is on record. -/
theorem records_unknownName (c : Compilation) (cause : Cause) (span : Span) :
    c.Records (c.unknownName cause span).2 := by
  have hreport := records_report c ⟨.error, ⟨cause, span⟩⟩
  refine ⟨hreport.diagnostics, hreport.isValid, fun _ => .of_hasError ?_ ?_⟩
  · simp [unknownName, reportError, report, allocExpr, Severity.isError]
  · exact ⟨⟨.error, ⟨cause, span⟩⟩, List.mem_append_right _ (List.mem_singleton_self _), rfl⟩

theorem records_allocRun (c : Compilation) (terms : List ExprId) (span : Span) :
    c.Records (c.allocRun terms span).2 := by
  refine records_of_same rfl rfl ?_
  rintro ⟨n, hn⟩
  simp only [allocRun, allocExpr, enqueue, Arena.expr_allocExpr] at hn
  split at hn
  · cases hn
  · exact ⟨n, hn⟩

/-- **Each operation** keeps a compilation honest and the diagnostics on record. -/
theorem Step.records (h : Step c c') : c.Records c' := by
  cases h with
  | build types arena h => exact records_of_same rfl rfl h
  | unknownName cause span => exact records_unknownName c cause span
  | report d => exact records_report c d
  | allocRun terms span => exact records_allocRun c terms span
  | enqueue id => exact records_of_same rfl rfl fun h => h
  | resolve id => exact (keepsRecord_resolve id).after c
  | resolveAll => exact keepsRecord_resolveAll.after c
  | substitute settings id => exact (keepsRecord_substitute settings id).after c
  | concretize settings id => exact (keepsRecord_concretize settings id).after c
  | concretizeAll settings => exact (keepsRecord_concretizeAll settings).after c
  | check settings => exact (keepsRecord_check settings).after c

theorem records_of_steps (h : Relation.ReflTransGen Step c c') : c.Records c' := by
  induction h with
  | refl => exact Records.refl c
  | tail _ hstep ih => exact ih.trans hstep.records

end Compilation

/-- **A reached program is invalid if and only if an error is on record.** From then on it stays
invalid, and what was recorded stays on record, in order. -/
theorem isValid_iff_of_reached {c : Compilation}
    (h : Relation.ReflTransGen Compilation.Step Compilation.new c) :
    (c.isValid = false ↔ ∃ d ∈ c.diagnostics, d.severity = .error) ∧
      ∀ c', Relation.ReflTransGen Compilation.Step c c' →
        (c.isValid = false → c'.isValid = false) ∧ c.diagnostics <+: c'.diagnostics :=
  ⟨((records_of_steps h).honest honest_new).isValid, fun _ h' =>
    ⟨(records_of_steps h').isValid, (records_of_steps h').diagnostics⟩⟩

/-- A run of one unknown name, resolved: it fails without a report of its own. -/
def unknownTerm : Compilation :=
  let named := (Compilation.new.unknownName (.unknownIdentifier "x") .origin).2
  (named.allocRun [⟨0⟩] .origin).2.after resolveAll

theorem isValid_iff_unknownTerm :
    Relation.ReflTransGen Compilation.Step Compilation.new unknownTerm ∧
      unknownTerm.isValid = false ∧ ∃ d ∈ unknownTerm.diagnostics, d.severity = .error := by
  have hreached : Relation.ReflTransGen Compilation.Step Compilation.new unknownTerm := by
    rw [unknownTerm]
    exact ((Relation.ReflTransGen.single (.unknownName _ (.unknownIdentifier "x") .origin)).tail
      (.allocRun _ [⟨0⟩] .origin)).tail (.resolveAll _)
  have hinvalid : unknownTerm.isValid = false := by decide +kernel
  exact ⟨hreached, hinvalid, (isValid_iff_of_reached hreached).1.1 hinvalid⟩

end Termwise
