import Termwise.Proofs.Concretization.StepLaws
import Termwise.Proofs.Concretization.Uses
import Termwise.Proofs.Paired

/-!
# What a walk reports

The steps of a walk report nothing: an error is handed on until the statement or the definition that
it ends up in, and is reported there. What was reported stays on record. So a program that was found
to have types that do not match is lost, whatever a walk that keeps all uses does to it later.

## Main definitions

* `Tacit`: a step that reports nothing
* `Compilation.Lost`: a mismatch was reported
* `recording`: that this stays on record, as a discipline
* `StaysLost`: a part of a walk that keeps the record
-/

namespace Termwise

open Compilation

variable {α β : Type} {c c' : Compilation} {id x : ExprId} {d : DefId} {keeping : Settings}

/-! ## Steps -/

/-- Two states have the same reports. -/
structure Compilation.SameReports (c c' : Compilation) : Prop where
  diagnostics : c'.diagnostics = c.diagnostics
  isValid : c'.isValid = c.isValid

/-- A step that reports nothing. -/
def Tacit (action : CheckM α) : Prop :=
  ∀ c, Outcome action c (fun _ => c.SameReports) fun _ => c.SameReports

/-- That nothing is reported, as a law of the steps of a walk. -/
def tacitly : StepLaw where
  Rel := SameReports
  refl _ := ⟨rfl, rfl⟩
  trans h h' := ⟨h'.diagnostics.trans h.diagnostics, h'.isValid.trans h.isValid⟩
  modifyExpr _ _ _ _ := ⟨rfl, rfl⟩
  emit _ _ := ⟨rfl, rfl⟩
  types _ _ := ⟨rfl, rfl⟩
  copy _ _ _ := ⟨rfl, rfl⟩

theorem tacit_concretizeValue (id : ExprId) : Tacit (concretizeValue id) :=
  StepLaw.obeys_concretizeValue (L := tacitly) id

theorem tacit_coerceTo (id : ExprId) (target : Ty) : Tacit (coerceTo id target) :=
  StepLaw.obeys_coerceTo (L := tacitly) id target

theorem tacit_honourDeclared (id : ExprId) : Tacit (honourDeclared id) :=
  StepLaw.obeys_honourDeclared (L := tacitly) id

theorem tacit_requireNative (id : ExprId) : Tacit (requireNative id) :=
  StepLaw.obeys_requireNative (L := tacitly) id

theorem tacit_typeReference (id : ExprId) (d : DefId) : Tacit (typeReference id d) :=
  StepLaw.obeys_typeReference (L := tacitly) id d

theorem tacit_typeCall (id : ExprId) (calleeType : Ty) (args : List ExprId) :
    Tacit (typeCall id calleeType args) := StepLaw.obeys_typeCall (L := tacitly) id calleeType args

theorem tacit_callNegation (id x : ExprId) : Tacit (callNegation id x) :=
  StepLaw.obeys_callNegation (L := tacitly) id x

/-! ## A mismatch on record -/

/-- **A mismatch was reported**: the program is invalid, and why is on record. -/
structure Compilation.Lost (c : Compilation) : Prop where
  isValid : c.isValid = false
  mismatch : ∃ d ∈ c.diagnostics, d.error.IsMismatch

namespace Compilation

theorem SameReports.lost (h : c.SameReports c') (hc : c.Lost) : c'.Lost :=
  ⟨h.isValid.trans hc.isValid, h.diagnostics ▸ hc.mismatch⟩

theorem Lost.reportNew (h : c.Lost) (e : CompileError) : (c.reportNew e).Lost := by
  obtain ⟨d, hd, hmismatch⟩ := h.mismatch
  unfold Compilation.reportNew
  split
  · exact h
  · refine ⟨?_, d, List.mem_append_left _ hd, hmismatch⟩
    simp only [reportError, report, h.isValid, Bool.false_and]

theorem lost_reportNew {e : CompileError} (h : e.IsMismatch) (c : Compilation) :
    (c.reportNew e).Lost := by
  obtain ⟨expected, found, hcause⟩ := h
  have hreported : e.isAlreadyReported = false := by
    rw [CompileError.isAlreadyReported, hcause]
    rfl
  simp only [Compilation.reportNew, hreported, Bool.false_eq_true, if_false]
  refine ⟨?_, ⟨.error, e⟩, List.mem_append_right _ List.mem_cons_self, expected, found, hcause⟩
  simp [reportError, report, Severity.isError]

end Compilation

/-- What was reported stays on record while all uses are kept, as a discipline. -/
def recording (h : keeping.debugNoInline = true) : Discipline keeping where
  region := Set.univ
  Valid _ := True
  Rel _ c c' := c.Lost → c'.Lost
  refl _ _ hc := hc
  trans h h' := h' ∘ h
  inner h := h
  valid _ _ := trivial
  onward _ _ _ := trivial
  report _ e _ := fun hc => hc.reportNew e
  value _ _ _ _ := (tacit_concretizeValue _ _).mono (fun _ _ h => h.lost) fun _ _ h => h.lost
  coerce _ _ _ _ _ := (tacit_coerceTo _ _ _).mono (fun _ _ h => h.lost) fun _ _ h => h.lost
  retype _ _ _ _ _ _ _ := fun hc => ⟨hc.isValid, hc.mismatch⟩
  replace {c _ id _} _ _ _ _ := by
    rw [substitute_of_debugNoInline h]
    exact fun hc => hc
  negate _ _ _ _ _ := (tacit_callNegation _ _ _).mono (fun _ _ h => h.lost) fun _ _ h => h.lost

/-- A walk that is lost stays so. -/
abbrev StaysLost (action : WalkM α) : Prop :=
  ∀ v : Walk, v.unit.Lost → Outcome action v (fun _ v' => v'.unit.Lost) fun _ v' => v'.unit.Lost

theorem staysLost_of_goes {h : keeping.debugNoInline = true} {active : List DefId}
    {action : WalkM α} {ended : Walk → α → Walk → Prop}
    (hgoes : ∀ v, (recording h).Goes active action v (ended v)) : StaysLost action := fun v hv =>
  Outcome.mono (hgoes v) (fun _ _ h => h.1 hv) fun _ _ h => h hv

theorem Tacit.staysLost {action : CheckM α} (h : Tacit action) :
    StaysLost (liftM action) := by
  intro v hv
  rw [outcome_lift]
  exact (h v.unit).mono (fun _ _ h => h.lost hv) fun _ _ h => h.lost hv

theorem StaysLost.bind {first : WalkM β} {rest : β → WalkM α} (h : StaysLost first)
    (hrest : ∀ b, StaysLost (rest b)) : StaysLost (first >>= rest) := by
  intro v hv
  rw [outcome_bind]
  exact (h v hv).imp fun b v' hv' => hrest b v' hv'

theorem staysLost_pure (a : α) : StaysLost (pure a) := fun _ hv => hv

theorem staysLost_visitor (hkeep : keeping.debugNoInline = true) (rounds : Nat) (id : ExprId) :
    StaysLost ((visitor keeping rounds).expr [] id) :=
  staysLost_of_goes fun v => ((recording hkeep).visitor_goes rounds).expr [] id v trivial trivial

theorem staysLost_visitDefinition (hkeep : keeping.debugNoInline = true) (rounds : Nat)
    (d : DefId) : StaysLost (visitDefinition (visitor keeping rounds) [] d) :=
  staysLost_of_goes fun _ => Discipline.visitDefinition_goes
    ((recording hkeep).visitor_goes rounds) d trivial trivial

theorem staysLost_visitEach {child : ExprId → WalkM Unit} (h : ∀ n, StaysLost (child n))
    (ns : List ExprId) : StaysLost (visitEach child ns) := by
  induction ns with
  | nil => exact staysLost_pure ()
  | cons n ns ih => exact (h n).bind fun _ => ih

theorem staysLost_each {visit : StmtId → WalkM Unit} (h : ∀ s, StaysLost (visit s))
    (ss : List StmtId) : StaysLost (visitStatementWithin.each visit ss) := by
  induction ss with
  | nil => exact staysLost_pure ()
  | cons s ss ih => exact (h s).bind fun _ => ih

end Termwise
