import Termwise.Proofs.Concretization.Walk

/-!
# What the walk has seen

A walk that leaves the program valid has walked what it was asked to walk, and all that this leads
to. The walk of an expression enters the bodies of the definitions in use, and goes on in copies of
them; the bodies it is in the middle of are the *active* ones, and it does not enter them again.

## Main definitions

* `Arena.Mentions`: the expressions that a statement shows, binds or returns
* `Visits`, `Visitor.Sound`: ways to walk expressions and statements that keep the gate

## Main results

* `visitExpr_visits`: one expression
* `visitor_sound`: the walk, with any number of rounds
-/

namespace Termwise

open Compilation

/-- An expression stands in a statement: as it is, as a result, as the body of a definition that is
bound there, or in a statement of a block. -/
inductive Arena.Mentions (a : Arena) : StmtId → ExprId → Prop where
  | expression {s : StmtId} {e : ExprId} (h : (a.stmt s).kind = .expression e) : Mentions a s e
  | result {s : StmtId} {e : ExprId} (h : (a.stmt s).kind = .result e) : Mentions a s e
  | bind {s : StmtId} {d : DefId} {e : ExprId} (h : (a.stmt s).kind = .bind d)
    (hb : (a.definition d).body = .expression e) : Mentions a s e
  | block {s t : StmtId} {ss : List StmtId} {e : ExprId} (h : (a.stmt s).kind = .block ss)
    (ht : t ∈ ss) (hm : Mentions a t e) : Mentions a s e

theorem Compilation.SameProgram.mentions {c c' : Compilation} {s : StmtId} {e : ExprId}
    (h : c.SameProgram c') (hm : c.arena.Mentions s e) : c'.arena.Mentions s e := by
  induction hm with
  | expression hk => exact .expression (by rwa [h.stmt])
  | result hk => exact .result (by rwa [h.stmt])
  | bind hk hb => exact .bind (by rwa [h.stmt]) (by rwa [h.definition])
  | block hk ht _ ih => exact .block (by rwa [h.stmt]) ht ih

/-- An expression was walked, or is the body of a definition that is being walked. -/
def Compilation.Seen (c : Compilation) (active : List DefId) (A : Set ExprId) (e : ExprId) : Prop :=
  e ∈ A ∨ ∃ d ∈ active, (c.arena.definition d).body = .expression e

/-- A way to walk expressions, while the bodies of some definitions are being walked. The one of
them may be the expression itself. -/
def Visits (active : List DefId) (visit : ExprId → WalkM Unit) : Prop :=
  ∀ (id : ExprId) (w : Walk) (A P : Set ExprId),
    (w.unit.isValid = true → Gate w.unit w.finished A P) →
    (w.unit.isValid = true → ∀ d ∈ active, ∀ b,
      (w.unit.arena.definition d).body = .expression b → b = id ∨ w.unit.Alive b) →
    Keeps (visit id) w A P fun _ w' A' =>
      id ∈ A' ∧ w'.unit.Concrete A' id ∧ w.unit.Alive id

/-- A way to walk statements, while the bodies of some definitions are being walked. -/
def VisitsStatements (active : List DefId) (visit : StmtId → WalkM Unit) : Prop :=
  ∀ (s : StmtId) (w : Walk) (A P : Set ExprId),
    (w.unit.isValid = true → Ready w active A P) →
    Keeps (visit s) w A P fun _ w' A' =>
      ∀ e, w'.unit.arena.Mentions s e → w'.unit.Seen active A' e

/-- A walk of expressions and statements that keeps the gate. -/
structure Visitor.Sound (v : Visitor) : Prop where
  expr : ∀ active, Visits active (v.expr active)
  statement : ∀ active, VisitsStatements active (v.statement active)

variable {w w' : Walk} {A A' P : Set ExprId} {id : ExprId} {d : DefId} {active : List DefId}
  {settings : Settings} {next : Visitor} {child : ExprId → WalkM Unit}

theorem Visits.of_ready {visit : ExprId → WalkM Unit} (h : Visits active visit)
    (hr : w.unit.isValid = true → Ready w active A P) :
    Keeps (visit id) w A P fun _ w' A' => id ∈ A' ∧ w'.unit.Concrete A' id ∧ w.unit.Alive id :=
  h id w A P (fun hvalid => (hr hvalid).gate)
    fun hvalid d hd b hb => .inr ((hr hvalid).active d hd b hb)

/-- What a statement mentions stays seen while the walk goes on. -/
theorem Advance.seen {s : StmtId} (h : Advance w w' A A' P)
    (hseen : ∀ e, w.unit.arena.Mentions s e → w.unit.Seen active A e) :
    ∀ e, w'.unit.arena.Mentions s e → w'.unit.Seen active A' e := by
  intro e hm
  rcases hseen e (h.evolves.symm.mentions hm) with he | ⟨d, hd, hb⟩
  · exact .inl (h.subset he)
  · exact .inr ⟨d, hd, by rwa [h.evolves.definition]⟩

theorem isValid_reportNew {c : Compilation} {e : CompileError}
    (h : (c.reportNew e).isValid = true) : c.isValid = true ∧ e.isAlreadyReported = true := by
  unfold reportNew at h
  split at h
  · exact ⟨h, ‹_›⟩
  · simp [reportError, report, Severity.isError] at h

/-! ## Definitions -/

/-- A body that was walked, or is being walked, is seen. -/
theorem Ready.seen_body {b : ExprId} (hr : Ready w active A P)
    (hbody : (w.unit.arena.definition d).body = .expression b)
    (hseen : (w.finished.contains d || active.contains d) = true) :
    w.unit.AliveBody d ∧
      ∀ b, (w.unit.arena.definition d).body = .expression b → w.unit.Seen active A b := by
  rcases Bool.or_eq_true_iff.1 hseen with hfinished | hactive
  · have hb : b ∈ A := hr.gate.finished d (by simpa using hfinished) b hbody
    refine ⟨fun b' hb' => ?_, fun b' hb' => .inl ?_⟩ <;> cases hbody.symm.trans hb'
    · exact hr.gate.alive hb
    · exact hb
  · have hd : d ∈ active := by simpa using hactive
    exact ⟨hr.active d hd, fun b' hb' => .inr ⟨d, hd, hb'⟩⟩

/-- A definition is finished once its body was walked. -/
theorem Advance.finish_body {b : ExprId} (h : Advance w w' A A' P)
    (hbody : (w.unit.arena.definition d).body = .expression b) (hb : b ∈ A')
    (halive : w.unit.Alive b) :
    Advance w { w' with finished := d :: w'.finished } A A' P ∧ w.unit.AliveBody d ∧
      ∀ b, (w'.unit.arena.definition d).body = .expression b → w'.unit.Seen active A' b := by
  have hbody' : ∀ b', (w'.unit.arena.definition d).body = .expression b' → b' ∈ A' := by
    intro b' hb'
    rw [h.evolves.definition] at hb'
    cases hbody.symm.trans hb'
    exact hb
  refine ⟨⟨h.isValid, h.subset, h.evolves, h.gate.finish hbody'⟩, ?_,
    fun b' hb' => .inl (hbody' b' hb')⟩
  intro b' hb'
  cases hbody.symm.trans hb'
  exact halive

/-- **A definition** that is in use is walked, unless that was done or is being done. -/
theorem visitDefinition_keeps (hnext : next.Sound) (d : DefId)
    (hr : w.unit.isValid = true → Ready w active A P) :
    Keeps (visitDefinition next active d) w A P fun _ w' A' =>
      w.unit.AliveBody d ∧
        ∀ b, (w'.unit.arena.definition d).body = .expression b → w'.unit.Seen active A' b := by
  have hgate := fun hvalid => (hr hvalid).gate
  -- A body that is no expression has nothing to be walked for.
  have hvacuous (hb : ∀ b, (w.unit.arena.definition d).body ≠ .expression b) (w' : Walk)
      (A' : Set ExprId) (heq : w'.unit.arena.definition d = w.unit.arena.definition d) :
      w.unit.AliveBody d ∧
        ∀ b, (w'.unit.arena.definition d).body = .expression b → w'.unit.Seen active A' b :=
    ⟨fun b hb' => (hb b hb').elim, fun b hb' => (hb b (heq ▸ hb')).elim⟩
  rw [visitDefinition, keeps_definition]
  split <;> rename_i hbody
  · exact keeps_pure () hgate fun _ => hvacuous (by simp [hbody]) w A rfl
  · exact keeps_pure () hgate fun _ => hvacuous (by simp [hbody]) w A rfl
  · rename_i s
    rw [keeps_get]
    split
    · exact keeps_pure () hgate fun _ => hvacuous (by simp [hbody]) w A rfl
    · -- A statement is finished before it is walked.
      refine (keeps_finish hgate fun _ b hb => by simp [hbody] at hb).bind fun _ w' A' h => ?_
      have hr' : w'.unit.isValid = true → Ready w' active A' P := fun hvalid =>
        (h hvalid).1.ready (hr (h hvalid).1.isValid)
      refine (hnext.statement active s w' A' P hr').imp fun _ w'' A'' hadvance _ => ?_
      refine hvacuous (by simp [hbody]) w'' A'' ?_
      exact ((h hadvance.isValid).1.trans hadvance).evolves.definition d
  · rename_i b
    rw [keeps_get]
    split <;> rename_i hseen
    · exact keeps_pure () hgate fun hvalid => (hr hvalid).seen_body hbody hseen
    · have hvisit := hnext.expr (d :: active) b w A P hgate fun hvalid d' hd' b' hb' => by
        rcases List.mem_cons.1 hd' with rfl | hd'
        · cases hbody.symm.trans hb'
          exact .inl rfl
        · exact .inr ((hr hvalid).active d' hd' b' hb')
      rw [Keeps, outcome_bind, outcome_walk_attempt]
      refine Outcome.mono hvisit ?_ ?_
      · rintro _ w' ⟨A', h⟩
        refine ⟨A', fun hvalid => ?_⟩
        obtain ⟨hadvance, hb, -, halive⟩ := h hvalid
        exact hadvance.finish_body hbody hb halive
      · -- An error is reported, unless it was silent, and then the program was invalid before.
        rintro (e | _) w' hstop
        · intro _
          by_contra hvalid
          obtain ⟨hvalid', hsilent⟩ := isValid_reportNew (by simpa using hvalid)
          rw [hstop hsilent] at hvalid'
          cases hvalid'
        · exact False.elim

/-! ## Uses -/

/-- **A use** is replaced, and then code can be generated for it, or it stays as it was. -/
theorem trySubstitute_keeps (hnext : next.Sound) (hid : id ∈ P)
    (hd : (w.unit.arena.expr id).kind.definition? = some d)
    (hleaf : (w.unit.arena.expr id).kind.children = [])
    (hr : w.unit.isValid = true → Ready w active A P) :
    Keeps (trySubstitute settings next active id d) w A P fun replaced w' A' =>
      if replaced then w'.unit.Shaped A' id else w.unit.Unchanged w'.unit := by
  have hgate := fun hvalid => (hr hvalid).gate
  rw [trySubstitute]
  split
  · exact keeps_pure false hgate fun _ => Unchanged.refl _
  · refine Keeps.of_moves (fun replaced c =>
      if replaced then c.AliveBody d else w.unit.Unchanged c) hid hgate ?_ ?_
    · refine (substitute_outcome settings hd).mono (fun replaced c h => ?_)
        fun _ _ h hsilent => (h.not_isSilent hsilent).elim
      refine ⟨h.isValid, fun hvalid => ?_⟩
      cases replaced with
      | true => exact h.done (hgate hvalid).sound ((hgate hvalid).pending id hid) hleaf rfl
      | false => exact ⟨((h.kept rfl).casts _).moves_self, h.kept rfl⟩
    · intro replaced w₁ h₁
      cases replaced with
      | true =>
        have hr₁ : w₁.unit.isValid = true → Ready w₁ (d :: active) A P := by
          intro hvalid
          obtain ⟨hmoves, hd₁, hgate₁⟩ := h₁ hvalid
          have hw : w.unit.isValid = true := hmoves.isValid ▸ hvalid
          refine ⟨hgate₁, fun d' hd' => ?_⟩
          rcases List.mem_cons.1 hd' with rfl | hd'
          · exact hd₁
          · exact ((hr hw).moves hmoves hgate₁).active d' hd'
        refine ((hnext.expr (d :: active)).of_ready hr₁).bind fun _ w₂ A₂ h₂ => ?_
        refine keeps_pure true (fun hvalid => (h₂ hvalid).1.gate) fun hvalid => ?_
        have hshaped := (h₂ hvalid).2.2.1.toShaped
        exact ⟨hshaped, .inr hshaped⟩
      | false =>
        refine keeps_pure false (fun hvalid => (h₁ hvalid).2.2) fun hvalid => ?_
        exact ⟨(h₁ hvalid).2.1, .inl (((h₁ hvalid).2.1.casts ∅).alike id)⟩

theorem typeReference_keeps (hid : id ∈ P)
    (hgate : w.unit.isValid = true → Gate w.unit w.finished A P)
    (hd : w.unit.isValid = true → w.unit.AliveBody d) :
    Keeps (liftM (typeReference id d)) w A P fun _ _ _ => True := by
  refine keeps_step (fun _ => True) hid hgate ((typeReference_outcome d).mono ?_ ?_)
  · rintro _ c ⟨hvalid, hmoves⟩
    refine ⟨hvalid, fun hw => ?_⟩
    obtain ⟨hmove, halike⟩ := hmoves ((hgate hw).pending id hid)
    exact ⟨hmove, halike, trivial⟩
  · intro stop c hstop hsilent
    obtain ⟨rfl, habsurd⟩ := hstop hsilent
    by_contra hvalid
    rw [Bool.not_eq_false] at hvalid
    exact (hgate hvalid).definitionType_ne_absurd (hd hvalid) habsurd

/-- **A reference** is replaced by a body or takes the type of its definition. -/
theorem visitReference_keeps (hnext : next.Sound) (hid : id ∈ P)
    (hk : (w.unit.arena.expr id).kind = .reference d ∨ (w.unit.arena.expr id).kind = .operator d)
    (hr : w.unit.isValid = true → Ready w active A P) :
    Keeps (visitReference settings next active id d) w A P fun _ w' A' =>
      w'.unit.Shaped A' id := by
  have hd : (w.unit.arena.expr id).kind.definition? = some d := by
    rcases hk with hk | hk <;> rw [hk] <;> rfl
  have hshaped (A : Set ExprId) : w.unit.Shaped A id := by
    rcases hk with hk | hk <;> exact ⟨by rw [hk]; rfl, by rw [hk]; simp [ExprKind.children]⟩
  rw [visitReference]
  have hleaf : (w.unit.arena.expr id).kind.children = [] := by
    rcases hk with hk | hk <;> rw [hk] <;> rfl
  refine (trySubstitute_keeps hnext hid hd hleaf hr).bind fun replaced w₁ A₁ h₁ => ?_
  have hr₁ : w₁.unit.isValid = true → Ready w₁ active A₁ P := fun hvalid =>
    (h₁ hvalid).1.ready (hr (h₁ hvalid).1.isValid)
  cases replaced with
  | true => exact keeps_pure () (fun hvalid => (hr₁ hvalid).gate) fun hvalid => (h₁ hvalid).2
  | false =>
    refine (visitDefinition_keeps hnext d hr₁).bind fun _ w₂ A₂ h₂ => ?_
    have hgate₂ : w₂.unit.isValid = true → Gate w₂.unit w₂.finished A₂ P := fun hvalid =>
      (h₂ hvalid).1.gate
    refine (typeReference_keeps hid hgate₂ fun hvalid => ?_).imp fun _ w₃ A₃ h₃ _ => ?_
    · exact (h₂ hvalid).1.evolves.aliveBody (h₂ hvalid).2.1
    · have hadvance := (h₂ h₃.isValid).1.trans h₃
      exact ((h₁ hadvance.isValid).1.trans hadvance).shaped (hshaped A)

/-! ## Calls -/

theorem visitEach_keeps (hchild : Visits active child) (ids : List ExprId)
    (hr : w.unit.isValid = true → Ready w active A P) :
    Keeps (visitEach child ids) w A P fun _ _ A' => ∀ id ∈ ids, id ∈ A' := by
  induction ids generalizing w A with
  | nil => exact keeps_pure () (fun hvalid => (hr hvalid).gate) (by simp)
  | cons id ids ih =>
    rw [visitEach]
    refine (hchild.of_ready hr).bind fun _ w₁ A₁ h₁ => ?_
    have hr₁ : w₁.unit.isValid = true → Ready w₁ active A₁ P := fun hvalid =>
      (h₁ hvalid).1.ready (hr (h₁ hvalid).1.isValid)
    refine (ih hr₁).imp fun _ w₂ A₂ h₂ hids => ?_
    intro n hn
    rcases List.mem_cons.1 hn with rfl | hn
    · exact h₂.subset (h₁ h₂.isValid).2.1
    · exact hids n hn

theorem Compilation.Unchanged.definitionType {c c' : Compilation} (h : c.Unchanged c')
    (d : DefId) : c'.arena.definitionType d = c.arena.definitionType d := by
  simp only [Arena.definitionType, h.definition, h.expr]

theorem typeCall_keeps {calleeType : Ty} (args : List ExprId) (hid : id ∈ P)
    (hgate : w.unit.isValid = true → Gate w.unit w.finished A P)
    (hargs : w.unit.isValid = true → ∀ n ∈ args, w.unit.Operand n)
    (hty : w.unit.isValid = true → calleeType ≠ .absurd) :
    Keeps (liftM (typeCall id calleeType args)) w A P fun _ _ _ => True := by
  refine keeps_step (fun _ => True) hid hgate ((typeCall_outcome calleeType args).mono ?_ ?_)
  · rintro _ c ⟨hvalid, hmoves⟩
    refine ⟨hvalid, fun hw => ?_⟩
    obtain ⟨hmove, halike⟩ := hmoves ((hgate hw).pending id hid) (hargs hw) (hty hw)
    exact ⟨hmove, halike, trivial⟩
  · exact fun stop c hstop hsilent => (hstop hsilent).elim

/-- A call that is not replaced is typed over its arguments. -/
theorem visitArguments_keeps {args : List ExprId} {calleeType : Ty} (hnext : next.Sound)
    (hchild : Visits active child) (hid : id ∈ P)
    (hk : w.unit.isValid = true → (w.unit.arena.expr id).kind = .call d args)
    (hty : w.unit.isValid = true → calleeType = w.unit.arena.definitionType d)
    (hr : w.unit.isValid = true → Ready w active A P) :
    Keeps (do
      visitDefinition next active d
      visitEach child args
      liftM (typeCall id calleeType args)) w A P fun _ w' A' => w'.unit.Shaped A' id := by
  refine (visitDefinition_keeps hnext d hr).bind fun _ w₁ A₁ h₁ => ?_
  have hr₁ : w₁.unit.isValid = true → Ready w₁ active A₁ P := fun hvalid =>
    (h₁ hvalid).1.ready (hr (h₁ hvalid).1.isValid)
  refine (visitEach_keeps hchild args hr₁).bind fun _ w₂ A₂ h₂ => ?_
  have hr₂ : w₂.unit.isValid = true → Ready w₂ active A₂ P := fun hvalid =>
    (h₂ hvalid).1.ready (hr₁ (h₂ hvalid).1.isValid)
  refine (typeCall_keeps args hid (fun hvalid => (hr₂ hvalid).gate) (fun hvalid => ?_)
    fun hvalid => ?_).imp fun _ w₃ A₃ h₃ _ => ?_
  · -- The arguments are still those of the call.
    obtain ⟨hadvance₂, -⟩ := h₂ hvalid
    obtain ⟨hadvance₁, -⟩ := h₁ hadvance₂.isValid
    refine fun n hn => (hadvance₁.trans hadvance₂).evolves.retains.operand ⟨id, ?_⟩
    rw [hk hadvance₁.isValid]
    exact hn
  · -- The type of the callee was read before anything was walked.
    obtain ⟨hadvance, hbody, -⟩ := h₁ (h₂ hvalid).1.isValid
    rw [hty hadvance.isValid]
    exact (hr hadvance.isValid).gate.definitionType_ne_absurd hbody
  · obtain ⟨hadvance₂, hargs⟩ := h₂ h₃.isValid
    obtain ⟨hadvance₁, -⟩ := h₁ hadvance₂.isValid
    have hadvance := hadvance₁.trans hadvance₂
    have halive := (hr hadvance.isValid).gate.pending id hid
    have hshaped : w₂.unit.Shaped A₂ id := by
      rcases hadvance.evolves.progress id halive.lt_size with halike | hshaped
      · rw [hk hadvance.isValid] at halike
        obtain ⟨d', hk'⟩ := halike.exists_call
        exact ⟨by rw [hk']; rfl, by rw [hk']; exact hargs⟩
      · exact hshaped
    exact h₃.shaped hshaped

/-- **A call** is replaced by a body or typed over its arguments. -/
theorem visitCall_keeps {args : List ExprId} (hnext : next.Sound) (hchild : Visits active child)
    (hid : id ∈ P) (hk : (w.unit.arena.expr id).kind = .call d args)
    (hr : w.unit.isValid = true → Ready w active A P) :
    Keeps (visitCall settings next child active id d args) w A P fun _ w' A' =>
      w'.unit.Shaped A' id := by
  have hgate := fun hvalid => (hr hvalid).gate
  simp only [visitCall, keeps_arena]
  split
  · exact keeps_fail _ (by simp)
  · split
    · have hd : (w.unit.arena.expr id).kind.definition? = some d := by
        rw [hk]
        rfl
      have hleaf : (w.unit.arena.expr id).kind.children = [] := by
        rw [hk]
        exact List.isEmpty_iff.1 ‹_›
      refine (trySubstitute_keeps hnext hid hd hleaf hr).bind fun replaced w₁ A₁ h₁ => ?_
      have hr₁ : w₁.unit.isValid = true → Ready w₁ active A₁ P := fun hvalid =>
        (h₁ hvalid).1.ready (hr (h₁ hvalid).1.isValid)
      cases replaced with
      | true => exact keeps_pure () (fun hvalid => (hr₁ hvalid).gate) fun hvalid => (h₁ hvalid).2
      | false =>
        refine visitArguments_keeps hnext hchild hid (fun hvalid => ?_) (fun hvalid => ?_) hr₁
        · rw [(h₁ hvalid).2.expr, hk]
        · exact ((h₁ hvalid).2.definitionType d).symm
    · exact visitArguments_keeps hnext hchild hid (fun _ => hk) (fun _ => rfl) hr

/-! ## Negation -/

/-- **A minus sign** becomes a call, which is walked in turn. -/
theorem visitNegation_keeps {operand : ExprId} (hnext : next.Sound) (hchild : Visits active child)
    (hid : id ∈ P) (hk : (w.unit.arena.expr id).kind = .negated operand)
    (hr : w.unit.isValid = true → Ready w active A P) :
    Keeps (visitNegation next child active id operand) w A P fun _ w' A' =>
      w'.unit.Shaped A' id := by
  rw [visitNegation]
  refine (hchild.of_ready hr).bind fun _ w₁ A₁ h₁ => ?_
  have hr₁ : w₁.unit.isValid = true → Ready w₁ active A₁ P := fun hvalid =>
    (h₁ hvalid).1.ready (hr (h₁ hvalid).1.isValid)
  have hgate₁ := fun hvalid => (hr₁ hvalid).gate
  refine Keeps.of_moves (fun _ _ => True) hid hgate₁ ?_ fun _ w₂ h₂ => ?_
  · refine (callNegation_outcome id operand).mono ?_ fun _ _ hstop hsilent => (hstop hsilent).elim
    rintro _ c ⟨hvalid, hmoves⟩
    refine ⟨hvalid, fun hw₁ => ?_⟩
    obtain ⟨hadvance, -, hconcrete, -⟩ := h₁ hw₁
    have halive := (hgate₁ hw₁).pending id hid
    -- Whatever the expression has become by now, the operand still lies below it.
    have hchildren : (w₁.unit.arena.expr id).kind.children = [operand] := by
      have hretains := hadvance.evolves.retains id
      rw [hk] at hretains
      exact hretains.resolve_left (by simp [ExprKind.children])
    exact ⟨(hmoves (hgate₁ hw₁).lawful halive hchildren hconcrete.kind hconcrete.ty).1, trivial⟩
  · have hr₂ : w₂.unit.isValid = true → Ready w₂ active A₁ P := fun hvalid =>
      (hr₁ ((h₂ hvalid).1.isValid ▸ hvalid)).moves (h₂ hvalid).1 (h₂ hvalid).2.2
    refine ((hnext.expr active).of_ready hr₂).imp fun _ w₃ A₃ h₃ hvisited => ?_
    have hshaped := hvisited.2.1.toShaped
    exact ⟨hshaped, .inr hshaped⟩

/-! ## Expressions -/

theorem concretizeValue_keeps (hid : id ∈ P)
    (hgate : w.unit.isValid = true → Gate w.unit w.finished A P) :
    Keeps (liftM (concretizeValue id)) w A P fun _ _ _ => True := by
  refine keeps_step (fun _ => True) hid hgate ((concretizeValue_outcome id).mono ?_ ?_)
  · exact fun _ c hcasts =>
      ⟨hcasts.isValid, fun _ => ⟨hcasts.moves_self, hcasts.alike id, trivial⟩⟩
  · exact fun _ _ hstop hsilent => (hstop hsilent).elim

/-- **The last checks**: an expression has the type that is declared for it, and a native one. -/
theorem honourDeclared_keeps (hid : id ∈ P)
    (hgate : w.unit.isValid = true → Gate w.unit w.finished A P)
    (hshaped : w.unit.isValid = true → w.unit.Shaped A id) :
    Keeps (do
      liftM (honourDeclared id)
      liftM (requireNative id)) w A P fun _ w' A' => w'.unit.Concrete A' id := by
  have hhonour : Keeps (liftM (honourDeclared id)) w A P fun _ w' _ =>
      ∀ ty, (w'.unit.arena.expr id).declared = some ty → (w'.unit.arena.expr id).Holds ty := by
    refine keeps_step (fun c => ∀ ty, (c.arena.expr id).declared = some ty →
      (c.arena.expr id).Holds ty) hid hgate ((honourDeclared_outcome id).mono ?_ ?_)
    · rintro _ c ⟨hcasts, hholds⟩
      exact ⟨hcasts.isValid, fun _ => ⟨hcasts.moves_self, hcasts.alike id, hholds⟩⟩
    · exact fun _ _ hstop hsilent => (hstop hsilent).elim
  refine hhonour.bind fun _ w₁ A₁ h₁ => ?_
  rw [Keeps, outcome_lift]
  refine (requireNative_outcome id).mono ?_ fun _ _ hstop hsilent => (hstop hsilent).elim
  rintro _ c ⟨rfl, hnative⟩
  refine ⟨A₁, fun hvalid => ?_⟩
  obtain ⟨hadvance, hholds⟩ := h₁ hvalid
  exact ⟨.refl hvalid hadvance.gate, hadvance.shaped (hshaped hadvance.isValid), hnative,
    fun ty hty => .inl (hholds ty hty)⟩

/-- **An expression** is walked: code can be generated for it, if it can for what lies below. -/
theorem visitExpr_visits (hnext : next.Sound) (hchild : Visits active child) :
    Visits active (visitExpr settings next child active) := by
  intro id w A P hgate hactive
  rw [visitExpr, keeps_expr]
  -- Up to the last checks the expression is pending, so its own state does not matter.
  have hfinish {visit : WalkM Unit} (halive : w.unit.Alive id)
      (hvisit : (w.unit.isValid = true → Ready w active A (insert id P)) →
        Keeps visit w A (insert id P) fun _ w' A' => w'.unit.Shaped A' id) :
      Keeps (do
        visit
        liftM (honourDeclared id)
        liftM (requireNative id)) w A P fun _ w' A' =>
          id ∈ A' ∧ w'.unit.Concrete A' id ∧ w.unit.Alive id := by
    have hr : w.unit.isValid = true → Ready w active A (insert id P) := by
      intro hvalid
      refine ⟨(hgate hvalid).pend halive, fun d hd b hb => ?_⟩
      rcases hactive hvalid d hd b hb with rfl | hb
      · exact halive
      · exact hb
    refine Keeps.settle ((hvisit hr).bind fun _ w₁ A₁ h₁ => ?_)
    have hid : id ∈ insert id P := .inl rfl
    refine (honourDeclared_keeps hid (fun hvalid => (h₁ hvalid).1.gate) fun hvalid =>
      (h₁ hvalid).2).imp fun _ w₂ A₂ _ hconcrete => ⟨hconcrete, halive⟩
  have hid : id ∈ insert id P := .inl rfl
  have halive {k : ExprKind} (hk : (w.unit.arena.expr id).kind = k) (h : k.isSentinel = false) :
      w.unit.Alive id := by rwa [Alive, hk]
  split <;> rename_i hk
  · refine hfinish (halive hk rfl) fun hr => ?_
    refine (concretizeValue_keeps hid fun hvalid => (hr hvalid).gate).imp fun _ w₁ A₁ h₁ _ => ?_
    exact h₁.shaped ⟨by rw [hk]; rfl, by rw [hk]; simp [ExprKind.children]⟩
  · exact hfinish (halive hk rfl) (visitReference_keeps hnext hid (.inl hk))
  · exact hfinish (halive hk rfl) (visitReference_keeps hnext hid (.inr hk))
  · exact hfinish (halive hk rfl) (visitCall_keeps hnext hchild hid hk)
  · exact hfinish (halive hk rfl) (visitNegation_keeps hnext hchild hid hk)
  · exact keeps_fail _ (by simp)
  · -- A failed term is silent, but there is none in a valid program.
    intro _
    by_contra hvalid
    exact ((hgate (by simpa using hvalid)).sound id).kind hk
  · exact keeps_fail _ (by simp)
  · exact keeps_fail _ (by simp)
  · exact keeps_fail _ (by simp)
  · exact keeps_fail _ (by simp)
  · exact keeps_fail _ (by simp)

theorem visitWithin_visits (hnext : next.Sound) (active : List DefId) (bound depth : Nat) :
    Visits active (visitWithin settings next active bound depth) := by
  induction depth with
  | zero => exact fun id w A P _ _ => False.elim
  | succ depth ih =>
    refine fun id => visitExpr_visits hnext (fun child => ?_) id
    split
    · exact ih child
    · exact hnext.expr active child

/-! ## Statements -/

/-- An error is reported where it ends up, so that nothing silent is left behind. -/
theorem keeps_report {visit : WalkM Unit} {ended : Unit → Walk → Set ExprId → Prop}
    (h : Keeps visit w A P ended) :
    Keeps (do WalkM.reportOutcome (← WalkM.attempt visit)) w A P ended := by
  rw [Keeps, outcome_bind, outcome_walk_attempt]
  refine Outcome.mono h (fun _ _ h' => h') ?_
  rintro (e | _) w' hstop
  · refine ⟨A, fun hvalid => ?_⟩
    obtain ⟨hvalid', hsilent⟩ := isValid_reportNew hvalid
    rw [hstop hsilent] at hvalid'
    cases hvalid'
  · exact hstop

theorem each_keeps {visit : StmtId → WalkM Unit} (hvisit : VisitsStatements active visit)
    (ss : List StmtId) (hr : w.unit.isValid = true → Ready w active A P) :
    Keeps (visitStatementWithin.each visit ss) w A P fun _ w' A' =>
      ∀ s ∈ ss, ∀ e, w'.unit.arena.Mentions s e → w'.unit.Seen active A' e := by
  induction ss generalizing w A with
  | nil => exact keeps_pure () (fun hvalid => (hr hvalid).gate) (by simp)
  | cons s ss ih =>
    rw [visitStatementWithin.each]
    refine (hvisit s w A P hr).bind fun _ w₁ A₁ h₁ => ?_
    have hr₁ : w₁.unit.isValid = true → Ready w₁ active A₁ P := fun hvalid =>
      (h₁ hvalid).1.ready (hr (h₁ hvalid).1.isValid)
    refine (ih hr₁).imp fun _ w₂ A₂ h₂ hss => ?_
    intro t ht e hm
    rcases List.mem_cons.1 ht with rfl | ht
    · exact h₂.seen (h₁ h₂.isValid).2 e hm
    · exact hss t ht e hm

/-- **A statement** is walked past its errors. -/
theorem visitStatementWithin_visits (hnext : next.Sound) (active : List DefId) (depth : Nat) :
    VisitsStatements active (visitStatementWithin next active depth) := by
  induction depth with
  | zero => exact fun s w A P _ => False.elim
  | succ depth ih =>
    intro s w A P hr
    have hgate := fun hvalid => (hr hvalid).gate
    rw [visitStatementWithin, keeps_arena]
    -- What a statement mentions is read off its kind, so each kind leaves one case of `Mentions`.
    split <;> rename_i hk
    · rename_i e
      refine keeps_report (((hnext.expr active).of_ready hr).imp fun _ w₁ A₁ h₁ hvisited => ?_)
      intro e' hm
      cases h₁.evolves.symm.mentions hm with
      | expression hk' =>
        cases hk.symm.trans hk'
        exact .inl hvisited.1
      | result hk' | bind hk' | block hk' => cases hk.symm.trans hk'
    · rename_i e
      refine keeps_report (((hnext.expr active).of_ready hr).imp fun _ w₁ A₁ h₁ hvisited => ?_)
      intro e' hm
      cases h₁.evolves.symm.mentions hm with
      | result hk' =>
        cases hk.symm.trans hk'
        exact .inl hvisited.1
      | expression hk' | bind hk' | block hk' => cases hk.symm.trans hk'
    · rename_i d
      refine keeps_report ((visitDefinition_keeps hnext d hr).imp fun _ w₁ A₁ h₁ hvisited => ?_)
      intro e hm
      cases h₁.evolves.symm.mentions hm with
      | bind hk' hb =>
        cases hk.symm.trans hk'
        exact hvisited.2 e (by rwa [h₁.evolves.definition])
      | expression hk' | result hk' | block hk' => cases hk.symm.trans hk'
    · rename_i ss
      refine (each_keeps ih ss hr).imp fun _ w₁ A₁ h₁ hss => ?_
      intro e hm
      cases h₁.evolves.symm.mentions hm with
      | block hk' ht hm =>
        cases hk.symm.trans hk'
        exact hss _ ht e (h₁.evolves.mentions hm)
      | expression hk' | result hk' | bind hk' => cases hk.symm.trans hk'
    all_goals
      refine keeps_pure () hgate fun _ e hm => ?_
      cases hm with
      | expression hk' | result hk' | bind hk' | block hk' => cases hk.symm.trans hk'

/-! ## Rounds -/

/-- **The walk** keeps the gate, with any number of rounds. -/
theorem visitor_sound (settings : Settings) (rounds : Nat) : (visitor settings rounds).Sound := by
  induction rounds with
  | zero => exact ⟨fun active id w A P _ _ => False.elim, fun active s w A P _ => False.elim⟩
  | succ rounds ih =>
    refine ⟨fun active id w A P hgate hactive => ?_, fun active s w A P hr => ?_⟩
    · simp only [visitor, keeps_arena]
      exact visitWithin_visits ih active w.unit.arena.exprs.size _ id w A P hgate hactive
    · simp only [visitor, keeps_arena]
      exact visitStatementWithin_visits ih active _ s w A P hr

end Termwise
