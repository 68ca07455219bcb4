import Mathlib.Data.List.Forall2
import Termwise.Proofs.Run.Classification

/-!
# Accounts of a run

An account says which nodes stand for which parts of a plan while a run is arranged, and what
stays true of a compilation meanwhile. It owes one clause for every way in which the arrangement
builds a node: out of an operand, a function with its arguments, a sign, an operator behind its
operand, a missing operand, and a binary operator between two. Whatever account is kept, the
arrangement then follows the sketch of the run, and the node that it ends with stands for the
plan.

An account is exact if it knows beforehand what can be classified, and if only a binary operator
that is open below the root is refused. Then the arrangement stops only where no plan that is open
at the root can come out. An account may also know that some terms never lead an operand; then it
has to be told so of the run.

## Main definitions

* `Account`: what is kept track of while a run is arranged
* `Account.Stands`: the stacks of an arrangement stand for a sketch

## Main results

* `Account.advance_outcome`: reading one term follows the sketch
* `Account.arrange_outcome`: an arranged run stands for its plan
-/

namespace Termwise

open Compilation Grouping

namespace Compilation

/-- A term leads an operand, as a call of a definition. -/
def Leads (c : Compilation) (d : DefId) (t : ExprId) : Prop :=
  c.RefersTo t d .leading ∨ (c.arena.expr t).kind = .minusSign ∧ d = c.builtins.unaryMinus

/-- A term is a binary operator, or a minus sign that can be one. -/
def Joins (c : Compilation) (o : Joint) : Prop :=
  c.Settled o.term ∧ (c.role o.term).joint? o.term = some o

/-- An expression that may be applied to further arguments. -/
def Applicable (c : Compilation) (n : ExprId) : Prop :=
  (∃ d, (c.arena.expr n).kind = .reference d) ∨ ∃ d args, (c.arena.expr n).kind = .call d args

variable {c c' : Compilation} {d : DefId} {t n : ExprId} {o : Joint}

theorem Leads.isSign (h : c.Leads d t) : (c.role t).isSign = true := by
  rcases h with h | ⟨h, -⟩
  · rw [role_of_refersTo h]
    rfl
  · simp only [role, h, Role.isSign]

theorem Extends.leads (h : c.Extends c') (ht : c.Leads d t) : c'.Leads d t := by
  rcases ht with ht | ⟨hk, hd⟩
  · exact .inl (h.refersTo ht)
  · exact .inr ⟨(h.kind t (by rw [hk]; rfl)).trans hk, by rw [hd, h.builtins]⟩

theorem Extends.joins (h : c.Extends c') (ho : c.Joins o) : c'.Joins o :=
  ⟨h.settled ho.1, by rw [h.role ho.1]; exact ho.2⟩

theorem Extends.applicable (h : c.Extends c') (hn : c.Applicable n) : c'.Applicable n := by
  rcases hn with ⟨d, hk⟩ | ⟨d, args, hk⟩
  · exact .inl ⟨d, (h.kind n (by rw [hk]; rfl)).trans hk⟩
  · exact .inr ⟨d, args, (h.kind n (by rw [hk]; rfl)).trans hk⟩

theorem applicable_of_openSlots (h : c.arena.openSlots n ≠ 0) : c.Applicable n := by
  unfold Arena.openSlots at h
  split at h <;> rename_i hk
  · exact .inl ⟨_, hk⟩
  · exact .inr ⟨_, _, hk⟩
  · exact (h rfl).elim

end Compilation

/-- What is kept track of while a run is arranged. -/
structure Account (resolveRun : ExprId → CheckM Unit) (terms : List ExprId) where
  /-- Only what is open below the root is refused. -/
  exact : Prop
  Valid : Compilation → Prop
  Later : Compilation → Compilation → Prop
  /-- A node stands for a part of a plan. -/
  Holds : Compilation → Plan → ExprId → Prop
  /-- What is known of a term once it was classified. -/
  Ready : Compilation → ExprId → Prop
  MayLead : ExprId → Prop
  /-- What is known when the arrangement stops. -/
  Halts : Stop → Compilation → Prop
  refl (c : Compilation) : Later c c
  trans {c c' c'' : Compilation} : Later c c' → Later c' c'' → Later c c''
  toExtends {c c' : Compilation} : Later c c' → c.Extends c'
  valid {c c' : Compilation} : Valid c → Later c c' → Valid c'
  halts {c : Compilation} : Valid c → ∀ error, Halts (.error error) c
  holds {c c' : Compilation} {plan : Plan} {n : ExprId} :
    Holds c plan n → Later c c' → Holds c' plan n
  settled {c : Compilation} {t : ExprId} : exact → Valid c → t ∈ terms → c.Settled t
  classify {c : Compilation} {t : ExprId} : Valid c → t ∈ terms →
    Outcome (classify resolveRun t) c
      (fun term c' => Later c c' ∧ c'.Settled t ∧ term.Plays c' t ∧ Ready c' t)
      fun _ _ => ¬ exact
  operand {c : Compilation} {t : ExprId} : Valid c → t ∈ terms → c.Settled t → Ready c t →
    c.role t = .operand →
    Outcome (Arrangement.normalizeOperand t) c
      (fun n c' => Later c c' ∧ Holds c' (single (some (.atom t))) n ∧
        (exact → c'.arena.openSlots n = 0)) fun _ _ => ¬ exact
  apply {c : Compilation} {f n : ExprId} {ts ns : List ExprId} : ¬ exact → Valid c →
    Holds c (single (some (.atom f))) n → c.Applicable n → ts ≠ [] →
    List.Forall₂ (fun t n => Holds c (single (some (.atom t))) n) ts ns →
    Outcome (Arrangement.applyCollected n ns) c
      (fun n c' => Later c c' ∧ Holds c' (single (some ⟨[], f, ts, []⟩)) n) fun _ _ => True
  lead {c : Compilation} {d : DefId} {t n : ExprId} {p : Phrase} (span : Span) : Valid c →
    t ∈ terms → MayLead t → c.Leads d t → p.trails = [] → Holds c (single (some p)) n →
    Outcome (allocCall (if d = c.builtins.unaryMinus then c.negationFor n else d) [n] span) c
      (fun n c' => Later c c' ∧ Holds c' (single (some { p with signs := t :: p.signs })) n)
      fun _ _ => ¬ exact
  trail {c : Compilation} {d : DefId} {t n : ExprId} {p : Phrase} (span : Span) : Valid c →
    t ∈ terms → c.RefersTo t d .trailing → Holds c (single (some p)) n →
    Outcome (allocCall d [n] span) c
      (fun n c' => Later c c' ∧ Holds c' (single (some { p with trails := p.trails ++ [t] })) n)
      fun _ _ => ¬ exact
  missing {c : Compilation} (span : Span) : Valid c →
    Outcome (Arrangement.allocMissing span) c
      (fun n c' => Later c c' ∧ Holds c' (single none) n) fun _ _ => False
  combine {c : Compilation} {o : Joint} {left right : Plan} {x y : ExprId} (span : Span) : Valid c →
    o.term ∈ terms → c.Joins o → Holds c left x → Holds c right y →
    Outcome (allocCall o.callee [x, y] span) c
      (fun n c' => Later c c' ∧ Holds c' (join left o right) n)
      fun stop c' => exact → Halts stop c' ∧ ¬ Plan.OpenAtRoot (join left o right)

namespace Account

variable {resolveRun : ExprId → CheckM Unit} {terms : List ExprId}
  (A : Account resolveRun terms) {c c' : Compilation}

/-! ## Stacks and sketches -/

/-- An entry of the stack of leading operators stands for a sign. -/
def Signed (A : Account resolveRun terms) (c : Compilation) (entry : DefId × Span)
    (t : ExprId) : Prop :=
  t ∈ terms ∧ A.MayLead t ∧ c.Leads entry.1 t

/-- The stacks of operators and operands stand for the operators that wait. -/
inductive FramesStand (c : Compilation) :
    List PendingOperator → List ExprId → List Frame → Prop where
  | nil : FramesStand c [] [] []
  | cons {ops : List PendingOperator} {operands : List ExprId} {fs : List Frame} {left : Plan}
    {o : Joint} {x : ExprId} (span : Span) (hterm : o.term ∈ terms) (hjoins : c.Joins o)
    (hleft : A.Holds c left x) (rest : FramesStand c ops operands fs) :
    FramesStand c (⟨o.callee, o.binding.power, span⟩ :: ops) (x :: operands) ((left, o) :: fs)

/-- An arrangement stands for a sketch. A function that collects arguments has none of its signs
yet. -/
inductive Stands (c : Compilation) : Arrangement → Sketch → Prop where
  | due {ops : List PendingOperator} {operands : List ExprId} {fs : List Frame}
    {leading : List (DefId × Span)} {signs : List ExprId} (hfs : A.FramesStand c ops operands fs)
    (hsigns : List.Forall₂ (A.Signed c) leading signs.reverse) :
    Stands c ⟨operands, ops, leading, .operandDue⟩ ⟨fs, .due signs⟩
  | collecting {ops : List PendingOperator} {operands : List ExprId} {fs : List Frame}
    {leading : List (DefId × Span)} {signs ts args : List ExprId} {f n : ExprId} {slots : Nat}
    (hexact : ¬ A.exact) (hfs : A.FramesStand c ops operands fs)
    (hsigns : List.Forall₂ (A.Signed c) leading signs.reverse)
    (hf : A.Holds c (single (some (.atom f))) n) (happ : c.Applicable n)
    (hargs : List.Forall₂ (fun t n => A.Holds c (single (some (.atom t))) n) ts args) :
    Stands c ⟨operands, ops, leading, .collecting n slots args⟩ ⟨fs, .past ⟨signs, f, ts, []⟩⟩
  | past {ops : List PendingOperator} {operands : List ExprId} {fs : List Frame} {p : Phrase}
    {x : ExprId} (hfs : A.FramesStand c ops operands fs) (hp : A.Holds c (single (some p)) x) :
    Stands c ⟨x :: operands, ops, [], .operatorDue⟩ ⟨fs, .past p⟩

variable {A}

theorem FramesStand.later {ops : List PendingOperator} {operands : List ExprId}
    {fs : List Frame} (h : A.FramesStand c ops operands fs) (hc : A.Later c c') :
    A.FramesStand c' ops operands fs := by
  induction h with
  | nil => exact .nil
  | cons span hterm hjoins hleft _ ih =>
    exact .cons span hterm ((A.toExtends hc).joins hjoins) (A.holds hleft hc) ih

theorem forall₂_signed_later {leading : List (DefId × Span)} {signs : List ExprId}
    (h : List.Forall₂ (A.Signed c) leading signs) (hc : A.Later c c') :
    List.Forall₂ (A.Signed c') leading signs :=
  h.imp fun _ _ h => ⟨h.1, h.2.1, (A.toExtends hc).leads h.2.2⟩

theorem Stands.later {s : Arrangement} {sketch : Sketch} (h : A.Stands c s sketch)
    (hc : A.Later c c') : A.Stands c' s sketch := by
  cases h with
  | due hfs hsigns => exact .due (hfs.later hc) (forall₂_signed_later hsigns hc)
  | collecting hexact hfs hsigns hf happ hargs =>
    exact .collecting hexact (hfs.later hc) (forall₂_signed_later hsigns hc) (A.holds hf hc)
      ((A.toExtends hc).applicable happ) (hargs.imp fun _ _ h => A.holds h hc)
  | past hfs hp => exact .past (hfs.later hc) (A.holds hp hc)

/-- A reason to stop, for an exact account, and what it refutes. -/
def Excuses (A : Account resolveRun terms) (stop : Stop) (c : Compilation) (refuted : Prop) :
    Prop :=
  A.exact → A.Halts stop c ∧ ¬ refuted

theorem excuses_of_not_exact {stop : Stop} {refuted : Prop} (h : ¬ A.exact) :
    A.Excuses stop c refuted := fun hexact => (h hexact).elim

/-! ## Operands -/

/-- Signs apply from the nearest one outwards. -/
theorem applyLeading_outcome {leading : List (DefId × Span)} {signs : List ExprId}
    (hsigns : List.Forall₂ (A.Signed c) leading signs) {p : Phrase} {n : ExprId}
    (hc : A.Valid c) (htrails : p.trails = []) (hp : A.Holds c (single (some p)) n) :
    Outcome (Arrangement.applyLeading n leading) c
      (fun n c' => A.Later c c' ∧
        A.Holds c' (single (some { p with signs := signs.reverse ++ p.signs })) n)
      fun _ _ => ¬ A.exact := by
  -- Induction on the stack of signs: the top one is nearest to the operand.
  induction leading generalizing c p n signs with
  | nil =>
    cases hsigns
    exact ⟨A.refl c, hp⟩
  | cons entry leading ih =>
    obtain ⟨d, span⟩ := entry
    obtain ⟨t, signs, hsign, hrest, rfl⟩ := List.forall₂_cons_left_iff.1 hsigns
    simp only [Arrangement.applyLeading, outcome_bind, outcome_get]
    have hsigns : signs.reverse ++ t :: p.signs = (t :: signs).reverse ++ p.signs := by simp
    obtain ⟨ht, hmay, hleads⟩ := hsign
    refine (A.lead _ hc ht hmay hleads htrails hp).imp ?_
    rintro n' c' ⟨hlater, hn'⟩
    have htrails' : ({ p with signs := t :: p.signs } : Phrase).trails = [] := htrails
    refine (ih (forall₂_signed_later hrest hlater) (A.valid hc hlater) htrails' hn').imp ?_
    rintro n'' c'' ⟨hlater', hn''⟩
    exact ⟨A.trans hlater hlater', hsigns ▸ hn''⟩

/-- An operand with its arguments and signs is a phrase of the run. -/
theorem pushOperand_outcome {ops : List PendingOperator} {operands : List ExprId}
    {fs : List Frame} {leading : List (DefId × Span)} {signs ts args : List ExprId} {f n : ExprId}
    (phase : Phase) (hc : A.Valid c) (hfs : A.FramesStand c ops operands fs)
    (hsigns : List.Forall₂ (A.Signed c) leading signs.reverse)
    (hf : A.Holds c (single (some (.atom f))) n)
    (hargs : List.Forall₂ (fun t n => A.Holds c (single (some (.atom t))) n) ts args)
    (happ : ts = [] ∨ ¬ A.exact ∧ c.Applicable n) :
    Outcome (Arrangement.pushOperand ⟨operands, ops, leading, phase⟩ n args) c
      (fun s c' => A.Later c c' ∧ s.phase = .operatorDue ∧
        A.Stands c' s ⟨fs, .past ⟨signs, f, ts, []⟩⟩)
      fun _ _ => ¬ A.exact := by
  have happly : Outcome (Arrangement.applyCollected n args) c
      (fun n c' => A.Later c c' ∧ A.Holds c' (single (some ⟨[], f, ts, []⟩)) n)
      fun _ _ => ¬ A.exact := by
    rcases eq_or_ne ts [] with rfl | hne
    -- Without arguments there is nothing to apply.
    · cases hargs
      exact ⟨A.refl c, hf⟩
    -- With arguments the account is not exact, so a refusal needs no excuse.
    · obtain ⟨hexact, happ⟩ := happ.resolve_left hne
      exact (A.apply hexact hc hf happ hne hargs).mono (fun _ _ => id) fun _ _ _ => hexact
  have hphrase : signs.reverse.reverse ++ [] = signs := by simp
  simp only [Arrangement.pushOperand, outcome_bind]
  refine happly.imp ?_
  rintro n' c' ⟨hlater, hn'⟩
  refine (applyLeading_outcome (forall₂_signed_later hsigns hlater) (A.valid hc hlater) rfl
    hn').imp ?_
  rintro n'' c'' ⟨hlater', hn''⟩
  have hlater'' := A.trans hlater hlater'
  exact ⟨hlater'', rfl, .past (hfs.later hlater'') (hphrase ▸ hn'')⟩

/-! ## Stacks -/

theorem reduce_outcome {o : Joint} {left right : Plan} {x y : ExprId} {operands : List ExprId}
    (span place : Span) (hc : A.Valid c) (hterm : o.term ∈ terms) (hjoins : c.Joins o)
    (hleft : A.Holds c left x) (hright : A.Holds c right y) :
    Outcome (Arrangement.reduce span ⟨o.callee, o.binding.power, place⟩ (y :: x :: operands)) c
      (fun operands' c' => A.Later c c' ∧
        ∃ n, operands' = n :: operands ∧ A.Holds c' (join left o right) n)
      fun stop c' => A.Excuses stop c' (Plan.OpenAtRoot (join left o right)) := by
  simp only [Arrangement.reduce, Arrangement.popOperand, outcome_bind, outcome_pure,
    outcome_arena]
  refine (A.combine _ hc hterm hjoins hleft hright).imp ?_
  rintro n c' ⟨hlater, hn⟩
  exact ⟨hlater, n, rfl, hn⟩

/-- Reducing in front of an operator closes the waiting ones that give way to it. -/
theorem reduceBefore_outcome {ops : List PendingOperator} {operands : List ExprId}
    {fs : List Frame} {t : Plan} {x : ExprId} (span : Span) (p : Joint) (hc : A.Valid c)
    (hfs : A.FramesStand c ops operands fs) (ht : A.Holds c t x) :
    Outcome (Arrangement.reduceBefore span p.binding.power ops (x :: operands)) c
      (fun r c' => A.Later c c' ∧ ∃ t' fs' x' operands', r.2 = x' :: operands' ∧
        close fs t p = (t', p) :: fs' ∧ A.FramesStand c' r.1 operands' fs' ∧ A.Holds c' t' x')
      fun stop c' => A.Excuses stop c' (∀ f ∈ close fs t p, Plan.OpenAtRoot f.1) := by
  -- Induction on the operators that wait, the latest one first.
  induction fs generalizing c t x ops operands with
  | nil =>
    cases hfs
    exact ⟨A.refl c, t, [], x, [], rfl, rfl, .nil, ht⟩
  | cons f fs ih =>
    cases hfs with
    | @cons ops operands _ left o y place hterm hjoins hleft hrest =>
      unfold Arrangement.reduceBefore close
      have hpower := Binding.power_right_le_left_iff o.binding p.binding
      by_cases hred : o.Reduces p
      -- The latest operator gives way: it is combined, and then those below it are asked.
      · rw [if_pos hred, if_neg fun hle => hpower.1 hle hred, outcome_bind]
        refine (reduce_outcome span place hc hterm hjoins hleft ht).mono ?_ ?_
        · rintro _ c' ⟨hlater, n, rfl, hn⟩
          refine (ih (A.valid hc hlater) (hrest.later hlater) hn).imp fun r c'' h => ?_
          exact ⟨A.trans hlater h.1, h.2⟩
        · intro stop c' hstop hexact
          exact ⟨(hstop hexact).1,
            fun hopen => (hstop hexact).2 (Plan.OpenAtRoot.of_close hopen).1⟩
      -- It does not, so nothing is combined.
      · rw [if_neg hred, if_pos (hpower.2 hred), outcome_pure]
        exact ⟨A.refl c, t, (left, o) :: fs, x, y :: operands, rfl, rfl,
          .cons place hterm hjoins hleft hrest, ht⟩

/-- Reducing everything closes all that waits. -/
theorem reduceAll_outcome {ops : List PendingOperator} {operands : List ExprId}
    {fs : List Frame} {t : Plan} {x : ExprId} (span : Span) (hc : A.Valid c)
    (hfs : A.FramesStand c ops operands fs) (ht : A.Holds c t x) :
    Outcome (Arrangement.reduceAll span ops (x :: operands)) c
      (fun r c' => A.Later c c' ∧ ∃ n, r = [n] ∧ A.Holds c' (closeAll fs t) n)
      fun stop c' => A.Excuses stop c' (Plan.OpenAtRoot (closeAll fs t)) := by
  induction fs generalizing c t x ops operands with
  | nil =>
    cases hfs
    exact ⟨A.refl c, x, rfl, ht⟩
  | cons f fs ih =>
    cases hfs with
    | @cons ops operands _ left o y place hterm hjoins hleft hrest =>
      simp only [Arrangement.reduceAll, outcome_bind]
      refine (reduce_outcome span place hc hterm hjoins hleft ht).mono ?_ ?_
      · rintro _ c' ⟨hlater, n, rfl, hn⟩
        refine (ih (A.valid hc hlater) (hrest.later hlater) hn).imp fun r c'' h => ?_
        exact ⟨A.trans hlater h.1, h.2⟩
      · intro stop c' hstop hexact
        refine ⟨(hstop hexact).1, fun hopen => (hstop hexact).2 ?_⟩
        have hopen' : Plan.OpenAtRoot (closeAll fs (join left o t)) := hopen
        exact (Plan.OpenAtRoot.of_closeAll hopen').1

/-- A binary operator waits behind what it closes. -/
theorem pushBinary_outcome {ops : List PendingOperator} {operands : List ExprId}
    {fs : List Frame} {t : Plan} {x : ExprId} {o : Joint} (phase : Phase) (span place : Span)
    (hc : A.Valid c) (hterm : o.term ∈ terms) (hjoins : c.Joins o)
    (hfs : A.FramesStand c ops operands fs) (ht : A.Holds c t x) :
    Outcome (Arrangement.pushBinary ⟨x :: operands, ops, [], phase⟩ span
        ⟨o.callee, o.binding.power, place⟩) c
      (fun s c' => A.Later c c' ∧ A.Stands c' s ⟨close fs t o, .due []⟩)
      fun stop c' => A.Excuses stop c' (∀ f ∈ close fs t o, Plan.OpenAtRoot f.1) := by
  simp only [Arrangement.pushBinary, outcome_bind]
  refine (reduceBefore_outcome span o hc hfs ht).imp ?_
  rintro ⟨ops', -⟩ c' ⟨hlater, t', fs', x', operands', rfl, hclose, hfs', ht'⟩
  refine ⟨hlater, ?_⟩
  rw [hclose]
  exact .due (.cons place hterm ((A.toExtends hlater).joins hjoins) ht' hfs') .nil

/-! ## Terms -/

/-- A reason to stop at a term: the run may not go on with it. -/
def Stuck (A : Account resolveRun terms) (c : Compilation) (sketch : Sketch) (t : ExprId)
    (stop : Stop) (c' : Compilation) : Prop :=
  A.Excuses stop c'
    (∃ sketch', Sketch.Step (¬ A.exact) sketch t (c.role t) sketch' ∧ sketch'.OpenAtRoot)

/-- Placing a classified term comes to the next sketch, or there is none to go on with. -/
def Follows (A : Account resolveRun terms) (c : Compilation) (sketch : Sketch) (t : ExprId)
    (action : CheckM Arrangement) : Prop :=
  Outcome action c
    (fun s c' => A.Later c c' ∧ ∃ sketch', Sketch.Step (¬ A.exact) sketch t (c.role t) sketch' ∧
      A.Stands c' s sketch')
    (A.Stuck c sketch t)

/-- No step reads the term. -/
theorem stuck_of_no_step {sketch : Sketch} {t : ExprId} {error : CompileError} (hc : A.Valid c)
    (hno : A.exact → ∀ sketch', ¬ Sketch.Step (¬ A.exact) sketch t (c.role t) sketch') :
    A.Stuck c sketch t (.error error) c := by
  intro hexact
  refine ⟨A.halts hc error, ?_⟩
  rintro ⟨sketch', hstep, -⟩
  exact hno hexact sketch' hstep

/-- The only step that reads the term comes to what the account refutes. -/
theorem stuck_of_step {sketch sketch' : Sketch} {t : ExprId} {stop : Stop}
    (hstep : Sketch.Step (¬ A.exact) sketch t (c.role t) sketch')
    (h : A.Excuses stop c' sketch'.OpenAtRoot) : A.Stuck c sketch t stop c' := by
  intro hexact
  obtain ⟨hhalts, hopen⟩ := h hexact
  refine ⟨hhalts, ?_⟩
  rintro ⟨sketch'', hstep', hopen'⟩
  exact hopen (hstep.unique hstep' ▸ hopen')

section Due

variable {ops : List PendingOperator} {operands : List ExprId} {fs : List Frame}
  {leading : List (DefId × Span)} {signs : List ExprId} {t : ExprId}

/-- A sign waits for its operand, whichever definition it calls. -/
theorem sign_stands {d : DefId} (place : Span) (ht : t ∈ terms) (hleads : c.Leads d t)
    (hmay : (c.role t).isSign = true → A.MayLead t) (hfs : A.FramesStand c ops operands fs)
    (hsigns : List.Forall₂ (A.Signed c) leading signs.reverse) :
    ∃ sketch, Sketch.Step (¬ A.exact) ⟨fs, .due signs⟩ t (c.role t) sketch ∧
      A.Stands c ⟨operands, ops, (d, place) :: leading, .operandDue⟩ sketch := by
  refine ⟨_, .sign fs signs t hleads.isSign, .due hfs ?_⟩
  rw [List.reverse_append]
  exact .cons ⟨ht, hmay hleads.isSign, hleads⟩ hsigns

/-- An operand is pushed at once, or waits for its arguments. -/
theorem operand_follows (span : Span) (hc : A.Valid c) (ht : t ∈ terms) (hsettled : c.Settled t)
    (hrole : c.role t = .operand) (hready : A.Ready c t) (hfs : A.FramesStand c ops operands fs)
    (hsigns : List.Forall₂ (A.Signed c) leading signs.reverse) :
    A.Follows c ⟨fs, .due signs⟩ t
      (Arrangement.placeOperandDue ⟨operands, ops, leading, .operandDue⟩ span (.operand t)) := by
  simp only [Follows, Arrangement.placeOperandDue, outcome_bind, outcome_arena, hrole]
  refine (A.operand hc ht hsettled hready hrole).mono ?_ fun _ _ => excuses_of_not_exact
  rintro n c' ⟨hlater, hn, hslots⟩
  have hsigns' := forall₂_signed_later hsigns hlater
  split <;> rename_i hzero
  -- An operand that takes no arguments is pushed at once.
  · refine (pushOperand_outcome _ (A.valid hc hlater) (hfs.later hlater) hsigns' hn .nil
      (.inl rfl)).mono ?_ fun _ _ => excuses_of_not_exact
    rintro s c'' ⟨hlater', -, hs⟩
    exact ⟨A.trans hlater hlater', _, .operand fs signs t, hs⟩
  -- One that does waits for them, which an exact account excludes.
  · refine ⟨hlater, _, .operand fs signs t, ?_⟩
    exact .collecting (fun hexact => hzero (hslots hexact)) (hfs.later hlater) hsigns' hn
      (applicable_of_openSlots hzero) .nil

/-- **A binary operator at the start of a run** waits with its left side missing. -/
theorem first_follows {op : PendingOperator} (span : Span) (hc : A.Valid c) (ht : t ∈ terms)
    (hsettled : c.Settled t) (hterm : (Term.binary op).Plays c t) :
    A.Follows c .start t
      (Arrangement.placeOperandDue ⟨[], [], [], .operandDue⟩ span (.binary op)) := by
  obtain ⟨d, power, place⟩ := op
  obtain ⟨binding, hpower : power = binding.power, hrefers : c.RefersTo t d _⟩ := hterm
  subst hpower
  have hrole : c.role t = .binary d binding := role_of_refersTo hrefers
  have hstep : Sketch.Step (¬ A.exact) .start t (c.role t)
      ⟨[(single none, ⟨t, d, binding⟩)], .due []⟩ := by
    rw [hrole]
    exact .first t d binding
  simp only [Follows, Arrangement.placeOperandDue, List.isEmpty_nil, Bool.and_self, if_true,
    outcome_bind]
  refine (A.missing place hc).mono ?_ fun _ _ => False.elim
  rintro n c' ⟨hlater, hn⟩
  have hrefers' := (A.toExtends hlater).refersTo hrefers
  have hjoins : c'.Joins ⟨t, d, binding⟩ :=
    ⟨(A.toExtends hlater).settled hsettled, by rw [role_of_refersTo hrefers']; rfl⟩
  refine (pushBinary_outcome _ span place (A.valid hc hlater) ht hjoins .nil hn).mono ?_ ?_
  · rintro s c'' ⟨hlater', hs⟩
    exact ⟨A.trans hlater hlater', _, hstep, hs⟩
  · exact fun stop c'' hstop => stuck_of_step hstep hstop

/-- **A term where an operand is due** is read as the sketch reads it. -/
theorem placeOperandDue_follows {term : Term} (span : Span) (hc : A.Valid c) (ht : t ∈ terms)
    (hsettled : c.Settled t) (hterm : term.Plays c t) (hready : A.Ready c t)
    (hmay : (c.role t).isSign = true → A.MayLead t) (hfs : A.FramesStand c ops operands fs)
    (hsigns : List.Forall₂ (A.Signed c) leading signs.reverse) :
    A.Follows c ⟨fs, .due signs⟩ t
      (Arrangement.placeOperandDue ⟨operands, ops, leading, .operandDue⟩ span term) := by
  cases term with
  | operand id =>
    obtain ⟨rfl, hrole⟩ := hterm
    exact operand_follows span hc ht hsettled hrole hready hfs hsigns
  | minusSign place =>
    exact ⟨A.refl c, sign_stands place ht (.inr ⟨hterm, rfl⟩) hmay hfs hsigns⟩
  | leading d place => exact ⟨A.refl c, sign_stands place ht (.inl hterm) hmay hfs hsigns⟩
  | trailing d place =>
    -- No step reads a trailing operator where an operand is due.
    refine stuck_of_no_step hc fun _ sketch' h => ?_
    rw [role_of_refersTo hterm] at h
    cases h with
    | sign _ _ _ h => cases h
  | binary op =>
    by_cases hempty : (operands.isEmpty && ops.isEmpty && leading.isEmpty) = true
    · obtain ⟨rfl, rfl, rfl⟩ : operands = [] ∧ ops = [] ∧ leading = [] := by
        simpa [and_assoc] using hempty
      obtain rfl : signs = [] := by simpa using hsigns
      cases hfs
      exact first_follows span hc ht hsettled hterm
    -- Anywhere else no step reads a binary operator before an operand.
    · simp only [Follows, Arrangement.placeOperandDue, if_neg hempty, outcome_fail]
      refine stuck_of_no_step hc fun _ sketch' h => ?_
      obtain ⟨binding, -, hrefers⟩ := hterm
      rw [role_of_refersTo hrefers] at h
      cases h with
      | sign _ _ _ h => cases h
      | first =>
        cases hfs
        cases hsigns
        simp at hempty

end Due

section Past

variable {ops : List PendingOperator} {operands : List ExprId} {fs : List Frame} {p : Phrase}
  {x t : ExprId}

/-- A binary operator waits behind its left side, whether it is written as one or as a minus
sign. -/
theorem joint_follows {o : Joint} (span place : Span) (hc : A.Valid c) (ht : o.term ∈ terms)
    (hjoins : c.Joins o) (hfs : A.FramesStand c ops operands fs)
    (hp : A.Holds c (single (some p)) x) :
    A.Follows c ⟨fs, .past p⟩ o.term (Arrangement.pushBinary
      ⟨x :: operands, ops, [], .operatorDue⟩ span ⟨o.callee, o.binding.power, place⟩) := by
  have hstep : Sketch.Step (¬ A.exact) ⟨fs, .past p⟩ o.term (c.role o.term) _ :=
    .joint fs p o.term hjoins.2
  refine (pushBinary_outcome _ span place hc ht hjoins hfs hp).mono ?_ ?_
  · rintro s c' ⟨hlater, hs⟩
    exact ⟨hlater, _, hstep, hs⟩
  · exact fun stop c' hstop => stuck_of_step hstep hstop

/-- Nothing that is no operator stands behind an operand, unless the operand is applied to it. -/
theorem stuck_past {error : CompileError} (hc : A.Valid c) (htrailing : c.role t ≠ .trailing)
    (hjoint : (c.role t).joint? t = none) : A.Stuck c ⟨fs, .past p⟩ t (.error error) c := by
  refine stuck_of_no_step hc fun hexact sketch' h => ?_
  generalize c.role t = r at h htrailing hjoint
  cases h with
  | argument _ _ _ _ _ happlies => exact happlies hexact
  | trailing => exact htrailing rfl
  | joint _ _ _ h => cases hjoint.symm.trans h

/-- **A term where an operator is due** is read as the sketch reads it. -/
theorem placeOperatorDue_follows {term : Term} (span : Span) (hc : A.Valid c)
    (ht : t ∈ terms) (hsettled : c.Settled t) (hterm : term.Plays c t)
    (hfs : A.FramesStand c ops operands fs) (hp : A.Holds c (single (some p)) x) :
    A.Follows c ⟨fs, .past p⟩ t
      (Arrangement.placeOperatorDue ⟨x :: operands, ops, [], .operatorDue⟩ span term) := by
  have hbinary {o : Joint} (place : Span) (hjoint : (c.role t).joint? t = some o) :
      A.Follows c ⟨fs, .past p⟩ t (Arrangement.pushBinary
        ⟨x :: operands, ops, [], .operatorDue⟩ span ⟨o.callee, o.binding.power, place⟩) := by
    obtain rfl := Role.term_of_joint? hjoint
    exact joint_follows span place hc ht ⟨hsettled, hjoint⟩ hfs hp
  cases term with
  | operand id =>
    obtain ⟨rfl, hrole⟩ := hterm
    simp only [Follows, Arrangement.placeOperatorDue, outcome_bind, outcome_expr, outcome_fail]
    exact stuck_past hc (by simp [hrole]) (by simp [hrole, Role.joint?])
  | minusSign place =>
    -- A minus sign here is the binary operator, if `-` is declared as one.
    have hrole : c.role t = .minusSign
        ((c.arena.definition c.builtins.minus).binding?.map (c.builtins.minus, ·)) := by
      simp only [role, show (c.arena.expr t).kind = .minusSign from hterm]
    simp only [Follows, Arrangement.placeOperatorDue, outcome_bind, outcome_get,
      outcome_definition, Definition.pending?_eq]
    cases hb : (c.arena.definition c.builtins.minus).binding? with
    | some binding =>
      have hjoint : (c.role t).joint? t = some ⟨t, c.builtins.minus, binding⟩ := by
        simp [hrole, hb, Role.joint?]
      exact hbinary place hjoint
    | none => exact stuck_past hc (by simp [hrole]) (by simp [hrole, hb, Role.joint?])
  | leading d place =>
    have hrole := role_of_refersTo hterm
    exact stuck_past hc (by simp [hrole]) (by simp [hrole, Role.joint?])
  | trailing d place =>
    have hrole := role_of_refersTo hterm
    simp only [Follows, Arrangement.placeOperatorDue, Arrangement.popOperand, outcome_bind,
      outcome_pure]
    have hstep : Sketch.Step (¬ A.exact) ⟨fs, .past p⟩ t .trailing _ := .trailing fs p t
    refine (A.trail place hc ht hterm hp).mono ?_ fun _ _ => excuses_of_not_exact
    rintro n c' ⟨hlater, hn⟩
    exact ⟨hlater, _, hrole ▸ hstep, .past (hfs.later hlater) hn⟩
  | binary op =>
    obtain ⟨d, power, place⟩ := op
    obtain ⟨binding, hpower : power = binding.power, hrefers : c.RefersTo t d _⟩ := hterm
    subst hpower
    have hjoint : (c.role t).joint? t = some ⟨t, d, binding⟩ := by
      rw [role_of_refersTo hrefers]
      rfl
    exact hbinary place hjoint

end Past

/-- A term was read: the run goes on with the next sketch. -/
def Read (A : Account resolveRun terms) (c : Compilation) (sketch : Sketch) (t : ExprId)
    (s : Arrangement) (c' : Compilation) : Prop :=
  A.Later c c' ∧ c'.Settled t ∧
    ∃ sketch', Sketch.Step (¬ A.exact) sketch t (c'.role t) sketch' ∧ A.Stands c' s sketch'

/-- What follows the sketch once a term was classified does so from the start. -/
theorem Follows.read {c₁ : Compilation} {sketch : Sketch} {t : ExprId}
    {action : CheckM Arrangement} (h : A.Follows c₁ sketch t action) (hc : A.Valid c)
    (ht : t ∈ terms) (hlater : A.Later c c₁) (hsettled : c₁.Settled t) :
    Outcome action c₁ (A.Read c sketch t) (A.Stuck c sketch t) := by
  refine Outcome.mono h ?_ ?_
  · rintro s c' ⟨hlater', sketch', hstep, hs⟩
    have hext := A.toExtends hlater'
    exact ⟨A.trans hlater hlater', hext.settled hsettled, sketch',
      hext.role hsettled ▸ hstep, hs⟩
  · intro stop c' hstop hexact
    have hrole := (A.toExtends hlater).role (A.settled hexact hc ht)
    refine ⟨(hstop hexact).1, ?_⟩
    rintro ⟨sketch', hstep, hopen⟩
    exact (hstop hexact).2 ⟨sketch', hrole.symm ▸ hstep, hopen⟩

/-- Only terms that may do so lead an operand while the run is read on. -/
def Led (A : Account resolveRun terms) (c : Compilation) (sketch : Sketch) (ts : List ExprId) :
    Prop :=
  (∀ t, A.MayLead t) ∨ A.exact ∧ Sketch.SignsAre A.MayLead (¬ A.exact) c.role sketch ts

/-- An exact account knows the roles of all terms from the start. -/
theorem role_eq (hexact : A.exact) (hc : A.Valid c) (hlater : A.Later c c') {t : ExprId}
    (ht : t ∈ terms) : c.role t = c'.role t :=
  ((A.toExtends hlater).role (A.settled hexact hc ht)).symm

/-- A function is applied to what it has, and the term is read again behind it. -/
theorem readAgain_outcome {ops : List PendingOperator} {operands : List ExprId} {fs : List Frame}
    {leading : List (DefId × Span)} {signs ts args : List ExprId} {f n t : ExprId} {c₁ : Compilation}
    (phase : Phase) (span : Span) (hexact : ¬ A.exact) (hc : A.Valid c) (ht : t ∈ terms)
    (hlater : A.Later c c₁) (hfs : A.FramesStand c₁ ops operands fs)
    (hsigns : List.Forall₂ (A.Signed c₁) leading signs.reverse)
    (hf : A.Holds c₁ (single (some (.atom f))) n) (happ : c₁.Applicable n)
    (hargs : List.Forall₂ (fun t n => A.Holds c₁ (single (some (.atom t))) n) ts args) :
    Outcome (do
        let s ← Arrangement.pushOperand ⟨operands, ops, leading, phase⟩ n args
        let term ← Termwise.classify resolveRun t
        s.placeOperatorDue span term) c₁
      (A.Read c ⟨fs, .past ⟨signs, f, ts, []⟩⟩ t)
      (A.Stuck c ⟨fs, .past ⟨signs, f, ts, []⟩⟩ t) := by
  have hc₁ := A.valid hc hlater
  simp only [outcome_bind]
  refine (pushOperand_outcome phase hc₁ hfs hsigns hf hargs (.inr ⟨hexact, happ⟩)).mono ?_
    fun _ _ => excuses_of_not_exact
  rintro s c₂ ⟨hlater₂, hphase, hs⟩
  have hc₂ := A.valid hc₁ hlater₂
  refine (A.classify hc₂ ht).mono ?_ fun _ _ => excuses_of_not_exact
  rintro term c₃ ⟨hlater₃, hsettled, hterm, -⟩
  have hlater' := A.trans hlater (A.trans hlater₂ hlater₃)
  cases hs.later hlater₃ with
  | past hfs hp =>
    exact (placeOperatorDue_follows span (A.valid hc₂ hlater₃) ht hsettled hterm hfs hp).read
      hc ht hlater' hsettled
  | collecting => cases hphase

/-- **Reading one term** follows the sketch. -/
theorem advance_outcome {s : Arrangement} {sketch : Sketch} {t : ExprId} (span : Span)
    {ts : List ExprId} (hc : A.Valid c) (ht : t ∈ terms) (hled : A.Led c sketch (t :: ts))
    (hs : A.Stands c s sketch) :
    Outcome (Arrangement.advance resolveRun span s t) c (A.Read c sketch t)
      (A.Stuck c sketch t) := by
  simp only [Arrangement.advance, outcome_bind]
  refine (A.classify hc ht).mono ?_ fun _ _ => excuses_of_not_exact
  rintro term c₁ ⟨hlater, hsettled, hterm, hready⟩
  have hc₁ := A.valid hc hlater
  cases hs.later hlater with
  | due hfs hsigns =>
    have hmay : (c₁.role t).isSign = true → A.MayLead t := by
      intro hsign
      rcases hled with hall | ⟨hexact, hsigns⟩
      · exact hall t
      · exact hsigns.head rfl (role_eq hexact hc hlater ht ▸ hsign)
    exact (placeOperandDue_follows span hc₁ ht hsettled hterm hready hmay hfs hsigns).read
      hc ht hlater hsettled
  | past hfs hp =>
    exact (placeOperatorDue_follows span hc₁ ht hsettled hterm hfs hp).read hc ht hlater hsettled
  | @collecting ops operands fs leading signs ts args f n slots hexact hfs hsigns hf happ hargs =>
    have hagain := readAgain_outcome (.collecting n slots args) span hexact hc ht hlater hfs
      hsigns hf happ hargs
    cases term with
    -- Whatever is no operand ends the arguments.
    | minusSign | leading | trailing | binary => exact hagain
    | operand id =>
      obtain ⟨rfl, hrole⟩ := hterm
      simp only [outcome_bind]
      refine (A.operand hc₁ ht hsettled hready hrole).mono ?_ fun _ _ => excuses_of_not_exact
      rintro m c₂ ⟨hlater₂, hm, -⟩
      have hstep : Sketch.Step (¬ A.exact) ⟨fs, .past ⟨signs, f, ts, []⟩⟩ id (c₁.role id)
          ⟨fs, .past ⟨signs, f, ts ++ [id], []⟩⟩ := hrole ▸ .argument fs signs f ts id hexact
      have hargs₂ := List.rel_append (hargs.imp fun _ _ h => A.holds h hlater₂)
        (List.Forall₂.cons hm .nil)
      have hsigns₂ := forall₂_signed_later hsigns hlater₂
      have happ₂ := (A.toExtends hlater₂).applicable happ
      have hf₂ := A.holds hf hlater₂
      split
      -- The last argument was read, so the function is applied.
      · refine (pushOperand_outcome _ (A.valid hc₁ hlater₂) (hfs.later hlater₂) hsigns₂ hf₂ hargs₂
          (.inr ⟨hexact, happ₂⟩)).mono ?_ fun _ _ => excuses_of_not_exact
        rintro s c₃ ⟨hlater₃, -, hs⟩
        have hext := (A.toExtends hlater₂).trans (A.toExtends hlater₃)
        exact ⟨A.trans hlater (A.trans hlater₂ hlater₃), hext.settled hsettled, _,
          hext.role hsettled ▸ hstep, hs⟩
      -- More arguments may follow.
      · have hext := A.toExtends hlater₂
        exact ⟨A.trans hlater hlater₂, hext.settled hsettled, _, hext.role hsettled ▸ hstep,
          .collecting hexact (hfs.later hlater₂) hsigns₂ hf₂ happ₂ hargs₂⟩

/-! ## Whole runs -/

/-- Reading several terms follows the sketch. -/
theorem foldlM_advance_outcome {s : Arrangement} {sketch : Sketch} {ts : List ExprId}
    (span : Span) (hts : ts ⊆ terms) (hc : A.Valid c) (hled : A.Led c sketch ts)
    (hs : A.Stands c s sketch) :
    Outcome (ts.foldlM (Arrangement.advance resolveRun span) s) c
      (fun s c' => A.Later c c' ∧ (∀ t ∈ ts, c'.Settled t) ∧ ∃ sketch',
        Sketch.Steps (¬ A.exact) c'.role sketch ts sketch' ∧ A.Stands c' s sketch')
      fun stop c' => A.Excuses stop c'
        (∃ sketch', Sketch.Steps (¬ A.exact) c.role sketch ts sketch' ∧ sketch'.OpenAtRoot) := by
  -- Induction on the terms that are left. Roles are read off the state at the end, since a term
  -- has its role once it is classified and keeps it.
  induction ts generalizing c s sketch with
  | nil => exact ⟨A.refl c, by simp, sketch, .nil _, hs⟩
  | cons t ts ih =>
    obtain ⟨ht, hts⟩ := List.cons_subset.1 hts
    simp only [List.foldlM_cons, outcome_bind]
    refine (advance_outcome span hc ht hled hs).mono ?_ ?_
    · rintro s₁ c₁ ⟨hlater, hsettled, sketch₁, hstep, hs₁⟩
      have hled₁ : A.Led c₁ sketch₁ ts := by
        refine hled.imp_right ?_
        rintro ⟨hexact, hsigns⟩
        refine ⟨hexact, ?_⟩
        have htail := hsigns.tail (role_eq hexact hc hlater ht ▸ hstep)
        exact htail.congr fun u hu => role_eq hexact hc hlater (hts hu)
      refine (ih hts (A.valid hc hlater) hled₁ hs₁).mono ?_ ?_
      · rintro s₂ c₂ ⟨hlater₂, hsettled₂, sketch₂, hsteps, hs₂⟩
        have hext := A.toExtends hlater₂
        refine ⟨A.trans hlater hlater₂, List.forall_mem_cons.2 ⟨hext.settled hsettled, hsettled₂⟩,
          sketch₂, .cons ?_ hsteps, hs₂⟩
        exact (hext.role hsettled).symm ▸ hstep
      -- The rest of the run was refused: an exact account reads every role alike from the start.
      · intro stop c₂ hstop hexact
        have hrole : ∀ u ∈ terms, c.role u = c₁.role u := fun u hu => role_eq hexact hc hlater hu
        refine ⟨(hstop hexact).1, ?_⟩
        rintro ⟨sketch₂, hsteps, hopen⟩
        cases hsteps with
        | cons hstep' hrest =>
          obtain rfl := hstep.unique (hrole t ht ▸ hstep')
          exact (hstop hexact).2 ⟨sketch₂, hrest.congr fun u hu => hrole u (hts hu), hopen⟩
    -- This term was refused: what is open at the root at the end was so after it.
    · intro stop c₁ hstop hexact
      refine ⟨(hstop hexact).1, ?_⟩
      rintro ⟨sketch₂, hsteps, hopen⟩
      cases hsteps with
      | cons hstep hrest =>
        exact (hstop hexact).2 ⟨_, hstep, hrest.openAtRoot hopen⟩

/-- What the end of a run comes to: a node for the plan, or a reason that there is none. -/
def Finishes (A : Account resolveRun terms) (c : Compilation) (sketch : Sketch)
    (action : CheckM Expression) : Prop :=
  Outcome action c
    (fun e c' => A.Later c c' ∧ ∃ plan n, sketch.Ends plan ∧ A.Holds c' plan n ∧
      e = c'.arena.expr n)
    fun stop c' => A.Excuses stop c' (∃ plan, sketch.Ends plan ∧ plan.OpenAtRoot)

/-- Once the last operand is there, all that waits is reduced to one node. -/
theorem reduceAll_finishes {ops : List PendingOperator} {operands : List ExprId}
    {fs : List Frame} {t : Plan} {x : ExprId} {sketch : Sketch} (span : Span) (hc : A.Valid c)
    (hfs : A.FramesStand c ops operands fs) (ht : A.Holds c t x)
    (hends : sketch.Ends (closeAll fs t)) :
    A.Finishes c sketch (do
      match ← Arrangement.reduceAll span ops (x :: operands) with
      | [result] => CheckM.expr result
      | rest => CheckM.fail (.stackNotReduced rest.length) span) := by
  unfold Finishes
  simp only [outcome_bind]
  refine (reduceAll_outcome span hc hfs ht).mono ?_ ?_
  · rintro _ c' ⟨hlater, n, rfl, hn⟩
    exact ⟨hlater, _, n, hends, hn, rfl⟩
  · intro stop c' hstop hexact
    refine ⟨(hstop hexact).1, ?_⟩
    rintro ⟨plan, hends', hopen⟩
    exact (hstop hexact).2 (hends.unique hends' ▸ hopen)

theorem finish_finishes {s : Arrangement} {sketch : Sketch} (span : Span) (hc : A.Valid c)
    (hs : A.Stands c s sketch) : A.Finishes c sketch (s.finish span) := by
  -- What follows the sketch from a later state does so from the start.
  have hfrom : ∀ {c₁ : Compilation} {action : CheckM Expression}, A.Later c c₁ →
      A.Finishes c₁ sketch action → Outcome action c₁
        (fun e c' => A.Later c c' ∧ ∃ plan n, sketch.Ends plan ∧ A.Holds c' plan n ∧
          e = c'.arena.expr n)
        fun stop c' => A.Excuses stop c' (∃ plan, sketch.Ends plan ∧ plan.OpenAtRoot) :=
    fun hlater h => Outcome.imp h fun _ _ h => ⟨A.trans hlater h.1, h.2⟩
  unfold Finishes
  cases hs with
  | past hfs hp =>
    simp only [Arrangement.finish, outcome_bind, outcome_pure]
    exact outcome_bind.1 (hfrom (A.refl c) (reduceAll_finishes span hc hfs hp (.past _ _)))
  | @collecting ops operands fs leading signs ts args f n slots hexact hfs hsigns hf happ hargs =>
    simp only [Arrangement.finish, outcome_bind]
    refine (pushOperand_outcome _ hc hfs hsigns hf hargs (.inr ⟨hexact, happ⟩)).mono ?_
      fun _ _ => excuses_of_not_exact
    rintro s c₁ ⟨hlater, hphase, hs⟩
    cases hs with
    | past hfs hp =>
      exact hfrom hlater (reduceAll_finishes span (A.valid hc hlater) hfs hp (.past _ _))
    | collecting => cases hphase
  | @due ops operands fs leading signs hfs hsigns =>
    simp only [Arrangement.finish, outcome_bind]
    cases hsigns' : signs.reverse with
    | cons t rest =>
      -- A sign without an operand is refused, and no sketch ends like this.
      rw [hsigns'] at hsigns
      obtain ⟨⟨d, place⟩, leading, -, -, rfl⟩ := List.forall₂_cons_right_iff.1 hsigns
      refine fun _ => ⟨A.halts hc _, ?_⟩
      rintro ⟨plan, hends, -⟩
      cases hends with
      | due => simp at hsigns'
    | nil =>
      rw [hsigns'] at hsigns
      cases hsigns
      obtain rfl := List.reverse_eq_nil_iff.1 hsigns'
      cases hfs with
      | nil =>
        -- Nothing was read at all.
        refine fun _ => ⟨A.halts hc _, ?_⟩
        rintro ⟨plan, hends, -⟩
        cases hends
      | cons place hterm hjoins hleft hrest =>
        -- A run that ends with a binary operator misses the right side of it.
        simp only [outcome_bind, outcome_pure]
        refine (A.missing place hc).mono ?_ fun _ _ => False.elim
        rintro n c₁ ⟨hlater, hn⟩
        have hfs := (FramesStand.cons place hterm hjoins hleft hrest).later hlater
        exact outcome_bind.1
          (hfrom hlater (reduceAll_finishes span (A.valid hc hlater) hfs hn (.due _ _)))

/-- **An arranged run** stands for its plan. If the account is exact, then a run is arranged
unless it has no plan that is open only at the root. -/
theorem arrange_outcome (A : Account resolveRun terms) (span : Span) (hc : A.Valid c)
    (hled : A.Led c .start terms) :
    Outcome (arrange resolveRun terms span) c
      (fun e c' => A.Later c c' ∧ (∀ t ∈ terms, c'.Settled t) ∧ ∃ plan n,
        Planned (¬ A.exact) c'.role terms plan ∧ A.Holds c' plan n ∧ e = c'.arena.expr n)
      fun stop c' => A.Excuses stop c'
        (∃ plan, Planned (¬ A.exact) c.role terms plan ∧ plan.OpenAtRoot) := by
  have hstart : A.Stands c .start .start := .due .nil .nil
  simp only [arrange, outcome_bind]
  refine (foldlM_advance_outcome span (List.Subset.refl terms) hc hled hstart).mono ?_ ?_
  · rintro s c₁ ⟨hlater, hsettled, sketch, hsteps, hs⟩
    refine (finish_finishes span (A.valid hc hlater) hs).mono ?_ ?_
    · rintro e c₂ ⟨hlater₂, plan, n, hends, hn, rfl⟩
      have hext := A.toExtends hlater₂
      have hsteps₂ := hsteps.congr fun t ht => (hext.role (hsettled t ht)).symm
      exact ⟨A.trans hlater hlater₂, fun t ht => hext.settled (hsettled t ht), plan, n,
        ⟨sketch, hsteps₂, hends⟩, hn, rfl⟩
    · intro stop c₂ hstop hexact
      have hrole : ∀ t ∈ terms, c.role t = c₁.role t := fun t ht => role_eq hexact hc hlater ht
      refine ⟨(hstop hexact).1, ?_⟩
      rintro ⟨plan, ⟨sketch', hsteps', hends⟩, hopen⟩
      obtain rfl := hsteps.unique (hsteps'.congr hrole)
      exact (hstop hexact).2 ⟨plan, hends, hopen⟩
  · intro stop c₁ hstop hexact
    refine ⟨(hstop hexact).1, ?_⟩
    rintro ⟨plan, ⟨sketch, hsteps, hends⟩, hopen⟩
    exact (hstop hexact).2 ⟨sketch, hsteps, hends.openAtRoot hopen⟩

end Account

end Termwise
