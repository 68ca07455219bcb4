import Termwise.Proofs.Concretization.ConstantUses
import Termwise.Proofs.Concretization.Reports

/-!
# Substitution and the verdict

Uses of definitions are replaced by copies of the bodies, unless a switch says to keep them. That is
meant to be an optimization, and where all definitions stand for constants it nearly is one. The two
walks of the program, with substitution and without, are gone through side by side. They do the same
to everything but the uses, and a use is the constant in one program and a reference of its type in
the other. The difference shows only where a use is asked for another type than it has. There the
constant may be cast or widened, and the reference is rejected. So what is accepted with all uses
kept is accepted anyway, and if the verdicts differ then a mismatch of types is on record.

Without the condition neither verdict follows from the other. A body is not held against the type
that its definition declares, so that a use may have another type when it is replaced.

## Main definitions

* `Abreast`: the states of the two walks
* `Together`: a part of both walks

## Main results

* `together_visitor`: the two walks go together
* `check_inlining`: the verdicts with substitution and without
-/

namespace Termwise

open Compilation

variable {α β : Type} {c₀ c c' k : Compilation} {F : Set ExprId} {d : DefId} {b id n x : ExprId}
  {e e' : Expression} {w v : Walk} {settings inlining keeping : Settings}

/-! ## Two walks side by side -/

/-- **The two walks**: their programs, and the definitions other than constants that were dealt
with. -/
structure Abreast (c₀ : Compilation) (F : Set ExprId) (w v : Walk) : Prop where
  unit : Twins c₀ F w.unit v.unit
  finished : ∀ d, ¬ c₀.Fixed d → (d ∈ w.finished ↔ d ∈ v.finished)

/-- **A part of the two walks.** -/
abbrev Together (c₀ : Compilation) (F : Set ExprId) (first second : WalkM α) (w v : Walk)
    (ended : α → Prop) : Prop :=
  Paired (Abreast c₀ F) (fun v => v.unit.Lost) first second w v fun a _ _ => ended a

/-- The two visitors go together, from any expression and any statement. -/
structure Visitor.Together (c₀ : Compilation) (next next' : Visitor) : Prop where
  expr : ∀ (F : Set ExprId) (id : ExprId) (w v : Walk), Abreast c₀ F w v →
    Termwise.Together c₀ F (next.expr [] id) (next'.expr [] id) w v fun _ => True
  statement : ∀ (F : Set ExprId) (s : StmtId) (w v : Walk), Abreast c₀ F w v →
    Termwise.Together c₀ F (next.statement [] s) (next'.statement [] s) w v fun _ => True

theorem Abreast.mono {F' : Set ExprId} (h : Abreast c₀ F w v) (hF : F' ⊆ F) : Abreast c₀ F' w v :=
  ⟨h.unit.mono hF, h.finished⟩

/-- A step of both runs, as part of the walks. -/
theorem together_step {action : CheckM α} {ended : α → Prop} (h : Abreast c₀ F w v)
    (hstep : Matched c₀ F action w.unit v.unit fun a _ _ => ended a) :
    Together c₀ F (liftM action) (liftM action) w v ended := by
  unfold Matched Paired at hstep
  unfold Together Paired
  simp only [liftM, monadLift, MonadLift.monadLift, CheckM.inWalk]
  rcases hfirst : action w.unit with ⟨a, c'⟩ | ⟨_ | _, c'⟩ <;>
    rcases hsecond : action v.unit with ⟨b, k'⟩ | ⟨_ | _, k'⟩ <;>
    rw [hfirst, hsecond] at hstep <;> first | trivial | skip
  · obtain ⟨rfl, htwins, hended⟩ := hstep.resolve_left id
    exact .inr ⟨rfl, ⟨htwins, h.finished⟩, hended⟩
  · exact .inr (hstep.resolve_left id)
  · refine .inr ((hstep.resolve_left id).imp_right fun hstep => ?_)
    exact ⟨hstep.1, hstep.2, h.finished⟩

/-! ### Reading the state -/

section

variable {first : WalkM α} {ended : α → Prop}

@[simp] theorem together_get {rest rest' : Walk → WalkM α} :
    Together c₀ F (get >>= rest) (get >>= rest') w v ended ↔
      Together c₀ F (rest w) (rest' v) w v ended := Iff.rfl

@[simp] theorem together_arena {rest rest' : Arena → WalkM α} :
    Together c₀ F (liftM CheckM.arena >>= rest) (liftM CheckM.arena >>= rest') w v ended ↔
      Together c₀ F (rest w.unit.arena) (rest' v.unit.arena) w v ended := Iff.rfl

@[simp] theorem together_expr {rest rest' : Expression → WalkM α} :
    Together c₀ F (liftM (CheckM.expr id) >>= rest) (liftM (CheckM.expr id) >>= rest') w v ended ↔
      Together c₀ F (rest (w.unit.arena.expr id)) (rest' (v.unit.arena.expr id)) w v ended :=
  Iff.rfl

@[simp] theorem together_definition {rest rest' : Definition → WalkM α} :
    Together c₀ F (liftM (CheckM.definition d) >>= rest) (liftM (CheckM.definition d) >>= rest')
        w v ended ↔
      Together c₀ F (rest (w.unit.arena.definition d)) (rest' (v.unit.arena.definition d)) w v
        ended := Iff.rfl

/-- Both walks stop for the same reason. -/
theorem together_fail {rest rest' : β → WalkM α} (h : Abreast c₀ F w v) (cause : Cause)
    (span : Span) :
    Together c₀ F (liftM (CheckM.fail cause span) >>= rest)
      (liftM (CheckM.fail cause span) >>= rest') w v ended :=
  .inr (.inr ⟨rfl, h⟩)

end

/-! ## Both walks of a use -/

namespace Compilation

/-- Another constant may take the place of what is no body. -/
theorem Holds.rewritten (h : c₀.Holds c) (hc' : c.Rewritten id e c') (hid : ¬ c₀.Backs id)
    (he : ∀ m ∈ e.kind.children, ¬ c₀.Backs m) : c₀.Holds c' := by
  refine ⟨h.toSameProgram.trans hc'.toSameProgram, fun b hb => ?_, fun n m hm => ?_⟩
  · rw [hc'.other b fun heq => hid (heq ▸ hb), h.body b hb]
  · by_cases hn : n = id
    · rw [hn, hc'.self] at hm
      exact he m hm
    · rw [hc'.other n hn] at hm
      exact h.free n m hm

/-- What is no value is no body. -/
theorem Holds.not_backs (h : c₀.Holds c) (hc : c₀.Constants)
    (hid : (c.arena.expr id).kind.isValue = false) : ¬ c₀.Backs id := by
  intro hb
  rw [h.body id hb, (hc.settled hb).value] at hid
  cases hid

theorem Holds.constantUse (h : c₀.Holds c) (hc : c₀.Constants)
    (hk : (c.arena.expr id).kind = .reference d ∨ (c.arena.expr id).kind = .call d [])
    (hb : (c₀.arena.definition d).body = .expression b) : c.ConstantUse id d b := by
  have hconstant := hc.constant d b hb
  refine ⟨hk, ?_, ?_, ?_, ?_, ?_⟩
  · rw [h.definition, hb]
  · rw [h.body b ⟨d, hb⟩]
    exact hc.settled ⟨d, hb⟩
  · rw [h.body b ⟨d, hb⟩, h.definitionType, hconstant.typed]
  · rw [h.definitionType]
    exact hconstant.native
  · rw [h.definitionType]
    exact hc.value d ⟨b, hb⟩

theorem Rewritten.refl (c : Compilation) (id : ExprId) : c.Rewritten id (c.arena.expr id) c :=
  ⟨.refl c, rfl, rfl, rfl, fun _ _ => rfl⟩

end Compilation

/-- **A use** is a constant in one program, and takes the type of the constant in the other one. -/
theorem Twins.use (h : Twins c₀ F c k) (hc : c₀.Constants)
    (hk : (k.arena.expr id).kind = .reference d ∨ (k.arena.expr id).kind = .call d [])
    (hd : c₀.Fixed d) (hc' : c.Rewritten id e c') (hvalue : e.kind.isValue = true)
    (hty : e.ty = c₀.arena.definitionType d)
    (hdeclared : e.declared = (c.arena.expr id).declared) (hspan : e.span = (c.arena.expr id).span) :
    Twins c₀ F c' (k.modifyArena (·.modifyExpr id fun e =>
      { e with ty := c₀.arena.definitionType d })) := by
  have hid : ¬ c₀.Backs id := h.second.not_backs hc (by
    rcases hk with hk | hk <;> rw [hk] <;> rfl)
  have hlt : id.index < k.arena.exprs.size := Arena.lt_size_of_kind_ne (by
    rcases hk with hk | hk <;> rw [hk] <;> simp)
  have hk' := rewritten_modifyExpr hlt fun e => { e with ty := c₀.arena.definitionType d }
  have hstands : c₀.Stands e { k.arena.expr id with ty := c₀.arena.definitionType d } :=
    ⟨hvalue, ⟨d, hd, hk, hty⟩, hty.symm, (h.declared id).trans hdeclared.symm,
      (h.span id).trans hspan.symm⟩
  refine ⟨h.first.rewritten hc' hid ?_, h.second.rewritten hk' hid ?_, ?_, ?_, fun n => ?_,
    fun n hn => ?_⟩
  · rw [ExprKind.children_of_isValue hvalue]
    simp
  · rw [hstands.children]
    simp
  · rw [hk'.isValid, hc'.isValid, h.isValid]
  · rw [hk'.size, hc'.size, h.size]
  · by_cases hn : n = id
    · rw [hn, hk'.self, hc'.self]
      exact .inr hstands
    · rw [hk'.other n hn, hc'.other n hn]
      exact h.expr n
  · have hne : n ≠ id := by
      rintro rfl
      exact h.firm n hn ⟨d, hd, hk⟩
    rw [hk'.other n hne]
    exact h.firm n hn

/-- **A use** is walked in both runs. -/
theorem together_use (hc : c₀.Constants) (hinline : inlining.debugNoInline = false)
    (hkeep : keeping.debugNoInline = true) (rounds : Nat) (child child' : ExprId → WalkM Unit)
    (h : Abreast c₀ F w v) (huse : c₀.IsUse (v.unit.arena.expr id).kind) :
    Together c₀ F (visitExpr inlining (visitor inlining rounds) child [] id)
      (visitExpr keeping (visitor keeping rounds) child' [] id) w v fun _ => True := by
  obtain ⟨d, hd, hk⟩ := huse
  obtain ⟨b, hb⟩ := hd
  have hv := h.unit.second.constantUse hc hk hb
  refine paired_of_outcome ((visitExpr_kept hkeep rounds child' hv).imp ?_)
  rintro _ v' ⟨hv', hdeclared, hfinished'⟩
  rw [h.unit.second.definitionType] at hv' hdeclared
  -- The two runs meet again when the first one has the constant.
  have hmeet {w' : Walk} {e : Expression} (hw' : w.unit.Rewritten id e w'.unit)
      (hfinished : w'.finished = w.finished) (hvalue : e.kind.isValue = true)
      (hty : e.ty = c₀.arena.definitionType d)
      (hsame : e.declared = (w.unit.arena.expr id).declared ∧
        e.span = (w.unit.arena.expr id).span) : Abreast c₀ F w' v' := by
    refine ⟨?_, fun d' hd' => ?_⟩
    · rw [hv']
      exact h.unit.use hc hk ⟨b, hb⟩ hw' hvalue hty hsame.1 hsame.2
    · have hne : d' ≠ d := fun heq => hd' ⟨b, heq ▸ hb⟩
      rw [hfinished, hfinished' d' hne]
      exact h.finished d' hd'
  rcases h.unit.expr id with heq | hstands
  · have hw := h.unit.first.constantUse hc (heq ▸ hk) hb
    have htyped : (w.unit.arena.expr b).ty = c₀.arena.definitionType d := by
      rw [hw.typed, h.unit.first.definitionType]
    refine (visitExpr_replaced hinline rounds child hw ?_).imp ?_
    · rw [h.unit.first.definitionType, ← heq]
      exact hdeclared
    · rintro _ w' ⟨hw', hfinished⟩
      exact ⟨rfl, hmeet hw' hfinished hw.settled.value htyped ⟨rfl, rfl⟩, trivial⟩
  · have hty : (w.unit.arena.expr id).ty = c₀.arena.definitionType d := by
      obtain ⟨d', -, huse', hty⟩ := hstands.use
      have hd' : d' = d := by
        rcases huse' with huse' | huse' <;> rcases hk with hk | hk <;>
          cases huse'.symm.trans hk <;> rfl
      rw [hty, hd']
    have hsettled : (w.unit.arena.expr id).Settled := by
      refine ⟨hstands.value, hty ▸ hc.native ⟨b, hb⟩, fun t ht => ?_⟩
      rw [hty]
      exact hdeclared t (hstands.declared.trans ht)
    refine (visitExpr_settled _ child [] hsettled).mono ?_ fun _ _ h => h.elim
    rintro _ _ rfl
    exact ⟨rfl, hmeet (.refl _ id) rfl hstands.value hty ⟨rfl, rfl⟩, trivial⟩

/-! ## Both walks -/

/-- What changed nothing leaves the two programs twins. -/
theorem Twins.unchanged (h : Twins c₀ F c k) (hc' : c.Unchanged c') : Twins c₀ F c' k := by
  refine ⟨⟨h.first.toSameProgram.trans hc'.toSameProgram, fun b hb => ?_, fun n m hm => ?_⟩,
    h.second, ?_, ?_, fun n => ?_, h.firm⟩
  · rw [hc'.expr, h.first.body b hb]
  · rw [hc'.expr] at hm
    exact h.first.free n m hm
  · rw [hc'.isValid, h.isValid]
  · rw [hc'.size, h.size]
  · rw [hc'.expr]
    exact h.expr n

theorem Twins.isPartialCall (h : Twins c₀ F c k) (heq : k.arena.expr id = c.arena.expr id) :
    k.arena.isPartialCall id = c.arena.isPartialCall id := by
  simp only [Arena.isPartialCall, heq, h.definitionType, h.isMissing]

/-- **What is no use of a constant is not replaced.** -/
theorem together_trySubstitute (hkeep : keeping.debugNoInline = true) (next next' : Visitor)
    (h : Abreast c₀ F w v) (huse : ¬ c₀.IsUse (v.unit.arena.expr id).kind)
    (hd : (w.unit.arena.expr id).kind.definition? = some d) :
    Together c₀ F (trySubstitute inlining next [] id d) (trySubstitute keeping next' [] id d) w v
      fun replaced => replaced = false := by
  have heq := h.unit.expr_eq huse
  refine paired_of_outcome ?_
  simp only [trySubstitute_keeping hkeep, outcome_pure]
  simp only [trySubstitute, List.contains_nil, Bool.false_eq_true, if_false, outcome_bind,
    outcome_lift]
  refine ((substitute_outcome inlining hd).and (substitute_copies inlining hd)).mono ?_
    fun _ _ h => h.1.stop
  rintro (_ | _) c' ⟨hkept, hcopies⟩
  · exact ⟨rfl, ⟨h.unit.unchanged (hkept.kept rfl), h.finished⟩, rfl⟩
  · obtain ⟨b, hcopied⟩ := hcopies rfl
    refine (huse ⟨d, ⟨b, ?_⟩, heq ▸ hcopied.use⟩).elim
    rw [← h.unit.first.definition, hcopied.body]

section

variable {rounds : Nat}

/-- **A definition** is walked in both runs. -/
theorem together_visitDefinition (hc : c₀.Constants)
    (hnext : Visitor.Together c₀ (visitor inlining rounds) (visitor keeping rounds))
    (h : Abreast c₀ F w v) (d : DefId) :
    Together c₀ F (visitDefinition (visitor inlining rounds) [] d)
      (visitDefinition (visitor keeping rounds) [] d) w v fun _ => True := by
  by_cases hd : c₀.Fixed d
  · obtain ⟨b, hb⟩ := hd
    have hsettled := hc.settled ⟨d, hb⟩
    refine paired_of_outcome ((visitDefinition_settled keeping rounds [] (b := b) ?_ ?_).mono ?_
      fun _ _ h => .inl h)
    · rw [h.unit.second.definition, hb]
    · rwa [h.unit.second.body b ⟨d, hb⟩]
    rintro _ v' ⟨hv', hfinished'⟩
    refine (visitDefinition_settled inlining rounds [] (b := b) ?_ ?_).imp ?_
    · rw [h.unit.first.definition, hb]
    · rwa [h.unit.first.body b ⟨d, hb⟩]
    rintro _ w' ⟨hw', hfinished⟩
    refine ⟨rfl, ⟨?_, fun d' hd' => ?_⟩, trivial⟩
    · rw [hw', hv']
      exact h.unit
    · have hne : d' ≠ d := fun heq => hd' ⟨b, heq ▸ hb⟩
      rw [hfinished d' hne, hfinished' d' hne]
      exact h.finished d' hd'
  · simp only [visitDefinition, together_definition, h.unit.definition]
    split
    · exact paired_pure () h trivial
    · exact paired_pure () h trivial
    · rename_i s _
      have hcontains : v.finished.contains d = w.finished.contains d := by
        rw [Bool.eq_iff_iff, List.contains_iff_mem, List.contains_iff_mem]
        exact (h.finished d hd).symm
      simp only [together_get, hcontains]
      split
      · exact paired_pure () h trivial
      · refine hnext.statement F s _ _ ⟨h.unit, fun d' hd' => ?_⟩
        simp only [List.mem_cons, h.finished d' hd']
    · rename_i b hb
      exact (hd ⟨b, by rw [← h.unit.first.definition, hb]⟩).elim

variable {child child' : ExprId → WalkM Unit}

/-- Expressions are walked one after the other in both runs. -/
theorem together_visitEach
    (hchild : ∀ F n w v, Abreast c₀ F w v →
      Together c₀ F (child n) (child' n) w v fun _ => True)
    (hlost : ∀ n, StaysLost (child' n)) (ns : List ExprId) (h : Abreast c₀ F w v) :
    Together c₀ F (visitEach child ns) (visitEach child' ns) w v fun _ => True := by
  induction ns generalizing w v with
  | nil => exact paired_pure () h trivial
  | cons n ns ih =>
    refine (hchild F n w v h).bind (fun _ _ _ h' _ => ih h') fun _ => ?_
    exact staysLost_visitEach hlost ns

/-- **A reference that is no use of a constant** takes the type of its definition. -/
theorem together_visitReference (hc : c₀.Constants) (hkeep : keeping.debugNoInline = true)
    (hnext : Visitor.Together c₀ (visitor inlining rounds) (visitor keeping rounds))
    (h : Abreast c₀ F w v) (hid : ¬ c₀.Backs id) (hfirm : id ∈ F)
    (hd : (w.unit.arena.expr id).kind.definition? = some d) :
    Together c₀ F (visitReference inlining (visitor inlining rounds) [] id d)
      (visitReference keeping (visitor keeping rounds) [] id d) w v fun _ => True := by
  refine (together_trySubstitute hkeep _ _ h (h.unit.firm id hfirm) hd).bind ?_ ?_
  · rintro _ w₁ v₁ h₁ rfl
    simp only [Bool.false_eq_true, if_false]
    refine (together_visitDefinition hc hnext h₁ d).bind (fun _ w₂ v₂ h₂ _ => ?_) ?_
    · exact together_step h₂ (matched_typeReference h₂.unit hid hfirm d)
    · exact fun _ => (tacit_typeReference id d).staysLost
  · rintro (_ | _)
    · simp only [Bool.false_eq_true, if_false]
      exact (staysLost_visitDefinition hkeep rounds d).bind fun _ =>
        (tacit_typeReference id d).staysLost
    · exact staysLost_pure ()

/-- **A call that is no use of a constant** is typed over its arguments. -/
theorem together_visitCall (hc : c₀.Constants) (hkeep : keeping.debugNoInline = true)
    (hnext : Visitor.Together c₀ (visitor inlining rounds) (visitor keeping rounds))
    (hchild : ∀ F n w v, Abreast c₀ F w v →
      Together c₀ F (child n) (child' n) w v fun _ => True)
    (hlost : ∀ n, StaysLost (child' n))
    (h : Abreast c₀ F w v) (hid : ¬ c₀.Backs id) (hfirm : id ∈ F) {args : List ExprId}
    (hk : (w.unit.arena.expr id).kind = .call d args) :
    Together c₀ F (visitCall inlining (visitor inlining rounds) child [] id d args)
      (visitCall keeping (visitor keeping rounds) child' [] id d args) w v fun _ => True := by
  have heq := h.unit.expr_eq (h.unit.firm id hfirm)
  have hargs : ∀ n ∈ args, ¬ c₀.Backs n := fun n hn => h.unit.first.free id n (by rwa [hk])
  simp only [visitCall, together_arena, h.unit.isPartialCall heq, h.unit.definitionType,
    h.unit.definition, h.unit.isMissing, heq]
  split
  · exact together_fail h _ _
  · -- What is left once it is known that the call is not replaced.
    have hstays : StaysLost (do
        visitDefinition (visitor keeping rounds) [] d
        visitEach child' args
        liftM (typeCall id (w.unit.arena.definitionType d) args)) :=
      (staysLost_visitDefinition hkeep rounds d).bind fun _ =>
        (staysLost_visitEach hlost args).bind fun _ => (tacit_typeCall id _ args).staysLost
    have hrest {w₁ v₁ : Walk} (h₁ : Abreast c₀ F w₁ v₁) : Together c₀ F (do
        visitDefinition (visitor inlining rounds) [] d
        visitEach child args
        liftM (typeCall id (w.unit.arena.definitionType d) args)) (do
        visitDefinition (visitor keeping rounds) [] d
        visitEach child' args
        liftM (typeCall id (w.unit.arena.definitionType d) args)) w₁ v₁ fun _ => True := by
      refine (together_visitDefinition hc hnext h₁ d).bind (fun _ w₂ v₂ h₂ _ => ?_) fun _ =>
        (staysLost_visitEach hlost args).bind fun _ => (tacit_typeCall id _ args).staysLost
      refine (together_visitEach hchild hlost args h₂).bind (fun _ w₃ v₃ h₃ _ => ?_) fun _ =>
        (tacit_typeCall id _ args).staysLost
      exact together_step h₃ (matched_typeCall h₃.unit hc hid hfirm hargs _)
    split
    · refine (together_trySubstitute hkeep _ _ h (h.unit.firm id hfirm) (by rw [hk]; rfl)).bind
        ?_ ?_
      · rintro _ w₁ v₁ h₁ rfl
        exact hrest h₁
      · rintro (_ | _)
        · exact hstays
        · exact staysLost_pure ()
    · exact hrest h

/-- **A minus sign** becomes a call in both runs. -/
theorem together_visitNegation (hc : c₀.Constants)
    (hnext : Visitor.Together c₀ (visitor inlining rounds) (visitor keeping rounds))
    (hkeep : keeping.debugNoInline = true)
    (hchild : ∀ F n w v, Abreast c₀ F w v →
      Together c₀ F (child n) (child' n) w v fun _ => True)
    (h : Abreast c₀ F w v) (hid : ¬ c₀.Backs id)
    (hk : (w.unit.arena.expr id).kind = .negated x) :
    Together c₀ F (visitNegation (visitor inlining rounds) child [] id x)
      (visitNegation (visitor keeping rounds) child' [] id x) w v fun _ => True := by
  have hx : ¬ c₀.Backs x := h.unit.first.free id x (by rw [hk]; exact List.mem_singleton_self x)
  refine (hchild F x w v h).bind (fun _ w₁ v₁ h₁ _ => ?_) fun _ =>
    (tacit_callNegation id x).staysLost.bind fun _ => staysLost_visitor hkeep rounds id
  refine (together_step h₁ (matched_callNegation h₁.unit hc hid hx)).bind
    (fun _ w₂ v₂ h₂ _ => ?_) fun _ => staysLost_visitor hkeep rounds id
  exact hnext.expr F id w₂ v₂ h₂

/-- **An expression** is walked in both runs. -/
theorem together_visitExpr (hc : c₀.Constants) (hinline : inlining.debugNoInline = false)
    (hkeep : keeping.debugNoInline = true)
    (hnext : Visitor.Together c₀ (visitor inlining rounds) (visitor keeping rounds))
    (hchild : ∀ F n w v, Abreast c₀ F w v →
      Together c₀ F (child n) (child' n) w v fun _ => True)
    (hlost : ∀ n, StaysLost (child' n)) (id : ExprId) (h : Abreast c₀ F w v) :
    Together c₀ F (visitExpr inlining (visitor inlining rounds) child [] id)
      (visitExpr keeping (visitor keeping rounds) child' [] id) w v fun _ => True := by
  by_cases huse : c₀.IsUse (v.unit.arena.expr id).kind
  · exact together_use hc hinline hkeep rounds child child' h huse
  -- What is no use now does not become one.
  have h' : Abreast c₀ (insert id F) w v := ⟨h.unit.insert huse, h.finished⟩
  have hfirm : id ∈ insert id F := .inl rfl
  refine Paired.mono ?_ fun w' v' (h : Abreast c₀ (insert id F) w' v') =>
    h.mono (Set.subset_insert id F)
  have heq := h.unit.expr_eq huse
  have hfinish {visit visit' : WalkM Unit}
      (hvisit : Together c₀ (insert id F) visit visit' w v fun _ => True) :
      Together c₀ (insert id F) (do
        visit
        liftM (honourDeclared id)
        liftM (requireNative id)) (do
        visit'
        liftM (honourDeclared id)
        liftM (requireNative id)) w v fun _ => True := by
    refine hvisit.bind (fun _ w₁ v₁ h₁ _ => ?_) fun _ =>
      (tacit_honourDeclared id).staysLost.bind fun _ => (tacit_requireNative id).staysLost
    refine (together_step h₁ (matched_honourDeclared h₁.unit hc id)).bind
      (fun _ w₂ v₂ h₂ _ => ?_) fun _ => (tacit_requireNative id).staysLost
    exact together_step h₂ (matched_requireNative h₂.unit id)
  have hid (hvalue : (w.unit.arena.expr id).kind.isValue = false) : ¬ c₀.Backs id :=
    h.unit.first.not_backs hc hvalue
  simp only [visitExpr, together_expr, heq]
  split <;> rename_i hk
  · exact hfinish (together_step h' (matched_concretizeValue h'.unit hc heq (by rw [hk]; rfl)))
  · exact hfinish (together_visitReference hc hkeep hnext h' (hid (by rw [hk]; rfl)) hfirm
      (by rw [hk]; rfl))
  · exact hfinish (together_visitReference hc hkeep hnext h' (hid (by rw [hk]; rfl)) hfirm
      (by rw [hk]; rfl))
  · exact hfinish (together_visitCall hc hkeep hnext hchild hlost h' (hid (by rw [hk]; rfl)) hfirm
      hk)
  · exact hfinish (together_visitNegation hc hnext hkeep hchild h' (hid (by rw [hk]; rfl)) hk)
  all_goals exact together_fail h' _ _

theorem together_visitWithin (hc : c₀.Constants) (hinline : inlining.debugNoInline = false)
    (hkeep : keeping.debugNoInline = true)
    (hnext : Visitor.Together c₀ (visitor inlining rounds) (visitor keeping rounds))
    (bound depth : Nat) (id : ExprId) (h : Abreast c₀ F w v) :
    Together c₀ F (visitWithin inlining (visitor inlining rounds) [] bound depth id)
      (visitWithin keeping (visitor keeping rounds) [] bound depth id) w v fun _ => True := by
  induction depth generalizing F w v id with
  | zero => exact paired_throw .cyclic h
  | succ depth ih =>
    refine together_visitExpr hc hinline hkeep hnext (fun F n w v h => ?_) (fun n => ?_) id h
    · split
      · exact ih n h
      · exact hnext.expr F n w v h
    · have hgoverns := (recording hkeep).visitor_goes rounds
      split
      · exact staysLost_of_goes fun v =>
          Discipline.visitWithin_goes hgoverns [] bound depth n v trivial trivial
      · exact staysLost_visitor hkeep rounds n

/-! ### Statements -/

/-- Both runs report the same. -/
theorem Twins.reportNew (h : Twins c₀ F c k) (e : CompileError) :
    Twins c₀ F (c.reportNew e) (k.reportNew e) := by
  unfold Compilation.reportNew
  split
  · exact h
  · refine ⟨⟨⟨h.first.builtins, h.first.defs, h.first.stmts, h.first.roots⟩, h.first.body,
      h.first.free⟩, ⟨⟨h.second.builtins, h.second.defs, h.second.stmts, h.second.roots⟩,
      h.second.body, h.second.free⟩, ?_, h.size, h.expr, h.firm⟩
    simp only [reportError, report, h.isValid]

/-- **An error is reported** in both runs. A mismatch that only the second one found makes it lost. -/
theorem together_report {visit visit' : WalkM Unit}
    (h : Together c₀ F visit visit' w v fun _ => True) :
    Together c₀ F (do WalkM.reportOutcome (← WalkM.attempt visit))
      (do WalkM.reportOutcome (← WalkM.attempt visit')) w v fun _ => True := by
  unfold Together Paired at h ⊢
  simp only [bind, EStateM.bind, WalkM.attempt]
  rcases hfirst : visit w with ⟨a, w'⟩ | ⟨e | _, w'⟩ <;>
    rcases hsecond : visit' v with ⟨b, v'⟩ | ⟨e' | _, v'⟩ <;>
    rw [hfirst, hsecond] at h <;> try trivial
  · exact h.imp_right fun h => ⟨trivial, h.2.1, trivial⟩
  · exact .inl (h.elim (·.reportNew e') (lost_reportNew · _))
  · exact .inl h
  · rcases h with h | h | ⟨rfl, h⟩
    · exact .inl (h.reportNew e')
    · exact .inl (lost_reportNew h _)
    · exact .inr ⟨trivial, ⟨h.unit.reportNew e', h.finished⟩, trivial⟩

theorem together_each {visit visit' : StmtId → WalkM Unit}
    (hvisit : ∀ s w v, Abreast c₀ F w v →
      Together c₀ F (visit s) (visit' s) w v fun _ => True)
    (hlost : ∀ s, StaysLost (visit' s)) (ss : List StmtId) (h : Abreast c₀ F w v) :
    Together c₀ F (visitStatementWithin.each visit ss) (visitStatementWithin.each visit' ss) w v
      fun _ => True := by
  induction ss generalizing w v with
  | nil => exact paired_pure () h trivial
  | cons s ss ih =>
    refine (hvisit s w v h).bind (fun _ _ _ h' _ => ih h') fun _ => ?_
    exact staysLost_each hlost ss

theorem together_visitStatementWithin (hc : c₀.Constants) (hkeep : keeping.debugNoInline = true)
    (hnext : Visitor.Together c₀ (visitor inlining rounds) (visitor keeping rounds))
    (depth : Nat) (s : StmtId) (h : Abreast c₀ F w v) :
    Together c₀ F (visitStatementWithin (visitor inlining rounds) [] depth s)
      (visitStatementWithin (visitor keeping rounds) [] depth s) w v fun _ => True := by
  induction depth generalizing w v s with
  | zero => exact paired_throw .cyclic h
  | succ depth ih =>
    have hstmt : v.unit.arena.stmt s = w.unit.arena.stmt s := by
      rw [h.unit.first.stmt, h.unit.second.stmt]
    simp only [visitStatementWithin, together_arena, hstmt]
    split
    · exact together_report (hnext.expr F _ w v h)
    · exact together_report (hnext.expr F _ w v h)
    · exact together_report (together_visitDefinition hc hnext h _)
    · refine together_each (fun s w v h => ih s h) (fun s => ?_) _ h
      exact staysLost_of_goes fun v => Discipline.visitStatementWithin_goes
        ((recording hkeep).visitor_goes rounds) [] depth s v trivial trivial
    · exact paired_pure () h trivial
    · exact paired_pure () h trivial

/-- **Both walks** go together, with any number of rounds. -/
theorem together_visitor (hc : c₀.Constants) (hinline : inlining.debugNoInline = false)
    (hkeep : keeping.debugNoInline = true) (rounds : Nat) :
    Visitor.Together c₀ (visitor inlining rounds) (visitor keeping rounds) := by
  induction rounds with
  | zero => exact ⟨fun _ _ _ _ h => paired_throw .cyclic h, fun _ _ _ _ h => paired_throw .cyclic h⟩
  | succ rounds ih =>
    refine ⟨fun F id w v h => ?_, fun F s w v h => ?_⟩
    · simp only [visitor, together_arena, h.unit.size]
      exact together_visitWithin hc hinline hkeep ih _ _ id h
    · have hstmts : v.unit.arena.stmts = w.unit.arena.stmts := by
        rw [h.unit.first.stmts, h.unit.second.stmts]
      simp only [visitor, together_arena, hstmts]
      exact together_visitStatementWithin hc hkeep ih _ s h

end

/-! ## The verdict -/

/-- The walk behind a verdict. -/
theorem exists_walk_of_concretizeAll {valid : Bool} (h : concretizeAll settings c = .ok valid c') :
    ∃ w, visitStatementWithin.each ((visitor settings c.arena.rounds).statement []) c.arena.roots
      ⟨c, []⟩ = .ok () w ∧ w.unit = c' ∧ valid = c'.isValid := by
  have hwalk : Outcome (concretizeAll settings) c
      (fun valid c' => ∃ w, visitStatementWithin.each
        ((visitor settings c.arena.rounds).statement []) c.arena.roots ⟨c, []⟩ = .ok () w ∧
          w.unit = c' ∧ valid = c'.isValid) fun _ _ => True := by
    simp only [concretizeAll, outcome_bind, outcome_arena, outcome_runWalk, outcome_get]
    exact outcome_self.mono (fun _ w hw => ⟨w, hw, rfl, rfl⟩) fun _ _ _ => trivial
  exact hwalk.of_ok h

/-- **The two runs of all root statements** end with the same verdict, or the one that keeps all uses
reported types that do not match. -/
theorem concretizeAll_inlining {valid valid' : Bool} (hc : c.Constants)
    (hinline : inlining.debugNoInline = false) (hkeep : keeping.debugNoInline = true)
    (h : concretizeAll inlining c = .ok valid c') (h' : concretizeAll keeping c = .ok valid' k) :
    k.isValid = c'.isValid ∨ k.Lost := by
  have hvisitor := together_visitor hc hinline hkeep c.arena.rounds
  have hstart : Abreast c ∅ ⟨c, []⟩ ⟨c, []⟩ := ⟨.refl hc, fun _ _ => Iff.rfl⟩
  have htogether := together_each (fun s w v h => hvisitor.statement ∅ s w v h)
    (fun s => staysLost_of_goes fun v =>
      ((recording hkeep).visitor_goes c.arena.rounds).statement [] s v trivial trivial)
    c.arena.roots hstart
  obtain ⟨w, hw, rfl, -⟩ := exists_walk_of_concretizeAll h
  obtain ⟨v, hv, rfl, -⟩ := exists_walk_of_concretizeAll h'
  unfold Together Paired at htogether
  rw [hw, hv] at htogether
  exact htogether.symm.imp_left fun h => h.2.1.unit.isValid

/-- **Substitution is an optimization** for a program whose definitions stand for constants once its
runs are resolved. If it is accepted with all uses kept, then it is accepted with uses replaced. The
two verdicts differ only where the kept uses are asked for another type than they have, which is
reported: a constant is cast or widened, and a reference is not. -/
theorem check_inlining (settings : Settings) {c c₀ c₁ c₂ : Compilation} {resolved v₁ v₂ : Bool}
    (hresolve : resolveAll c = .ok resolved c₀) (hc : c₀.Constants)
    (h₁ : check { settings with debugNoInline := false } c = .ok v₁ c₁)
    (h₂ : check { settings with debugNoInline := true } c = .ok v₂ c₂) :
    v₂ = v₁ ∨ v₁ = true ∧ v₂ = false ∧ ∃ d ∈ c₂.diagnostics, d.error.IsMismatch := by
  -- Both passes run on the same program, and the verdict is that of the second one.
  have hconcretize {settings : Settings} {v : Bool} {c' : Compilation}
      (h : check settings c = .ok v c') : ∃ valid k, concretizeAll settings c₀ = .ok valid k ∧
        v = k.isValid ∧ c'.diagnostics = k.diagnostics := by
    have hcheck : Outcome (check settings) c
        (fun v c' => ∃ valid k, concretizeAll settings c₀ = .ok valid k ∧
          v = k.isValid ∧ c'.diagnostics = k.diagnostics) fun _ _ => True := by
      simp only [check, outcome_bind, outcome_of_eq_ok hresolve, outcome_get, outcome_emit]
      exact outcome_self.mono (fun valid k hk => ⟨valid, k, hk, rfl, rfl⟩) fun _ _ _ => trivial
    exact hcheck.of_ok h
  obtain ⟨_, k₁, hk₁, rfl, -⟩ := hconcretize h₁
  obtain ⟨_, k₂, hk₂, rfl, hdiagnostics⟩ := hconcretize h₂
  rcases concretizeAll_inlining hc rfl rfl hk₁ hk₂ with heq | hlost
  · exact .inl heq
  · rw [hdiagnostics, hlost.isValid]
    cases hvalid : k₁.isValid with
    | false => exact .inl rfl
    | true => exact .inr ⟨rfl, rfl, hlost.mismatch⟩

/-- A program with a constant, and a sum of it and an integer. -/
def constantSum : Compilation :=
  { Compilation.new with
    arena :=
      { exprs := #[.new (.value (.int 1)) .int .origin, .new (.reference ⟨9⟩) .int .origin,
          .new (.value (.int 2)) .int .origin, .new (.call ⟨1⟩ [⟨1⟩, ⟨2⟩]) .number .origin]
        defs := Builtins.definitions.toArray.push ⟨"x", .expression ⟨0⟩, none, none, .origin⟩
        stmts := #[⟨.bind ⟨9⟩, .origin⟩, ⟨.expression ⟨3⟩, .origin⟩]
        roots := [⟨0⟩, ⟨1⟩] } }

theorem resolveAll_constantSum :
    resolveAll constantSum = .ok true (constantSum.emit (.drained 0)) := rfl

theorem constantSum_constants : (constantSum.emit (.drained 0)).Constants := by
  have hbody (d : DefId) (b : ExprId)
      (h : (constantSum.arena.definition d).body = .expression b) :
      b = ⟨0⟩ ∧ constantSum.arena.definitionType d = .int := by
    obtain ⟨rfl, hdeclared⟩ : b = ⟨0⟩ ∧ (constantSum.arena.definition d).declared = none := by
      revert h
      refine Arena.forall_definition
        (p := fun x => x.body = .expression b → b = ⟨0⟩ ∧ x.declared = none) ?_ ?_ d
      · simp [constantSum, Builtins.definitions, Builtins.entry, eq_comm]
      · intro h
        cases h
    exact ⟨rfl, Arena.definitionType_of_body hdeclared h⟩
  have hfree (p : ExprId) : (⟨0⟩ : ExprId) ∉ (constantSum.arena.expr p).kind.children :=
    Arena.forall_expr (p := fun e => ⟨0⟩ ∉ e.kind.children)
      (by simp [constantSum, Expression.new, ExprKind.children])
      (by simp [Expression.tombstone, Expression.sentinel, Expression.new, ExprKind.children]) p
  refine ⟨fun d b hb => ?_, ?_, ?_⟩
  · obtain ⟨rfl, hty⟩ := hbody d b hb
    refine ⟨rfl, hty.symm, (congrArg Ty.native hty).trans rfl, (fun t ht => by cases ht), ?_⟩
    rintro ⟨p, hp⟩
    exact hfree p hp
  · rintro d ⟨b, hb⟩
    exact (congrArg Ty.isFunction (hbody d b hb).2).trans rfl
  · rintro d (rfl | rfl) ⟨b, hb⟩ <;> cases hb

/-- The sum is accepted with the constant in place, so it is accepted with the constant kept, where
nothing is reported. -/
theorem check_inlining_constantSum :
    ∃ c₁ c₂, check { debugNoInline := false } constantSum = .ok true c₁ ∧
      check { debugNoInline := true } constantSum = .ok true c₂ ∧ c₂.diagnostics = [] := by
  obtain ⟨v₁, c₁, h₁, hcheck₁⟩ := exists_ok_of_check (check { debugNoInline := false }) constantSum
    (fun v _ => v) (by decide +kernel)
  obtain ⟨v₂, c₂, h₂, hcheck₂⟩ := exists_ok_of_check (check { debugNoInline := true }) constantSum
    (fun _ c => decide (c.diagnostics = [])) (by decide +kernel)
  have hdiagnostics := of_decide_eq_true hcheck₂
  subst hcheck₁
  rcases check_inlining {} resolveAll_constantSum constantSum_constants h₁ h₂ with
    rfl | ⟨-, -, d, hd, -⟩
  · exact ⟨c₁, c₂, h₁, h₂, hdiagnostics⟩
  · rw [hdiagnostics] at hd
    cases hd

/-- The same with a float. -/
def constantMixedSum : Compilation :=
  { constantSum with
    arena :=
      { constantSum.arena with
        exprs := constantSum.arena.exprs.set 2 (.new (.value (.float 2.5)) .float .origin) } }

/-- **A sum with a float** is accepted if the constant is replaced, since it is widened then. If it is
kept, then the sum is rejected. -/
theorem check_constantMixedSum :
    (∃ c', check {} constantMixedSum = .ok true c') ∧
      ∃ c', check { debugNoInline := true } constantMixedSum = .ok false c' ∧
        c'.errors = [⟨.typeMismatch .float .int, .origin⟩] := by
  constructor
  · obtain ⟨v, c', h, hcheck⟩ := exists_ok_of_check (check {}) constantMixedSum (fun v _ => v)
      (by decide +kernel)
    subst hcheck
    exact ⟨c', h⟩
  · obtain ⟨v, c', h, hcheck⟩ := exists_ok_of_check (check { debugNoInline := true })
      constantMixedSum (fun v c' => decide (v = false ∧
        c'.errors = [⟨.typeMismatch .float .int, .origin⟩])) (by decide +kernel)
    obtain ⟨rfl, herrors⟩ := of_decide_eq_true hcheck
    exact ⟨c', h, herrors⟩

/-- A program with a float that is declared to be an integer as a definition, and a use of it that is
declared to be one as well. -/
def declaredRounded : Compilation :=
  { Compilation.new with
    arena :=
      { exprs := #[.new (.value (.float 2.5)) .float .origin,
          ⟨.reference ⟨9⟩, .int, some .int, .origin⟩]
        defs := Builtins.definitions.toArray.push
          ⟨"x", .expression ⟨0⟩, some .int, none, .origin⟩
        stmts := #[⟨.bind ⟨9⟩, .origin⟩, ⟨.expression ⟨1⟩, .origin⟩]
        roots := [⟨0⟩, ⟨1⟩] } }

-- The body does not have the type of its definition, so here it is the kept use that is accepted.
example :
    (match check {} declaredRounded, check { debugNoInline := true } declaredRounded with
      | .ok valid _, .ok valid' _ => (valid, valid')
      | _, _ => (true, true)) = (false, true) := by
  decide +kernel

end Termwise
