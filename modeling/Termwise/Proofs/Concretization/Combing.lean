import Mathlib.Data.Finset.Card
import Mathlib.Data.Finset.Range
import Termwise.Proofs.Concretization.Progress

/-!
# Walks that walk no body

A walk notes down the definitions whose bodies it dealt with. As long as that list stays as it is,
no body is walked, and what was walked is combed: a use is replaced and its tree is walked, the
arguments of a call are walked one after the other, a minus sign becomes a call that is walked in
turn. Once a body is walked, fewer definitions are left.

## Main definitions

* `Arena.remaining`: how many definitions are not in a list
* `Walk.Proceeds`: what a part of a walk does
* `Walk.Combs`: a part of a walk that leaves behind what it should, unless it walks a body

## Main results

* `visitor_combs`: what is walked is combed, unless a body is walked on the way
-/

namespace Termwise

open Compilation

/-! ## Definitions that are left -/

namespace Arena

variable {a : Arena} {d : DefId} {ds : List DefId}

/-- **How many definitions** of the table are not in a list. -/
def remaining (a : Arena) (ds : List DefId) : Nat :=
  ((Finset.range a.defs.size).filter fun i => (⟨i⟩ : DefId) ∉ ds).card

theorem remaining_le (a : Arena) (ds : List DefId) : a.remaining ds ≤ a.defs.size :=
  (Finset.card_filter_le _ _).trans_eq (Finset.card_range _)

theorem remaining_cons_le (a : Arena) (d : DefId) (ds : List DefId) :
    a.remaining (d :: ds) ≤ a.remaining ds := by
  apply Finset.card_le_card
  intro i hi
  obtain ⟨hrange, hi⟩ := Finset.mem_filter.1 hi
  exact Finset.mem_filter.2 ⟨hrange, fun hmem => hi (List.mem_cons_of_mem d hmem)⟩

/-- One that was left is not. -/
theorem remaining_cons_lt (hd : d.index < a.defs.size) (hnew : d ∉ ds) :
    a.remaining (d :: ds) < a.remaining ds := by
  apply Finset.card_lt_card
  rw [Finset.ssubset_iff_of_subset]
  · refine ⟨d.index, Finset.mem_filter.2 ⟨Finset.mem_range.2 hd, hnew⟩, fun hmem => ?_⟩
    exact (Finset.mem_filter.1 hmem).2 List.mem_cons_self
  · intro i hi
    obtain ⟨hrange, hi⟩ := Finset.mem_filter.1 hi
    exact Finset.mem_filter.2 ⟨hrange, fun hmem => hi (List.mem_cons_of_mem d hmem)⟩

/-- A definition that has a body is in the table. -/
theorem lt_size_of_body_ne (h : (a.definition d).body ≠ .undefined) : d.index < a.defs.size := by
  by_contra hle
  apply h
  rw [definition, Array.getD_eq_getD_getElem?, Array.getElem?_eq_none (Nat.le_of_not_lt hle)]
  rfl

end Arena

variable {settings : Settings} {next : Visitor} {child : ExprId → WalkM Unit}
  {active : List DefId} {w w' w'' : Walk} {c : Compilation} {id x : ExprId} {d : DefId}

/-! ## Steps of expressions -/

theorem typeReference_retouches (id : ExprId) (d : DefId) :
    Outcome (typeReference id d) c (fun _ => c.Retouches) c.Errs := by
  simp only [typeReference, outcome_bind, outcome_definitionType, outcome_definition, outcome_expr]
  split
  · exact errs_error c _
  · split
    · exact errs_error c _
    · exact retouches_setType id _

theorem typeCall_retouches (id : ExprId) (calleeType : Ty) (args : List ExprId)
    (hc : c.Upright) : Outcome (typeCall id calleeType args) c (fun _ => c.Retouches) c.Errs := by
  unfold typeCall
  split
  · simp only [outcome_bind, outcome_arena]
    refine (retypingLaw_retouches.outcome_coerceAll _ _ fun _ _ => hc).mono (fun _ c₁ h₁ => ?_) ?_
    · split
      · exact h₁.trans (retouches_setType id _)
      · exact h₁
    · rintro _ _ ⟨c₁, h₁, h⟩
      exact ⟨h.ne_cyclic (h₁.upright hc).widens_ne_none, h.2 ▸ h₁⟩
  · exact retouches_setType id _

theorem honourDeclared_retouches (id : ExprId) (hc : c.Upright) :
    Outcome (honourDeclared id) c (fun _ => c.Retouches) c.Errs :=
  (retypingLaw_retouches.outcome_honourDeclared hc).mono (fun _ _ h => h) fun _ _ h => h.errs hc

theorem requireNative_retouches (id : ExprId) :
    Outcome (requireNative id) c (fun _ => c.Retouches) c.Errs := by
  simp only [requireNative, outcome_bind, outcome_expr]
  split
  · exact .refl c
  · exact errs_error c _

/-! ## Parts of walks -/

namespace Walk

/-- **What a part of a walk does**: the tables proceed, and the definitions dealt with stay, or
fewer are left. -/
structure Proceeds (w w' : Walk) : Prop where
  unit : w.unit.Proceeds w'.unit
  finished : w'.finished = w.finished ∨
    w.unit.arena.remaining w'.finished < w.unit.arena.remaining w.finished

theorem remaining_eq {c' : Compilation} (h : c.SameProgram c') (ds : List DefId) :
    c'.arena.remaining ds = c.arena.remaining ds := by
  rw [Arena.remaining, h.defs, Arena.remaining]

theorem Proceeds.refl (w : Walk) : w.Proceeds w := ⟨.refl w.unit, .inl rfl⟩

theorem Proceeds.remaining_le (h : w.Proceeds w') :
    w.unit.arena.remaining w'.finished ≤ w.unit.arena.remaining w.finished := by
  rcases h.finished with heq | hlt
  · rw [heq]
  · exact hlt.le

theorem Proceeds.trans (h : w.Proceeds w') (h' : w'.Proceeds w'') : w.Proceeds w'' := by
  refine ⟨h.unit.trans h'.unit, ?_⟩
  have hle := h.remaining_le
  rcases h'.finished with heq | hlt
  · rw [heq]
    exact h.finished
  · rw [remaining_eq h.unit.toSameProgram, remaining_eq h.unit.toSameProgram] at hlt
    exact .inr (hlt.trans_le hle)

/-- If in the end nothing more was dealt with, nothing was at any time. -/
theorem Proceeds.finished_eq (h : w.Proceeds w') (h' : w'.Proceeds w'')
    (heq : w''.finished = w.finished) : w'.finished = w.finished := by
  have hle := h'.remaining_le
  rw [remaining_eq h.unit.toSameProgram, remaining_eq h.unit.toSameProgram, heq] at hle
  rcases h.finished with heq' | hlt
  · exact heq'
  · omega

/-- A step of the compilation. -/
theorem proceeds_step {c' : Compilation} (h : w.unit.Proceeds c') :
    w.Proceeds ⟨c', w.finished⟩ := ⟨h, .inl rfl⟩

/-- **A definition is dealt with** that was not, and fewer are left. -/
theorem Proceeds.finish (h : w.Proceeds w') (hd : d.index < w.unit.arena.defs.size)
    (hnew : d ∉ w.finished) :
    w.Proceeds ⟨w'.unit, d :: w'.finished⟩ ∧
      w.unit.arena.remaining (d :: w'.finished) < w.unit.arena.remaining w.finished := by
  have hlt : w.unit.arena.remaining (d :: w'.finished) < w.unit.arena.remaining w.finished := by
    rcases h.finished with heq | hlt
    · rw [heq]
      exact Arena.remaining_cons_lt hd hnew
    · exact (Arena.remaining_cons_le _ d _).trans_lt hlt
  exact ⟨⟨h.unit, .inr hlt⟩, hlt⟩

/-- **A part of a walk leaves behind what it should**, unless more definitions were dealt with. -/
def Combs {α : Type} (w : Walk) (action : WalkM α) (ended : α → Walk → Prop) : Prop :=
  Outcome action w (fun a w' => w.Proceeds w' ∧ (w'.finished = w.finished → ended a w'))
    fun _ w' => w.Proceeds w'

section

variable {α β : Type} {action : WalkM α} {first : WalkM β} {rest : β → WalkM α}
  {mid : β → Walk → Prop} {ended ended' : α → Walk → Prop}

theorem combs_pure (a : α) (h : ended a w) : w.Combs (pure a) ended := ⟨.refl w, fun _ => h⟩

theorem combs_fail (cause : Cause) (span : Span) :
    w.Combs (liftM (CheckM.fail cause span : CheckM α)) ended := by
  rw [Combs, outcome_lift]
  exact Proceeds.refl w

/-- **Parts in sequence.** -/
theorem Combs.bind (h : w.Combs first mid)
    (hrest : ∀ b w', w.Proceeds w' → (w'.finished = w.finished → mid b w') →
      w'.Combs (rest b) fun a w'' => w'.finished = w.finished → ended a w'') :
    w.Combs (first >>= rest) ended := by
  rw [Combs, outcome_bind]
  refine Outcome.imp h ?_
  rintro b w' ⟨hproceeds, hmid⟩
  refine Outcome.mono (hrest b w' hproceeds hmid) ?_ fun _ _ => hproceeds.trans
  rintro a w'' ⟨hproceeds', hended⟩
  refine ⟨hproceeds.trans hproceeds', fun heq => ?_⟩
  have heq' := hproceeds.finished_eq hproceeds' heq
  exact hended (heq.trans heq'.symm) heq'

theorem Combs.imp (h : w.Combs action ended)
    (himp : ∀ a w', w.Proceeds w' → ended a w' → ended' a w') : w.Combs action ended' :=
  Outcome.imp h fun a w' h' => ⟨h'.1, fun heq => himp a w' h'.1 (h'.2 heq)⟩

/-- A step of the compilation, as part of a walk. -/
theorem combs_lift {step : CheckM α} (ended : α → Compilation → Prop)
    (h : Outcome step w.unit (fun a c => w.unit.Proceeds c ∧ ended a c) fun _ => w.unit.Proceeds) :
    w.Combs (liftM step) fun a w' => ended a w'.unit := by
  rw [Combs, outcome_lift]
  exact Outcome.mono h (fun _ _ h' => ⟨proceeds_step h'.1, fun _ => h'.2⟩)
    fun _ _ => proceeds_step

theorem combs_retouches {step : CheckM α}
    (h : Outcome step w.unit (fun _ => w.unit.Retouches) w.unit.Errs) :
    w.Combs (liftM step) fun _ w' => w.unit.Retouches w'.unit :=
  combs_lift (fun _ c => w.unit.Retouches c)
    (h.mono (fun _ _ h' => ⟨h'.proceeds, h'⟩) fun _ _ h' => h'.retouches.proceeds)

theorem combs_get {rest : Walk → WalkM α} :
    w.Combs (get >>= rest) ended ↔ w.Combs (rest w) ended := Iff.rfl

theorem combs_arena {rest : Arena → WalkM α} :
    w.Combs (liftM CheckM.arena >>= rest) ended ↔ w.Combs (rest w.unit.arena) ended := Iff.rfl

theorem combs_expr {rest : Expression → WalkM α} :
    w.Combs (liftM (CheckM.expr id) >>= rest) ended ↔
      w.Combs (rest (w.unit.arena.expr id)) ended := Iff.rfl

theorem combs_definition {rest : Definition → WalkM α} :
    w.Combs (liftM (CheckM.definition d) >>= rest) ended ↔
      w.Combs (rest (w.unit.arena.definition d)) ended := Iff.rfl

end

/-- A way to walk expressions leaves them combed. -/
def CombsExprs (visit : ExprId → WalkM Unit) : Prop :=
  ∀ (id : ExprId) (w : Walk), w.unit.Upright →
    w.Combs (visit id) fun _ w' => Combed [id] w.unit w'.unit

/-- A way to walk statements. -/
def CombsStatements (visit : StmtId → WalkM Unit) : Prop :=
  ∀ (s : StmtId) (w : Walk), w.unit.Upright → w.Combs (visit s) fun _ _ => True

end Walk

/-- **A walk** that leaves the expressions combed. -/
structure Visitor.Combing (v : Visitor) : Prop where
  expr : ∀ active, Walk.CombsExprs (v.expr active)
  statement : ∀ active, Walk.CombsStatements (v.statement active)

open Walk

/-! ## Definitions -/

/-- **A definition**: if its body is not walked, nothing is done. -/
theorem visitDefinition_combs (hnext : next.Combing) (active : List DefId) (d : DefId)
    (hw : w.unit.Upright) : w.Combs (visitDefinition next active d) fun _ w' => w' = w := by
  rw [visitDefinition, combs_definition]
  split <;> rename_i hbody
  · exact combs_pure () rfl
  · exact combs_pure () rfl
  · rename_i s
    rw [combs_get]
    split
    · exact combs_pure () rfl
    · rename_i hnew
      have hd : d.index < w.unit.arena.defs.size := Arena.lt_size_of_body_ne (by simp [hbody])
      obtain ⟨hfinish, hlt⟩ := (Proceeds.refl w).finish hd (by simpa using hnew)
      rw [Combs, outcome_bind, outcome_finish]
      refine Outcome.mono (hnext.statement active s _ hw) ?_ fun _ _ => hfinish.trans
      rintro _ w' ⟨hproceeds, -⟩
      refine ⟨hfinish.trans hproceeds, fun heq => ?_⟩
      -- The body was dealt with.
      have hle := hproceeds.remaining_le
      rw [heq] at hle
      exact absurd hle (Nat.not_le.2 hlt)
  · rename_i b
    rw [combs_get]
    split
    · exact combs_pure () rfl
    · rename_i hnew
      have hd : d.index < w.unit.arena.defs.size := Arena.lt_size_of_body_ne (by simp [hbody])
      have hnot : d ∉ w.finished := by
        simp only [Bool.or_eq_true, List.contains_iff_mem, not_or] at hnew
        exact hnew.1
      have hdone {w' : Walk} (h : w.Proceeds w') :
          w.Proceeds ⟨w'.unit, d :: w'.finished⟩ ∧ d :: w'.finished ≠ w.finished := by
        obtain ⟨hfinish, hlt⟩ := h.finish hd hnot
        refine ⟨hfinish, fun heq => ?_⟩
        rw [heq] at hlt
        exact Nat.lt_irrefl _ hlt
      rw [Combs, outcome_bind, outcome_walk_attempt]
      refine Outcome.mono (hnext.expr (d :: active) b w hw) ?_ ?_
      · rintro _ w' ⟨hproceeds, -⟩
        obtain ⟨hfinish, hne⟩ := hdone hproceeds
        exact ⟨hfinish, fun heq => absurd heq hne⟩
      -- A body that stops with an error is reported, and dealt with all the same.
      · rintro (e | _) w' hproceeds
        · have hfinish := (hdone hproceeds).1
          exact hfinish.trans (proceeds_step (retouches_reportNew _ e).proceeds)
        · exact hproceeds

/-! ## Uses -/

theorem trySubstitute_combs (hnext : next.Combing) (active : List DefId) (hw : w.unit.Upright)
    (hd : (w.unit.arena.expr id).kind.definition? = some d) :
    w.Combs (trySubstitute settings next active id d) fun replaced w' =>
      (replaced = true → Combed [id] w.unit w'.unit) ∧
        (replaced = false → w.unit.Retouches w'.unit ∧ w'.unit.arena = w.unit.arena) := by
  rw [trySubstitute]
  split
  · exact combs_pure false ⟨by simp, fun _ => ⟨.refl _, rfl⟩⟩
  · have hstep := combs_lift (fun replaced c => (replaced = true → ∃ xs, w.unit.Grafted id xs c) ∧
        (replaced = false → w.unit.Retouches c ∧ c.arena = w.unit.arena))
      ((substitute_grafts settings hw hd).mono ?_ fun _ _ => False.elim)
    · refine hstep.bind fun replaced w₁ h₁ hreplaced => ?_
      cases replaced with
      | true =>
        have hw₁ := h₁.unit.upright hw
        refine (hnext.expr (d :: active) id w₁ hw₁).bind fun _ w₂ h₂ hcombed => ?_
        refine combs_pure true fun heq₂ heq₁ => ⟨fun _ => ?_, by simp⟩
        obtain ⟨xs, hgrafted⟩ := (hreplaced heq₁).1 rfl
        exact hgrafted.combed (hcombed heq₂) hw h₂.unit.toBranches
      | false => exact combs_pure false fun heq => ⟨by simp, fun _ => (hreplaced heq).2 rfl⟩
    · rintro (_ | _) c' h
      · exact ⟨(h.2 rfl).1.proceeds, h⟩
      · obtain ⟨xs, hgrafted⟩ := h.1 rfl
        exact ⟨hgrafted.proceeds hw, h⟩

/-- An expression with nothing below it, which is no minus sign. -/
theorem combed_leaf {c' : Compilation} (h : c.Retouches c')
    (hleaf : (c.arena.expr id).kind.children = [])
    (hid : ∀ x, (c.arena.expr id).kind ≠ .negated x) : Combed [id] c c' where
  negated := h.negated
  aside n _ _ := h.trees.children n
  clear := by
    have hclear : c.Clear id := clear_of_children hid (by simp [hleaf])
    simpa using hclear.of_branches h.proceeds.toBranches h.negated

theorem visitReference_combs (hnext : next.Combing) (active : List DefId) (hw : w.unit.Upright)
    (hk : (w.unit.arena.expr id).kind = .reference d ∨ (w.unit.arena.expr id).kind = .operator d) :
    w.Combs (visitReference settings next active id d) fun _ w' =>
      Combed [id] w.unit w'.unit := by
  have hd : (w.unit.arena.expr id).kind.definition? = some d := by
    rcases hk with hk | hk <;> rw [hk] <;> rfl
  have hleaf : (w.unit.arena.expr id).kind.children = [] := by
    rcases hk with hk | hk <;> rw [hk] <;> rfl
  have hid : ∀ x, (w.unit.arena.expr id).kind ≠ .negated x := by
    intro x hx
    rcases hk with hk | hk <;> cases hk.symm.trans hx
  rw [visitReference]
  refine (trySubstitute_combs hnext active hw hd).bind fun replaced w₁ h₁ hreplaced => ?_
  cases replaced with
  | true => exact combs_pure () fun heq => (hreplaced heq).1 rfl
  | false =>
    have hw₁ := h₁.unit.upright hw
    refine (visitDefinition_combs hnext active d hw₁).bind fun _ w₂ h₂ hsame => ?_
    refine (combs_retouches (typeReference_retouches id d)).imp fun _ w₃ _ h₃ heq₂ heq₁ => ?_
    obtain rfl := hsame heq₂
    exact combed_leaf (((hreplaced heq₁).2 rfl).1.trans h₃) hleaf hid

/-! ## Calls -/

theorem visitEach_combs (hchild : CombsExprs child) (ids : List ExprId) (hw : w.unit.Upright) :
    w.Combs (visitEach child ids) fun _ w' => Combed ids w.unit w'.unit := by
  induction ids generalizing w with
  | nil => exact combs_pure () (.nil w.unit)
  | cons id ids ih =>
    rw [visitEach]
    refine (hchild id w hw).bind fun _ w₁ h₁ hcombed => ?_
    refine (ih (h₁.unit.upright hw)).imp fun _ w₂ h₂ hrest heq => ?_
    exact (hcombed heq).cons hrest h₁.unit.toBranches h₂.unit.toBranches

theorem visitCall_combs {args : List ExprId} (hnext : next.Combing) (hchild : CombsExprs child)
    (active : List DefId) (hw : w.unit.Upright)
    (hk : (w.unit.arena.expr id).kind = .call d args) :
    w.Combs (visitCall settings next child active id d args) fun _ w' =>
      Combed [id] w.unit w'.unit := by
  have hd : (w.unit.arena.expr id).kind.definition? = some d := by
    rw [hk]
    rfl
  have hid : ∀ x, (w.unit.arena.expr id).kind ≠ .negated x := by
    intro x hx
    cases hk.symm.trans hx
  have hlt : id.index < w.unit.arena.exprs.size :=
    Arena.lt_size_of_kind_ne fun hdeleted => by cases hk.symm.trans hdeleted
  simp only [visitCall, combs_arena]
  split
  · exact combs_fail _ _
  · -- What follows an attempt to replace the call that changed no table.
    have hrest {w₁ : Walk} {calleeType : Ty} (hw₁ : w₁.unit.Upright) : w₁.Combs (do
        visitDefinition next active d
        visitEach child args
        liftM (typeCall id calleeType args)) fun _ w' =>
          w.unit.Retouches w₁.unit ∧ w₁.unit.arena = w.unit.arena →
            Combed [id] w.unit w'.unit := by
      refine (visitDefinition_combs hnext active d hw₁).bind fun _ w₂ h₂ hsame => ?_
      have hw₂ := h₂.unit.upright hw₁
      refine (visitEach_combs hchild args hw₂).bind fun _ w₃ h₃ hcombed => ?_
      have hw₃ := h₃.unit.upright hw₂
      refine (combs_retouches (typeCall_retouches id calleeType args hw₃)).imp ?_
      rintro _ w₄ - h₄ heq₃ heq₂ ⟨hretouches, harena⟩
      obtain rfl := hsame heq₂
      have hcombed := hcombed heq₃
      rw [← harena] at hk hid hlt
      have hargs : args = (w₂.unit.arena.expr id).kind.children := by
        rw [hk]
        rfl
      rw [hargs] at hcombed
      exact hretouches.combed ((hcombed.node hw₁ hlt hid).retouched h₄)
    split
    · refine (trySubstitute_combs hnext active hw hd).bind fun replaced w₁ h₁ hreplaced => ?_
      cases replaced with
      | true => exact combs_pure () fun heq => (hreplaced heq).1 rfl
      | false =>
        exact (hrest (h₁.unit.upright hw)).imp fun _ _ _ h heq => h ((hreplaced heq).2 rfl)
    · exact (hrest hw).imp fun _ _ _ h => h ⟨.refl w.unit, rfl⟩

/-! ## Negation -/

/-- **A minus sign** is combed after the call that it becomes, and that after its operand. -/
theorem visitNegation_combs (hnext : next.Combing) (hchild : CombsExprs child)
    (active : List DefId) (hw : w.unit.Upright)
    (hk : (w.unit.arena.expr id).kind = .negated x) :
    w.Combs (visitNegation next child active id x) fun _ w' => Combed [id] w.unit w'.unit := by
  have hx : (w.unit.arena.expr id).kind.children = [x] := by
    rw [hk]
    rfl
  rw [visitNegation]
  refine (hchild x w hw).bind fun _ w₁ h₁ hcombed => ?_
  have hw₁ := h₁.unit.upright hw
  have hx₁ : (w₁.unit.arena.expr id).kind.children = [x] := by
    rw [h₁.unit.children_eq (by simp [hx]), hx]
  have hcall := (callNegation_retouches hw₁ hx₁).imp fun _ _ h => h.1
  refine (combs_retouches hcall).bind fun _ w₂ h₂ hretouches => ?_
  refine (hnext.expr active id w₂ (h₂.unit.upright hw₁)).imp ?_
  intro _ w₃ h₃ hlast heq₂ heq₁
  have hlater := (hretouches heq₂).combed hlast
  have hfirst := hcombed heq₁
  -- The operand was walked first, and then the call over it.
  refine ⟨fun n y hn => hfirst.negated n y (hlater.negated n y hn), fun n hn haside => ?_,
    hlater.clear⟩
  have hid : ¬ w.unit.Below id n := haside id (List.mem_singleton_self id)
  have hbelow : ∀ m ∈ [x], ¬ w.unit.Below m n := by
    intro m hm hpath
    exact hid (hpath.head (by rwa [hx]))
  rw [hlater.aside n (hn.trans_le h₁.unit.toBranches.size), hfirst.aside n hn hbelow]
  intro m hm hpath
  obtain rfl := List.mem_singleton.1 hm
  rcases h₁.unit.toBranches.below_or hpath with hpath | hnew
  · exact hid hpath
  · exact Nat.not_le.2 hn hnew

/-! ## Expressions and statements -/

theorem visitExpr_combs (hnext : next.Combing) (hchild : CombsExprs child)
    (active : List DefId) : CombsExprs (visitExpr settings next child active) := by
  intro id w hw
  rw [visitExpr, combs_expr]
  have hfinish {visit : WalkM Unit} (hvisit : w.Combs visit fun _ w' =>
      Combed [id] w.unit w'.unit) : w.Combs (do
        visit
        liftM (honourDeclared id)
        liftM (requireNative id)) fun _ w' => Combed [id] w.unit w'.unit := by
    refine hvisit.bind fun _ w₁ h₁ hcombed => ?_
    have hhonour := honourDeclared_retouches id (h₁.unit.upright hw)
    refine (combs_retouches hhonour).bind fun _ w₂ _ hretouches => ?_
    refine (combs_retouches (requireNative_retouches id)).imp fun _ w₃ _ h₃ heq₂ heq₁ => ?_
    exact ((hcombed heq₁).retouched (hretouches heq₂)).retouched h₃
  split <;> rename_i hk
  · refine hfinish ((combs_retouches (concretizeValue_retouches id hw)).imp fun _ w₁ _ h₁ => ?_)
    exact combed_leaf h₁ (by rw [hk]; rfl) fun x hx => by cases hk.symm.trans hx
  · exact hfinish (visitReference_combs hnext active hw (.inl hk))
  · exact hfinish (visitReference_combs hnext active hw (.inr hk))
  · exact hfinish (visitCall_combs hnext hchild active hw hk)
  · exact hfinish (visitNegation_combs hnext hchild active hw hk)
  all_goals exact combs_fail _ _

theorem visitWithin_combs (hnext : next.Combing) (active : List DefId) (bound depth : Nat) :
    CombsExprs (visitWithin settings next active bound depth) := by
  induction depth with
  | zero => exact fun id w _ => Walk.Proceeds.refl w
  | succ depth ih =>
    refine visitExpr_combs hnext (fun n => ?_) active
    split
    · exact ih n
    · exact hnext.expr active n

/-- An error is reported where it ends up. -/
theorem combs_report {visit : WalkM Unit} {ended : Unit → Walk → Prop} (h : w.Combs visit ended) :
    w.Combs (do WalkM.reportOutcome (← WalkM.attempt visit)) fun _ _ => True := by
  rw [Combs, outcome_bind, outcome_walk_attempt]
  refine Outcome.mono h (fun _ _ h' => ⟨h'.1, fun _ => trivial⟩) ?_
  rintro (e | _) w' hproceeds
  · exact ⟨hproceeds.trans (proceeds_step (retouches_reportNew _ e).proceeds), fun _ => trivial⟩
  · exact hproceeds

theorem each_combs {visit : StmtId → WalkM Unit} (hvisit : CombsStatements visit)
    (ss : List StmtId) (hw : w.unit.Upright) :
    w.Combs (visitStatementWithin.each visit ss) fun _ _ => True := by
  induction ss generalizing w with
  | nil => exact combs_pure () trivial
  | cons s ss ih =>
    rw [visitStatementWithin.each]
    refine (hvisit s w hw).bind fun _ w₁ h₁ _ => ?_
    exact (ih (h₁.unit.upright hw)).imp fun _ _ _ _ _ => trivial

theorem visitStatementWithin_combs (hnext : next.Combing) (active : List DefId) (depth : Nat) :
    CombsStatements (visitStatementWithin next active depth) := by
  induction depth with
  | zero => exact fun s w _ => Walk.Proceeds.refl w
  | succ depth ih =>
    intro s w hw
    rw [visitStatementWithin, combs_arena]
    split
    · exact combs_report (hnext.expr active _ w hw)
    · exact combs_report (hnext.expr active _ w hw)
    · exact combs_report (visitDefinition_combs hnext active _ hw)
    · exact each_combs ih _ hw
    all_goals exact combs_pure () trivial

/-- **What is walked is combed**, unless a body is walked on the way. -/
theorem visitor_combs (settings : Settings) (rounds : Nat) : (visitor settings rounds).Combing := by
  induction rounds with
  | zero =>
    exact ⟨fun _ _ w _ => Walk.Proceeds.refl w, fun _ _ w _ => Walk.Proceeds.refl w⟩
  | succ rounds ih =>
    constructor
    · intro active id w hw
      simp only [visitor, combs_arena]
      exact visitWithin_combs ih active _ _ id w hw
    · intro active s w hw
      simp only [visitor, combs_arena]
      exact visitStatementWithin_combs ih active _ s w hw

end Termwise
