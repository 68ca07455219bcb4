import Termwise.Proofs.Concretization.SettledBodies

/-!
# Trees that can be walked again

Whatever an expression is, a walk that ends leaves a tree that can be walked again, and a walk that
fails leaves one that fails again. A use that was replaced is the tree that took its place. A minus
sign is the call that it became: its operand was walked once more by then, with all that it uses
dealt with already, which changed nothing.

## Main definitions

* `Prospect.KindSucceeds`: what a first walk of an expression comes to, up to a look at its type

## Main results

* `visitReference_advances`, `visitCall_advances`, `visitNegation_advances`: the kinds of expressions
* `visitExpr_advances`: one expression, given how to go on from it
* `leads_visitor`: whole walks
-/

namespace Termwise

open Compilation

variable {P : Prospect} {settings : Settings} {k k' : Nat} {c c' c₁ c₂ c₃ : Compilation}
  {F F' F₀ F₁ G : List DefId} {id n m x : ExprId} {d : DefId} {ids args : List ExprId}
  {next : Visitor} {child : ExprId → WalkM Unit} {active : List DefId} {w w' w₁ w₂ : Walk}
  {kind : ExprKind} {t : Ty} {cause : Cause}

namespace Compilation

/-- What changed in no expression can be undone. -/
theorem Alters.back (h : c.Alters ∅ c') : c'.Alters ∅ c :=
  ⟨h.toSameProgram.symm, h.size.symm, fun n hn => (h.expr n hn).symm⟩

end Compilation

namespace Prospect

/-! ## Roots -/

/-- **A root was walked**, up to a look at its type, which decides whether the walk ends. -/
structure KindSucceeds (P : Prospect) (settings : Settings) (k : Nat) (id : ExprId) (w w' : Walk) :
    Prop where
  passes : P.Passes k [id] w w'
  settled : P.Steadfast w'.unit k → (w'.unit.arena.expr id).ty.native = .yes →
    P.Settled settings k w.finished w'.finished w'.unit [id]
  barred : P.Steadfast w'.unit k → (w'.unit.arena.expr id).ty.native ≠ .yes →
    P.Barred settings k w.finished w'.finished w'.unit [id]

theorem Passes.undeclared (h : P.Passes k [id] w w') : (w'.unit.arena.expr id).declared = none :=
  (h.ready.lot.fits id (w'.unit.mem_trees_self (List.mem_singleton_self id))).declared

theorem KindSucceeds.of_recurs (hpasses : P.Passes k [id] w w')
    (h : P.Steadfast w'.unit k → P.KindRecurs settings k w.finished w'.finished w'.unit id) :
    P.KindSucceeds settings k id w w' :=
  ⟨hpasses, fun hs => .of_kind (h hs) hpasses.undeclared,
    fun hs => .of_type (h hs) hpasses.undeclared⟩

theorem KindSucceeds.of_succeeds (h : P.Succeeds settings k [id] w w') :
    P.KindSucceeds settings k id w w' :=
  ⟨h.passes, fun hs _ => h.settled hs,
    fun _ hnot => absurd (h.native id (List.mem_singleton_self id)) hnot⟩

theorem Fails.of_refails (hpasses : P.Passes k [id] w w')
    (h : P.Steadfast w'.unit k → P.KindRefails settings k w.finished w'.finished w'.unit id) :
    P.Fails settings k [id] w w' :=
  ⟨hpasses, fun hs => .of_kind (h hs)⟩

/-- A step was made before that finished nothing. -/
theorem KindSucceeds.after (h : P.KindSucceeds settings k id w₁ w')
    (hpasses : P.Passes k [id] w w₁) (hfinished : w₁.finished = w.finished) :
    P.KindSucceeds settings k id w w' :=
  ⟨hpasses.trans h.passes, hfinished ▸ h.settled, hfinished ▸ h.barred⟩

theorem Fails.after (h : P.Fails settings k ids w₁ w') (hpasses : P.Passes k ids w w₁)
    (hfinished : w₁.finished = w.finished) : P.Fails settings k ids w w' :=
  ⟨hpasses.trans h.passes, hfinished ▸ h.barred⟩

/-- **A value** is settled, or it cannot be. -/
theorem concretizeValue_advances (hw : P.Ready k [id] w)
    (hvalue : (w.unit.arena.expr id).kind.isValue = true) :
    Outcome (concretizeValue id) w.unit
      (fun _ c' => P.KindSucceeds settings k id w ⟨c', w.finished⟩)
      fun stop c' => stop = .cyclic ∨ P.Fails settings k [id] w ⟨c', w.finished⟩ := by
  refine (concretizeValue_passes hw hvalue).mono ?_ ?_
  · rintro - c' ⟨hpasses, hvalue', hnative⟩
    exact .of_recurs hpasses fun _ => .value hvalue' hnative
  · rintro stop _ ⟨-, rfl, hnative, hsettle⟩
    exact .inr (.of_refails (.refl hw) fun _ => .value hvalue hnative hsettle)

/-! ## Uses -/

/-- **A use** is replaced and what takes its place is walked, or it is withheld. -/
theorem trySubstitute_advances (hnext : P.Leads settings next)
    (hactive : ∀ e ∈ active, k ≤ P.rank e) (hw : P.Ready k [id] w)
    (hd : (w.unit.arena.expr id).kind.definition? = some d)
    (hleaf : (w.unit.arena.expr id).kind.children = []) {rest : WalkM Unit}
    (hrest : ∀ c', c'.arena = w.unit.arena → P.Passes k [id] w ⟨c', w.finished⟩ →
      c'.Withheld settings (w.unit.arena.expr id).kind → Outcome rest ⟨c', w.finished⟩
        (fun _ w' => P.KindSucceeds settings k id ⟨c', w.finished⟩ w')
        fun stop w' => stop = .cyclic ∨ P.Fails settings k [id] ⟨c', w.finished⟩ w') :
    Outcome (do
      let replaced ← trySubstitute settings next active id d
      if replaced = true then pure () else rest) w
      (fun _ w' => P.KindSucceeds settings k id w w')
      fun stop w' => stop = .cyclic ∨ P.Fails settings k [id] w w' := by
  have hrank : P.rank d < k :=
    (hw.lot.fits id (w.unit.mem_trees_self (List.mem_singleton_self id))).uses d (.use hd)
  have hnot : active.contains d ≠ true := by simpa using fun hmem => (hactive d hmem).not_gt hrank
  rw [outcome_bind, trySubstitute, if_neg hnot, outcome_bind, outcome_lift]
  refine (substitute_passes settings hw hd hleaf).mono ?_ fun _ _ => False.elim
  rintro replaced c' ⟨hpasses, hready, hkept⟩
  cases replaced with
  | true =>
    simp only [if_true, outcome_bind, outcome_pure]
    -- The tree uses what the body does, which is of lower ranks.
    refine (hnext.expr (P.rank d) (d :: active) (List.forall_mem_cons.2 ⟨le_rfl, fun e he =>
      hrank.le.trans (hactive e he)⟩) id ⟨c', w.finished⟩ (hready rfl)).mono ?_ ?_
    · rintro - w' ⟨-, h⟩
      exact (KindSucceeds.of_succeeds (h.raise hpasses.ready hrank.le)).after hpasses rfl
    · rintro stop w' h
      exact h.imp_right fun h => (h.2.raise hpasses.ready hrank.le).after hpasses rfl
  | false =>
    obtain ⟨harena, hwithheld⟩ := hkept rfl
    have hstill := alters_of_arena_eq harena hpasses.toBranches.builtins
    have hwithheld' : c'.Withheld settings (w.unit.arena.expr id).kind :=
      hwithheld.of_same hd hstill.toSameProgram (fun _ => by rw [harena])
        fun b _ hunfit => by rwa [harena]
    simp only [Bool.false_eq_true, if_false, outcome_pure]
    refine (hrest c' harena hpasses hwithheld').mono (fun _ w' h => h.after hpasses rfl) ?_
    exact fun _ _ => Or.imp_right fun h => h.after hpasses rfl

/-- What keeps a use is still there after its definition was dealt with. -/
theorem Dealt.withheld (h : P.Dealt k d w w') (hw : P.Ready k [] w) (hs : P.Steadfast w'.unit k)
    (hd : P.rank d < k) (hkind : kind.definition? = some d)
    (hwithheld : w.unit.Withheld settings kind) : w'.unit.Withheld settings kind :=
  hwithheld.of_same hkind h.passes.toBranches.toSameProgram (h.passes.function_kept hw hs hd)
    h.unfit

/-- The definition of a use that was withheld is dealt with, and the rest is up to the use. -/
theorem Dealt.used (h : P.Dealt k d w w₁) (hw : P.Ready k [id] w)
    (hpasses : P.Passes k [id] w₁ w') (hs : P.Steadfast w'.unit k) (hd : P.rank d < k)
    (hkind : kind.definition? = some d) (hwithheld : w.unit.Withheld settings kind) :
    P.Recalls k w.finished w₁.finished w₁.unit w'.unit ∧ w'.unit.Withheld settings kind ∧
      ∀ b, (w'.unit.arena.definition d).body = .expression b → d ∈ w₁.finished := by
  have hw₁ := (h.passes.beside hw).2.ready
  have hr := h.passes.recalls hpasses hw₁ hs
  have hsame : w.unit.SameProgram w₁.unit := h.passes.toBranches.toSameProgram
  have hfinished (b : ExprId) (hb : (w₁.unit.arena.definition d).body = .expression b) :
      d ∈ w₁.finished := h.finished b (by rwa [hsame.definition] at hb)
  exact ⟨hr, hr.withheld (h.withheld hw.none (hpasses.steadfast hw₁ hs) hd hkind hwithheld) hkind
    hd hfinished, fun b hb => hfinished b (by rwa [hr.definition] at hb)⟩

/-- **A reference** takes the type of its definition unless it is replaced. -/
theorem visitReference_advances (hnext : P.Leads settings next)
    (hactive : ∀ e ∈ active, k ≤ P.rank e) (hw : P.Ready k [id] w)
    (hk : (w.unit.arena.expr id).kind = .reference d ∨
      (w.unit.arena.expr id).kind = .operator d) :
    Outcome (visitReference settings next active id d) w
      (fun _ w' => P.KindSucceeds settings k id w w')
      fun stop w' => stop = .cyclic ∨ P.Fails settings k [id] w w' := by
  have hid := w.unit.mem_trees_self (List.mem_singleton_self id)
  have hkind : (w.unit.arena.expr id).kind.definition? = some d := by
    rcases hk with hk | hk <;> rw [hk] <;> rfl
  have hrank : P.rank d < k := (hw.lot.fits id hid).uses d (.use hkind)
  refine trySubstitute_advances hnext hactive hw hkind
    (by rcases hk with hk | hk <;> rw [hk] <;> rfl) fun c' harena hpasses hwithheld => ?_
  have hid' : c'.arena.expr id = w.unit.arena.expr id := by rw [harena]
  -- What is known about the reference whenever its walk is over.
  have hused {w₁ w₂ : Walk} (h : P.Dealt k d ⟨c', w.finished⟩ w₁) (hpasses₂ : P.Passes k [id] w₁ w₂)
      (hroot : (w₂.unit.arena.expr id).kind = (w₁.unit.arena.expr id).kind)
      (hs : P.Steadfast w₂.unit k) : P.Recalls k w.finished w₁.finished w₁.unit w₂.unit ∧
        P.Used settings k w₁.finished w₂.unit id d := by
    obtain ⟨hr, hwithheld', hfinished⟩ := h.used hpasses.ready hpasses₂ hs hrank hkind hwithheld
    have hsame : (w₂.unit.arena.expr id).kind = (w.unit.arena.expr id).kind := by
      rw [hroot,
        (h.passes.beside hpasses.ready).1 id (c'.mem_trees_self (List.mem_singleton_self id)), hid']
    refine ⟨hr, hsame ▸ hk, hpasses₂.undeclared, hrank, hfinished, hsame ▸ hwithheld', ?_⟩
    rintro b hb rfl
    exact hpasses₂.ready.lot.free d hrank b hb (mem_trees_self _ (List.mem_singleton_self b))
  simp only [outcome_bind, outcome_lift]
  refine (visitDefinition_advances hnext hactive hpasses.ready.none hrank).mono ?_ ?_
  · intro _ w₁ h
    have hpasses₁ := (h.passes.beside hpasses.ready).2
    have hw₁ := hpasses₁.ready
    by_cases htypable : Typable w₁.unit d
    · refine (typeReference_again htypable).mono ?_ fun _ _ => False.elim
      rintro _ c₂ rfl
      have hpasses₂ := hw₁.retype (w₁.unit.arena.definitionType d)
      have hroot := Arena.expr_modifyExpr_self hw₁.lot.lt_size
        fun e => { e with ty := w₁.unit.arena.definitionType d }
      refine .of_recurs (hpasses₁.trans hpasses₂) fun hs => ?_
      obtain ⟨hr, hused⟩ := hused h.toDealt hpasses₂ (by rw [modifyArena, hroot]) hs
      have hty := hr.definitionType hrank fun b hb => hused.finished b (by rwa [hr.definition])
      refine .use hused ((h.recurs (hpasses₂.steadfast hw₁ hs)).later hr) ?_ ?_
      · rwa [Typable, hty, hr.definition]
      · rw [hty, modifyArena, hroot]
    · refine (typeReference_untypable htypable).mono (fun _ _ => False.elim) ?_
      rintro stop _ ⟨-, rfl⟩
      refine .inr (.of_refails hpasses₁ fun hs => ?_)
      exact .untypable (hused h.toDealt (.refl hw₁) rfl hs).2 (h.recurs hs) htypable
  · refine fun stop w₁ h => h.imp_right fun h => ?_
    have hpasses₁ := (h.passes.beside hpasses.ready).2
    exact .of_refails hpasses₁ fun hs =>
      .use (hused h.toDealt (.refl hpasses₁.ready) rfl hs).2 (h.refails hs)

/-! ## Calls -/

/-- **A call that was not replaced** and leaves no parameter unbound, and whose definition was dealt
with. -/
structure Kept (P : Prospect) (settings : Settings) (k : Nat) (F : List DefId) (c : Compilation)
    (id : ExprId) (d : DefId) (args : List ExprId) : Prop where
  kind : (c.arena.expr id).kind = .call d args
  lot : P.Lot c k [id]
  steadfast : P.Steadfast c k
  full : c.arena.isPartialCall id = false
  withheld : args = [] → c.Withheld settings (.call d [])
  finished : ∀ b, (c.arena.definition d).body = .expression b → d ∈ F

/-- A call leaves no parameter unbound that left none unbound before. -/
theorem Passes.isPartialCall (h : P.Passes k [id] w w') (hw : P.Ready k [id] w)
    (hs : P.Steadfast w'.unit k) (hk : (w.unit.arena.expr id).kind = .call d args)
    (hk' : (w'.unit.arena.expr id).kind = .call d args)
    (hfull : w.unit.arena.isPartialCall id = false) :
    w'.unit.arena.isPartialCall id = false := by
  have hid := w.unit.mem_trees_self (List.mem_singleton_self id)
  obtain ⟨harity, hgiven⟩ := (isPartialCall_eq_false_iff hk).1 hfull
  refine (isPartialCall_eq_false_iff hk').2 ⟨?_, fun m hm => ?_⟩
  · rwa [(hw.lot.fits id hid).definitionType hk (h.steadfast hw hs) hs]
  · have hlt := hw.lot.inTable m (child_mem_trees hid (by rw [hk]; exact hm))
    have hmissing := h.missing m hlt
    have hgiven := hgiven m hm
    rw [Arena.isMissing] at hgiven ⊢
    cases hk₂ : (w'.unit.arena.expr m).kind <;> try rfl
    rw [hmissing hk₂] at hgiven
    cases hgiven

/-- A call that is withheld is kept from when its definition was dealt with. -/
theorem Dealt.kept (h : P.Dealt k d w w₁) (hw : P.Ready k [id] w)
    (hpasses : P.Passes k [id] w₁ w') (hs : P.Steadfast w'.unit k)
    (hk : (w.unit.arena.expr id).kind = .call d args)
    (hk' : (w'.unit.arena.expr id).kind = .call d args)
    (hfull : w.unit.arena.isPartialCall id = false)
    (hwithheld : args = [] → w.unit.Withheld settings (.call d [])) :
    P.Kept settings k w₁.finished w'.unit id d args := by
  have hrank : P.rank d < k :=
    (hw.lot.fits id (w.unit.mem_trees_self (List.mem_singleton_self id))).uses d
      (.use (by rw [hk]; rfl))
  have hpasses₁ := (h.passes.beside hw).2
  have hw₁ := hpasses₁.ready
  have hsame : w₁.unit.SameProgram w'.unit := hpasses.toBranches.toSameProgram
  refine ⟨hk', hpasses.ready.lot, hs, (hpasses₁.trans hpasses).isPartialCall hw hs hk hk' hfull,
    fun hempty => (h.used hw hpasses hs hrank rfl (hwithheld hempty)).2.1, fun b hb => ?_⟩
  exact h.finished b (by rwa [hsame.definition, h.passes.toBranches.toSameProgram.definition] at hb)

/-- **A call fails again** if its definition or one of its arguments does. -/
theorem KindRefails.call (h : P.Kept settings k F₀ c id d args) (hsub : F₀ ⊆ F')
    (hrest : ∀ next child active, P.Onwards settings k next child active →
      P.Refails k F F' c args (do visitDefinition next active d; visitEach child args)) :
    P.KindRefails settings k F F' c id := by
  intro next child active honwards c₂ hr hsame G hG
  have hid := c.mem_trees_self (List.mem_singleton_self id)
  have hfits := h.lot.fits id hid
  have hargs : ∀ n ∈ c.trees args, c₂.arena.expr n = c.arena.expr n := fun n hn =>
    hsame n ((h.lot.toPlot.rooted.call h.kind).2.2 hn)
  have hkind : (c₂.arena.expr id).kind = .call d args := by rw [hsame id hid, h.kind]
  have hrank : P.rank d < k := hfits.uses d (.use (by rw [h.kind]; rfl))
  obtain ⟨harity, hgiven⟩ := (isPartialCall_eq_false_iff h.kind).1 h.full
  refine outcome_call_withheld hkind ((isPartialCall_eq_false_iff hkind).2 ⟨?_, fun m hm => ?_⟩)
    (by rw [hsame id hid]; exact hfits.declared)
    (fun hempty => hr.withheld (h.withheld hempty) rfl hrank fun b hb => hsub (h.finished b hb)) ?_
    fun c₃ hstill => ?_
  · rwa [hfits.definitionType h.kind h.steadfast hr.steadfast]
  · rw [Arena.isMissing, hargs m (c.mem_trees_self hm)]
    exact hgiven m hm
  · rintro b hb rfl
    exact h.lot.free d hrank b (by rwa [hr.definition] at hb) hid
  · have hagain := hrest next child active honwards c₃ (hr.still hstill)
      (fun n hn => by rw [hstill.expr n (Set.notMem_empty n), hargs n hn]) G hG
    simp only [outcome_bind] at hagain ⊢
    refine hagain.mono (fun _ w h => ?_) fun _ _ h => ?_
    · exact h.mono (fun _ _ => False.elim) fun _ _ h => h.imp_right fun h =>
        ⟨hstill.trans h.1, h.2⟩
    · exact h.imp_right fun h => ⟨hstill.trans h.1, h.2⟩

/-- A call whose definition fails. -/
theorem KindRefails.callee (h : P.Kept settings k F' c id d args)
    (hdef : P.DefRefails settings k F F' c d) : P.KindRefails settings k F F' c id := by
  refine .call h (List.Subset.refl F') fun next child active honwards c₂ hr _ G hG => ?_
  rw [outcome_bind]
  exact (hdef next active honwards.toEnters c₂ hr (fun n hn => by simp [trees_nil] at hn) G hG).mono
    (fun _ _ => False.elim) fun _ _ h => h

/-- A call one of whose arguments fails. -/
theorem KindRefails.argument (h : P.Kept settings k F₀ c id d args) (hstart : F ⊆ F₀)
    (hlater : F₀ ⊆ F') (hdef : P.DefRecurs settings k F F₀ c d)
    (hargs : P.Barred settings k F₀ F' c args) : P.KindRefails settings k F F' c id := by
  refine .call h hlater fun next child active honwards c₂ hr hsame G hG => ?_
  rw [outcome_bind]
  refine (hdef.outcome honwards.toEnters (hr.part (List.Subset.refl F) hlater) (.inl hG)).mono ?_
    fun _ _ => .inl
  rintro - ⟨c₃, G₁⟩ ⟨hstill, hresumed⟩
  refine (hargs child honwards.child c₃ ((hr.part hstart (List.Subset.refl F')).still hstill)
    (fun n hn => ?_) G₁ (hresumed.start hG)).mono (fun _ _ => False.elim) fun _ _ h => ?_
  · rw [hstill.expr n (Set.notMem_empty n), hsame n hn]
  · exact h.imp_right fun h => ⟨hstill.trans h.1, h.2⟩

/-- A call that leaves a parameter unbound. -/
theorem KindRefails.partialCall (hk : (c.arena.expr id).kind = .call d args)
    (hlot : P.Lot c k [id]) (hs : P.Steadfast c k) (hpartial : c.arena.isPartialCall id = true) :
    P.KindRefails settings k F F c id := by
  intro next child active _ c₂ hr hsame G hG
  have hid := c.mem_trees_self (List.mem_singleton_self id)
  have hpartial' : c₂.arena.isPartialCall id = true := by
    have hty := (hlot.fits id hid).definitionType hk hs hr.steadfast
    have hmissing : ∀ m ∈ args, c₂.arena.isMissing m = c.arena.isMissing m := fun m hm => by
      rw [Arena.isMissing, hsame m (child_mem_trees hid (by rw [hk]; exact hm)), ← Arena.isMissing]
    rw [← Bool.not_eq_false, isPartialCall_eq_false_iff hk] at hpartial
    rw [← Bool.not_eq_false, isPartialCall_eq_false_iff (by rw [hsame id hid, hk]), hty]
    exact fun h => hpartial ⟨h.1, fun m hm => hmissing m hm ▸ h.2 m hm⟩
  simp only [visitKind, hsame id hid, hk, visitCall, outcome_bind, outcome_lift, outcome_arena,
    hpartial', if_true, outcome_fail]
  exact .inr ⟨.refl ∅ c₂, hG⟩

/-- The arguments of a call are still to be walked. -/
theorem Ready.arguments (hw : P.Ready k [id] w) (hk : (w.unit.arena.expr id).kind = .call d args) :
    P.Ready k args w := by
  have hchildren := hw.children
  rwa [hk] at hchildren

/-- A call stays as it is while its arguments are walked. -/
theorem Passes.call (h : P.Passes k args w w') (hw : P.Ready k [id] w)
    (hk : (w.unit.arena.expr id).kind = .call d args) :
    (w'.unit.arena.expr id).kind = .call d args ∧ P.Passes k [id] w w' := by
  obtain ⟨hroot, hpasses⟩ := Passes.node (by rwa [hk]) hw
  exact ⟨by rw [hroot, hk], hpasses⟩

/-- What is known about a call after its definition was dealt with and its arguments were walked,
whether it was typed or could not be. -/
theorem DefSucceeds.called (h₁ : P.DefSucceeds settings k d w w₁)
    (h₂ : P.Succeeds settings k args w₁ w₂) (hw : P.Ready k [id] w)
    (hk : (w.unit.arena.expr id).kind = .call d args)
    (hfull : w.unit.arena.isPartialCall id = false)
    (hwithheld : args = [] → w.unit.Withheld settings (.call d []))
    (hpasses₃ : P.Passes k [id] w₂ ⟨c₃, w₂.finished⟩)
    (hk₃ : (c₃.arena.expr id).kind = .call d args) (hs : P.Steadfast c₃ k) :
    P.Called settings k w.finished w₁.finished w₂.finished w₂.unit c₃ id d args ∧
      w₂.unit.arena.definitionType d = w.unit.arena.definitionType d := by
  have hid := w.unit.mem_trees_self (List.mem_singleton_self id)
  obtain ⟨hkept₁, hpasses₁⟩ := h₁.passes.beside hw
  have hw₁ := hpasses₁.ready
  obtain ⟨hk₂, hpasses₂⟩ := h₂.passes.call hw₁ (by rw [hkept₁ id hid, hk])
  have hw₂ := hpasses₂.ready
  have hs₂ := hpasses₃.steadfast hw₂ hs
  have hs₁ := hpasses₂.steadfast hw₁ hs₂
  have hkept := h₁.toDealt.kept hw hpasses₂ hs₂ hk hk₂ hfull hwithheld
  have hkept' := h₁.toDealt.kept hw (hpasses₂.trans hpasses₃) hs hk hk₃ hfull hwithheld
  obtain ⟨harity, hgiven⟩ := (isPartialCall_eq_false_iff hk₂).1 hkept.full
  exact ⟨{
      kind := hk₂
      before := hw₂.lot
      after := hkept'.lot
      steadfast := hs₂
      full := harity
      given := hgiven
      withheld := hkept'.withheld
      finished := hkept'.finished
      definition := (h₁.recurs hs₁).later (h₁.passes.recalls (hpasses₂.trans hpasses₃) hw₁ hs)
      arguments := h₂.settled hs₂
      recalls := h₂.passes.recalls hpasses₃ hw₂ hs
      start := h₁.passes.finished
      later := h₂.passes.finished
      registered := hpasses₃.ready.estate.registered
      negation := fun e he => (hpasses₃.ready.estate.negation e he).1 },
    (hw.lot.fits id hid).definitionType hk (hpasses₁.steadfast hw hs₁) hs₂⟩

/-- **A call that is not replaced**: its definition is dealt with, then its arguments are walked,
and then it is typed. -/
theorem call_advances (hnext : P.Leads settings next) (hactive : ∀ e ∈ active, k ≤ P.rank e)
    (hchild : ∀ id, P.Advances settings k id (child id)) (hw : P.Ready k [id] w)
    (hk : (w.unit.arena.expr id).kind = .call d args)
    (hfull : w.unit.arena.isPartialCall id = false)
    (hwithheld : args = [] → w.unit.Withheld settings (.call d [])) :
    Outcome (do
      visitDefinition next active d
      visitEach child args
      liftM (typeCall id (w.unit.arena.definitionType d) args)) w
      (fun _ w' => P.KindSucceeds settings k id w w')
      fun stop w' => stop = .cyclic ∨ P.Fails settings k [id] w w' := by
  have hid := w.unit.mem_trees_self (List.mem_singleton_self id)
  have hrank : P.rank d < k := (hw.lot.fits id hid).uses d (.use (by rw [hk]; rfl))
  simp only [outcome_bind, outcome_lift]
  refine (visitDefinition_advances hnext hactive hw.none hrank).mono ?_ ?_
  · intro _ w₁ h₁
    obtain ⟨hkept₁, hpasses₁⟩ := h₁.passes.beside hw
    have hw₁ := hpasses₁.ready
    have hk₁ : (w₁.unit.arena.expr id).kind = .call d args := by rw [hkept₁ id hid, hk]
    refine (visitEach_advances hchild args (hw₁.arguments hk₁)).mono ?_ ?_
    · intro _ w₂ h₂
      obtain ⟨hk₂, hpasses₂⟩ := h₂.passes.call hw₁ hk₁
      refine (typeCall_passes hpasses₂.ready hk₂ (w.unit.arena.definitionType d)).mono ?_ ?_
      · -- It was typed.
        rintro - c₃ ⟨hpasses₃, htyped, -⟩
        refine .of_recurs (hpasses₁.trans (hpasses₂.trans hpasses₃)) fun hs => ?_
        obtain ⟨hcalled, hty⟩ := h₁.called h₂ hw hk hfull hwithheld hpasses₃
          (by rw [htyped.kind, hk₂]) hs
        exact hcalled.recurs (hty ▸ htyped)
      · -- One of the arguments does not suit the definition.
        rintro stop c₃ ⟨-, hpasses₃, -, params, result, isPure, ht, hmistyped⟩
        refine .inr (.of_refails (hpasses₁.trans (hpasses₂.trans hpasses₃)) fun hs => ?_)
        obtain ⟨hcalled, hty⟩ := h₁.called h₂ hw hk hfull hwithheld hpasses₃
          (by rw [hmistyped.root, hk₂]) hs
        exact hcalled.refails (hty.trans ht) hmistyped
    · -- One of the arguments fails.
      refine fun stop w₂ h => h.imp_right fun h₂ => ?_
      obtain ⟨hk₂, hpasses₂⟩ := h₂.passes.call hw₁ hk₁
      refine .of_refails (hpasses₁.trans hpasses₂) fun hs => ?_
      exact .argument (h₁.toDealt.kept hw hpasses₂ hs hk hk₂ hfull hwithheld) h₁.passes.finished
        h₂.passes.finished ((h₁.recurs (hpasses₂.steadfast hw₁ hs)).later
          (h₁.passes.recalls hpasses₂ hw₁ hs)) (h₂.barred hs)
  · -- The definition fails.
    refine fun stop w₁ h => h.imp_right fun h₁ => ?_
    obtain ⟨hkept₁, hpasses₁⟩ := h₁.passes.beside hw
    refine .of_refails hpasses₁ fun hs => ?_
    exact .callee (h₁.toDealt.kept hw (.refl hpasses₁.ready) hs hk (by rw [hkept₁ id hid, hk])
      hfull hwithheld) (h₁.refails hs)

/-- **A call** is walked. -/
theorem visitCall_advances (hnext : P.Leads settings next) (hactive : ∀ e ∈ active, k ≤ P.rank e)
    (hchild : ∀ id, P.Advances settings k id (child id)) (hw : P.Ready k [id] w)
    (hk : (w.unit.arena.expr id).kind = .call d args) :
    Outcome (visitCall settings next child active id d args) w
      (fun _ w' => P.KindSucceeds settings k id w w')
      fun stop w' => stop = .cyclic ∨ P.Fails settings k [id] w w' := by
  rw [visitCall, outcome_bind, outcome_lift, outcome_arena]
  cases hpartial : w.unit.arena.isPartialCall id with
  | true =>
    simp only [if_true, outcome_bind, outcome_lift, outcome_fail]
    exact .inr (.of_refails (.refl hw) fun hs => .partialCall hk hw.lot hs hpartial)
  | false =>
    simp only [Bool.false_eq_true, if_false]
    split
    · rename_i hempty
      obtain rfl := List.isEmpty_iff.1 hempty
      have hkind : (w.unit.arena.expr id).kind.definition? = some d := by
        rw [hk]
        rfl
      refine trySubstitute_advances hnext hactive hw hkind (by rw [hk]; rfl)
        fun c' harena hpasses hwithheld => ?_
      rw [hk] at hwithheld
      rw [← harena] at hk hpartial ⊢
      have hcall := call_advances hnext hactive hchild hpasses.ready hk hpartial fun _ => hwithheld
      exact hcall
    · rename_i hargs
      have hcall := call_advances hnext hactive hchild hw hk hpartial fun hempty =>
        absurd (List.isEmpty_iff.2 hempty) hargs
      simpa using hcall

/-! ## Minus signs -/

/-- A minus sign whose operand fails. -/
theorem KindRefails.operand (hk : (c.arena.expr id).kind = .negated x)
    (h : P.Barred settings k F F' c [x]) : P.KindRefails settings k F F' c id := by
  intro next child active honwards c₂ hr hsame G hG
  have hid := c.mem_trees_self (List.mem_singleton_self id)
  have hx : c.trees [x] ⊆ c.trees [id] := fun n hn =>
    mem_trees_iff_children.2 (.inr (by rwa [hk]))
  have hfails := h child honwards.child c₂ hr (fun n hn => hsame n (hx hn)) G hG
  simp only [visitEach, outcome_bind, outcome_pure] at hfails
  simp only [visitKind, hsame id hid, hk, visitNegation, outcome_bind]
  exact hfails.mono (fun _ _ => False.elim) fun _ _ h => h

/-- A minus sign whose operand suits no negation. -/
theorem KindRefails.negation (hk : (c.arena.expr id).kind = .negated x)
    (h : P.Settled settings k F F' c [x]) (hregistered : c.Registered)
    (hlt : x.index < c.arena.exprs.size) (hgiven : c.arena.isMissing x = false)
    (hcoerce : (c.arena.expr x).coerce (c.negatedType x) = .error cause) :
    P.KindRefails settings k F F' c id := by
  intro next child active honwards c₂ hr hsame G hG
  have hid := c.mem_trees_self (List.mem_singleton_self id)
  have hx : ∀ n ∈ c.trees [x], c₂.arena.expr n = c.arena.expr n := fun n hn =>
    hsame n (mem_trees_iff_children.2 (.inr (by rwa [hk])))
  have hvisit := h child honwards.child c₂ hr (by simpa using Version.same hx) G (.inl hG)
  simp only [visitEach, outcome_bind, outcome_pure] at hvisit
  simp only [visitKind, hsame id hid, hk, visitNegation, outcome_bind, outcome_lift]
  refine hvisit.mono ?_ fun _ _ => .inl
  rintro - ⟨c₃, G₁⟩ ⟨hrevisited, hresumed⟩
  have hstill := hrevisited.still hx
  have hsame₃ : c.SameProgram c₃ := hr.toSameProgram.trans hstill.toSameProgram
  have hoperand : c₃.arena.expr x = c.arena.expr x := by
    rw [hstill.expr x (Set.notMem_empty x), hx x (c.mem_trees_self (List.mem_singleton_self x))]
  have hnegation : c₃.negatedType x = c.negatedType x := by
    unfold negatedType negationFor
    rw [hoperand, hsame₃.builtins]
  rw [outcome_callNegation (hsame₃.registered hregistered)
    (by rw [hstill.size]; exact hlt.trans_le hr.size) (by rwa [Arena.isMissing, hoperand]),
    hoperand, hnegation, hcoerce]
  exact .inr ⟨hstill, hresumed.start hG⟩

/-- **Trees that can be walked again** can be walked again as they are later, and so can a value
that took another one. -/
theorem Settled.later (h : P.Settled settings k F F' c [x]) (hr : P.Recalls k F F' c c')
    (hlot : P.Lot c k [x]) (hs : P.Steadfast c k)
    (hx : (∀ n ∈ c.trees [x], c'.arena.expr n = c.arena.expr n) ∨
      (c.arena.expr x).kind.isValue = true ∧ (c'.arena.expr x).kind.isValue = true ∧
        (c'.arena.expr x).ty.native = .yes ∧ (c'.arena.expr x).declared = none) :
    P.Settled settings k F F' c' [x] := by
  intro visit hvisit c₂ hr₂ hversions G hG
  have hversion : c'.Version c₂ x := hversions x (List.mem_singleton_self x)
  have hr' := hr.trans hr₂ (List.Subset.refl F')
  rcases hx with hsame | ⟨hvalue, hvalue', hnative, hdeclared⟩
  · have hrooted := hlot.toPlot.rooted
    have hechoes : c.Echoes [x] c' :=
      ⟨hlot.alongside hs hr.steadfast hr.toSameProgram hr.size, hsame⟩
    refine (h visit hvisit c₂ hr' (by simpa using hversion.of_echoes hechoes hrooted) G hG).imp ?_
    exact fun _ w h => ⟨h.1.echo hechoes hrooted, h.2⟩
  · obtain ⟨hdeclared₂, hnative₂⟩ := hversion.accepted hdeclared hnative
    have hversion' : c.Version c₂ x :=
      .value hvalue (hversion.isValue hvalue') hnative₂ hdeclared₂
    have htrees : c'.trees [x] = c.trees [x] := by
      rw [trees_of_isValue hvalue, trees_of_isValue hvalue']
    refine (h visit hvisit c₂ hr' (by simpa using hversion') G hG).imp fun _ w h => ⟨⟨?_, ?_⟩, h.2⟩
    · rw [htrees]
      exact h.1.toAlters
    · rintro _ hmem
      obtain rfl := List.mem_singleton.1 hmem
      rw [htrees]
      refine (h.1.each _ hmem).imp_right ?_
      rintro ⟨hnot, -⟩
      cases hvalue.symm.trans hnot

/-- Nothing was changed. -/
theorem Lot.still (h : P.Lot c k ids) (hstill : c.Alters ∅ c') : P.Lot c' k ids := by
  have hkept (n : ExprId) : c'.arena.expr n = c.arena.expr n := hstill.expr n (Set.notMem_empty n)
  have htrees (ids : List ExprId) : c'.trees ids = c.trees ids :=
    trees_congr fun n _ => by rw [hkept n]
  refine ⟨(h.toPlot.of_kept hstill.toSameProgram hstill.size.ge fun n _ => hkept n).2,
    fun d hd => ?_⟩
  rw [htrees, htrees, hstill.toSameProgram.bodyRoots]
  exact h.apart d hd

/-- A negation takes one operand. -/
theorem arity_negation (h : c.Registered) (hd : c.IsNegation d) :
    (c.arena.definitionType d).arity ≤ 1 := by
  rcases hd with rfl | rfl
  · rw [Arena.definitionType_of_declared h.unaryMinus]
    rfl
  · rw [Arena.definitionType_of_declared h.unaryMinusFloat]
    rfl

section Negation

variable (hw : P.Ready k [id] w) (hs : P.Steadfast w.unit k)
  (hk : (w.unit.arena.expr id).kind = .call d [x]) (hd : w.unit.IsNegation d)
  (hgiven : w.unit.arena.isMissing x = false)
  (hrank : ∀ d ∈ w.finished, d ∉ F → P.rank d < k)
  (hx : P.Settled settings k F w.finished w.unit [x])

include hw hs hk hd hgiven hrank hx

/-- The operand of a minus sign is walked once more, which changes nothing. -/
theorem Walks.operand {action : WalkM Unit} (h : P.Walks settings k id action)
    {ended : Unit → Walk → Prop} {stopped : Stop → Walk → Prop} (hcyclic : ∀ w, stopped .cyclic w)
    (hrest : ∀ c', w.unit.Alters ∅ c' →
      Outcome (typeCall id (w.unit.arena.definitionType d) [x]) c'
        (fun _ c => Outcome (do honourDeclared id; requireNative id : CheckM Unit) c
          (fun _ c => ended () ⟨c, w.finished⟩) fun stop c => stopped stop ⟨c, w.finished⟩)
        fun stop c => stopped stop ⟨c, w.finished⟩) :
    Outcome action w ended stopped := by
  have hid := w.unit.mem_trees_self (List.mem_singleton_self id)
  have hbuiltin := (hw.estate.negation d hd).1
  refine h.outcome (fun next child active honwards => ?_) (hcyclic w)
  rw [outcome_visitExpr]
  refine outcome_call_withheld hk ((isPartialCall_eq_false_iff hk).2
    ⟨arity_negation hw.estate.registered hd, by simpa⟩) (hw.lot.fits id hid).declared nofun
    (fun b hb => ?_) fun c₁ hstill₁ => ?_
  · cases hbuiltin.symm.trans hb
  simp only [outcome_bind, outcome_lift]
  rw [outcome_visitDefinition_builtin (by rwa [hstill₁.toSameProgram.definition])]
  have hkept₁ (n : ExprId) : c₁.arena.expr n = w.unit.arena.expr n :=
    hstill₁.expr n (Set.notMem_empty n)
  have hversion : w.unit.Version c₁ x := .same fun n _ => hkept₁ n
  refine (hx child honwards.child c₁ ((hs.recalls hrank).still hstill₁) (by simpa using hversion)
    w.finished (.inr (List.Subset.refl _))).mono ?_ ?_
  · -- All that the operand uses was dealt with already.
    rintro - ⟨c₃, G⟩ ⟨hrevisited, hresumed⟩
    obtain rfl : G = w.finished := hresumed.done (List.Subset.refl _)
    simpa only [outcome_bind] using
      hrest c₃ (hstill₁.trans (hrevisited.still fun n _ => hkept₁ n))
  · rintro _ _ rfl
    exact hcyclic _

/-- The call that a minus sign became is one whose operand was walked, whatever it is typed as. -/
theorem Settled.called_negation (hstart : F ⊆ w.finished) (hstill : w.unit.Alters ∅ c₁)
    (halters : c₁.Alters (c₁.trees [id]) c₂) (hlot : P.Lot c₂ k [id]) :
    P.Called settings k F F w.finished c₁ c₂ id d [x] := by
  have hoperand : P.Lot w.unit k [x] := (hw.arguments hk).lot
  have hkept (n : ExprId) : c₁.arena.expr n = w.unit.arena.expr n :=
    hstill.expr n (Set.notMem_empty n)
  have hlot₁ := hw.lot.still hstill
  have hs₁ : P.Steadfast c₁ k := hs.of_still hstill.back
  have hregistered := hstill.toSameProgram.registered hw.estate.registered
  have hsame : w.unit.SameProgram c₂ := hstill.toSameProgram.trans halters.toSameProgram
  have hbuiltin (e : DefId) (he : w.unit.IsNegation e) :
      (c₂.arena.definition e).body = .builtin := by
    rw [hsame.definition]
    exact (hw.estate.negation e he).1
  exact {
    kind := by rw [hkept id, hk]
    before := hlot₁
    after := hlot
    steadfast := hs₁
    full := arity_negation hregistered (hstill.toSameProgram.isNegation.2 hd)
    given := by simpa [Arena.isMissing, hkept x] using hgiven
    withheld := nofun
    finished := fun b hb => by cases (hbuiltin d hd).symm.trans hb
    definition := .idle (.inr (.inl (hbuiltin d hd)))
    arguments := hx.later ((hs.recalls hrank).still hstill) hoperand hs (.inl fun n _ => hkept n)
    recalls := (hs₁.recalls hrank).altered halters hlot₁.apart
    start := List.Subset.refl F
    later := hstart
    registered := halters.toSameProgram.registered hregistered
    negation := fun e he => hbuiltin e (hsame.isNegation.1 he) }

/-- **The call that a minus sign became** is typed after its operand was walked once more. So the
call can be walked again from where the walk of the operand began at first. -/
theorem Walks.negation {action : WalkM Unit} (h : P.Walks settings k id action)
    (hstart : F ⊆ w.finished) :
    Outcome action w
      (fun _ w' => P.Lot w'.unit k [id] → P.Settled settings k F w'.finished w'.unit [id])
      fun stop w' => stop = .cyclic ∨
        (P.Lot w'.unit k [id] → P.Barred settings k F w'.finished w'.unit [id]) := by
  have hid := w.unit.mem_trees_self (List.mem_singleton_self id)
  refine h.operand hw hs hk hd hgiven hrank hx (fun _ => .inl rfl) fun c₁ hstill => ?_
  have hkept : c₁.arena.expr id = w.unit.arena.expr id := hstill.expr id (Set.notMem_empty id)
  have hty : c₁.arena.definitionType d = w.unit.arena.definitionType d :=
    (hw.lot.fits id hid).definitionType hk hs (hs.of_still hstill.back)
  have hcalled {c₂ : Compilation} (halters : c₁.Alters (c₁.trees [id]) c₂) :=
    hx.called_negation hw hs hk hd hgiven hrank hstart hstill halters
  refine (typeCall_types (hw.lot.still hstill).toPlot.rooted (hkept ▸ hk) _).mono ?_ ?_
  · rintro - c₂ ⟨htyped, halters⟩
    have hdeclared : (c₂.arena.expr id).declared = none := by
      rw [htyped.declared, hkept]
      exact (hw.lot.fits id hid).declared
    have hrecurs (hlot : P.Lot c₂ k [id]) := (hcalled halters hlot).recurs (hty ▸ htyped)
    rw [outcome_requireNative hdeclared]
    split
    · rename_i hnative
      exact fun hlot => .of_kind (hrecurs hlot) hdeclared hnative
    · rename_i hnative
      exact .inr fun hlot => .of_type (hrecurs hlot) hdeclared hnative
  · rintro stop c₂ ⟨-, halters, params, result, isPure, ht, hmistyped⟩
    exact .inr fun hlot => .of_kind ((hcalled halters hlot).refails (hty.trans ht) hmistyped)

end Negation

/-- **The call that a minus sign became** is walked. -/
theorem negated_advances (hnext : P.Leads settings next) (henters : P.Enters settings k next active)
    (hpasses : P.Passes k [id] w w₁) (hk : (w₁.unit.arena.expr id).kind = .call d [x])
    (hd : w₁.unit.IsNegation d) (hgiven : w₁.unit.arena.isMissing x = false)
    (hx : P.Steadfast w₁.unit k → P.Settled settings k w.finished w₁.finished w₁.unit [x]) :
    Outcome (next.expr active id) w₁ (fun _ w' => P.KindSucceeds settings k id w w')
      fun stop w' => stop = .cyclic ∨ P.Fails settings k [id] w w' := by
  have hw₁ := hpasses.ready
  have hwalk := hnext.expr k active henters.active id w₁ hw₁
  -- What is known about the walk if types that are fixed were kept so far.
  have hagain : Outcome (next.expr active id) w₁
      (fun _ w' => P.Steadfast w₁.unit k → P.Lot w'.unit k [id] →
        P.Settled settings k w.finished w'.finished w'.unit [id])
      fun stop w' => stop = .cyclic ∨ (P.Steadfast w₁.unit k → P.Lot w'.unit k [id] →
        P.Barred settings k w.finished w'.finished w'.unit [id]) := by
    by_cases hs : P.Steadfast w₁.unit k
    · obtain ⟨rounds, rfl⟩ := henters.next
      exact ((Walks.whole henters.active rounds id).negation hw₁ hs hk hd hgiven hpasses.rank
        (hx hs) hpasses.finished).mono (fun _ _ h _ => h) fun _ _ => Or.imp_right fun h _ => h
    · exact hwalk.mono (fun _ _ _ h => absurd h hs) fun _ _ _ => .inr fun h => absurd h hs
  refine (hwalk.and hagain).mono ?_ ?_
  · rintro - w' ⟨⟨-, h⟩, hsettled⟩
    exact ⟨hpasses.trans h.passes, fun hs _ => hsettled (h.passes.steadfast hw₁ hs)
      h.passes.ready.lot, fun _ hnot => absurd (h.native id (List.mem_singleton_self id)) hnot⟩
  · rintro stop w' ⟨h | ⟨-, h⟩, hbarred⟩
    · exact .inl h
    · refine hbarred.imp_right fun hbarred => ⟨hpasses.trans h.passes, fun hs => ?_⟩
      exact hbarred (h.passes.steadfast hw₁ hs) h.passes.ready.lot

/-- **A minus sign is walked**: its operand, and then the call that they become. -/
theorem visitNegation_advances (hnext : P.Leads settings next)
    (henters : P.Enters settings k next active)
    (hchild : ∀ id, P.Advances settings k id (child id)) (hw : P.Ready k [id] w)
    (hk : (w.unit.arena.expr id).kind = .negated x) :
    Outcome (visitNegation next child active id x) w
      (fun _ w' => P.KindSucceeds settings k id w w')
      fun stop w' => stop = .cyclic ∨ P.Fails settings k [id] w w' := by
  have hready : P.Ready k [x] w := by
    have hchildren := hw.children
    rwa [hk] at hchildren
  -- The minus sign stays as it is while its operand is walked.
  have hnode {w₁ : Walk} (h : P.Passes k [x] w w₁) :
      (w₁.unit.arena.expr id).kind = .negated x ∧ P.Passes k [id] w w₁ := by
    obtain ⟨hroot, hpasses⟩ := Passes.node (by rwa [hk]) hw
    exact ⟨by rw [hroot, hk], hpasses⟩
  simp only [visitNegation, outcome_bind, outcome_lift]
  refine (hchild x w hready).mono ?_ ?_
  · rintro - w₁ ⟨hfit, h₁⟩
    obtain ⟨hk₁, hpasses₁⟩ := hnode h₁.passes
    have hw₁ := hpasses₁.ready
    have hgiven : w₁.unit.arena.isMissing x = false := by
      rw [Arena.isMissing]
      cases hk₂ : (w₁.unit.arena.expr x).kind <;> try rfl
      rw [h₁.passes.missing x hready.lot.lt_size hk₂] at hfit
      cases hfit
    refine (callNegation_passes hw₁ hk₁ hgiven
      (h₁.native x (List.mem_singleton_self x))).mono ?_ ?_
    · rintro - c₂ ⟨hpasses₂, hk₂, halters, hx⟩
      have hsame : c₂.arena.expr x = w₁.unit.arena.expr x → ∀ n ∈ w₁.unit.trees [x],
          c₂.arena.expr n = w₁.unit.arena.expr n := by
        intro hx n hn
        by_cases hnx : n = x
        · rw [hnx, hx]
        · refine halters.expr n ?_
          rintro (rfl | rfl)
          · exact hw₁.lot.toPlot.children.2 (by rwa [hk₁])
          · exact hnx rfl
      refine negated_advances hnext henters (hpasses₁.trans hpasses₂) hk₂
        (halters.toSameProgram.isNegation.2 (w₁.unit.isNegation_negationFor x)) ?_ fun hs₂ => ?_
      · rcases hx with hx | ⟨-, hvalue, -⟩
        · rwa [Arena.isMissing, hx]
        · exact ExprKind.isMissingArg_of_isValue hvalue
      · have hs₁ := hpasses₂.steadfast hw₁ hs₂
        exact (h₁.settled hs₁).later (h₁.passes.recalls hpasses₂ hw₁ hs₂) h₁.passes.ready.lot hs₁
          (hx.imp_left hsame)
    · rintro stop _ ⟨-, rfl, cause, hcoerce⟩
      refine .inr (.of_refails hpasses₁ fun hs => ?_)
      exact .negation hk₁ (h₁.settled hs) hw₁.estate.registered h₁.passes.ready.lot.lt_size hgiven
        hcoerce
  · rintro stop w₁ (h | ⟨-, h₁⟩)
    · exact .inl h
    · obtain ⟨hk₁, hpasses₁⟩ := hnode h₁.passes
      exact .inr (.of_refails hpasses₁ fun hs => .operand hk₁ (h₁.barred hs))

/-! ## Expressions -/

/-- What cannot stand in for a use fails at once. -/
theorem visitKind_unfit (settings : Settings) (id : ExprId) {e : Expression}
    (h : e.kind.isSubstitutable = false) :
    ∃ cause, ∀ next child active, visitKind settings next child active id e =
      (CheckM.fail cause e.span : CheckM Unit) := by
  simp only [visitKind]
  cases hk : e.kind <;> rw [hk] at h <;>
    first | exact ⟨_, fun _ _ _ => rfl⟩ | cases h

/-- **An expression is walked.** -/
theorem visitExpr_advances (hnext : P.Leads settings next) (henters : P.Enters settings k next active)
    (hchild : ∀ id, P.Advances settings k id (child id)) (id : ExprId) :
    P.Advances settings k id (visitExpr settings next child active id) := by
  intro w hw
  have hid := w.unit.mem_trees_self (List.mem_singleton_self id)
  rw [outcome_visitExpr]
  cases hfit : (w.unit.arena.expr id).kind.isSubstitutable with
  | false =>
    obtain ⟨cause, hfail⟩ := visitKind_unfit settings id hfit
    rw [hfail, outcome_lift, outcome_fail]
    refine .inr ⟨fun _ => rfl, .of_refails (.refl hw) fun _ => ?_⟩
    intro next' child' active' _ c₂ _ hsame G hG
    rw [hsame id hid, hfail, outcome_lift, outcome_fail]
    exact .inr ⟨.refl ∅ c₂, hG⟩
  | true =>
    have hkind : Outcome (visitKind settings next child active id (w.unit.arena.expr id)) w
        (fun _ w' => P.KindSucceeds settings k id w w')
        fun stop w' => stop = .cyclic ∨ P.Fails settings k [id] w w' := by
      rw [visitKind]
      cases hk : (w.unit.arena.expr id).kind with
      | value v => exact outcome_lift.2 (concretizeValue_advances hw (by rw [hk]; rfl))
      | reference d => exact visitReference_advances hnext henters.active hw (.inl hk)
      | operator d => exact visitReference_advances hnext henters.active hw (.inr hk)
      | call d args => exact visitCall_advances hnext henters.active hchild hw hk
      | negated x => exact visitNegation_advances hnext henters hchild hw hk
      | _ =>
        rw [hk] at hfit
        cases hfit
    refine hkind.mono (fun _ w' h => ?_) fun _ _ => Or.imp_right fun h => ⟨by simp, h⟩
    rw [outcome_requireNative h.passes.undeclared]
    split
    · rename_i hnative
      exact ⟨rfl, h.passes, by simpa, fun hs => h.settled hs hnative⟩
    · rename_i hnative
      exact .inr ⟨by simp, h.passes, fun hs => h.barred hs hnative⟩

theorem visitWithin_advances (hnext : P.Leads settings next)
    (henters : P.Enters settings k next active) (bound depth : Nat) (id : ExprId) :
    P.Advances settings k id (visitWithin settings next active bound depth id) := by
  induction depth generalizing id with
  | zero => exact fun _ _ => .inl rfl
  | succ depth ih =>
    refine visitExpr_advances hnext henters (fun n => ?_) id
    split
    · exact ih n
    · exact hnext.expr k active henters.active n

/-- **Every walk can be repeated.** -/
theorem leads_visitor (P : Prospect) (settings : Settings) (rounds : Nat) :
    P.Leads settings (visitor settings rounds) := by
  induction rounds with
  | zero => exact ⟨fun _ _ _ _ _ _ => .inl rfl, fun _ _ _ _ _ _ _ => rfl⟩
  | succ rounds ih =>
    refine ⟨fun k active hactive id w hw => ?_, fun k active hactive s w hw hbound => ?_⟩
    · simp only [visitor, outcome_bind, outcome_lift, outcome_arena]
      exact visitWithin_advances ih ⟨⟨rounds, rfl⟩, hactive⟩ _ _ id w hw
    · simp only [visitor, outcome_bind, outcome_lift, outcome_arena]
      refine (visitStatementWithin_advances ih hactive _ s hw hbound).imp fun _ w' h =>
        ⟨h.passes, fun hs next active henters c₂ hr hsame G hG => ?_⟩
      obtain ⟨rounds', rfl⟩ := henters.next
      cases rounds' with
      | zero => exact rfl
      | succ rounds' =>
        have hstmts : c₂.arena.stmts = w.unit.arena.stmts :=
          (h.passes.toBranches.toSameProgram.trans hr.toSameProgram).stmts
        simp only [visitor, outcome_bind, outcome_lift, outcome_arena, hstmts]
        exact h.reruns hs _ active ⟨⟨rounds', rfl⟩, henters.active⟩ c₂ hr hsame G hG

end Prospect

end Termwise
