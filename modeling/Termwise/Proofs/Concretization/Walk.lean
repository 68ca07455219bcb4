import Termwise.Proofs.Concretization.Copies

/-!
# The walk keeps the gate

## Main definitions

* `Advance`: what a part of a walk comes to
* `Keeps`: an action of the walk that keeps the gate

## Main results

* `visitor_sound`: the walk, with any number of rounds, keeps the gate
-/

namespace Termwise

open Compilation

/-! ## Parts of a walk -/

/-- What a part of a walk comes to, if the program is still valid after it: the expressions that
were walked grew from `A` to `A'`, and those in `P` are still being walked. -/
structure Advance (w w' : Walk) (A A' P : Set ExprId) : Prop where
  isValid : w.unit.isValid = true
  subset : A ⊆ A'
  evolves : Evolves A' w.unit w'.unit
  gate : Gate w'.unit w'.finished A' P

/-- A state in which a walk can go on while the bodies of some definitions are being walked. -/
structure Ready (w : Walk) (active : List DefId) (A P : Set ExprId) : Prop where
  gate : Gate w.unit w.finished A P
  active : ∀ d ∈ active, w.unit.AliveBody d

/-- **An action of the walk keeps the gate**, unless it leaves an invalid program behind. If it
stops silently, the program is invalid. -/
def Keeps {α : Type} (action : WalkM α) (w : Walk) (A P : Set ExprId)
    (ended : α → Walk → Set ExprId → Prop) : Prop :=
  Outcome action w
    (fun a w' => ∃ A', w'.unit.isValid = true → Advance w w' A A' P ∧ ended a w' A')
    fun stop w' => stop.IsSilent → w'.unit.isValid = false

variable {α β : Type} {w w' w'' : Walk} {A A' A'' P : Set ExprId} {id : ExprId} {d : DefId}
  {active : List DefId} {settings : Settings} {next : Visitor} {child : ExprId → WalkM Unit}

theorem Advance.refl (hvalid : w.unit.isValid = true) (h : Gate w.unit w.finished A P) :
    Advance w w A A P :=
  ⟨hvalid, Set.Subset.rfl, .refl A w.unit, h⟩

theorem Advance.trans (h : Advance w w' A A' P) (h' : Advance w' w'' A' A'' P) :
    Advance w w'' A A'' P :=
  ⟨h.isValid, Set.Subset.trans h.subset h'.subset, h.evolves.trans h'.evolves h'.subset, h'.gate⟩

theorem Advance.ready (h : Advance w w' A A' P) (hr : Ready w active A P) :
    Ready w' active A' P :=
  ⟨h.gate, fun d hd => h.evolves.aliveBody (hr.active d hd)⟩

theorem Ready.moves (hr : Ready w active A P) (hm : w.unit.Moves id w'.unit)
    (hgate : Gate w'.unit w'.finished A P) : Ready w' active A P := by
  refine ⟨hgate, fun d hd b hb => ?_⟩
  rw [hm.definition] at hb
  exact hm.alive_of_alive (hr.active d hd b hb)

theorem Advance.shaped (h : Advance w w' A A' P) (hn : w.unit.Shaped A id) :
    w'.unit.Shaped A' id :=
  h.evolves.shaped (hn.mono h.subset)

section

variable {action : WalkM α} {first : WalkM β} {rest : β → WalkM α}
  {mid : β → Walk → Set ExprId → Prop} {ended ended' : α → Walk → Set ExprId → Prop}

theorem keeps_pure (a : α) (hgate : w.unit.isValid = true → Gate w.unit w.finished A P)
    (h : w.unit.isValid = true → ended a w A) : Keeps (pure a) w A P ended :=
  ⟨A, fun hvalid => ⟨.refl hvalid (hgate hvalid), h hvalid⟩⟩

theorem Keeps.imp (h : Keeps action w A P ended)
    (himp : ∀ a w' A', Advance w w' A A' P → ended a w' A' → ended' a w' A') :
    Keeps action w A P ended' := by
  refine Outcome.imp h ?_
  rintro a w' ⟨A', h'⟩
  refine ⟨A', fun hvalid => ?_⟩
  obtain ⟨hadvance, hended⟩ := h' hvalid
  exact ⟨hadvance, himp a w' A' hadvance hended⟩

/-- **Actions in sequence** keep the gate if each does. -/
theorem Keeps.bind (h : Keeps first w A P mid)
    (hrest : ∀ b w' A', (w'.unit.isValid = true → Advance w w' A A' P ∧ mid b w' A') →
      Keeps (rest b) w' A' P ended) : Keeps (first >>= rest) w A P ended := by
  rw [Keeps, outcome_bind]
  refine Outcome.imp h ?_
  rintro b w' ⟨A', h'⟩
  refine Outcome.imp (hrest b w' A' h') ?_
  rintro a w'' ⟨A'', h''⟩
  refine ⟨A'', fun hvalid => ?_⟩
  obtain ⟨hadvance, hended⟩ := h'' hvalid
  exact ⟨(h' hadvance.isValid).1.trans hadvance, hended⟩

/-! ### Reading the state -/

@[simp] theorem keeps_get {rest : Walk → WalkM α} :
    Keeps (get >>= rest) w A P ended ↔ Keeps (rest w) w A P ended := Iff.rfl

@[simp] theorem keeps_arena {rest : Arena → WalkM α} :
    Keeps (liftM CheckM.arena >>= rest) w A P ended ↔ Keeps (rest w.unit.arena) w A P ended :=
  Iff.rfl

@[simp] theorem keeps_expr {rest : Expression → WalkM α} :
    Keeps (liftM (CheckM.expr id) >>= rest) w A P ended ↔
      Keeps (rest (w.unit.arena.expr id)) w A P ended := Iff.rfl

@[simp] theorem keeps_definition {rest : Definition → WalkM α} :
    Keeps (liftM (CheckM.definition d) >>= rest) w A P ended ↔
      Keeps (rest (w.unit.arena.definition d)) w A P ended := Iff.rfl

/-! ### Steps -/

/-- A part of a walk that stops with an error of its own. -/
theorem keeps_fail {cause : Cause} {rest : β → WalkM α} (span : Span)
    (h : cause ≠ .containsError) :
    Keeps (liftM (CheckM.fail cause span) >>= rest) w A P ended :=
  fun hsilent => (Stop.not_isSilent span h hsilent).elim

theorem keeps_finish (hgate : w.unit.isValid = true → Gate w.unit w.finished A P)
    (hd : w.unit.isValid = true →
      ∀ b, (w.unit.arena.definition d).body = .expression b → b ∈ A) :
    Keeps (WalkM.finish d) w A P fun _ _ _ => True := by
  refine ⟨A, fun hvalid => ⟨⟨hvalid, Set.Subset.rfl, .refl A w.unit, ?_⟩, trivial⟩⟩
  exact (hgate hvalid).finish (hd hvalid)

/-- **A step that rewrites a pending expression**, and what follows it up to where the expression
is what it was or code can be generated for it. -/
theorem Keeps.of_moves {step : CheckM β} {rest : β → WalkM α} (moved : β → Compilation → Prop)
    (hid : id ∈ P) (hgate : w.unit.isValid = true → Gate w.unit w.finished A P)
    (h : Outcome step w.unit
      (fun b c => c.isValid = w.unit.isValid ∧
        (w.unit.isValid = true → w.unit.Moves id c ∧ moved b c))
      fun stop c => stop.IsSilent → c.isValid = false)
    (hrest : ∀ b w', (w'.unit.isValid = true →
        w.unit.Moves id w'.unit ∧ moved b w'.unit ∧ Gate w'.unit w'.finished A P) →
      Keeps (rest b) w' A P fun a w'' A' => ended a w'' A' ∧
        ((w.unit.arena.expr id).kind.Alike (w''.unit.arena.expr id).kind ∨
          w''.unit.Shaped A' id)) :
    Keeps (liftM step >>= rest) w A P ended := by
  rw [Keeps, outcome_bind, outcome_lift]
  refine Outcome.imp h ?_
  rintro b c ⟨hvalid, hmoves⟩
  refine Outcome.imp (hrest b { w with unit := c } fun hc => ?_) ?_
  · obtain ⟨hmove, hmoved⟩ := hmoves (hvalid ▸ hc)
    exact ⟨hmove, hmoved, (hgate (hvalid ▸ hc)).moves hmove hid⟩
  · rintro a w'' ⟨A', h'⟩
    refine ⟨A', fun hw'' => ?_⟩
    obtain ⟨hadvance, hended, hshaped⟩ := h' hw''
    have hw : w.unit.isValid = true := hvalid ▸ hadvance.isValid
    refine ⟨⟨hw, hadvance.subset, ?_, hadvance.gate⟩, hended⟩
    exact (hmoves hw).1.evolves hadvance.evolves hshaped

/-- A step that leaves the pending expression what it was, up to its value or callee. -/
theorem keeps_step {step : CheckM α} (done : Compilation → Prop) (hid : id ∈ P)
    (hgate : w.unit.isValid = true → Gate w.unit w.finished A P)
    (h : Outcome step w.unit
      (fun _ c => c.isValid = w.unit.isValid ∧ (w.unit.isValid = true → w.unit.Moves id c ∧
        (w.unit.arena.expr id).kind.Alike (c.arena.expr id).kind ∧ done c))
      fun stop c => stop.IsSilent → c.isValid = false) :
    Keeps (liftM step) w A P fun _ w' _ => done w'.unit := by
  rw [← bind_pure (liftM step)]
  refine Keeps.of_moves
    (fun _ c => (w.unit.arena.expr id).kind.Alike (c.arena.expr id).kind ∧ done c)
    hid hgate h fun a w' hw' => ?_
  refine keeps_pure a (fun hvalid => (hw' hvalid).2.2) fun hvalid => ?_
  exact ⟨(hw' hvalid).2.1.2, .inl (hw' hvalid).2.1.1⟩

/-- The walk of a pending expression ends once code can be generated for it. -/
theorem Keeps.settle (h : Keeps action w A (insert id P) fun a w' A' =>
      w'.unit.Concrete A' id ∧ ended a w' (insert id A')) :
    Keeps action w A P fun a w' A' => id ∈ A' ∧ w'.unit.Concrete A' id ∧ ended a w' A' := by
  refine Outcome.imp h ?_
  rintro a w' ⟨A', h'⟩
  refine ⟨insert id A', fun hvalid => ?_⟩
  obtain ⟨hadvance, hconcrete, hended⟩ := h' hvalid
  have hmono : A' ⊆ insert id A' := Set.subset_insert id A'
  refine ⟨⟨hadvance.isValid, Set.Subset.trans hadvance.subset hmono, hadvance.evolves.mono hmono,
    hadvance.gate.settle hconcrete⟩, .inl rfl, hconcrete.mono hmono, hended⟩

end

end Termwise
