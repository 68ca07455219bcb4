import Termwise.Concretization

/-!
# More rounds

A walk is given a number of rounds, and gives up where it would need one more. Until it does, the
number plays no part: a walk that has more rounds does the same and goes on where the other one
gives up. So what a walk comes to with some number of rounds, it comes to with every larger one.

## Main definitions

* `Prolongs`: an action does what another one does until that gives up

## Main results

* `visitor_prolongs`: more rounds prolong the walk
-/

namespace Termwise

/-- **An action prolongs another one**: both do the same, or that one gives up for its depth. -/
def Prolongs {α : Type} (longer shorter : WalkM α) : Prop :=
  ∀ w, (∃ w', shorter w = .error .cyclic w') ∨ longer w = shorter w

/-- One walk prolongs another, from everywhere. -/
structure Visitor.Prolongs (longer shorter : Visitor) : Prop where
  expr (active : List DefId) (id : ExprId) :
    Termwise.Prolongs (longer.expr active id) (shorter.expr active id)
  statement (active : List DefId) (id : StmtId) :
    Termwise.Prolongs (longer.statement active id) (shorter.statement active id)

section

variable {α β : Type} {longer shorter : WalkM α}

/-- What the shorter action comes to without giving up, the longer one does, too. -/
theorem Prolongs.eq (h : Prolongs longer shorter) {w : Walk}
    (hends : ∀ w', shorter w ≠ .error .cyclic w') : longer w = shorter w := by
  rcases h w with ⟨w', hw'⟩ | heq
  · exact (hends w' hw').elim
  · exact heq

theorem Prolongs.refl (action : WalkM α) : Prolongs action action := fun _ => .inr rfl

theorem Prolongs.trans {longest : WalkM α} (h : Prolongs longest longer)
    (h' : Prolongs longer shorter) : Prolongs longest shorter := by
  intro w
  rcases h' w with hcyclic | heq
  · exact .inl hcyclic
  · rcases h w with ⟨w', hw'⟩ | heq'
    · exact .inl ⟨w', heq ▸ hw'⟩
    · exact .inr (heq'.trans heq)

theorem prolongs_cyclic (action : WalkM α) : Prolongs action (throw .cyclic) :=
  fun w => .inl ⟨w, rfl⟩

theorem Prolongs.bind {first first' : WalkM β} {rest rest' : β → WalkM α}
    (h : Prolongs first first') (hrest : ∀ b, Prolongs (rest b) (rest' b)) :
    Prolongs (first >>= rest) (first' >>= rest') := by
  intro w
  simp only [Bind.bind, EStateM.bind]
  rcases h w with ⟨w', hw'⟩ | heq
  · exact .inl ⟨w', by rw [hw']⟩
  · rw [heq]
    cases first' w with
    | ok b w₁ => exact hrest b w₁
    | error e w₁ => exact .inr rfl

theorem Prolongs.attempt (h : Prolongs longer shorter) :
    Prolongs (WalkM.attempt longer) (WalkM.attempt shorter) := by
  intro w
  simp only [WalkM.attempt]
  rcases h w with ⟨w', hw'⟩ | heq
  · exact .inl ⟨w', by rw [hw']⟩
  · exact .inr (by rw [heq])

end

/-! ## The parts of a walk -/

variable {next next' : Visitor} {child child' : ExprId → WalkM Unit} {settings : Settings}
  (hnext : next.Prolongs next') (hchild : ∀ id, Prolongs (child id) (child' id))

section
include hnext

theorem visitDefinition_prolongs (active : List DefId) (d : DefId) :
    Prolongs (visitDefinition next active d) (visitDefinition next' active d) := by
  unfold visitDefinition
  refine (Prolongs.refl _).bind fun definition => ?_
  split
  · exact Prolongs.refl _
  · exact Prolongs.refl _
  · refine (Prolongs.refl _).bind fun w => ?_
    split
    · exact Prolongs.refl _
    · exact (Prolongs.refl _).bind fun _ => hnext.statement active _
  · refine (Prolongs.refl _).bind fun w => ?_
    split
    · exact Prolongs.refl _
    · exact (hnext.expr _ _).attempt.bind fun outcome => Prolongs.refl _

theorem trySubstitute_prolongs (active : List DefId) (id : ExprId) (d : DefId) :
    Prolongs (trySubstitute settings next active id d)
      (trySubstitute settings next' active id d) := by
  unfold trySubstitute
  split
  · exact Prolongs.refl _
  · refine (Prolongs.refl _).bind fun replaced => ?_
    split
    · exact (hnext.expr _ _).bind fun _ => Prolongs.refl _
    · exact Prolongs.refl _

theorem visitReference_prolongs (active : List DefId) (id : ExprId) (d : DefId) :
    Prolongs (visitReference settings next active id d)
      (visitReference settings next' active id d) := by
  unfold visitReference
  refine (trySubstitute_prolongs hnext active id d).bind fun replaced => ?_
  split
  · exact Prolongs.refl _
  · exact (visitDefinition_prolongs hnext active d).bind fun _ => Prolongs.refl _

end

include hchild in
theorem visitEach_prolongs (ids : List ExprId) :
    Prolongs (visitEach child ids) (visitEach child' ids) := by
  induction ids with
  | nil => exact Prolongs.refl _
  | cons id ids ih => exact (hchild id).bind fun _ => ih

section
include hnext hchild

theorem visitCall_prolongs (active : List DefId) (id : ExprId) (callee : DefId)
    (args : List ExprId) :
    Prolongs (visitCall settings next child active id callee args)
      (visitCall settings next' child' active id callee args) := by
  unfold visitCall
  refine (Prolongs.refl _).bind fun arena => ?_
  dsimp only
  have htyped : Prolongs
      (do
        visitDefinition next active callee
        visitEach child args
        liftM (typeCall id (arena.definitionType callee) args) : WalkM Unit)
      (do
        visitDefinition next' active callee
        visitEach child' args
        liftM (typeCall id (arena.definitionType callee) args)) :=
    (visitDefinition_prolongs hnext active callee).bind fun _ =>
      (visitEach_prolongs hchild args).bind fun _ => Prolongs.refl _
  split
  · exact Prolongs.refl _
  · split
    · refine (trySubstitute_prolongs hnext active id callee).bind fun replaced => ?_
      split
      · exact Prolongs.refl _
      · exact htyped
    · exact htyped

theorem visitNegation_prolongs (active : List DefId) (id operand : ExprId) :
    Prolongs (visitNegation next child active id operand)
      (visitNegation next' child' active id operand) := by
  unfold visitNegation
  exact (hchild operand).bind fun _ => (Prolongs.refl _).bind fun _ => hnext.expr active id

theorem visitExpr_prolongs (active : List DefId) (id : ExprId) :
    Prolongs (visitExpr settings next child active id)
      (visitExpr settings next' child' active id) := by
  unfold visitExpr
  refine (Prolongs.refl _).bind fun e => ?_
  split
  · exact Prolongs.refl _
  · exact (visitReference_prolongs hnext active id _).bind fun _ => Prolongs.refl _
  · exact (visitReference_prolongs hnext active id _).bind fun _ => Prolongs.refl _
  · exact (visitCall_prolongs hnext hchild active id _ _).bind fun _ => Prolongs.refl _
  · exact (visitNegation_prolongs hnext hchild active id _).bind fun _ => Prolongs.refl _
  all_goals exact Prolongs.refl _

end

theorem visitWithin_prolongs (hnext : next.Prolongs next') (active : List DefId)
    (bound depth : Nat) (id : ExprId) :
    Prolongs (visitWithin settings next active bound depth id)
      (visitWithin settings next' active bound depth id) := by
  -- On the depth within a round; a node that was appended in it is left to the next round.
  induction depth generalizing id with
  | zero => exact prolongs_cyclic _
  | succ depth ih =>
    refine visitExpr_prolongs hnext (fun child => ?_) active id
    split
    · exact ih child
    · exact hnext.expr active child

theorem each_prolongs {visit visit' : StmtId → WalkM Unit}
    (h : ∀ id, Prolongs (visit id) (visit' id)) (ids : List StmtId) :
    Prolongs (visitStatementWithin.each visit ids) (visitStatementWithin.each visit' ids) := by
  induction ids with
  | nil => exact Prolongs.refl _
  | cons id ids ih => exact (h id).bind fun _ => ih

theorem visitStatementWithin_prolongs (hnext : next.Prolongs next') (active : List DefId)
    (depth : Nat) (id : StmtId) :
    Prolongs (visitStatementWithin next active depth id)
      (visitStatementWithin next' active depth id) := by
  induction depth generalizing id with
  | zero => exact prolongs_cyclic _
  | succ depth ih =>
    simp only [visitStatementWithin]
    refine (Prolongs.refl _).bind fun arena => ?_
    split
    · exact (hnext.expr active _).attempt.bind fun _ => Prolongs.refl _
    · exact (hnext.expr active _).attempt.bind fun _ => Prolongs.refl _
    · exact (visitDefinition_prolongs hnext active _).attempt.bind fun _ => Prolongs.refl _
    · exact each_prolongs ih _
    · exact Prolongs.refl _
    · exact Prolongs.refl _

/-- **One round more** prolongs the walk. -/
theorem visitor_prolongs_succ (settings : Settings) (rounds : Nat) :
    (visitor settings (rounds + 1)).Prolongs (visitor settings rounds) := by
  -- Without rounds a walk gives up at once, and each round calls on the ones before it.
  induction rounds with
  | zero => exact ⟨fun _ _ => prolongs_cyclic _, fun _ _ => prolongs_cyclic _⟩
  | succ rounds ih =>
    refine ⟨fun active id => ?_, fun active id => ?_⟩
    · exact (Prolongs.refl _).bind fun arena => visitWithin_prolongs ih active _ _ id
    · exact (Prolongs.refl _).bind fun arena => visitStatementWithin_prolongs ih active _ id

/-- **More rounds** prolong the walk. -/
theorem visitor_prolongs (settings : Settings) {rounds more : Nat} (h : rounds ≤ more) :
    (visitor settings more).Prolongs (visitor settings rounds) := by
  induction h with
  | refl => exact ⟨fun _ _ => .refl _, fun _ _ => .refl _⟩
  | @step more _ ih =>
    have hsucc := visitor_prolongs_succ settings more
    exact ⟨fun active id => (hsucc.expr active id).trans (ih.expr active id),
      fun active id => (hsucc.statement active id).trans (ih.statement active id)⟩

end Termwise
