import Termwise.Concretization

/-!
# Outcomes of actions

An action ends with a value or stops for a reason, and in both cases it leaves a state behind.
What it comes to from a given state is said by two conditions, one for each way. Conditions pass
backwards through an action: a sequence is judged by judging its first part against the judgement
of the rest, so that straight-line actions are opened by rewriting.

## Main definitions

* `Outcome`: what an action comes to from a state

## Main results

* `outcome_bind`: a sequence of actions
* `Outcome.mono`, `Outcome.and`: weaker conditions, and two at once
* `Outcome.exists_ok`: an action that cannot stop ends
-/

namespace Termwise

variable {ε σ α β : Type}

/-- What an action comes to from a state: the first condition holds of its value and the state it
ends in, or the second of the reason and the state it stops in. -/
def Outcome (action : EStateM ε σ α) (s : σ) (ended : α → σ → Prop) (stopped : ε → σ → Prop) :
    Prop :=
  match action s with
  | .ok a s => ended a s
  | .error e s => stopped e s

section

variable {action : EStateM ε σ α} {s : σ} {ended ended' : α → σ → Prop}
  {stopped stopped' : ε → σ → Prop}

theorem outcome_of_eq_ok {a : α} {s' : σ} (h : action s = .ok a s') :
    Outcome action s ended stopped ↔ ended a s' := by
  rw [Outcome, h]

theorem Outcome.of_ok {a : α} {s' : σ} (h : Outcome action s ended stopped)
    (ok : action s = .ok a s') : ended a s' :=
  (outcome_of_eq_ok ok).1 h

theorem Outcome.mono (h : Outcome action s ended stopped)
    (hended : ∀ a s, ended a s → ended' a s) (hstopped : ∀ e s, stopped e s → stopped' e s) :
    Outcome action s ended' stopped' := by
  unfold Outcome at h ⊢
  split <;> rename_i heq <;> rw [heq] at h
  · exact hended _ _ h
  · exact hstopped _ _ h

/-- A weaker condition on the end alone. -/
theorem Outcome.imp (h : Outcome action s ended stopped)
    (hended : ∀ a s, ended a s → ended' a s) : Outcome action s ended' stopped :=
  h.mono hended fun _ _ => id

theorem Outcome.and (h : Outcome action s ended stopped)
    (h' : Outcome action s ended' stopped') :
    Outcome action s (fun a s => ended a s ∧ ended' a s)
      (fun e s => stopped e s ∧ stopped' e s) := by
  unfold Outcome at h h' ⊢
  split <;> rename_i heq <;> rw [heq] at h h' <;> exact ⟨h, h'⟩

/-- An action that cannot stop ends. -/
theorem Outcome.exists_ok (h : Outcome action s ended fun _ _ => False) :
    ∃ a s', action s = .ok a s' ∧ ended a s' := by
  unfold Outcome at h
  split at h
  · exact ⟨_, _, ‹_›, h⟩
  · exact h.elim

/-- What an action hands over from a state, if it ends and passes a check. -/
theorem exists_ok_of_check (action : EStateM ε σ α) (s : σ) (p : α → σ → Bool)
    (h : (match action s with
      | .ok a s => p a s
      | .error .. => false) = true) : ∃ a s', action s = .ok a s' ∧ p a s' = true := by
  split at h
  · exact ⟨_, _, ‹_›, h⟩
  · cases h

/-- A value that an action hands over, as a check. -/
theorem exists_ok_of_eq {a : α} (h : (match action s with
      | .ok a' _ => some a'
      | .error .. => none) = some a) : ∃ s', action s = .ok a s' := by
  split at h <;> cases h
  exact ⟨_, ‹_›⟩

/-- The reason why an action stops, as a check. -/
theorem exists_error_of_eq {e : ε} (h : (match action s with
      | .ok .. => none
      | .error e' _ => some e') = some e) : ∃ s', action s = .error e s' := by
  split at h <;> cases h
  exact ⟨_, ‹_›⟩

theorem outcome_trivial : Outcome action s (fun _ _ => True) fun _ _ => True := by
  unfold Outcome
  split <;> trivial

/-- What an action comes to is what it does. -/
theorem outcome_self : Outcome action s (action s = .ok · ·) (action s = .error · ·) := by
  unfold Outcome
  split <;> assumption

/-! ## Building blocks -/

@[simp] theorem outcome_pure (a : α) : Outcome (pure a) s ended stopped ↔ ended a s := Iff.rfl

/-- **A sequence** comes to what its first part comes to, judged by what the rest comes to. -/
@[simp] theorem outcome_bind {first : EStateM ε σ β} {rest : β → EStateM ε σ α} :
    Outcome (first >>= rest) s ended stopped ↔
      Outcome first s (fun b s => Outcome (rest b) s ended stopped) stopped := by
  simp only [Outcome, bind, EStateM.bind]
  cases first s <;> rfl

@[simp] theorem outcome_throw (e : ε) :
    Outcome (throw e : EStateM ε σ α) s ended stopped ↔ stopped e s := Iff.rfl

@[simp] theorem outcome_get {ended : σ → σ → Prop} :
    Outcome (get : EStateM ε σ σ) s ended stopped ↔ ended s s := Iff.rfl

@[simp] theorem outcome_modify {ended : PUnit → σ → Prop} (f : σ → σ) :
    Outcome (modify f : EStateM ε σ PUnit) s ended stopped ↔ ended ⟨⟩ (f s) := Iff.rfl

@[simp] theorem outcome_modifyGet (f : σ → α × σ) :
    Outcome (modifyGet f : EStateM ε σ α) s ended stopped ↔ ended (f s).1 (f s).2 := Iff.rfl

end

/-! ## Actions on a compilation -/

section

variable {c : Compilation} {stopped : Stop → Compilation → Prop}

@[simp] theorem outcome_fail {ended : α → Compilation → Prop} (cause : Cause) (span : Span) :
    Outcome (CheckM.fail cause span) c ended stopped ↔ stopped (.error ⟨cause, span⟩) c := Iff.rfl

/-- What an attempt hands over instead of stopping. -/
theorem outcome_attempt {action : CheckM α} {ended : Except CompileError α → Compilation → Prop} :
    Outcome (CheckM.attempt action) c ended stopped ↔
      Outcome action c (fun a => ended (.ok a)) fun stop c =>
        match stop with
        | .error e => ended (.error e) c
        | .cyclic => stopped .cyclic c := by
  simp only [Outcome, CheckM.attempt]
  rcases action c with ⟨a, c'⟩ | ⟨_ | _, c'⟩ <;> rfl

@[simp] theorem outcome_arena {ended : Arena → Compilation → Prop} :
    Outcome CheckM.arena c ended stopped ↔ ended c.arena c := Iff.rfl

@[simp] theorem outcome_expr {ended : Expression → Compilation → Prop} (id : ExprId) :
    Outcome (CheckM.expr id) c ended stopped ↔ ended (c.arena.expr id) c := Iff.rfl

@[simp] theorem outcome_definition {ended : Definition → Compilation → Prop} (id : DefId) :
    Outcome (CheckM.definition id) c ended stopped ↔ ended (c.arena.definition id) c := Iff.rfl

@[simp] theorem outcome_definitionType {ended : Ty → Compilation → Prop} (id : DefId) :
    Outcome (CheckM.definitionType id) c ended stopped ↔ ended (c.arena.definitionType id) c :=
  Iff.rfl

@[simp] theorem outcome_modifyExpr {ended : Unit → Compilation → Prop} (id : ExprId)
    (f : Expression → Expression) :
    Outcome (CheckM.modifyExpr id f) c ended stopped ↔
      ended () (c.modifyArena (·.modifyExpr id f)) := Iff.rfl

@[simp] theorem outcome_setType {ended : Unit → Compilation → Prop} (id : ExprId) (ty : Ty) :
    Outcome (CheckM.setType id ty) c ended stopped ↔
      ended () (c.modifyArena (·.modifyExpr id fun e => { e with ty })) := Iff.rfl

@[simp] theorem outcome_allocExpr {ended : ExprId → Compilation → Prop} (e : Expression) :
    Outcome (CheckM.allocExpr e) c ended stopped ↔ ended (c.allocExpr e).1 (c.allocExpr e).2 :=
  Iff.rfl

@[simp] theorem outcome_emit {ended : Unit → Compilation → Prop} (event : Event) :
    Outcome (CheckM.emit event) c ended stopped ↔ ended () (c.emit event) := Iff.rfl

@[simp] theorem outcome_functionType {ended : Ty → Compilation → Prop} (params : List Ty)
    (result : Ty) (isPure : Bool) :
    Outcome (CheckM.functionType params result isPure) c ended stopped ↔
      ended (c.types.functionType params result isPure).1.ty
        { c with types := (c.types.functionType params result isPure).2 } := Iff.rfl

end

/-! ## Actions on a walk -/

section

variable {w : Walk} {stopped : Stop → Walk → Prop}

/-- An action on the compilation, as part of a walk, leaves the finished definitions alone. -/
@[simp] theorem outcome_lift {action : CheckM α} {ended : α → Walk → Prop} :
    Outcome (liftM action : WalkM α) w ended stopped ↔
      Outcome action w.unit (fun a unit => ended a { w with unit })
        fun stop unit => stopped stop { w with unit } := by
  simp only [Outcome, liftM, monadLift, MonadLift.monadLift, CheckM.inWalk]
  cases action w.unit <;> rfl

theorem outcome_walk_attempt {action : WalkM α} {ended : Except CompileError α → Walk → Prop} :
    Outcome (WalkM.attempt action) w ended stopped ↔
      Outcome action w (fun a => ended (.ok a)) fun stop w =>
        match stop with
        | .error e => ended (.error e) w
        | .cyclic => stopped .cyclic w := by
  simp only [Outcome, WalkM.attempt]
  rcases action w with ⟨a, w'⟩ | ⟨_ | _, w'⟩ <;> rfl

@[simp] theorem outcome_finish {ended : Unit → Walk → Prop} (d : DefId) :
    Outcome (WalkM.finish d) w ended stopped ↔
      ended () { w with finished := d :: w.finished } := Iff.rfl

end

end Termwise
