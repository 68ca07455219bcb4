import Termwise.Proofs.Outcome

/-!
# Two actions side by side

Two actions that differ in a detail are run from two states, and are held against each other. As
long as the detail does not show, both end with the same value or stop for the same reason, and
their states stay related. It shows where the second one finds a type that does not match. Then
nothing more is said of the states, only that the second run stops with that, or that it is lost: it
has reported the mismatch, and whatever it does, the report stays.

Nothing at all is said of a descent that was too deep.

## Main definitions

* `CompileError.IsMismatch`: types that do not match
* `Paired`: two actions side by side

## Main results

* `Paired.bind`: sequences of actions
-/

namespace Termwise

variable {σ α β : Type}

/-- Types that do not match. -/
def CompileError.IsMismatch (e : CompileError) : Prop :=
  ∃ expected found, e.cause = .typeMismatch expected found

/-- **Two actions side by side**. They end with the same value in related states, of which a
condition holds, or stop for the same reason in related states. Or else the second one stops because
types do not match, or is lost. -/
def Paired (Rel : σ → σ → Prop) (Lost : σ → Prop) (first second : EStateM Stop σ α) (s t : σ)
    (ended : α → σ → σ → Prop) : Prop :=
  match first s, second t with
  | .error .cyclic _, _ => True
  | _, .error .cyclic _ => True
  | .ok a s', .ok b t' => Lost t' ∨ b = a ∧ Rel s' t' ∧ ended a s' t'
  | .ok _ _, .error (.error e) t' => Lost t' ∨ e.IsMismatch
  | .error (.error _) _, .ok _ t' => Lost t'
  | .error (.error e) s', .error (.error e') t' =>
    Lost t' ∨ e'.IsMismatch ∨ e' = e ∧ Rel s' t'

section

variable {Rel : σ → σ → Prop} {Lost : σ → Prop} {first second : EStateM Stop σ α} {s t : σ}
  {ended ended' : α → σ → σ → Prop}

theorem paired_pure (a : α) (h : Rel s t) (hended : ended a s t) :
    Paired Rel Lost (pure a) (pure a) s t ended :=
  .inr ⟨rfl, h, hended⟩

/-- Both actions stop for the same reason. -/
theorem paired_throw (stop : Stop) (h : Rel s t) :
    Paired Rel Lost (throw stop) (throw stop) s t ended := by
  cases stop with
  | error e => exact .inr (.inr ⟨rfl, h⟩)
  | cyclic => trivial

theorem paired_throw_bind {rest rest' : β → EStateM Stop σ α} (stop : Stop) (h : Rel s t) :
    Paired Rel Lost (throw stop >>= rest) (throw stop >>= rest') s t ended := by
  cases stop with
  | error e => exact .inr (.inr ⟨rfl, h⟩)
  | cyclic => trivial

theorem Paired.imp (h : Paired Rel Lost first second s t ended)
    (himp : ∀ a s' t', Rel s' t' → ended a s' t' → ended' a s' t') :
    Paired Rel Lost first second s t ended' := by
  unfold Paired at h ⊢
  rcases hfirst : first s with ⟨a, s'⟩ | ⟨_ | _, s'⟩ <;>
    rcases hsecond : second t with ⟨b, t'⟩ | ⟨_ | _, t'⟩ <;>
    rw [hfirst, hsecond] at h <;> try exact h
  exact h.imp_right fun h => ⟨h.1, h.2.1, himp a s' t' h.2.1 h.2.2⟩

/-- Related states may be related in a weaker way. -/
theorem Paired.mono {Rel' : σ → σ → Prop} (h : Paired Rel Lost first second s t ended)
    (hrel : ∀ s' t', Rel s' t' → Rel' s' t') : Paired Rel' Lost first second s t ended := by
  unfold Paired at h ⊢
  rcases hfirst : first s with ⟨a, s'⟩ | ⟨_ | _, s'⟩ <;>
    rcases hsecond : second t with ⟨b, t'⟩ | ⟨_ | _, t'⟩ <;>
    rw [hfirst, hsecond] at h <;> try exact h
  · exact h.imp_right fun h => ⟨h.1, hrel s' t' h.2.1, h.2.2⟩
  · exact h.imp_right (Or.imp_right fun h => ⟨h.1, hrel s' t' h.2⟩)

/-- The second action finds that types do not match, whatever the first one does. -/
theorem paired_of_mismatch {e : CompileError} {t' : σ} (h : second t = .error (.error e) t')
    (he : e.IsMismatch) : Paired Rel Lost first second s t ended := by
  unfold Paired
  rw [h]
  rcases first s with ⟨a, s'⟩ | ⟨_ | _, s'⟩
  · exact .inr he
  · exact .inr (.inl he)
  · trivial

/-- The second action goes too deep, whatever the first one does. -/
theorem paired_of_cyclic {t' : σ} (h : second t = .error .cyclic t') :
    Paired Rel Lost first second s t ended := by
  unfold Paired
  rw [h]
  rcases first s with ⟨a, s'⟩ | ⟨_ | _, s'⟩ <;> trivial

/-- The two actions are judged one after the other: the second one ends, finds that types do not
match, or goes too deep, and if it ends then so does the first one, or that goes too deep. -/
theorem paired_of_outcome
    (h : Outcome second t
      (fun b t' => Outcome first s (fun a s' => b = a ∧ Rel s' t' ∧ ended a s' t')
        fun stop _ => stop = .cyclic)
      fun stop _ => stop = .cyclic ∨ ∃ e, stop = .error e ∧ e.IsMismatch) :
    Paired Rel Lost first second s t ended := by
  unfold Outcome at h
  rcases hsecond : second t with ⟨b, t'⟩ | ⟨e | _, t'⟩ <;> rw [hsecond] at h
  · unfold Paired
    rw [hsecond]
    rcases hfirst : first s with ⟨a, s'⟩ | ⟨_ | _, s'⟩ <;> rw [hfirst] at h
    · exact .inr h
    · cases h
    · trivial
  · rcases h with h | ⟨e', h, hmismatch⟩
    · cases h
    · cases h
      exact paired_of_mismatch hsecond hmismatch
  · exact paired_of_cyclic hsecond

/-- The second run is lost, whatever the first one does. -/
theorem paired_of_lost (h : Outcome second t (fun _ => Lost) fun _ => Lost) :
    Paired Rel Lost first second s t ended := by
  unfold Outcome at h
  unfold Paired
  rcases first s with ⟨a, s'⟩ | ⟨_ | _, s'⟩ <;>
    rcases hsecond : second t with ⟨b, t'⟩ | ⟨_ | _, t'⟩ <;> rw [hsecond] at h
  · exact .inl h
  · exact .inl h
  · trivial
  · exact h
  · exact .inl h
  all_goals trivial

/-- **Actions in sequence**, side by side. A run that is lost has to stay so. -/
theorem Paired.bind {first second : EStateM Stop σ β} {rest rest' : β → EStateM Stop σ α}
    {mid : β → σ → σ → Prop} (h : Paired Rel Lost first second s t mid)
    (hrest : ∀ b s' t', Rel s' t' → mid b s' t' →
      Paired Rel Lost (rest b) (rest' b) s' t' ended)
    (hlost : ∀ b t', Lost t' → Outcome (rest' b) t' (fun _ => Lost) fun _ => Lost) :
    Paired Rel Lost (first >>= rest) (second >>= rest') s t ended := by
  unfold Paired at h
  rcases hfirst : first s with ⟨a, s'⟩ | ⟨_ | _, s'⟩ <;>
    rcases hsecond : second t with ⟨b, t'⟩ | ⟨_ | _, t'⟩ <;> rw [hfirst, hsecond] at h
  · have heq : (first >>= rest) s = rest a s' := by simp only [Bind.bind, EStateM.bind, hfirst]
    have heq' : (second >>= rest') t = rest' b t' := by
      simp only [Bind.bind, EStateM.bind, hsecond]
    unfold Paired
    rw [heq, heq']
    rcases h with h | ⟨rfl, hrel, hmid⟩
    · exact paired_of_lost (hlost b t' h)
    · exact hrest b s' t' hrel hmid
  all_goals
    unfold Paired
    simp only [Bind.bind, EStateM.bind, hfirst, hsecond]
  · rcases rest a s' with ⟨a', s''⟩ | ⟨_ | _, s''⟩
    · exact h
    · exact h.imp_right .inl
    · trivial
  · rcases rest a s' with ⟨a', s''⟩ | ⟨_ | _, s''⟩ <;> trivial
  · have hstays := hlost b t' h
    unfold Outcome at hstays
    rcases hrest' : rest' b t' with ⟨b', t''⟩ | ⟨_ | _, t''⟩ <;> rw [hrest'] at hstays
    · exact hstays
    · exact .inl hstays
    · trivial
  · exact h

end

/-! ## Reading the state -/

section

variable {c k : Compilation} {Rel : Compilation → Compilation → Prop} {Lost : Compilation → Prop}
  {ended : α → Compilation → Compilation → Prop}

@[simp] theorem paired_get {rest rest' : Compilation → CheckM α} :
    Paired Rel Lost (get >>= rest) (get >>= rest') c k ended ↔
      Paired Rel Lost (rest c) (rest' k) c k ended := Iff.rfl

@[simp] theorem paired_arena {rest rest' : Arena → CheckM α} :
    Paired Rel Lost (CheckM.arena >>= rest) (CheckM.arena >>= rest') c k ended ↔
      Paired Rel Lost (rest c.arena) (rest' k.arena) c k ended := Iff.rfl

@[simp] theorem paired_expr {rest rest' : Expression → CheckM α} (id : ExprId) :
    Paired Rel Lost (CheckM.expr id >>= rest) (CheckM.expr id >>= rest') c k ended ↔
      Paired Rel Lost (rest (c.arena.expr id)) (rest' (k.arena.expr id)) c k ended := Iff.rfl

@[simp] theorem paired_definition {rest rest' : Definition → CheckM α} (d : DefId) :
    Paired Rel Lost (CheckM.definition d >>= rest) (CheckM.definition d >>= rest') c k ended ↔
      Paired Rel Lost (rest (c.arena.definition d)) (rest' (k.arena.definition d)) c k ended :=
  Iff.rfl

@[simp] theorem paired_definitionType {rest rest' : Ty → CheckM α} (d : DefId) :
    Paired Rel Lost (CheckM.definitionType d >>= rest) (CheckM.definitionType d >>= rest') c k
        ended ↔
      Paired Rel Lost (rest (c.arena.definitionType d)) (rest' (k.arena.definitionType d)) c k
        ended := Iff.rfl

/-- Both actions write down something, and go on. -/
@[simp] theorem paired_emit {rest rest' : Unit → CheckM α} (event event' : Event) :
    Paired Rel Lost (CheckM.emit event >>= rest) (CheckM.emit event' >>= rest') c k ended ↔
      Paired Rel Lost (rest ()) (rest' ()) (c.emit event) (k.emit event') ended := Iff.rfl

/-- Both actions change an expression, and go on. -/
@[simp] theorem paired_modifyExpr {rest rest' : Unit → CheckM α} (id : ExprId)
    (f f' : Expression → Expression) :
    Paired Rel Lost (CheckM.modifyExpr id f >>= rest) (CheckM.modifyExpr id f' >>= rest') c k
        ended ↔
      Paired Rel Lost (rest ()) (rest' ()) (c.modifyArena (·.modifyExpr id f))
        (k.modifyArena (·.modifyExpr id f')) ended := Iff.rfl

end

end Termwise
