import Termwise.Proofs.Outcome

/-!
# Two actions in step

Two actions that do the same to states that correspond are run from two of them. They are in step
if they end together or stop together for the same reason; what is then known of their results and
of the states they leave behind is said by two conditions.

A descent that is too deep is no reason: nothing is said of the second run if the first one gives
up. Whether the second one may give up on its own is a parameter, since one has to know how deep it
may go to exclude that.

## Main definitions

* `Coupled`: two actions in step

## Main results

* `Coupled.bind`: sequences of actions
-/

namespace Termwise

variable {σ τ α α' β β' : Type}

/-- **Two actions in step**. They end together or stop together for the same reason, unless the
first one goes too deep; if `lenient`, then the second one may, too. -/
def Coupled (lenient : Prop) (first : EStateM Stop σ α) (second : EStateM Stop τ β) (s : σ) (t : τ)
    (ended : α → β → σ → τ → Prop) (stopped : CompileError → σ → τ → Prop) : Prop :=
  match first s, second t with
  | .error .cyclic _, _ => True
  | _, .error .cyclic _ => lenient
  | .ok a s', .ok b t' => ended a b s' t'
  | .error (.error e) s', .error (.error e') t' => e' = e ∧ stopped e s' t'
  | _, _ => False

section

variable {lenient : Prop} {first : EStateM Stop σ α} {second : EStateM Stop τ β} {s : σ} {t : τ}
  {ended ended' : α → β → σ → τ → Prop} {stopped stopped' : CompileError → σ → τ → Prop}

/-- Both actions end. -/
theorem coupled_ok {a : α} {b : β} {s' : σ} {t' : τ} (hfirst : first s = .ok a s')
    (hsecond : second t = .ok b t') (h : ended a b s' t') :
    Coupled lenient first second s t ended stopped := by
  rw [Coupled, hfirst, hsecond]
  exact h

/-- Nothing is said if the first action goes too deep. -/
theorem coupled_cyclic_left {s' : σ} (h : first s = .error .cyclic s') :
    Coupled lenient first second s t ended stopped := by
  rw [Coupled, h]
  trivial

/-- The second action may go too deep if that is granted. -/
theorem coupled_cyclic_right {t' : τ} (hlenient : lenient) (h : second t = .error .cyclic t') :
    Coupled lenient first second s t ended stopped := by
  unfold Coupled
  rw [h]
  rcases first s with ⟨a, s'⟩ | ⟨_ | _, s'⟩
  · exact hlenient
  · exact hlenient
  · trivial

/-- Both actions stop for the same reason. -/
theorem coupled_throw (e : CompileError) (h : stopped e s t) :
    Coupled lenient (throw (.error e) : EStateM Stop σ α) (throw (.error e) : EStateM Stop τ β) s t
      ended stopped :=
  ⟨rfl, h⟩

theorem Coupled.mono (h : Coupled lenient first second s t ended stopped)
    (hended : ∀ a b s' t', ended a b s' t' → ended' a b s' t')
    (hstopped : ∀ e s' t', stopped e s' t' → stopped' e s' t') :
    Coupled lenient first second s t ended' stopped' := by
  unfold Coupled at h ⊢
  rcases hfirst : first s with ⟨a, s'⟩ | ⟨_ | _, s'⟩ <;>
    rcases hsecond : second t with ⟨b, t'⟩ | ⟨_ | _, t'⟩ <;>
    rw [hfirst, hsecond] at h <;> try exact h
  · exact hended a b s' t' h
  · exact ⟨h.1, hstopped _ s' t' h.2⟩

/-- **Actions in sequence** are in step if their parts are. -/
theorem Coupled.bind {first : EStateM Stop σ α'} {second : EStateM Stop τ β'}
    {rest : α' → EStateM Stop σ α} {rest' : β' → EStateM Stop τ β} {mid : α' → β' → σ → τ → Prop}
    (h : Coupled lenient first second s t mid stopped)
    (hrest : ∀ a b s' t', mid a b s' t' →
      Coupled lenient (rest a) (rest' b) s' t' ended stopped) :
    Coupled lenient (first >>= rest) (second >>= rest') s t ended stopped := by
  have hrun {a : α'} {s' : σ} (hfirst : first s = .ok a s') :
      (first >>= rest) s = rest a s' := by simp only [Bind.bind, EStateM.bind, hfirst]
  have hstop {stop : Stop} {s' : σ} (hfirst : first s = .error stop s') :
      (first >>= rest) s = .error stop s' := by simp only [Bind.bind, EStateM.bind, hfirst]
  have hrun' {b : β'} {t' : τ} (hsecond : second t = .ok b t') :
      (second >>= rest') t = rest' b t' := by simp only [Bind.bind, EStateM.bind, hsecond]
  have hstop' {stop : Stop} {t' : τ} (hsecond : second t = .error stop t') :
      (second >>= rest') t = .error stop t' := by simp only [Bind.bind, EStateM.bind, hsecond]
  unfold Coupled at h ⊢
  rcases hfirst : first s with ⟨a, s'⟩ | ⟨e | _, s'⟩
  · rw [hrun hfirst]
    rcases hsecond : second t with ⟨b, t'⟩ | ⟨e' | _, t'⟩ <;> rw [hfirst, hsecond] at h
    · rw [hrun' hsecond]
      exact hrest a b s' t' h
    · exact h.elim
    -- The second action gives up where the first one goes on.
    · rw [hstop' hsecond]
      rcases rest a s' with ⟨a', s''⟩ | ⟨_ | _, s''⟩
      · exact h
      · exact h
      · trivial
  · rw [hstop hfirst]
    rcases hsecond : second t with ⟨b, t'⟩ | ⟨e' | _, t'⟩ <;> rw [hfirst, hsecond] at h
    · exact h.elim
    · rw [hstop' hsecond]
      exact h
    · rw [hstop' hsecond]
      exact h
  · rw [hstop hfirst]
    trivial

/-- Both actions end if the first one does and neither goes too deep. -/
theorem Coupled.of_ok {a : α} {s' : σ} (h : Coupled lenient first second s t ended stopped)
    (hok : first s = .ok a s') (hdeep : ∀ t', second t ≠ .error .cyclic t') :
    ∃ b t', second t = .ok b t' ∧ ended a b s' t' := by
  unfold Coupled at h
  rw [hok] at h
  rcases hsecond : second t with ⟨b, t'⟩ | ⟨_ | _, t'⟩ <;> rw [hsecond] at h
  · exact ⟨b, t', rfl, h⟩
  · exact h.elim
  · exact (hdeep t' hsecond).elim

/-- The first action ends or goes too deep if the second one ends. -/
theorem Coupled.of_ok_right {b : β} {t' : τ} (h : Coupled lenient first second s t ended stopped)
    (hok : second t = .ok b t') :
    (∃ s', first s = .error .cyclic s') ∨ ∃ a s', first s = .ok a s' ∧ ended a b s' t' := by
  unfold Coupled at h
  rw [hok] at h
  rcases hfirst : first s with ⟨a, s'⟩ | ⟨_ | _, s'⟩ <;> rw [hfirst] at h
  · exact .inr ⟨a, s', rfl, h⟩
  · exact h.elim
  · exact .inl ⟨s', rfl⟩

end

/-! ## Actions on compilations -/

section

variable {lenient : Prop} {c k : Compilation} {ended : α → β → Compilation → Compilation → Prop}
  {stopped : CompileError → Compilation → Compilation → Prop}

/-- Attempts are in step if what is attempted is; its error is part of what they hand over. -/
theorem Coupled.attempt {first : CheckM α} {second : CheckM β}
    {ended : Except CompileError α → Except CompileError β → Compilation → Compilation → Prop}
    (h : Coupled lenient first second c k (fun a b => ended (.ok a) (.ok b))
      fun e => ended (.error e) (.error e)) :
    Coupled lenient (CheckM.attempt first) (CheckM.attempt second) c k ended stopped := by
  unfold Coupled at h ⊢
  simp only [CheckM.attempt]
  rcases hfirst : first c with ⟨a, s'⟩ | ⟨_ | _, s'⟩ <;>
    rcases hsecond : second k with ⟨b, t'⟩ | ⟨_ | _, t'⟩ <;>
    rw [hfirst, hsecond] at h <;> try exact h
  · exact h.elim
  · exact h.elim
  · obtain ⟨rfl, h⟩ := h
    exact h

@[simp] theorem coupled_get {rest : Compilation → CheckM α} {rest' : Compilation → CheckM β} :
    Coupled lenient (get >>= rest) (get >>= rest') c k ended stopped ↔
      Coupled lenient (rest c) (rest' k) c k ended stopped := Iff.rfl

@[simp] theorem coupled_arena {rest : Arena → CheckM α} {rest' : Arena → CheckM β} :
    Coupled lenient (CheckM.arena >>= rest) (CheckM.arena >>= rest') c k ended stopped ↔
      Coupled lenient (rest c.arena) (rest' k.arena) c k ended stopped := Iff.rfl

@[simp] theorem coupled_expr {rest : Expression → CheckM α} {rest' : Expression → CheckM β}
    (n m : ExprId) :
    Coupled lenient (CheckM.expr n >>= rest) (CheckM.expr m >>= rest') c k ended stopped ↔
      Coupled lenient (rest (c.arena.expr n)) (rest' (k.arena.expr m)) c k ended stopped := Iff.rfl

@[simp] theorem coupled_definition {rest : Definition → CheckM α} {rest' : Definition → CheckM β}
    (d : DefId) :
    Coupled lenient (CheckM.definition d >>= rest) (CheckM.definition d >>= rest') c k ended
        stopped ↔
      Coupled lenient (rest (c.arena.definition d)) (rest' (k.arena.definition d)) c k ended
        stopped := Iff.rfl

@[simp] theorem coupled_definitionType {rest : Ty → CheckM α} {rest' : Ty → CheckM β}
    (d : DefId) :
    Coupled lenient (CheckM.definitionType d >>= rest) (CheckM.definitionType d >>= rest') c k
        ended stopped ↔
      Coupled lenient (rest (c.arena.definitionType d)) (rest' (k.arena.definitionType d)) c k
        ended stopped := Iff.rfl

end

end Termwise
