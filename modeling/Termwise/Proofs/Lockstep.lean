import Termwise.Proofs.Outcome

/-!
# Two actions in lockstep

Two actions that do the same to states that correspond end together, or stop together for the same
reason. Nothing is left open, a descent that is too deep included: the one gives up if and only if
the other one does.

## Main definitions

* `Lockstep`: two actions in lockstep

## Main results

* `Lockstep.bind`: sequences of actions
* `Lockstep.of_ok`, `Lockstep.of_ok_right`: if one of the actions ends, then so does the other one
-/

namespace Termwise

variable {σ τ α α' β β' : Type}

/-- **Two actions in lockstep**: they end together or stop together for the same reason. -/
def Lockstep (first : EStateM Stop σ α) (second : EStateM Stop τ β) (s : σ) (t : τ)
    (ended : α → β → σ → τ → Prop) (stopped : σ → τ → Prop) : Prop :=
  match first s, second t with
  | .ok a s', .ok b t' => ended a b s' t'
  | .error e s', .error e' t' => e' = e ∧ stopped s' t'
  | _, _ => False

variable {first : EStateM Stop σ α} {second : EStateM Stop τ β} {s : σ} {t : τ}
  {ended ended' : α → β → σ → τ → Prop} {stopped stopped' : σ → τ → Prop}

theorem Lockstep.mono (h : Lockstep first second s t ended stopped)
    (hended : ∀ a b s' t', ended a b s' t' → ended' a b s' t')
    (hstopped : ∀ s' t', stopped s' t' → stopped' s' t') :
    Lockstep first second s t ended' stopped' := by
  unfold Lockstep at h ⊢
  rcases hfirst : first s with ⟨a, s'⟩ | ⟨e, s'⟩ <;>
    rcases hsecond : second t with ⟨b, t'⟩ | ⟨e', t'⟩ <;> rw [hfirst, hsecond] at h
  · exact hended a b s' t' h
  · exact h
  · exact h
  · exact ⟨h.1, hstopped s' t' h.2⟩

/-- **Actions in sequence** are in lockstep if their parts are. -/
theorem Lockstep.bind {first : EStateM Stop σ α'} {second : EStateM Stop τ β'}
    {rest : α' → EStateM Stop σ α} {rest' : β' → EStateM Stop τ β} {mid : α' → β' → σ → τ → Prop}
    (h : Lockstep first second s t mid stopped)
    (hrest : ∀ a b s' t', mid a b s' t' → Lockstep (rest a) (rest' b) s' t' ended stopped) :
    Lockstep (first >>= rest) (second >>= rest') s t ended stopped := by
  unfold Lockstep at h
  rcases hfirst : first s with ⟨a, s'⟩ | ⟨e, s'⟩ <;>
    rcases hsecond : second t with ⟨b, t'⟩ | ⟨e', t'⟩ <;> rw [hfirst, hsecond] at h
  · have heq : (first >>= rest) s = rest a s' := by simp only [Bind.bind, EStateM.bind, hfirst]
    have heq' : (second >>= rest') t = rest' b t' := by
      simp only [Bind.bind, EStateM.bind, hsecond]
    unfold Lockstep
    rw [heq, heq']
    exact hrest a b s' t' h
  · exact h.elim
  · exact h.elim
  · unfold Lockstep
    simp only [Bind.bind, EStateM.bind, hfirst, hsecond]
    exact h

/-- The second action ends if the first one does. -/
theorem Lockstep.of_ok {a : α} {s' : σ} (h : Lockstep first second s t ended stopped)
    (hok : first s = .ok a s') : ∃ b t', second t = .ok b t' ∧ ended a b s' t' := by
  unfold Lockstep at h
  rw [hok] at h
  rcases hsecond : second t with ⟨b, t'⟩ | ⟨e, t'⟩ <;> rw [hsecond] at h
  · exact ⟨b, t', rfl, h⟩
  · exact h.elim

/-- The first action ends if the second one does. -/
theorem Lockstep.of_ok_right {b : β} {t' : τ} (h : Lockstep first second s t ended stopped)
    (hok : second t = .ok b t') : ∃ a s', first s = .ok a s' ∧ ended a b s' t' := by
  unfold Lockstep at h
  rw [hok] at h
  rcases hfirst : first s with ⟨a, s'⟩ | ⟨e, s'⟩ <;> rw [hfirst] at h
  · exact ⟨a, s', rfl, h⟩
  · exact h.elim

end Termwise
