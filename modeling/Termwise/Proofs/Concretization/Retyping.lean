import Termwise.Proofs.Casts.Forms
import Termwise.Proofs.Outcome

/-!
# Expressions in another type

An expression gets into another type in one of three ways: a known value is settled or cast, or a
tree of integers is rebuilt with floats. To the tables this is either a value that takes another
one, or a call that takes another callee after its operands were rebuilt; what is refused is
refused before anything was done. So a relation that holds across these two changes holds across
all that is done to get expressions into their types.

## Main definitions

* `Stop.IsFresh`, `Compilation.Refuses`: an action is refused, and does nothing
* `RetypingLaw`: a relation that holds across each change of type

## Main results

* `RetypingLaw.outcome_concretizeValue`, `RetypingLaw.outcome_coerceTo`,
  `RetypingLaw.outcome_coerceAll`: the relation holds across the actions
* `RetypingLaw.outcome_widenWithin`: a tree is rebuilt with floats, and that is not refused
-/

namespace Termwise

/-- An action stops with an error that was not reported yet. -/
def Stop.IsFresh (stop : Stop) : Prop :=
  ∃ e : CompileError, stop = .error e ∧ e.cause ≠ .containsError

/-- An action is refused, or a tree is too deep for it. It does nothing. -/
def Compilation.Refuses (c : Compilation) (stop : Stop) (c' : Compilation) : Prop :=
  (stop.IsFresh ∨ stop = .cyclic ∧ ∃ n, c.widens n = none) ∧ c' = c

theorem Compilation.refuses_fail {cause : Cause} (c : Compilation) (span : Span)
    (h : cause ≠ .containsError) : c.Refuses (.error ⟨cause, span⟩) c :=
  ⟨.inl ⟨_, rfl, h⟩, rfl⟩

theorem Stop.IsFresh.ne_cyclic {stop : Stop} (h : stop.IsFresh) : stop ≠ .cyclic := by
  obtain ⟨e, rfl, -⟩ := h
  exact Stop.noConfusion

/-- Where no tree is too deep, nothing stops for that. -/
theorem Compilation.Refuses.ne_cyclic {c c' : Compilation} {stop : Stop} (h : c.Refuses stop c')
    (hdeep : ∀ n, c.widens n ≠ none) : stop ≠ .cyclic := by
  rcases h.1 with hfresh | ⟨-, n, hn⟩
  · exact hfresh.ne_cyclic
  · exact (hdeep n hn).elim

theorem Compilation.mem_of_mem_followers {c : Compilation} {callee : DefId} {args : List ExprId}
    {n : ExprId} (h : n ∈ c.followers callee args) : n ∈ args := by
  obtain ⟨⟨m, param⟩, hm, rfl⟩ := List.mem_map.1 h
  exact (List.of_mem_zip (List.mem_filter.1 hm).1).1

/-! ## Depth -/

namespace Compilation

variable {c c' : Compilation} {id : ExprId} {depth : Nat}

theorem allM_eq_true {f : ExprId → Option Bool} {ids : List ExprId} :
    ids.allM f = some true ↔ ∀ n ∈ ids, f n = some true := by
  induction ids with
  | nil => simp [List.allM]
  | cons n ids ih =>
    rw [List.allM, List.forall_mem_cons, ← ih]
    rcases f n with _ | _ | _ <;> simp

theorem allM_congr {f g : ExprId → Option Bool} {ids : List ExprId} (h : ∀ n ∈ ids, f n = g n) :
    ids.allM f = ids.allM g := by
  induction ids with
  | nil => rfl
  | cons n ids ih =>
    obtain ⟨hn, hids⟩ := List.forall_mem_cons.1 h
    rw [List.allM, List.allM, hn, ih hids]

/-- What is answered of each is answered in the same way by another question. -/
theorem allM_of_answers {f g : ExprId → Option Bool} {ids : List ExprId} {answer : Bool}
    (h : ∀ n ∈ ids, ∀ answer, f n = some answer → g n = some answer)
    (hf : ids.allM f = some answer) : ids.allM g = some answer := by
  induction ids with
  | nil => exact hf
  | cons n ids ih =>
    obtain ⟨hn, hids⟩ := List.forall_mem_cons.1 h
    rw [List.allM] at hf ⊢
    rcases hfn : f n with _ | _ | _ <;> rw [hfn] at hf
    · cases hf
    · rw [hn false hfn]
      exact hf
    · rw [hn true hfn]
      exact ih hids hf

theorem allM_ne_none {f : ExprId → Option Bool} {ids : List ExprId} (h : ∀ n ∈ ids, f n ≠ none) :
    ids.allM f ≠ none := by
  induction ids with
  | nil => exact Option.some_ne_none true
  | cons n ids ih =>
    obtain ⟨hn, hids⟩ := List.forall_mem_cons.1 h
    rw [List.allM]
    rcases hf : f n with _ | _ | _
    · exact (hn hf).elim
    · exact Option.some_ne_none false
    · exact ih hids

theorem allM_map {f : ExprId → Option Bool} (g : ExprId → ExprId) (ids : List ExprId) :
    (ids.map g).allM f = ids.allM fun n => f (g n) := by
  induction ids with
  | nil => rfl
  | cons n ids ih => rw [List.map_cons, List.allM, List.allM, ih]

/-- Only floats are got by widening. -/
theorem widensTo_eq_iff {target : Ty} {answer : Option Bool} (h : answer ≠ some false) :
    c.widensTo target id = answer ↔ target = .float ∧ c.widens id = answer := by
  unfold widensTo
  split <;> rename_i hfloat
  · simp [hfloat]
  · simp [hfloat, h.symm]

/-- Some integers of a program became floats. -/
structure Floated (c c' : Compilation) : Prop where
  builtins : c'.builtins = c.builtins
  defs : c'.arena.defs = c.arena.defs
  expr : ∀ n, c'.arena.expr n = c.arena.expr n ∨
    (c.arena.expr n).ty = .int ∧ (c'.arena.expr n).ty = .float

/-- What is a function is no integer, so it has the type that it had. -/
theorem Floated.definitionType (h : c.Floated c') {d : DefId}
    (hd : (c.arena.definitionType d).isFunction = true) :
    c'.arena.definitionType d = c.arena.definitionType d := by
  have hdefinition : c'.arena.definition d = c.arena.definition d := by
    simp only [Arena.definition, h.defs]
  simp only [Arena.definitionType, hdefinition] at hd ⊢
  split at hd
  · rfl
  · rename_i b _ _
    rcases h.expr b with heq | ⟨hint, -⟩
    · rw [heq]
    · rw [hint] at hd
      cases hd
  · rfl

theorem Floated.modifyExpr (h : c.Floated c') {f : Expression → Expression}
    (hint : (c.arena.expr id).ty = .int) (hfloat : (f (c'.arena.expr id)).ty = .float) :
    c.Floated (c'.modifyArena (·.modifyExpr id f)) where
  builtins := h.builtins
  defs := h.defs
  expr n := by
    simp only [modifyArena, Arena.expr_modifyExpr]
    split
    · rename_i hn
      exact .inr ⟨hn.1 ▸ hint, hn.1 ▸ hfloat⟩
    · exact h.expr n

theorem Floated.emit (h : c.Floated c') (event : Event) : c.Floated (c'.emit event) :=
  ⟨h.builtins, h.defs, h.expr⟩

/-- The same arguments follow a call, as its callee is still a function of the same type. -/
theorem Floated.followers (h : c.Floated c') {callee : DefId}
    (hcallee : (c.arena.definitionType callee).isFunction = true) (args : List ExprId) :
    c'.followers callee args = c.followers callee args := by
  simp only [Compilation.followers, followsCall, h.builtins, h.definitionType hcallee]

/-- Trees are rebuilt one after the other, if each one of them can be. -/
theorem Floated.outcome_forEach {action : ExprId → CheckM Unit} {ids : List ExprId}
    (haction : ∀ n ∈ ids, ∀ c₁, c.Floated c₁ →
      Outcome (action n) c₁ (fun _ => c.Floated) fun _ _ => False) (h : c.Floated c') :
    Outcome (forEach action ids) c' (fun _ => c.Floated) fun _ _ => False := by
  induction ids generalizing c' with
  | nil => exact h
  | cons n ids ih =>
    obtain ⟨hn, hids⟩ := List.forall_mem_cons.1 haction
    simp only [forEach, outcome_bind]
    exact (hn c' h).imp fun _ _ h₁ => ih hids h₁

end Compilation

/-- **A tree that can become one of floats** is not too deep to be rebuilt: what was rebuilt of it
before is not entered once more. -/
theorem Compilation.widenWithin_ends {c c' : Compilation} {id : ExprId} {depth : Nat}
    (h : c.widensWithin depth id = some true) (hc : c.Floated c') :
    Outcome (widenWithin depth id) c' (fun _ => c.Floated) fun _ _ => False := by
  induction depth generalizing c' id with
  | zero => cases h
  | succ depth ih =>
    simp only [widenWithin_succ, outcome_bind, outcome_get]
    split
    · exact hc
    rename_i hfloat
    have heq : c'.arena.expr id = c.arena.expr id :=
      (hc.expr id).resolve_right fun hint => hfloat hint.2
    -- So the expression is as it was when it was found that it can be rebuilt.
    rw [heq] at hfloat ⊢
    simp only [widensWithin, if_neg hfloat] at h
    split at h
    · cases h
    rename_i hint
    rw [ne_eq, Classical.not_not] at hint
    cases hk : (c.arena.expr id).kind with
    | value v =>
      dsimp only
      split
      · exact hc.modifyExpr hint (Expression.ty_of_cast? ‹_› (by simp))
      · exact hc
    | call callee args =>
      simp only [hk] at h
      split at h
      · rename_i hcallee
        rw [Bool.and_eq_true] at hcallee
        dsimp only
        split
        · simp only [outcome_bind, outcome_modifyExpr, outcome_emit,
            hc.followers hcallee.2]
          have hargs := allM_eq_true.1 h
          refine (hc.outcome_forEach fun n hn _ h₁ => ih (hargs n hn) h₁).imp fun _ c₂ h₂ => ?_
          exact (h₂.modifyExpr (f := fun e => { e with kind := .call _ args, ty := .float }) hint
            rfl).emit _
        · exact hc
      · cases h
    | _ =>
      rw [hk] at h
      cases h

theorem widen_ends {c : Compilation} {id : ExprId} (h : c.widens id = some true) :
    Outcome (widen id) c (fun _ _ => True) fun _ _ => False := by
  simp only [widen, outcome_bind, outcome_arena]
  exact (Compilation.widenWithin_ends h ⟨rfl, rfl, fun _ => .inl rfl⟩).imp fun _ _ _ => trivial

/-! ## Laws -/

/-- **A relation that holds across each change of type**, at expressions of which it is known that
they may be changed. -/
structure RetypingLaw (Open : Compilation → ExprId → Prop) (R : Compilation → Compilation → Prop) :
    Prop where
  refl (c : Compilation) : R c c
  trans {c c' c'' : Compilation} : R c c' → R c' c'' → R c c''
  stays {c c' : Compilation} {n : ExprId} : R c c' → Open c n → Open c' n
  operand {c : Compilation} {n m : ExprId} {d : DefId} {args : List ExprId} : Open c n →
    (c.arena.expr n).kind = .call d args → m ∈ args → Open c m
  value {c : Compilation} {n : ExprId} {e : Expression} : Open c n →
    (c.arena.expr n).Converts e → R c (c.modifyArena (·.modifyExpr n fun _ => e))
  /-- A call was read before its operands were rebuilt. -/
  call {c c' : Compilation} {n : ExprId} {d d' : DefId} {args : List ExprId} : Open c n →
    (c.arena.expr n).kind = .call d args → c.floatCallee? d = some d' → R c c' →
    R c (c'.modifyArena (·.modifyExpr n fun e => { e with kind := .call d' args, ty := .float }))
  emit (c : Compilation) (event : Event) : R c (c.emit event)

namespace RetypingLaw

variable {Open : Compilation → ExprId → Prop} {R : Compilation → Compilation → Prop}
  {c : Compilation} {id : ExprId}

/-- What is refused does nothing. -/
theorem rel_of_refuses (h : RetypingLaw Open R) {stop : Stop} {c' : Compilation}
    (hrefuses : c.Refuses stop c') : R c c' := by
  obtain ⟨-, rfl⟩ := hrefuses
  exact h.refl c'

/-- **A known value** is settled. -/
theorem outcome_concretizeValue (h : RetypingLaw Open R) (hid : Open c id) :
    Outcome (concretizeValue id) c (fun _ => R c) c.Refuses := by
  simp only [concretizeValue_eq, outcome_bind, outcome_expr]
  split
  · exact h.refl c
  · rename_i hnative
    split
    · rename_i settled hsettled
      simp only [outcome_bind, outcome_modifyExpr, outcome_emit]
      exact h.trans (h.value hid (Expression.converts_of_settle? hsettled hnative)) (h.emit ..)
    · split <;> exact c.refuses_fail _ (by simp)

theorem outcome_forEach (h : RetypingLaw Open R) {action : ExprId → CheckM Unit}
    (haction : ∀ c n, Open c n → Outcome (action n) c (fun _ => R c) fun _ _ => True)
    (ns : List ExprId) (hns : ∀ n ∈ ns, Open c n) :
    Outcome (forEach action ns) c (fun _ => R c) fun _ _ => True := by
  induction ns generalizing c with
  | nil => exact h.refl c
  | cons n ns ih =>
    obtain ⟨hn, hns⟩ := List.forall_mem_cons.1 hns
    simp only [forEach, outcome_bind]
    refine (haction c n hn).imp fun _ c₁ h₁ => ?_
    exact (ih fun m hm => h.stays h₁ (hns m hm)).imp fun _ _ => h.trans h₁

/-- **A tree** is rebuilt with floats, its operands before itself. -/
theorem outcome_widenWithin (h : RetypingLaw Open R) (depth : Nat) (hid : Open c id) :
    Outcome (widenWithin depth id) c (fun _ => R c) fun _ _ => True := by
  induction depth generalizing c id with
  | zero => trivial
  | succ depth ih =>
    simp only [widenWithin_succ, outcome_bind, outcome_get]
    split
    · exact h.refl c
    · split
      · split
        · exact h.value hid (Expression.converts_of_cast? ‹_› (by simp))
        · exact h.refl c
      · rename_i d args hk
        split
        · simp only [outcome_bind, outcome_modifyExpr, outcome_emit]
          refine (h.outcome_forEach (fun _ _ => ih) _ fun n hn => ?_).imp fun _ c₁ h₁ => ?_
          · exact h.operand hid hk (Compilation.mem_of_mem_followers hn)
          · exact h.trans (h.call hid hk ‹_› h₁) (h.emit ..)
        · exact h.refl c
      · exact h.refl c

/-- **Bringing an expression into a type** casts it, or rebuilds it. -/
theorem outcome_coerceTo (h : RetypingLaw Open R) (target : Ty) (hid : Open c id) :
    Outcome (coerceTo id target) c (fun _ => R c) c.Refuses := by
  simp only [coerceTo_eq, outcome_bind, outcome_get]
  split
  · exact h.refl c
  · rename_i hne
    split
    · rename_i cast hcast
      split at hcast
      · exact h.value hid (Expression.converts_of_cast? hcast hne)
      · cases hcast
    · split
      · rename_i hdeep
        exact ⟨.inr ⟨rfl, id, ((Compilation.widensTo_eq_iff (by simp)).1 hdeep).2⟩, rfl⟩
      · rename_i hwidens
        have hends := widen_ends ((Compilation.widensTo_eq_iff (by simp)).1 hwidens).2
        simp only [widen, outcome_bind, outcome_arena] at hends ⊢
        exact ((h.outcome_widenWithin _ hid).and hends).mono (fun _ _ h => h.1)
          fun _ _ h => h.2.elim
      · exact c.refuses_fail _ (by simp)

theorem outcome_honourDeclared (h : RetypingLaw Open R) (hid : Open c id) :
    Outcome (honourDeclared id) c (fun _ => R c) c.Refuses := by
  simp only [honourDeclared, outcome_bind, outcome_expr]
  split
  · exact h.outcome_coerceTo _ hid
  · exact h.refl c

/-- **Arguments** are brought into the types of their parameters until one is refused. -/
theorem outcome_coerceAll (h : RetypingLaw Open R) (unified : Ty) {args : List ExprId}
    (params : List Ty) (hargs : ∀ n ∈ args, Open c n) :
    Outcome (coerceAll unified args params) c (fun _ => R c) fun stop c' =>
      ∃ c₁, R c c₁ ∧ c₁.Refuses stop c' := by
  induction args generalizing params c with
  | nil => exact h.refl c
  | cons arg args ih =>
    obtain ⟨harg, hargs⟩ := List.forall_mem_cons.1 hargs
    cases params with
    | nil => exact h.refl c
    | cons param params =>
      simp only [coerceAll, outcome_bind]
      refine (h.outcome_coerceTo _ harg).mono (fun _ c₁ h₁ => ?_) fun _ _ h₁ => ⟨c, h.refl c, h₁⟩
      refine (ih params fun n hn => h.stays h₁ (hargs n hn)).mono (fun _ _ => h.trans h₁) ?_
      rintro _ _ ⟨c₂, h₂, hrefuses⟩
      exact ⟨c₂, h.trans h₁ h₂, hrefuses⟩

end RetypingLaw

end Termwise
