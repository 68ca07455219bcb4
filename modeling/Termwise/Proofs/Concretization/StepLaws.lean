import Termwise.Proofs.Concretization.CopyDepth
import Termwise.Proofs.Concretization.Steps

/-!
# Laws of the steps of a walk

The steps of a walk change the tables, note down events and request types; what they report is
reported by others. A law is a relation that holds between the states before and after each such
change. Then it holds between the states before and after each step, whether the step ends or
stops half-way.

## Main definitions

* `StepLaw`: a relation that each single change keeps
* `StepLaw.Obeys`: a step that keeps a law

## Main results

* `StepLaw.obeys_coerceTo`, `StepLaw.obeys_callNegation`, `StepLaw.obeys_substitute`: steps of a
  walk
-/

namespace Termwise

open Compilation

/-- **A relation that single changes keep.** No change of an expression leaves one without a value
behind, unless it was one. -/
structure StepLaw where
  Rel : Compilation → Compilation → Prop
  refl (c : Compilation) : Rel c c
  trans {c c' c'' : Compilation} : Rel c c' → Rel c' c'' → Rel c c''
  modifyExpr (c : Compilation) (id : ExprId) (f : Expression → Expression) :
    (f (c.arena.expr id)).kind = (c.arena.expr id).kind ∨
      (f (c.arena.expr id)).kind.isSentinel = false →
    Rel c (c.modifyArena (·.modifyExpr id f))
  emit (c : Compilation) (event : Event) : Rel c (c.emit event)
  types (c : Compilation) (types : TypeStore) : Rel c { c with types }
  /-- A tree is copied to the place of an expression. -/
  copy (c : Compilation) (id b : ExprId) :
    Rel c (c.modifyArena fun a => (a.copy b).2.replaceExpr id (a.copy b).1)

namespace StepLaw

variable {α β : Type} {L : StepLaw} {c : Compilation} {id : ExprId}

/-- A step keeps a law, whether it ends or stops. -/
def Obeys (L : StepLaw) (action : CheckM α) : Prop :=
  ∀ c, Outcome action c (fun _ => L.Rel c) fun _ => L.Rel c

theorem Obeys.bind {first : CheckM β} {rest : β → CheckM α} (h : L.Obeys first)
    (hrest : ∀ b, L.Obeys (rest b)) : L.Obeys (first >>= rest) := by
  intro c
  rw [outcome_bind]
  refine (h c).imp fun b c₁ h₁ => ?_
  exact (hrest b c₁).mono (fun _ _ => L.trans h₁) fun _ _ => L.trans h₁

theorem obeys_pure (a : α) : L.Obeys (pure a) := L.refl

theorem obeys_fail (cause : Cause) (span : Span) : L.Obeys (CheckM.fail cause span : CheckM α) :=
  L.refl

theorem obeys_fail_bind (cause : Cause) (span : Span) (rest : β → CheckM α) :
    L.Obeys (CheckM.fail cause span >>= rest) := L.refl

theorem obeys_arena : L.Obeys CheckM.arena := L.refl

theorem obeys_expr (id : ExprId) : L.Obeys (CheckM.expr id) := L.refl

theorem obeys_definition (d : DefId) : L.Obeys (CheckM.definition d) := L.refl

theorem obeys_definitionType (d : DefId) : L.Obeys (CheckM.definitionType d) := L.refl

theorem obeys_emit (event : Event) : L.Obeys (CheckM.emit event) := fun c => L.emit c event

theorem obeys_modifyExpr (id : ExprId) {f : Expression → Expression}
    (hf : ∀ e, (f e).kind = e.kind ∨ (f e).kind.isSentinel = false) :
    L.Obeys (CheckM.modifyExpr id f) := fun c => L.modifyExpr c id f (hf _)

theorem obeys_setType (id : ExprId) (ty : Ty) : L.Obeys (CheckM.setType id ty) :=
  obeys_modifyExpr id fun _ => .inl rfl

/-- A known value or what it is already takes the place of an expression. -/
theorem rel_put {e : Expression}
    (he : e.kind = (c.arena.expr id).kind ∨ e.kind.isValue = true) :
    L.Rel c (c.modifyArena (·.modifyExpr id fun _ => e)) := by
  refine L.modifyExpr c id _ (he.imp_right fun hv => ?_)
  revert hv
  cases e.kind <;> simp [ExprKind.isValue, ExprKind.isSentinel]

/-! ## Types -/

theorem retypingLaw (L : StepLaw) : RetypingLaw (fun _ _ => True) L.Rel where
  refl := L.refl
  trans := L.trans
  stays _ _ := trivial
  operand _ _ _ := trivial
  value _ h := rel_put (.inr h.isValue.2)
  call _ _ _ h := L.trans h (L.modifyExpr _ _ _ (.inr rfl))
  emit := L.emit

theorem obeys_concretizeValue (id : ExprId) : L.Obeys (concretizeValue id) := fun _ =>
  (L.retypingLaw.outcome_concretizeValue trivial).mono (fun _ _ h => h)
    fun _ _ => L.retypingLaw.rel_of_refuses

theorem obeys_coerceTo (id : ExprId) (target : Ty) : L.Obeys (coerceTo id target) := fun _ =>
  (L.retypingLaw.outcome_coerceTo target trivial).mono (fun _ _ h => h)
    fun _ _ => L.retypingLaw.rel_of_refuses

theorem obeys_honourDeclared (id : ExprId) : L.Obeys (honourDeclared id) := fun _ =>
  (L.retypingLaw.outcome_honourDeclared trivial).mono (fun _ _ h => h)
    fun _ _ => L.retypingLaw.rel_of_refuses

theorem obeys_requireNative (id : ExprId) : L.Obeys (requireNative id) := by
  unfold requireNative
  refine (obeys_expr id).bind fun e => ?_
  split
  · exact obeys_pure ()
  · exact obeys_fail _ _

theorem obeys_typeReference (id : ExprId) (d : DefId) : L.Obeys (typeReference id d) := by
  unfold typeReference
  refine (obeys_definitionType d).bind fun ty => (obeys_definition d).bind fun definition =>
    (obeys_expr id).bind fun e => ?_
  dsimp only
  split
  · exact obeys_fail_bind _ _ _
  · split
    · exact obeys_fail_bind _ _ _
    · exact obeys_setType id _

/-! ## Calls -/

theorem obeys_coerceAll (unified : Ty) (args : List ExprId) (params : List Ty) :
    L.Obeys (coerceAll unified args params) := fun _ =>
  (L.retypingLaw.outcome_coerceAll unified params fun _ _ => trivial).mono (fun _ _ h => h)
    fun _ _ ⟨_, h, hrefuses⟩ => L.trans h (L.retypingLaw.rel_of_refuses hrefuses)

theorem obeys_typeCall (id : ExprId) (calleeType : Ty) (args : List ExprId) :
    L.Obeys (typeCall id calleeType args) := by
  unfold typeCall
  split
  · refine obeys_arena.bind fun a => (obeys_coerceAll _ args _).bind fun _ => ?_
    split
    · exact obeys_setType id _
    · exact obeys_pure ()
  · exact obeys_setType id _

theorem callLaw (L : StepLaw) (args : List ExprId) : CallLaw args L.Rel where
  refl := L.refl
  trans := L.trans
  coerced _ h := rel_put ((Expression.coerce_kind h).imp_right And.right)
  issued c _ _ _ := L.types c _

theorem obeys_createCall (d : DefId) (args : List ExprId) (span : Span) :
    L.Obeys (createCall d args span) := fun c =>
  ((L.callLaw args).outcome_createCall d span c).mono (fun _ _ => And.left) fun _ _ => And.right

theorem obeys_callNegation (id x : ExprId) : L.Obeys (callNegation id x) := by
  intro c
  simp only [callNegation, outcome_bind, outcome_get, outcome_expr]
  refine ((L.callLaw [x]).outcome_createCall (c.negationFor x) (c.arena.expr id).span c).mono ?_
    fun _ _ => And.right
  rintro call c₁ ⟨hrel, hk, -⟩
  refine L.trans hrel (L.modifyExpr _ _ _ (.inr ?_))
  simp [Expression.replaceBy, hk, ExprKind.isSentinel]

/-! ## Substitution -/

theorem obeys_putCopy (id b : ExprId) : L.Obeys (putCopy id b) := fun c =>
  outcome_putCopy.2 ⟨fun _ => L.refl c, fun _ => L.copy c id b⟩

theorem obeys_substituteReference (id : ExprId) (d : DefId) :
    L.Obeys (substituteReference id d) := by
  have hkept (event : Event) : L.Obeys (do CheckM.emit event; return false) :=
    (obeys_emit event).bind fun _ => obeys_pure false
  have hdone (event : Event) : L.Obeys (do CheckM.emit event; return true) :=
    (obeys_emit event).bind fun _ => obeys_pure true
  unfold substituteReference
  refine obeys_arena.bind fun a => ?_
  dsimp only
  split
  · exact hkept _
  · exact obeys_pure false
  · exact obeys_pure false
  · split
    · exact hkept _
    · split_ifs
      · exact hkept _
      · exact obeys_pure false
      · exact obeys_pure false
      · exact (obeys_putCopy id _).bind fun _ => hdone _
      · exact obeys_pure false
      · exact (obeys_putCopy id _).bind fun _ => hdone _

/-- **A use** is replaced, or stays what it was. -/
theorem obeys_substitute (settings : Settings) (id : ExprId) :
    L.Obeys (substitute settings id) := by
  intro c
  simp only [substitute]
  split
  · exact L.refl c
  · simp only [outcome_bind, outcome_expr]
    split
    · exact obeys_substituteReference id _ c
    · rename_i d args hk
      simp only [substituteCall, outcome_bind, outcome_definitionType]
      split
      · exact L.refl c
      · simp only [outcome_bind, outcome_expr, outcome_modifyExpr]
        have hread : L.Rel c
            (c.modifyArena (·.modifyExpr id fun e => { e with kind := .reference d })) :=
          L.modifyExpr c id _ (.inr rfl)
        refine (obeys_substituteReference id d _).mono ?_ fun _ _ => L.trans hread
        intro replaced c₁ hrel
        have hrel := L.trans hread hrel
        split
        · exact L.trans hrel (L.emit _ _)
        · exact L.trans hrel (L.modifyExpr _ _ _ (.inr (by rw [hk]; rfl)))
    · exact L.refl c

end StepLaw

end Termwise
