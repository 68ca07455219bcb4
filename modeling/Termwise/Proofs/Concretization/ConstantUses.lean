import Termwise.Proofs.Concretization.CopiedTrees
import Termwise.Proofs.Concretization.Twins

/-!
# Uses of constants

What the walk does to a use of a definition whose body is a constant: either it is kept and takes the
type of the constant, or it becomes the constant itself. The constant is a known value of a native
type, so there is nothing left to do for it or for its definition.

## Main definitions

* `Compilation.ConstantUse`: a use of a definition whose body is a constant

## Main results

* `visitExpr_settled`: a constant stays as it is
* `visitExpr_kept`, `visitExpr_replaced`: a use without substitution and with it
-/

namespace Termwise

open Compilation

variable {c c' : Compilation} {d : DefId} {b id : ExprId} {e : Expression} {w v : Walk}
  {settings inlining keeping : Settings}

/-! ## Constants -/

/-- An expression that has the type that is declared for it is left alone. -/
theorem honourDeclared_kept
    (h : ∀ t, (c.arena.expr id).declared = some t → (c.arena.expr id).ty = t) :
    Outcome (honourDeclared id) c (fun _ c' => c' = c) fun _ _ => False := by
  simp only [honourDeclared, outcome_bind, outcome_expr]
  split
  · rename_i target htarget
    simp only [coerceTo_eq, outcome_bind, outcome_get, h target htarget, if_true]
    rfl
  · rfl

theorem requireNative_kept (h : (c.arena.expr id).ty.native = .yes) :
    Outcome (requireNative id) c (fun _ c' => c' = c) fun _ _ => False := by
  simp only [requireNative, outcome_bind, outcome_expr, h, if_true]
  rfl

/-- **A constant** that is walked stays as it is. -/
theorem visitExpr_settled (next : Visitor) (child : ExprId → WalkM Unit) (active : List DefId)
    (h : (w.unit.arena.expr id).Settled) :
    Outcome (visitExpr settings next child active id) w (fun _ w' => w' = w) fun _ _ => False := by
  obtain ⟨value, hk⟩ : ∃ value, (w.unit.arena.expr id).kind = .value value := by
    have hvalue := h.value
    cases hk : (w.unit.arena.expr id).kind <;> rw [hk] at hvalue <;>
      first | exact ⟨_, rfl⟩ | cases hvalue
  simp only [visitExpr, outcome_bind, outcome_lift, outcome_expr, hk, concretizeValue_eq, h.native,
    if_true, outcome_pure]
  refine (honourDeclared_kept h.declared).imp ?_
  rintro _ _ rfl
  exact (requireNative_kept h.native).imp fun _ _ h' => by rw [h']

theorem visitor_settled (settings : Settings) (rounds : Nat) (active : List DefId)
    (h : (w.unit.arena.expr id).Settled) :
    Outcome ((visitor settings rounds).expr active id) w (fun _ w' => w' = w)
      fun stop _ => stop = .cyclic := by
  cases rounds with
  | zero => rfl
  | succ rounds =>
    simp only [visitor, outcome_bind, outcome_lift, outcome_arena]
    exact (visitExpr_settled _ _ active h).mono (fun _ _ h => h) fun _ _ h => h.elim

/-- **A definition whose body is a constant** is walked without a change. -/
theorem visitDefinition_settled (settings : Settings) (rounds : Nat) (active : List DefId)
    (hb : (w.unit.arena.definition d).body = .expression b)
    (h : (w.unit.arena.expr b).Settled) :
    Outcome (visitDefinition (visitor settings rounds) active d) w
      (fun _ w' => w'.unit = w.unit ∧ ∀ d' ≠ d, d' ∈ w'.finished ↔ d' ∈ w.finished)
      fun stop _ => stop = .cyclic := by
  simp only [visitDefinition, outcome_bind, outcome_lift, outcome_definition, hb, outcome_get]
  split
  · exact ⟨rfl, fun _ _ => Iff.rfl⟩
  · rw [outcome_bind, outcome_walk_attempt]
    refine (visitor_settled settings rounds (d :: active) h).mono ?_ ?_
    · rintro _ _ rfl
      exact ⟨rfl, fun d' hd' => by simp [hd']⟩
    · rintro _ _ rfl
      rfl

/-! ## Uses of constants -/

/-- A use of a definition whose body is a constant. -/
structure Compilation.ConstantUse (c : Compilation) (id : ExprId) (d : DefId) (b : ExprId) :
    Prop where
  use : (c.arena.expr id).kind = .reference d ∨ (c.arena.expr id).kind = .call d []
  body : (c.arena.definition d).body = .expression b
  settled : (c.arena.expr b).Settled
  typed : (c.arena.expr b).ty = c.arena.definitionType d
  native : (c.arena.definitionType d).native = .yes
  value : (c.arena.definitionType d).isFunction = false

namespace Compilation

theorem ConstantUse.lt_size (h : c.ConstantUse id d b) : id.index < c.arena.exprs.size :=
  Arena.lt_size_of_kind_ne (by rcases h.use with hk | hk <;> rw [hk] <;> simp)

theorem ConstantUse.ne (h : c.ConstantUse id d b) : b ≠ id := by
  rintro rfl
  have hvalue := h.settled.value
  rcases h.use with hk | hk <;> rw [hk] at hvalue <;> cases hvalue

theorem Rewritten.definitionType (h : c.Rewritten id e c')
    (hb : (c.arena.definition d).body = .expression b) (hne : b ≠ id) :
    c'.arena.definitionType d = c.arena.definitionType d := by
  simp only [Arena.definitionType, h.definition]
  split
  · rfl
  · rename_i hb'
    cases hb.symm.trans hb'
    rw [h.other b hne]
  · rfl

theorem rewritten_modifyExpr (hlt : id.index < c.arena.exprs.size)
    (f : Expression → Expression) :
    c.Rewritten id (f (c.arena.expr id)) (c.modifyArena (·.modifyExpr id f)) := by
  refine ⟨⟨rfl, rfl, rfl, rfl⟩, rfl, ?_, ?_, fun n hn => ?_⟩ <;> simp only [modifyArena]
  · exact Arena.size_modifyExpr ..
  · exact Arena.expr_modifyExpr_self hlt _
  · exact Arena.expr_modifyExpr_of_ne hn _

/-- A use of a constant still is one when it took a type. -/
theorem ConstantUse.setType (h : c.ConstantUse id d b) (ty : Ty) :
    (c.modifyArena (·.modifyExpr id fun e => { e with ty })).ConstantUse id d b := by
  have hrewritten := rewritten_modifyExpr h.lt_size fun e => { e with ty }
  have hty := hrewritten.definitionType h.body h.ne
  refine ⟨?_, h.body, ?_, ?_, ?_, ?_⟩
  · rw [hrewritten.self]
    exact h.use
  · rw [hrewritten.other b h.ne]
    exact h.settled
  · rw [hrewritten.other b h.ne, hty]
    exact h.typed
  · rw [hty]
    exact h.native
  · rw [hty]
    exact h.value

/-- A use of a constant leaves no parameter open. -/
theorem ConstantUse.isPartialCall (h : c.ConstantUse id d b) :
    c.arena.isPartialCall id = false := by
  have harity : (c.arena.definitionType d).arity = 0 := by
    have hvalue := h.value
    cases hty : c.arena.definitionType d <;> rw [hty] at hvalue <;> first | rfl | cases hvalue
  rcases h.use with hk | hk <;> simp [Arena.isPartialCall, hk, harity]

theorem ConstantUse.widens (h : c.ConstantUse id d b) (hty : (c.arena.expr id).ty ≠ .float) :
    c.widens id = some false := by
  simp only [Compilation.widens, widensWithin, hty, if_false]
  rcases h.use with hk | hk <;> simp [hk, h.value]

end Compilation

/-! ### Uses that are kept -/

/-- A use has the type that is declared for it, or types do not match. -/
theorem honourDeclared_use (h : c.ConstantUse id d b) :
    Outcome (honourDeclared id) c
      (fun _ c' => c' = c ∧ ∀ t, (c.arena.expr id).declared = some t → (c.arena.expr id).ty = t)
      fun stop _ => ∃ e, stop = .error e ∧ e.IsMismatch := by
  have hvalue : (c.arena.expr id).kind.isValue = false := by
    rcases h.use with hk | hk <;> rw [hk] <;> rfl
  simp only [honourDeclared, outcome_bind, outcome_expr]
  split
  · rename_i target htarget
    simp only [coerceTo_eq, outcome_bind, outcome_get, hvalue, Bool.false_eq_true, if_false]
    split
    · rename_i hty
      exact ⟨rfl, fun t ht => by cases htarget.symm.trans ht; exact hty⟩
    · rename_i hty
      have hwidens : c.widensTo target id = some false := by
        unfold widensTo
        split <;> rename_i hfloat
        · exact h.widens (hfloat ▸ hty)
        · rfl
      rw [hwidens]
      exact ⟨_, rfl, _, _, rfl⟩
  · rename_i hdeclared
    exact ⟨rfl, fun t ht => by cases hdeclared.symm.trans ht⟩

/-- A use of a constant takes its type. -/
theorem typeReference_use (h : c.ConstantUse id d b) :
    Outcome (typeReference id d) c
      (fun _ c' => c' = c.modifyArena (·.modifyExpr id fun e =>
        { e with ty := c.arena.definitionType d }))
      fun _ _ => False := by
  have hdefined : (c.arena.definition d).isUndefined = false := by
    simp only [Definition.isUndefined, h.body]
  simp only [typeReference, outcome_bind, outcome_definitionType, outcome_definition, outcome_expr,
    (Ty.of_native h.native).2.2.2.1, hdefined, Bool.false_eq_true, false_and, if_false,
    outcome_setType]

theorem typeCall_use (h : c.ConstantUse id d b) :
    Outcome (typeCall id (c.arena.definitionType d) []) c
      (fun _ c' => c' = c.modifyArena (·.modifyExpr id fun e =>
        { e with ty := c.arena.definitionType d }))
      fun _ _ => False := by
  have hvalue := h.value
  unfold typeCall
  split
  · rename_i hty
    rw [hty] at hvalue
    cases hvalue
  · rfl

theorem trySubstitute_keeping (hkeep : keeping.debugNoInline = true) (next : Visitor)
    (active : List DefId) (id : ExprId) (d : DefId) :
    trySubstitute keeping next active id d = pure false := by
  simp only [trySubstitute, substitute_of_debugNoInline hkeep]
  split <;> rfl

/-- The end of the walk of a use that took the type of its definition. -/
theorem finish_use (h : v.unit.ConstantUse id d b)
    (hty : (v.unit.arena.expr id).ty.native = .yes) :
    Outcome (do
        liftM (honourDeclared id)
        liftM (requireNative id) : WalkM Unit) v
      (fun _ v' => v' = v ∧
        ∀ t, (v.unit.arena.expr id).declared = some t → (v.unit.arena.expr id).ty = t)
      fun stop _ => ∃ e, stop = .error e ∧ e.IsMismatch := by
  rw [outcome_bind, outcome_lift]
  refine (honourDeclared_use h).imp ?_
  rintro _ _ ⟨rfl, hdeclared⟩
  rw [outcome_lift]
  refine (requireNative_kept hty).mono ?_ fun _ _ h => h.elim
  rintro _ _ rfl
  exact ⟨rfl, hdeclared⟩

/-- **A use that is kept** takes the type of the constant, or has another type declared for it. -/
theorem visitExpr_kept (hkeep : keeping.debugNoInline = true) (rounds : Nat)
    (child : ExprId → WalkM Unit) (h : v.unit.ConstantUse id d b) :
    Outcome (visitExpr keeping (visitor keeping rounds) child [] id) v
      (fun _ v' => v'.unit = v.unit.modifyArena (·.modifyExpr id fun e =>
          { e with ty := v.unit.arena.definitionType d }) ∧
        (∀ t, (v.unit.arena.expr id).declared = some t → v.unit.arena.definitionType d = t) ∧
        ∀ d' ≠ d, d' ∈ v'.finished ↔ d' ∈ v.finished)
      fun stop _ => stop = .cyclic ∨ ∃ e, stop = .error e ∧ e.IsMismatch := by
  have hdefinition := visitDefinition_settled keeping rounds [] h.body h.settled
  have hself := (rewritten_modifyExpr h.lt_size fun e =>
    { e with ty := v.unit.arena.definitionType d }).self
  -- The use took its type, and its walk ends.
  have hfinish {v₁ : Walk} (h₁ : v₁.unit = v.unit)
      (hfinished : ∀ d' ≠ d, d' ∈ v₁.finished ↔ d' ∈ v.finished) {type : CheckM Unit}
      (htype : Outcome type v₁.unit
        (fun _ c' => c' = v₁.unit.modifyArena (·.modifyExpr id fun e =>
          { e with ty := v₁.unit.arena.definitionType d })) fun _ _ => False) :
      Outcome (do
          liftM type
          liftM (honourDeclared id)
          liftM (requireNative id) : WalkM Unit) v₁
        (fun _ v' => v'.unit = v.unit.modifyArena (·.modifyExpr id fun e =>
            { e with ty := v.unit.arena.definitionType d }) ∧
          (∀ t, (v.unit.arena.expr id).declared = some t → v.unit.arena.definitionType d = t) ∧
          ∀ d' ≠ d, d' ∈ v'.finished ↔ d' ∈ v.finished)
        fun stop _ => stop = .cyclic ∨ ∃ e, stop = .error e ∧ e.IsMismatch := by
    rw [outcome_bind, outcome_lift]
    refine htype.mono ?_ fun _ _ h => h.elim
    rintro _ _ rfl
    rw [h₁]
    have huse := h.setType (v.unit.arena.definitionType d)
    refine (finish_use huse (by rw [hself]; exact h.native)).mono ?_ fun _ _ h => .inr h
    rintro _ _ ⟨rfl, hdeclared⟩
    rw [hself] at hdeclared
    exact ⟨rfl, hdeclared, hfinished⟩
  have hpartial := h.isPartialCall
  rcases h.use with hk | hk
  · simp only [visitExpr, outcome_bind, outcome_lift, outcome_expr, hk, visitReference,
      trySubstitute_keeping hkeep, outcome_pure, Bool.false_eq_true, if_false]
    refine hdefinition.mono ?_ fun _ _ h => .inl h
    rintro _ v₁ ⟨h₁, hfinished⟩
    simpa only [outcome_bind, outcome_lift] using
      hfinish h₁ hfinished (typeReference_use (by rwa [h₁]))
  · simp only [visitExpr, outcome_bind, outcome_lift, outcome_expr, hk, visitCall, outcome_arena,
      hpartial, trySubstitute_keeping hkeep, outcome_pure, Bool.false_eq_true, if_false,
      List.isEmpty_nil, if_true]
    refine hdefinition.mono ?_ fun _ _ h => .inl h
    rintro _ v₁ ⟨h₁, hfinished⟩
    have hcall := hfinish h₁ hfinished (typeCall_use (by rwa [h₁]))
    simpa only [visitEach, outcome_pure, outcome_bind, outcome_lift, h₁] using hcall

/-! ### Uses that are replaced -/

/-- Nothing declared stands against the replacement of a use. -/
theorem declarationsDiffer_eq_none {u t : Option Ty} {ty : Ty} (hu : ∀ s, u = some s → ty = s)
    (ht : ∀ s, t = some s → ty = s) : declarationsDiffer u t = none := by
  unfold declarationsDiffer
  split
  · rename_i s s'
    rw [if_pos ((hu s rfl).symm.trans (ht s' rfl))]
  · rfl

/-- **A use of a constant is replaced**, unless another type is declared for it. -/
theorem substitute_use (hinline : inlining.debugNoInline = false) (h : c.ConstantUse id d b)
    (hdeclared : ∀ t, (c.arena.expr id).declared = some t → c.arena.definitionType d = t) :
    Outcome (substitute inlining id) c
      (fun replaced c' => replaced = true ∧
        c.Rewritten id ((c.arena.expr id).replaceBy (c.arena.expr b)) c')
      fun _ _ => False := by
  have hd : (c.arena.expr id).kind.definition? = some d := by
    rcases h.use with hk | hk <;> rw [hk] <;> rfl
  -- A call is read as a reference first, so this is needed of the state that makes it one, too.
  have hreference (c₁ : Compilation) (hbody : (c₁.arena.definition d).body = .expression b)
      (hsettled : (c₁.arena.expr b).Settled)
      (hvalue : (c₁.arena.definitionType d).isFunction = false)
      (hdeclared : ∀ t, (c₁.arena.expr id).declared = some t → c₁.arena.definitionType d = t) :
      Outcome (substituteReference id d) c₁ (fun replaced _ => replaced = true)
        fun _ _ => False := by
    have hnone : declarationsDiffer (c₁.arena.expr id).declared
        (c₁.arena.definition d).declared = none :=
      declarationsDiffer_eq_none hdeclared fun t ht => Arena.definitionType_of_declared ht
    have hsubst : (c₁.arena.expr b).kind.isSubstitutable = true := by
      have hvalue := hsettled.value
      cases hk : (c₁.arena.expr b).kind <;> rw [hk] at hvalue <;> first | rfl | cases hvalue
    have hcopy : c₁.arena.copy? b ≠ none :=
      (Arena.shallow_of_leaf (Arena.lt_size_of_kind_ne fun hk => by rw [hk] at hsubst; cases hsubst)
        (ExprKind.children_of_isValue hsettled.value)).copy_ne_none
    simp only [substituteReference, outcome_bind, outcome_arena, hbody, hnone, hvalue, hsubst,
      Bool.false_eq_true, Bool.not_true, if_false, outcome_putCopy, outcome_emit, outcome_pure]
    exact ⟨hcopy, fun _ => trivial⟩
  have hreplaced : Outcome (substitute inlining id) c (fun replaced _ => replaced = true)
      fun _ _ => False := by
    simp only [substitute, hinline, Bool.false_eq_true, if_false, outcome_bind, outcome_expr]
    rcases h.use with hk | hk
    · simp only [hk]
      exact hreference c h.body h.settled h.value hdeclared
    · have hpure : (c.arena.definitionType d).isPure = true := by
        have hvalue := h.value
        cases hty : c.arena.definitionType d <;> rw [hty] at hvalue <;>
          first | rfl | cases hvalue
      have hrewritten := rewritten_modifyExpr h.lt_size fun e =>
        { e with kind := .reference d }
      have hty := hrewritten.definitionType h.body h.ne
      simp only [hk, substituteCall, outcome_bind, outcome_definitionType, hpure, Bool.not_true,
        List.isEmpty_nil, Bool.or_self, Bool.false_eq_true, if_false, outcome_expr,
        outcome_modifyExpr]
      refine (hreference (c.modifyArena (·.modifyExpr id fun e => { e with kind := .reference d }))
        h.body ?_ ?_ ?_).imp ?_
      · rw [hrewritten.other b h.ne]
        exact h.settled
      · rw [hty]
        exact h.value
      · rw [hty, hrewritten.self]
        exact hdeclared
      · rintro _ c₁ rfl
        simp only [if_true, outcome_bind, outcome_definition, outcome_emit, outcome_pure]
  -- What stands there then is a copy of some body, and `d` has no body but `b`.
  refine (hreplaced.and (substitute_copies inlining hd)).mono ?_ fun _ _ h => h.1
  rintro replaced c' ⟨htrue, hcopies⟩
  obtain ⟨b', hcopied⟩ := hcopies htrue
  obtain rfl : b' = b := by
    cases hcopied.body.symm.trans h.body
    rfl
  exact ⟨htrue, hcopied.rewritten h.settled.value⟩

theorem trySubstitute_use (hinline : inlining.debugNoInline = false) (rounds : Nat)
    (h : w.unit.ConstantUse id d b)
    (hdeclared : ∀ t, (w.unit.arena.expr id).declared = some t →
      w.unit.arena.definitionType d = t) :
    Outcome (trySubstitute inlining (visitor inlining rounds) [] id d) w
      (fun replaced w' => replaced = true ∧ (w'.unit.arena.expr id).Settled ∧
        w.unit.Rewritten id
          ((w.unit.arena.expr id).replaceBy (w.unit.arena.expr b)) w'.unit ∧
        w'.finished = w.finished)
      fun stop _ => stop = .cyclic := by
  simp only [trySubstitute, List.contains_nil, Bool.false_eq_true, if_false, outcome_bind,
    outcome_lift]
  refine (substitute_use hinline h hdeclared).mono ?_ fun _ _ h => h.elim
  rintro _ c' ⟨rfl, hrewritten⟩
  have hsettled : (c'.arena.expr id).Settled := by
    rw [hrewritten.self]
    exact ⟨h.settled.value, h.settled.native, fun t ht => h.typed.trans (hdeclared t ht)⟩
  simp only [if_true, outcome_bind]
  refine (visitor_settled inlining rounds [d] hsettled).imp ?_
  rintro _ _ rfl
  exact ⟨rfl, hsettled, hrewritten, rfl⟩

/-- **A use that may be replaced** becomes the constant, unless another type is declared for it. -/
theorem visitExpr_replaced (hinline : inlining.debugNoInline = false) (rounds : Nat)
    (child : ExprId → WalkM Unit) (h : w.unit.ConstantUse id d b)
    (hdeclared : ∀ t, (w.unit.arena.expr id).declared = some t →
      w.unit.arena.definitionType d = t) :
    Outcome (visitExpr inlining (visitor inlining rounds) child [] id) w
      (fun _ w' => w.unit.Rewritten id
          ((w.unit.arena.expr id).replaceBy (w.unit.arena.expr b)) w'.unit ∧
        w'.finished = w.finished)
      fun stop _ => stop = .cyclic := by
  have hpartial := h.isPartialCall
  -- The use was replaced, and its walk ends.
  have hfinish {w₁ : Walk} (hsettled : (w₁.unit.arena.expr id).Settled)
      (h₁ : w.unit.Rewritten id
          ((w.unit.arena.expr id).replaceBy (w.unit.arena.expr b)) w₁.unit ∧
        w₁.finished = w.finished) :
      Outcome (do
          liftM (honourDeclared id)
          liftM (requireNative id) : WalkM Unit) w₁
        (fun _ w' => w.unit.Rewritten id
            ((w.unit.arena.expr id).replaceBy (w.unit.arena.expr b)) w'.unit ∧
          w'.finished = w.finished)
        fun stop _ => stop = .cyclic := by
    rw [outcome_bind, outcome_lift]
    refine (honourDeclared_kept hsettled.declared).mono ?_ fun _ _ h => h.elim
    rintro _ _ rfl
    rw [outcome_lift]
    refine (requireNative_kept hsettled.native).mono ?_ fun _ _ h => h.elim
    rintro _ _ rfl
    exact h₁
  have htry := trySubstitute_use hinline rounds h hdeclared
  rcases h.use with hk | hk
  · simp only [visitExpr, outcome_bind, outcome_lift, outcome_expr, hk, visitReference]
    refine htry.imp ?_
    rintro _ w₁ ⟨rfl, hsettled, h₁⟩
    simpa only [if_true, outcome_pure, outcome_bind, outcome_lift] using hfinish hsettled h₁
  · simp only [visitExpr, outcome_bind, outcome_lift, outcome_expr, hk, visitCall, outcome_arena,
      hpartial, Bool.false_eq_true, if_false, List.isEmpty_nil, if_true]
    refine htry.imp ?_
    rintro _ w₁ ⟨rfl, hsettled, h₁⟩
    simpa only [if_true, outcome_pure, outcome_bind, outcome_lift] using hfinish hsettled h₁

end Termwise
