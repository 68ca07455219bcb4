import Termwise.Proofs.Concretization.Uses
import Termwise.Proofs.Paired

/-!
# Programs with constants, with and without substitution

A program is concretized twice: once uses of its definitions are replaced by their bodies, and once
they are kept. If every body is a constant, then a use that was replaced is the constant where the
other run has a reference of the same type, and else the two programs are the same. What a step does
to one of them it does to the other, unless it asks a use for another type than it has: the constant
may be cast, and the reference is rejected.

## Main definitions

* `Compilation.Constants`: every body is a constant
* `Compilation.Stands`: a constant in the place of a use
* `Twins`: the two programs

## Main results

* `matched_coerceTo`, `matched_callNegation`, `matched_typeCall`: steps of the two runs
-/

namespace Termwise

open Compilation

/-- A known value of a native type, which is the one that is declared for it, if there is one. -/
structure Expression.Settled (e : Expression) : Prop where
  value : e.kind.isValue = true
  native : e.ty.native = .yes
  declared : ∀ t, e.declared = some t → e.ty = t

namespace Compilation

/-- A definition has an expression as its body. -/
def Fixed (c : Compilation) (d : DefId) : Prop := ∃ b, (c.arena.definition d).body = .expression b

/-- An expression is the body of a definition. -/
def Backs (c : Compilation) (n : ExprId) : Prop :=
  ∃ d, (c.arena.definition d).body = .expression n

/-- **Every body is a constant** that has the type of its definition, and the negations have none. -/
structure Constants (c : Compilation) : Prop where
  constant : ∀ d b, (c.arena.definition d).body = .expression b →
    c.Constant b (c.arena.definitionType d)
  value : ∀ d, c.Fixed d → (c.arena.definitionType d).isFunction = false
  negation : ∀ d, c.IsNegation d → ¬ c.Fixed d

/-- A kind is a use of a definition that may be replaced. -/
def IsUse (c : Compilation) (k : ExprKind) : Prop :=
  ∃ d, c.Fixed d ∧ (k = .reference d ∨ k = .call d [])

/-- **A constant in the place of a use** of its definition. -/
structure Stands (c : Compilation) (e e' : Expression) : Prop where
  value : e.kind.isValue = true
  use : ∃ d, c.Fixed d ∧ (e'.kind = .reference d ∨ e'.kind = .call d []) ∧
    e.ty = c.arena.definitionType d
  ty : e'.ty = e.ty
  declared : e'.declared = e.declared
  span : e'.span = e.span

/-- The bodies of a program are as they were, and no operands. -/
structure Holds (c₀ c : Compilation) : Prop extends SameProgram c₀ c where
  body : ∀ b, c₀.Backs b → c.arena.expr b = c₀.arena.expr b
  free : ∀ n, ∀ m ∈ (c.arena.expr n).kind.children, ¬ c₀.Backs m

end Compilation

/-- **The two programs**, with substitution and without. In `F` there are expressions that do not
become uses. -/
structure Twins (c₀ : Compilation) (F : Set ExprId) (c k : Compilation) : Prop where
  first : c₀.Holds c
  second : c₀.Holds k
  isValid : k.isValid = c.isValid
  size : k.arena.exprs.size = c.arena.exprs.size
  expr : ∀ n, k.arena.expr n = c.arena.expr n ∨ c₀.Stands (c.arena.expr n) (k.arena.expr n)
  firm : ∀ n ∈ F, ¬ c₀.IsUse (k.arena.expr n).kind

variable {c₀ c c' k k' : Compilation} {F : Set ExprId} {d : DefId} {b id n x : ExprId}
  {e e' : Expression} {settings : Settings}

namespace Compilation

theorem Stands.isUse (h : c₀.Stands e e') : c₀.IsUse e'.kind := by
  obtain ⟨d, hd, huse, -⟩ := h.use
  exact ⟨d, hd, huse⟩

theorem Stands.isValue_eq_false (h : c₀.Stands e e') : e'.kind.isValue = false := by
  obtain ⟨d, -, huse | huse, -⟩ := h.use <;> rw [huse] <;> rfl

theorem Stands.children (h : c₀.Stands e e') : e'.kind.children = [] := by
  obtain ⟨d, -, huse | huse, -⟩ := h.use <;> rw [huse] <;> rfl

theorem Constants.settled (hc : c₀.Constants) (hb : c₀.Backs b) :
    (c₀.arena.expr b).Settled := by
  obtain ⟨d, hd⟩ := hb
  have hconstant := hc.constant d b hd
  exact ⟨hconstant.value, hconstant.typed ▸ hconstant.native,
    fun t ht => hconstant.typed.trans (hconstant.declared t ht).symm⟩

theorem Constants.native (hc : c₀.Constants) (hd : c₀.Fixed d) :
    (c₀.arena.definitionType d).native = .yes := by
  obtain ⟨b, hb⟩ := hd
  exact (hc.constant d b hb).native

theorem Holds.definitionType (h : c₀.Holds c) (d : DefId) :
    c.arena.definitionType d = c₀.arena.definitionType d := by
  simp only [Arena.definitionType, h.definition]
  split
  · rfl
  · rename_i b _ hb
    rw [h.body b ⟨d, hb⟩]
  · rfl

theorem Holds.emit (h : c₀.Holds c) (event : Event) : c₀.Holds (c.emit event) :=
  ⟨⟨h.builtins, h.defs, h.stmts, h.roots⟩, h.body, h.free⟩

/-- A change of an expression that is no body. -/
theorem Holds.modifyExpr (h : c₀.Holds c) (hid : ¬ c₀.Backs id) {f : Expression → Expression}
    (hf : ∀ m ∈ (f (c.arena.expr id)).kind.children, ¬ c₀.Backs m) :
    c₀.Holds (c.modifyArena (·.modifyExpr id f)) := by
  refine ⟨⟨h.builtins, h.defs, h.stmts, h.roots⟩, fun b hb => ?_, fun n m hm => ?_⟩
  · rw [← h.body b hb]
    exact Arena.expr_modifyExpr_of_ne (fun heq : b = id => hid (heq ▸ hb)) f
  · simp only [modifyArena, Arena.expr_modifyExpr] at hm
    split at hm
    · rename_i hn
      rw [hn.1] at hm
      exact hf m hm
    · exact h.free n m hm

end Compilation

namespace Twins

theorem refl (hc : c₀.Constants) : Twins c₀ ∅ c₀ c₀ := by
  have hholds : c₀.Holds c₀ := ⟨.refl c₀, fun _ _ => rfl, fun n m hm ⟨d, hd⟩ =>
    (hc.constant d m hd).free ⟨n, hm⟩⟩
  exact ⟨hholds, hholds, rfl, rfl, fun _ => .inl rfl, fun n hn => hn.elim⟩

variable (h : Twins c₀ F c k)
include h

theorem ty (n : ExprId) : (k.arena.expr n).ty = (c.arena.expr n).ty := by
  rcases h.expr n with heq | hstands
  · rw [heq]
  · exact hstands.ty

theorem declared (n : ExprId) : (k.arena.expr n).declared = (c.arena.expr n).declared := by
  rcases h.expr n with heq | hstands
  · rw [heq]
  · exact hstands.declared

theorem span (n : ExprId) : (k.arena.expr n).span = (c.arena.expr n).span := by
  rcases h.expr n with heq | hstands
  · rw [heq]
  · exact hstands.span

/-- What is no use is the same in both programs. -/
theorem expr_eq (hn : ¬ c₀.IsUse (k.arena.expr n).kind) :
    k.arena.expr n = c.arena.expr n :=
  (h.expr n).resolve_right fun hstands => hn hstands.isUse

theorem definitionType (d : DefId) : k.arena.definitionType d = c.arena.definitionType d := by
  rw [h.first.definitionType, h.second.definitionType]

theorem definition (d : DefId) : k.arena.definition d = c.arena.definition d := by
  rw [h.first.definition, h.second.definition]

theorem builtins : k.builtins = c.builtins := by rw [h.first.builtins, h.second.builtins]

theorem isMissing : k.arena.isMissing = c.arena.isMissing := by
  funext n
  simp only [Arena.isMissing]
  rcases h.expr n with heq | hstands
  · rw [heq]
  · rw [ExprKind.isMissingArg_of_isValue hstands.value]
    obtain ⟨d, -, huse | huse, -⟩ := hstands.use <;> rw [huse] <;> rfl

theorem mono {F' : Set ExprId} (hF : F' ⊆ F) : Twins c₀ F' c k :=
  { h with firm := fun n hn => h.firm n (hF hn) }

/-- What is no use now does not become one. -/
theorem insert (hid : ¬ c₀.IsUse (k.arena.expr id).kind) : Twins c₀ (insert id F) c k where
  first := h.first
  second := h.second
  isValid := h.isValid
  size := h.size
  expr := h.expr
  firm n hn := by
    rcases hn with rfl | hn
    · exact hid
    · exact h.firm n hn

theorem emit (event event' : Event) : Twins c₀ F (c.emit event) (k.emit event') :=
  ⟨h.first.emit event, h.second.emit event', h.isValid, h.size, h.expr, h.firm⟩

theorem types (types types' : TypeStore) :
    Twins c₀ F { c with types } { k with types := types' } :=
  ⟨⟨⟨h.first.builtins, h.first.defs, h.first.stmts, h.first.roots⟩, h.first.body, h.first.free⟩,
    ⟨⟨h.second.builtins, h.second.defs, h.second.stmts, h.second.roots⟩, h.second.body,
      h.second.free⟩, h.isValid, h.size, h.expr, h.firm⟩

/-- **Both programs are changed** at an expression that is no body. -/
theorem modifyExpr (hid : ¬ c₀.Backs id) {f f' : Expression → Expression}
    (hf : f' (k.arena.expr id) = f (c.arena.expr id) ∨
      c₀.Stands (f (c.arena.expr id)) (f' (k.arena.expr id)))
    (hchildren : ∀ m ∈ (f (c.arena.expr id)).kind.children, ¬ c₀.Backs m)
    (hfirm : id ∈ F → ¬ c₀.IsUse (f' (k.arena.expr id)).kind) :
    Twins c₀ F (c.modifyArena (·.modifyExpr id f)) (k.modifyArena (·.modifyExpr id f')) := by
  refine ⟨h.first.modifyExpr hid hchildren, h.second.modifyExpr hid ?_, h.isValid, ?_,
    fun n => ?_, fun n hn => ?_⟩
  · rcases hf with hf | hf
    · rwa [hf]
    · rw [hf.children]
      simp
  · simpa only [modifyArena, Arena.size_modifyExpr] using h.size
  · simp only [modifyArena, Arena.expr_modifyExpr, h.size]
    split
    · rename_i hn
      rw [hn.1]
      exact hf
    · exact h.expr n
  · simp only [modifyArena, Arena.expr_modifyExpr]
    split
    · rename_i heq
      rw [heq.1] at hn ⊢
      exact hfirm hn
    · exact h.firm n hn

/-- Both programs are changed in the same way at an expression that is the same in both. -/
theorem modifyExpr_same (hid : ¬ c₀.Backs id) (heq : k.arena.expr id = c.arena.expr id)
    {f : Expression → Expression}
    (hchildren : (f (c.arena.expr id)).kind.children = (c.arena.expr id).kind.children)
    (hfirm : id ∈ F → ¬ c₀.IsUse (f (c.arena.expr id)).kind) :
    Twins c₀ F (c.modifyArena (·.modifyExpr id f)) (k.modifyArena (·.modifyExpr id f)) := by
  refine h.modifyExpr hid (.inl (by rw [heq])) ?_ (by rwa [heq])
  rw [hchildren]
  exact h.first.free id

end Twins

/-! ## Steps that both runs take -/

/-- **A step of both runs**, which cannot get lost. -/
abbrev Matched (c₀ : Compilation) (F : Set ExprId) {α : Type} (action : CheckM α) (c k : Compilation)
    (ended : α → Compilation → Compilation → Prop) : Prop :=
  Paired (Twins c₀ F) (fun _ => False) action action c k ended

theorem Expression.isValue_of_cast? {source target : Ty} (h : e.cast? source target = some e')
    (hk : e.kind.isValue = true) : e'.kind.isValue = true := by
  rcases Expression.cast?_kind h with heq | ⟨-, hvalue⟩
  · rw [heq, hk]
  · exact hvalue

theorem Compilation.not_isUse_of_isValue {kind : ExprKind} (h : kind.isValue = true) :
    ¬ c₀.IsUse kind := by
  rintro ⟨d, -, rfl | rfl⟩ <;> cases h

/-- Both runs put a value in the place of one. -/
theorem Twins.value (h : Twins c₀ F c k) (hid : ¬ c₀.Backs id)
    (heq : k.arena.expr id = c.arena.expr id) (hk : (c.arena.expr id).kind.isValue = true)
    (he : e.kind.isValue = true) :
    Twins c₀ F (c.modifyArena (·.modifyExpr id fun _ => e))
      (k.modifyArena (·.modifyExpr id fun _ => e)) := by
  exact h.modifyExpr_same hid heq (ExprKind.children_eq (.inr ⟨hk, he⟩)) fun _ =>
    not_isUse_of_isValue he

/-- A value that is the same in both programs is settled in the same way. -/
theorem matched_concretizeValue (h : Twins c₀ F c k) (hc : c₀.Constants)
    (heq : k.arena.expr id = c.arena.expr id) (hk : (c.arena.expr id).kind.isValue = true) :
    Matched c₀ F (concretizeValue id) c k fun _ _ _ => True := by
  simp only [Matched, concretizeValue_eq, paired_expr, heq]
  split
  · exact paired_pure () h trivial
  · rename_i hnative
    have hid : ¬ c₀.Backs id := fun hb => hnative (by
      rw [h.first.body id hb]
      exact (hc.settled hb).native)
    split
    · rename_i settled hsettled
      have hvalue := (Expression.converts_of_settle? hsettled hnative).isValue.2
      exact .inr ⟨rfl, (h.value hid heq hk hvalue).emit _ _, trivial⟩
    · split <;> exact paired_throw _ h

/-! ### Widening -/

namespace Compilation

theorem Holds.followers (h : c₀.Holds c) (callee : DefId) (args : List ExprId) :
    c.followers callee args = c₀.followers callee args := by
  simp only [Compilation.followers, followsCall, h.definitionType, h.builtins]

theorem Holds.floatCallee? (h : c₀.Holds c) (callee : DefId) :
    c.floatCallee? callee = c₀.floatCallee? callee := by
  simp only [Compilation.floatCallee?, h.definitionType, h.builtins]

/-- Expressions that are floats, or can become floats together with the ones that follow them. -/
def Widenable (c₀ : Compilation) (W : Set ExprId) (k : Compilation) : Prop :=
  ∀ n ∈ W, (k.arena.expr n).ty = .float ∨ (k.arena.expr n).ty = .int ∧
    ((k.arena.expr n).kind.isValue = true ∨ ∃ callee args,
      (k.arena.expr n).kind = .call callee args ∧
        (c₀.arena.definitionType callee).isFunction = true ∧
        ∀ m ∈ c₀.followers callee args, m ∈ W)

theorem Holds.widenable (h : c₀.Holds k) :
    c₀.Widenable { n | ∃ depth, k.widensWithin depth n = some true } k := by
  rintro n ⟨_ | depth, hn⟩
  · cases hn
  simp only [widensWithin] at hn
  split_ifs at hn with hfloat hint
  · exact .inl hfloat
  · cases hn
  rw [ne_eq, not_not] at hint
  refine .inr ⟨hint, ?_⟩
  split at hn
  · rename_i hk
    exact .inl (by rw [hk]; rfl)
  · rename_i callee args hk
    simp only [Bool.and_eq_true, h.followers, h.definitionType] at hn
    split at hn
    · rename_i hfloats
      exact .inr ⟨callee, args, hk, hfloats.2, fun m hm => ⟨depth, allM_eq_true.1 hn m hm⟩⟩
    · cases hn
  · cases hn

/-- What can become a float is no use. -/
theorem Widenable.not_isUse {W : Set ExprId} (h : c₀.Widenable W k) (hc : c₀.Constants)
    (hn : n ∈ W) (hty : (k.arena.expr n).ty ≠ .float) : ¬ c₀.IsUse (k.arena.expr n).kind := by
  rcases (h n hn).resolve_left hty with ⟨-, hvalue | ⟨callee, args, hk, hfunction, -⟩⟩
  · exact not_isUse_of_isValue hvalue
  · rw [hk]
    rintro ⟨d, hd, heq | heq⟩ <;> cases heq
    exact Bool.false_ne_true ((hc.value callee hd).symm.trans hfunction)

theorem Widenable.emit {W : Set ExprId} (h : c₀.Widenable W k) (event : Event) :
    c₀.Widenable W (k.emit event) := h

/-- What became a float is one. -/
theorem Widenable.modifyExpr {W : Set ExprId} (h : c₀.Widenable W k) {f : Expression → Expression}
    (hf : (f (k.arena.expr id)).ty = .float) :
    c₀.Widenable W (k.modifyArena (·.modifyExpr id f)) := by
  intro n hn
  simp only [modifyArena, Arena.expr_modifyExpr]
  split
  · rename_i heq
    rw [heq.1]
    exact .inl hf
  · exact h n hn

end Compilation

theorem Twins.widensWithin (h : Twins c₀ F c k) (hc : c₀.Constants) (depth : Nat)
    (hn : k.widensWithin depth n = some true) : c.widensWithin depth n = some true := by
  induction depth generalizing n with
  | zero => cases hn
  | succ depth ih =>
    by_cases hfloat : (k.arena.expr n).ty = .float
    · simp only [Compilation.widensWithin, ← h.ty, hfloat, if_true]
    · have heq := h.expr_eq (h.second.widenable.not_isUse hc ⟨depth + 1, hn⟩ hfloat)
      rw [heq] at hfloat
      simp only [Compilation.widensWithin, heq, hfloat, if_false] at hn ⊢
      split_ifs at hn ⊢ with hint
      · cases hn
      split at hn
      · rfl
      · simp only [h.second.followers, h.second.floatCallee?, h.second.definitionType,
          h.first.followers, h.first.floatCallee?, h.first.definitionType] at hn ⊢
        split at hn
        · rename_i hfloats
          rw [if_pos hfloats]
          exact allM_eq_true.2 fun m hm => ih (allM_eq_true.1 hn m hm)
        · cases hn
      · cases hn

theorem matched_forEach {action : ExprId → CheckM Unit} {W : Set ExprId}
    (haction : ∀ n ∈ W, ¬ c₀.Backs n → ∀ c k, Twins c₀ F c k → c₀.Widenable W k →
      Matched c₀ F (action n) c k fun _ _ k' => c₀.Widenable W k')
    (ns : List ExprId) (hns : ∀ n ∈ ns, n ∈ W ∧ ¬ c₀.Backs n) (h : Twins c₀ F c k)
    (hW : c₀.Widenable W k) :
    Matched c₀ F (forEach action ns) c k fun _ _ k' => c₀.Widenable W k' := by
  induction ns generalizing c k with
  | nil => exact paired_pure () h hW
  | cons n ns ih =>
    obtain ⟨hn, hns⟩ := List.forall_mem_cons.1 hns
    exact (haction n hn.1 hn.2 c k h hW).bind (fun _ _ _ h' hW' => ih hns h' hW')
      fun _ _ hlost => hlost.elim

/-- **Integers that become floats** without substitution do so with it. -/
theorem matched_widenWithin {W : Set ExprId} (hc : c₀.Constants) (depth : Nat) (hn : n ∈ W)
    (hbody : ¬ c₀.Backs n) (h : Twins c₀ F c k) (hW : c₀.Widenable W k) :
    Matched c₀ F (widenWithin depth n) c k fun _ _ k' => c₀.Widenable W k' := by
  induction depth generalizing n F c k with
  | zero => exact paired_throw _ h
  | succ depth ih =>
    by_cases hfloat : (k.arena.expr n).ty = .float
    · simp only [Matched, widenWithin_succ, paired_get, ← h.ty, hfloat, if_true]
      exact paired_pure () h hW
    · have huse := hW.not_isUse hc hn hfloat
      have heq := h.expr_eq huse
      rw [heq] at hfloat
      simp only [Matched, widenWithin_succ, paired_get, heq, h.first.followers, h.second.followers,
        h.first.floatCallee?, h.second.floatCallee?, hfloat, if_false]
      split
      · rename_i hk
        have hvalue : (c.arena.expr n).kind.isValue = true := by rw [hk]; rfl
        split
        · rename_i cast hcast
          refine .inr ⟨rfl, h.value hbody heq hvalue (Expression.isValue_of_cast? hcast hvalue), ?_⟩
          exact hW.modifyExpr (Expression.ty_of_cast? hcast (by simp))
        · exact paired_pure () h hW
      · rename_i callee args hk
        split
        · rename_i floatCallee hcallee
          -- The call stays one while the calls that follow it are widened.
          have hfollow : ∀ m ∈ c₀.followers callee args, m ∈ W ∧ ¬ c₀.Backs m := by
            intro m hm
            rcases (hW n hn).resolve_left (heq ▸ hfloat) with
              ⟨-, hvalue | ⟨callee', args', hk', -, hfollow⟩⟩
            · rw [heq, hk] at hvalue
              cases hvalue
            · rw [heq, hk] at hk'
              cases hk'
              refine ⟨hfollow m hm, h.first.free n m ?_⟩
              rw [hk]
              exact mem_of_mem_followers hm
          have huse' : ¬ c₀.IsUse (.call floatCallee args) := by
            rintro ⟨d, hd, hkind | hkind⟩ <;> cases hkind
            unfold Compilation.floatCallee? at hcallee
            split at hcallee
            · cases hcallee
              exact hc.negation _ (.inr rfl) hd
            · split at hcallee <;> cases hcallee
              exact huse ⟨_, hd, .inr (by rw [heq, hk])⟩
          refine Paired.mono ?_ fun c' k' (h' : Twins c₀ (insert n F) c' k') =>
            h'.mono (Set.subset_insert n F)
          refine (matched_forEach (fun m hm hbody' c k h' hW' => ih hm hbody' h' hW') _ hfollow
            (h.insert huse) hW).bind (fun _ c₁ k₁ h₁ hW₁ => ?_) fun _ _ hlost => hlost.elim
          have heq₁ := h₁.expr_eq (h₁.firm n (.inl rfl))
          refine .inr ⟨rfl, Twins.emit (h₁.modifyExpr hbody (.inl (by rw [heq₁])) ?_ ?_) _ _, ?_⟩
          · intro m hm
            exact h.first.free n m (by rw [hk]; exact hm)
          · exact fun _ => huse'
          · exact (hW₁.modifyExpr rfl).emit _
        · exact paired_pure () h hW
      · exact paired_pure () h hW

/-! ### Types that are asked for -/

/-- A mismatch of types, as the way an action stops. -/
theorem paired_mismatch {α : Type} {first : CheckM α} (expected found : Ty) (span : Span)
    {ended : α → Compilation → Compilation → Prop} :
    Paired (Twins c₀ F) (fun _ => False) first
      (CheckM.fail (.typeMismatch expected found) span) c k ended :=
  paired_of_mismatch (show _ = EStateM.Result.error _ k from rfl) ⟨expected, found, rfl⟩

/-- A value that is no use is cast in both runs. -/
theorem matched_cast (h : Twins c₀ F c k) (hid : ¬ c₀.Backs id)
    (heq : k.arena.expr id = c.arena.expr id) {source target : Ty} {cast : Expression}
    (hcast : (if (c.arena.expr id).kind.isValue then (c.arena.expr id).cast? source target
      else none) = some cast) :
    Matched c₀ F (CheckM.modifyExpr id fun _ => cast) c k fun _ _ _ => True := by
  split at hcast
  · rename_i hvalue
    exact .inr ⟨rfl, h.value hid heq hvalue (Expression.isValue_of_cast? hcast hvalue), trivial⟩
  · cases hcast

/-- What is not widened without substitution stops there. -/
theorem paired_refusal {first : CheckM Unit} {target : Ty}
    (hwidens : k.widensTo target id ≠ some true) (e : Expression) :
    Paired (Twins c₀ F) (fun _ => False) first
      (match k.widensTo target id with
        | none => throw .cyclic
        | some true => widen id
        | some false => CheckM.fail (.typeMismatch target e.ty) e.span) c k
      fun _ _ _ => True := by
  split
  · exact paired_of_cyclic rfl
  · exact (hwidens ‹_›).elim
  · exact paired_mismatch _ _ _

/-- **An expression is brought into a type** in both runs. The type of a use is not changed. -/
theorem matched_coerceTo (h : Twins c₀ F c k) (hc : c₀.Constants) (target : Ty)
    (hbody : c₀.Backs id → (c₀.arena.expr id).ty = target) :
    Matched c₀ F (coerceTo id target) c k fun _ _ _ => True := by
  simp only [Matched, coerceTo_eq, paired_get, h.ty]
  by_cases hty : (c.arena.expr id).ty = target
  · rw [if_pos hty, if_pos hty]
    exact paired_pure () h trivial
  have hid : ¬ c₀.Backs id := fun hb => hty ((congrArg Expression.ty (h.first.body id hb)).trans
    (hbody hb))
  rw [if_neg hty, if_neg hty]
  by_cases hwidens : k.widensTo target id = some true
  · -- What becomes a float without substitution becomes one with it.
    obtain ⟨rfl, hdepth⟩ := (widensTo_eq_iff (by simp)).1 hwidens
    have hmem : id ∈ { n | ∃ depth, k.widensWithin depth n = some true } := ⟨_, hdepth⟩
    have hne : (k.arena.expr id).ty ≠ .float := by rwa [h.ty]
    have heq := h.expr_eq (h.second.widenable.not_isUse hc hmem hne)
    have hwidens' : c.widensTo .float id = some true := by
      rw [widensTo, if_pos rfl, widens, ← h.size]
      exact h.widensWithin hc _ hdepth
    rw [heq, hwidens, hwidens']
    split
    · exact matched_cast h hid heq ‹_›
    · simp only [widen, paired_arena, h.size]
      exact (matched_widenWithin hc _ hmem hid h h.second.widenable).imp
        fun _ _ _ _ _ => trivial
  · rcases h.expr id with heq | hstands
    · rw [heq]
      split
      · exact matched_cast h hid heq ‹_›
      · exact paired_refusal hwidens (c.arena.expr id)
    · -- A use is no value.
      simp only [hstands.isValue_eq_false, Bool.false_eq_true, if_false]
      exact paired_refusal hwidens { k.arena.expr id with ty := (c.arena.expr id).ty }

/-- The type that is declared for an expression is honoured. -/
theorem matched_honourDeclared (h : Twins c₀ F c k) (hc : c₀.Constants) (id : ExprId) :
    Matched c₀ F (honourDeclared id) c k fun _ _ _ => True := by
  simp only [Matched, honourDeclared, paired_expr, h.declared]
  split
  · rename_i target htarget
    refine matched_coerceTo h hc target fun hb => ?_
    rw [h.first.body id hb] at htarget
    exact (hc.settled hb).declared target htarget
  · exact paired_pure () h trivial

theorem matched_requireNative (h : Twins c₀ F c k) (id : ExprId) :
    Matched c₀ F (requireNative id) c k fun _ _ _ => True := by
  simp only [Matched, requireNative, paired_expr, h.ty, h.span]
  split
  · exact paired_pure () h trivial
  · exact paired_throw _ h

/-! ### Calls -/

theorem matched_coerceAll (hc : c₀.Constants) (unified : Ty) (args : List ExprId)
    (params : List Ty) (hargs : ∀ n ∈ args, ¬ c₀.Backs n) (h : Twins c₀ F c k) :
    Matched c₀ F (coerceAll unified args params) c k fun _ _ _ => True := by
  induction args generalizing params c k with
  | nil => exact paired_pure () h trivial
  | cons arg args ih =>
    cases params with
    | nil => exact paired_pure () h trivial
    | cons param params =>
      obtain ⟨harg, hargs⟩ := List.forall_mem_cons.1 hargs
      exact (matched_coerceTo h hc _ fun hb => (harg hb).elim).bind
        (fun _ _ _ h' _ => ih params hargs h') fun _ _ hlost => hlost.elim

theorem Twins.unifiedNumber (h : Twins c₀ F c k) (args : List ExprId) (params : List Ty) :
    unifiedNumber k.arena args params = unifiedNumber c.arena args params := by
  simp only [Termwise.unifiedNumber, h.ty]

/-- What is no use takes a type. -/
theorem Twins.setType (h : Twins c₀ F c k) (hid : ¬ c₀.Backs id) (hfirm : id ∈ F) (ty : Ty) :
    Twins c₀ F (c.modifyArena (·.modifyExpr id fun e => { e with ty }))
      (k.modifyArena (·.modifyExpr id fun e => { e with ty })) :=
  have heq := h.expr_eq (h.firm id hfirm)
  h.modifyExpr_same hid heq rfl fun _ => heq ▸ h.firm id hfirm

/-- **A call that is no use** is typed over its arguments. -/
theorem matched_typeCall (h : Twins c₀ F c k) (hc : c₀.Constants) (hid : ¬ c₀.Backs id)
    (hfirm : id ∈ F) {args : List ExprId} (hargs : ∀ n ∈ args, ¬ c₀.Backs n) (calleeType : Ty) :
    Matched c₀ F (typeCall id calleeType args) c k fun _ _ _ => True := by
  unfold typeCall
  split
  · rename_i params result isPure
    simp only [Matched, paired_arena, h.unifiedNumber]
    refine (matched_coerceAll hc _ args params hargs h).bind (fun _ c₁ k₁ h₁ _ => ?_)
      fun _ _ hlost => hlost.elim
    split
    · exact .inr ⟨rfl, h₁.setType hid hfirm _, trivial⟩
    · exact paired_pure () h₁ trivial
  · exact .inr ⟨rfl, h.setType hid hfirm _, trivial⟩

/-- **A reference that is no use** takes the type of its definition. -/
theorem matched_typeReference (h : Twins c₀ F c k) (hid : ¬ c₀.Backs id) (hfirm : id ∈ F)
    (d : DefId) : Matched c₀ F (typeReference id d) c k fun _ _ _ => True := by
  simp only [Matched, typeReference, paired_definitionType, paired_definition, paired_expr,
    h.definitionType, h.definition, h.span]
  split
  · exact paired_throw _ h
  · split
    · exact paired_throw _ h
    · exact .inr ⟨rfl, h.setType hid hfirm _, trivial⟩

/-! ### Negation -/

/-- A use is acceptable as an argument if the constant is so without a cast. -/
theorem Compilation.Stands.coerce (h : c₀.Stands e e') (hc : c₀.Constants) (param : Ty) :
    (e.coerce param = .ok e ∧ e'.coerce param = .ok e') ∨
      e'.coerce param = .error (.typeMismatch param e'.ty) := by
  obtain ⟨d, hd, huse, hty⟩ := h.use
  have hnative : e.ty.native = .yes := by
    rw [hty]
    exact hc.native hd
  -- A native type is neither the hole nor a number in general, so only equal types are left.
  obtain ⟨hhole, hnumber, -⟩ := Ty.of_native hnative
  have hmissing : e.kind.isMissingArg = false := ExprKind.isMissingArg_of_isValue h.value
  have hmissing' : e'.kind.isMissingArg = false := by
    rcases huse with huse | huse <;> rw [huse] <;> rfl
  simp only [Expression.coerce_eq, hmissing, hmissing', h.ty, hhole, hnumber, h.isValue_eq_false,
    false_and, Bool.false_eq_true, if_false]
  split_ifs
  · exact .inl ⟨rfl, rfl⟩
  · exact .inl ⟨rfl, rfl⟩
  all_goals exact .inr rfl

/-- An argument is made acceptable, unless it is a use of another type. -/
theorem matched_coerceArg (h : Twins c₀ F c k) (hc : c₀.Constants) (hx : ¬ c₀.Backs x)
    (param : Ty) : Matched c₀ F (coerceArg x param) c k fun _ _ _ => True := by
  simp only [Matched, coerceArg_eq, paired_expr]
  rcases h.expr x with heq | hstands
  · rw [heq]
    split
    · rename_i coerced hcoerced
      have hkind := Expression.coerce_kind hcoerced
      refine .inr ⟨rfl, h.modifyExpr_same hx heq (ExprKind.children_eq hkind) fun hF => ?_, trivial⟩
      rcases hkind with hkind | ⟨-, hvalue'⟩
      · rw [hkind, ← heq]
        exact h.firm x hF
      · exact not_isUse_of_isValue hvalue'
    · exact paired_throw _ h
  · rcases hstands.coerce hc param with ⟨hok, hok'⟩ | herror
    · rw [hok, hok']
      refine .inr ⟨rfl, h.modifyExpr hx (.inr hstands) (h.first.free x) (h.firm x), trivial⟩
    · rw [herror]
      exact paired_mismatch _ _ _

/-- **A call over one argument** is created in both runs. -/
theorem matched_createCall (h : Twins c₀ F c k) (hc : c₀.Constants) (hx : ¬ c₀.Backs x)
    (d : DefId) (span : Span) :
    Matched c₀ F (createCall d [x] span) c k fun call _ _ => call.kind = .call d [x] := by
  simp only [Matched, createCall, paired_definitionType, h.definitionType]
  split
  · rename_i params result isPure _
    have hcoerce : Matched c₀ F (coerceArgs [x] params) c k fun _ _ _ => True := by
      cases params with
      | nil => exact paired_pure () h trivial
      | cons param params =>
        exact (matched_coerceArg h hc hx param).bind (fun _ _ _ h' _ => paired_pure () h' trivial)
          fun _ _ hlost => hlost.elim
    split
    · simp only [paired_definition, h.definition]
      exact paired_throw_bind _ h
    · refine hcoerce.bind (fun _ c₁ k₁ h₁ _ => ?_) fun _ _ hlost => hlost.elim
      simp only [paired_arena, h₁.isMissing]
      split
      · exact paired_pure _ h₁ rfl
      · have hty (store : TypeStore) := store.functionType_ty
          (unboundParams c₁.arena.isMissing params [x]) result isPure
        refine .inr ⟨?_, h₁.types _ _, rfl⟩
        exact congrArg (Expression.new _ · span) ((hty k₁.types).trans (hty c₁.types).symm)
  · split
    · rename_i hempty
      cases hempty
    · simp only [paired_definition, h.definition]
      exact paired_throw_bind _ h

/-- The constant in the place of a use has its native type, and the negation goes by that. -/
theorem Twins.negationFor (h : Twins c₀ F c k) (hc : c₀.Constants) (x : ExprId) :
    k.negationFor x = c.negationFor x := by
  rcases h.expr x with heq | hstands
  · simp only [Compilation.negationFor, heq, h.builtins]
  · obtain ⟨d, hd, -, hty⟩ := hstands.use
    have hnative : (c.arena.expr x).ty.native = .yes := by
      rw [hty]
      exact hc.native hd
    have hliteral := (Ty.of_native hnative).2.2.1
    simp only [Compilation.negationFor, h.builtins, hstands.ty]
    split
    · rename_i hfloat
      simp only [hfloat]
    · rename_i hty' _
      exact (hliteral hty').elim
    · rename_i hfloat _
      simp only [Bool.false_eq_true, if_false]
      split
      · exact (hfloat ‹_›).elim
      · exact (hliteral ‹_›).elim
      · simp

/-- **A minus sign** becomes a call in both runs. -/
theorem matched_callNegation (h : Twins c₀ F c k) (hc : c₀.Constants) (hid : ¬ c₀.Backs id)
    (hx : ¬ c₀.Backs x) : Matched c₀ F (callNegation id x) c k fun _ _ _ => True := by
  simp only [Matched, callNegation, paired_get, paired_expr, h.span]
  rw [h.negationFor hc]
  refine (matched_createCall h hc hx _ _).bind (fun call c₁ k₁ h₁ hcall => ?_)
    fun _ _ hlost => hlost.elim
  refine .inr ⟨rfl, h₁.modifyExpr hid (.inl ?_) ?_ fun _ => ?_, trivial⟩
  · simp only [Expression.replaceBy, h₁.declared, h₁.span]
  · simp only [Expression.replaceBy, hcall, ExprKind.children, List.mem_singleton, forall_eq]
    exact hx
  · simp only [Expression.replaceBy, hcall]
    rintro ⟨d, -, heq | heq⟩ <;> cases heq

end Termwise
