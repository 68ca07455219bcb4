import Termwise.Proofs.Concretization.Insertion
import Termwise.Proofs.Concretization.StepLaws
import Termwise.Proofs.Lockstep

/-!
# Steps of a program with some nodes and without

A step of the walk looks at an expression and at what lies below it. Some nodes more that nothing
leads to are never looked at: the step does the same to an expression in the smaller program and
to its counterpart in the larger one, and stops in both or in none.

## Main definitions

* `Parallel`: a step of two programs

## Main results

* `parallel_substitute`, `parallel_typeCall`, `parallel_callNegation`: steps that change what lies
  below an expression, or its type
-/

namespace Termwise

open Compilation

variable {α α' β β' : Type} {I : Insertion} {c k : Compilation} {n id x : ExprId} {d : DefId}

/-- **A step of two programs**, without some nodes and with them. -/
def Parallel (I : Insertion) (first : CheckM α) (second : CheckM β) (c k : Compilation)
    (ended : α → β → Compilation → Prop) : Prop :=
  Lockstep first second c k (fun a b c' k' => Inserted I c' k' ∧ c.Branches c' ∧ ended a b c')
    fun c' k' => Inserted I c' k' ∧ c.Branches c'

/-! ## Building blocks -/

section

variable {first : CheckM α} {second : CheckM β} {ended ended' : α → β → Compilation → Prop}

@[simp] theorem parallel_get {rest : Compilation → CheckM α} {rest' : Compilation → CheckM β} :
    Parallel I (get >>= rest) (get >>= rest') c k ended ↔
      Parallel I (rest c) (rest' k) c k ended := Iff.rfl

@[simp] theorem parallel_arena {rest : Arena → CheckM α} {rest' : Arena → CheckM β} :
    Parallel I (CheckM.arena >>= rest) (CheckM.arena >>= rest') c k ended ↔
      Parallel I (rest c.arena) (rest' k.arena) c k ended := Iff.rfl

@[simp] theorem parallel_expr {rest : Expression → CheckM α} {rest' : Expression → CheckM β}
    (n m : ExprId) :
    Parallel I (CheckM.expr n >>= rest) (CheckM.expr m >>= rest') c k ended ↔
      Parallel I (rest (c.arena.expr n)) (rest' (k.arena.expr m)) c k ended := Iff.rfl

@[simp] theorem parallel_definition {rest : Definition → CheckM α}
    {rest' : Definition → CheckM β} (d : DefId) :
    Parallel I (CheckM.definition d >>= rest) (CheckM.definition d >>= rest') c k ended ↔
      Parallel I (rest (c.arena.definition d)) (rest' (k.arena.definition d)) c k ended := Iff.rfl

@[simp] theorem parallel_definitionType {rest : Ty → CheckM α} {rest' : Ty → CheckM β}
    (d : DefId) :
    Parallel I (CheckM.definitionType d >>= rest) (CheckM.definitionType d >>= rest') c k ended ↔
      Parallel I (rest (c.arena.definitionType d)) (rest' (k.arena.definitionType d)) c k ended :=
  Iff.rfl

/-- Both steps stop for the same reason. -/
theorem parallel_fail (h : Inserted I c k) (cause : Cause) (span : Span) :
    Parallel I (CheckM.fail cause span) (CheckM.fail cause span) c k ended :=
  ⟨rfl, h, .refl c⟩

theorem parallel_fail_bind {rest : α' → CheckM α} {rest' : β' → CheckM β} (h : Inserted I c k)
    (cause : Cause) (span : Span) :
    Parallel I (CheckM.fail cause span >>= rest) (CheckM.fail cause span >>= rest') c k ended :=
  ⟨rfl, h, .refl c⟩

theorem parallel_pure {a : α} {b : β} (h : Inserted I c k) (hended : ended a b c) :
    Parallel I (pure a) (pure b) c k ended := ⟨h, .refl c, hended⟩

theorem Parallel.imp (h : Parallel I first second c k ended)
    (himp : ∀ a b c', ended a b c' → ended' a b c') : Parallel I first second c k ended' :=
  Lockstep.mono h (fun a b c' _ h => ⟨h.1, h.2.1, himp a b c' h.2.2⟩) fun _ _ h => h

/-- **Steps in sequence.** -/
theorem Parallel.bind {first : CheckM α'} {second : CheckM β'} {rest : α' → CheckM α}
    {rest' : β' → CheckM β} {mid : α' → β' → Compilation → Prop}
    (h : Parallel I first second c k mid)
    (hrest : ∀ a b c' k', Inserted I c' k' → c.Branches c' → mid a b c' →
      Parallel I (rest a) (rest' b) c' k' ended) :
    Parallel I (first >>= rest) (second >>= rest') c k ended := by
  refine Lockstep.bind h ?_
  rintro a b c' k' ⟨hinserted, hbranches, hmid⟩
  refine Lockstep.mono (hrest a b c' k' hinserted hbranches hmid) ?_ ?_
  · exact fun _ _ _ _ h => ⟨h.1, hbranches.trans h.2.1, h.2.2⟩
  · exact fun _ _ h => ⟨h.1, hbranches.trans h.2⟩

end

/-- Nothing is said of the results of the steps. -/
abbrev Steps (I : Insertion) (first second : CheckM Unit) (c k : Compilation) : Prop :=
  Parallel I first second c k fun _ _ _ => True

/-- **The same change** of a node and of its counterpart. -/
theorem steps_modifyExpr (h : Inserted I c k) (id : ExprId) {f g : Expression → Expression}
    (hfg : g ((c.arena.expr id).relocate I.move) = (f (c.arena.expr id)).relocate I.move)
    (hchildren : (f (c.arena.expr id)).kind.children = (c.arena.expr id).kind.children) :
    Parallel I (CheckM.modifyExpr id f) (CheckM.modifyExpr (I.move id) g) c k fun _ _ c' =>
      c' = c.modifyArena (·.modifyExpr id f) :=
  ⟨h.modifyExpr hfg hchildren, branches_of_children ⟨rfl, rfl, rfl, rfl⟩
    (Arena.size_modifyExpr ..) (children_modifyExpr hchildren), rfl⟩

theorem steps_emit (h : Inserted I c k) (event event' : Event) :
    Parallel I (CheckM.emit event) (CheckM.emit event') c k fun _ _ c' => c' = c.emit event :=
  ⟨h.of_arena_eq rfl rfl rfl rfl, branches_of_children ⟨rfl, rfl, rfl, rfl⟩ rfl fun _ => rfl, rfl⟩

theorem steps_setType (h : Inserted I c k) (id : ExprId) (ty : Ty) :
    Steps I (CheckM.setType id ty) (CheckM.setType (I.move id) ty) c k := by
  have hset := steps_modifyExpr h id (f := fun e => { e with ty })
    (g := fun e => { e with ty }) rfl rfl
  exact hset.imp fun _ _ _ _ => trivial

/-- The known expression is put at the place of a node and of its counterpart. -/
theorem steps_put (h : Inserted I c k) {id : ExprId} {e : Expression}
    (hchildren : e.kind.children = (c.arena.expr id).kind.children) :
    Parallel I (CheckM.modifyExpr id fun _ => e)
      (CheckM.modifyExpr (I.move id) fun _ => e.relocate I.move) c k fun _ _ c' =>
        c' = c.modifyArena (·.modifyExpr id fun _ => e) :=
  steps_modifyExpr h id rfl hchildren

/-! ## Values -/

theorem parallel_concretizeValue (h : Inserted I c k) (id : ExprId) :
    Steps I (concretizeValue id) (concretizeValue (I.move id)) c k := by
  simp only [concretizeValue_eq, parallel_expr, h.arena.expr, Expression.ty_relocate,
    Expression.settle?_relocate, Expression.value?_relocate, Expression.span_relocate]
  split
  · exact parallel_pure h trivial
  · cases hsettle : (c.arena.expr id).settle? (c.arena.expr id).ty with
    | some settled =>
      refine (steps_put h (ExprKind.children_eq (Expression.settle?_kind hsettle))).bind ?_
      intro _ _ c' k' h' _ _
      exact (steps_emit h' _ _).imp fun _ _ _ _ => trivial
    | none =>
      simp only [Option.map_none]
      split
      · exact parallel_fail h _ _
      · exact parallel_fail h _ _

/-! ## Widening -/

/-- A tree can become one of floats in both programs or in none, provided that the descent is deep
enough for it. -/
theorem widensWithin_move {P : Expression → Prop} {depth depth' : Nat} (h : Inserted I c k)
    (hs : c.arena.Shallow P depth n) (hle : depth ≤ depth') :
    k.widensWithin depth' (I.move n) = c.widensWithin depth n := by
  induction depth generalizing depth' n with
  | zero => exact hs.elim
  | succ depth ih =>
    obtain ⟨depth', rfl⟩ := Nat.exists_eq_add_one.2 (Nat.zero_lt_of_lt hle)
    obtain ⟨-, -, hchildren⟩ := hs
    simp only [widensWithin, h.arena.expr, Expression.ty_relocate, Expression.kind_relocate]
    split
    · rfl
    · split
      · rfl
      · cases hk : (c.arena.expr n).kind with
        | call d args =>
          simp only [ExprKind.relocate, h.floatCallee?, h.definitionType, h.followers,
            allM_map]
          have hall : (c.followers d args).allM (fun m => k.widensWithin depth' (I.move m)) =
              (c.followers d args).allM (c.widensWithin depth) := by
            refine allM_congr fun m hm => ih (hchildren m ?_) (Nat.le_of_succ_le_succ hle)
            rw [hk]
            exact mem_of_mem_followers hm
          rw [hall]
        | _ => rfl

theorem Compilation.Inserted.widens (h : Inserted I c k) (n : ExprId) :
    k.widens (I.move n) = c.widens n := by
  by_cases hn : n.index < c.arena.exprs.size
  · refine widensWithin_move h ((h.grounded.shallow hn).mono (Nat.le_succ _)) ?_
    rw [h.arena.size]
    omega
  · have hge := Nat.le_of_not_lt hn
    have hge' := Nat.le_of_not_lt (mt h.arena.index_move_lt.1 hn)
    rw [Compilation.widens, Compilation.widens, widensWithin_of_size_le hge,
      widensWithin_of_size_le hge']

/-- What lies below the nodes is the same, and there are as many. -/
structure Compilation.SameTrees (c c' : Compilation) : Prop where
  children : ∀ n, (c'.arena.expr n).kind.children = (c.arena.expr n).kind.children
  size : c'.arena.exprs.size = c.arena.exprs.size

theorem Compilation.SameTrees.refl (c : Compilation) : c.SameTrees c := ⟨fun _ => rfl, rfl⟩

theorem Compilation.SameTrees.trans {c' c'' : Compilation} (h : c.SameTrees c')
    (h' : c'.SameTrees c'') : c.SameTrees c'' :=
  ⟨fun n => (h'.children n).trans (h.children n), h'.size.trans h.size⟩

theorem sameTrees_modifyExpr {id : ExprId} {f : Expression → Expression}
    (h : (f (c.arena.expr id)).kind.children = (c.arena.expr id).kind.children) :
    c.SameTrees (c.modifyArena (·.modifyExpr id f)) :=
  ⟨children_modifyExpr h, Arena.size_modifyExpr ..⟩

theorem Compilation.SameTrees.shallow {c' : Compilation} {depth : Nat} (h : c.SameTrees c')
    (hs : c.arena.Shallow (fun _ => True) depth n) :
    c'.arena.Shallow (fun _ => True) depth n := by
  induction depth generalizing n with
  | zero => exact hs
  | succ depth ih =>
    obtain ⟨hlt, -, hchildren⟩ := hs
    refine ⟨h.size ▸ hlt, trivial, fun m hm => ih (hchildren m ?_)⟩
    rwa [h.children] at hm

/-- A step on each of some nodes that leaves the trees as they are. -/
theorem parallel_forEach {action action' : ExprId → CheckM Unit} (ns : List ExprId)
    (haction : ∀ n ∈ ns, ∀ c' k', Inserted I c' k' → c.SameTrees c' →
      Parallel I (action n) (action' (I.move n)) c' k' fun _ _ => c'.SameTrees)
    {c' k' : Compilation} (h : Inserted I c' k') (hsame : c.SameTrees c') :
    Parallel I (forEach action ns) (forEach action' (ns.map I.move)) c' k' fun _ _ =>
      c'.SameTrees := by
  induction ns generalizing c' k' with
  | nil => exact parallel_pure h (.refl c')
  | cons n ns ih =>
    obtain ⟨hn, hns⟩ := List.forall_mem_cons.1 haction
    refine (hn c' k' h hsame).bind ?_
    intro _ _ c₁ k₁ h₁ _ hsame₁
    exact (ih hns h₁ (hsame.trans hsame₁)).imp fun _ _ _ => hsame₁.trans

/-- **A tree is rebuilt** with floats in both programs, provided that the descent is deep enough. -/
theorem parallel_widenWithin {depth depth' : Nat} (h : Inserted I c k)
    (hs : c.arena.Shallow (fun _ => True) depth n) (hle : depth ≤ depth') :
    Parallel I (widenWithin depth n) (widenWithin depth' (I.move n)) c k fun _ _ =>
      c.SameTrees := by
  induction depth generalizing depth' n c k with
  | zero => exact hs.elim
  | succ depth ih =>
    obtain ⟨depth', rfl⟩ := Nat.exists_eq_add_one.2 (Nat.zero_lt_of_lt hle)
    obtain ⟨-, -, hchildren⟩ := hs
    simp only [widenWithin_succ, parallel_get, h.arena.expr, Expression.ty_relocate,
      Expression.kind_relocate]
    split
    · exact parallel_pure h (.refl c)
    · cases hk : (c.arena.expr n).kind with
      | value v =>
        simp only [ExprKind.relocate, Expression.cast?_relocate]
        cases hcast : (c.arena.expr n).cast? .int .float with
        | some cast =>
          have hput := ExprKind.children_eq (Expression.cast?_kind hcast)
          refine (steps_put h hput).imp ?_
          rintro _ _ _ rfl
          exact sameTrees_modifyExpr hput
        | none => exact parallel_pure h (.refl c)
      | call d args =>
        simp only [ExprKind.relocate, h.floatCallee?]
        cases hfloat : c.floatCallee? d with
        | some floatCallee =>
          simp only [h.followers]
          have haction : ∀ m ∈ c.followers d args, ∀ c' k', Inserted I c' k' → c.SameTrees c' →
              Parallel I (widenWithin depth m) (widenWithin depth' (I.move m)) c' k' fun _ _ =>
                c'.SameTrees := by
            intro m hm c' k' h' hsame
            have hmem := mem_of_mem_followers hm
            exact ih h' (hsame.shallow (hchildren m (by rwa [hk]))) (Nat.le_of_succ_le_succ hle)
          refine (parallel_forEach _ haction h (.refl c)).bind ?_
          intro _ _ c₁ k₁ h₁ _ hsame₁
          -- The arguments were read before they were rebuilt, and are still the same.
          have hput : (c₁.arena.expr n).kind.children = args := by
            rw [hsame₁.children, hk]
            rfl
          have hset := steps_modifyExpr h₁ n
            (f := fun e => { e with kind := .call floatCallee args, ty := .float })
            (g := fun e => { e with kind := .call floatCallee (args.map I.move), ty := .float })
            rfl hput.symm
          have hsame₂ : c₁.SameTrees (c₁.modifyArena (·.modifyExpr n fun e =>
              { e with kind := .call floatCallee args, ty := .float })) :=
            sameTrees_modifyExpr hput.symm
          refine hset.bind ?_
          rintro _ _ c₂ k₂ h₂ _ rfl
          refine (steps_emit h₂ _ _).imp ?_
          rintro _ _ _ rfl
          exact hsame₁.trans ⟨hsame₂.children, hsame₂.size⟩
        | none => exact parallel_pure h (.refl c)
      | _ => exact parallel_pure h (.refl c)

theorem Compilation.Inserted.widensTo (h : Inserted I c k) (target : Ty) (n : ExprId) :
    k.widensTo target (I.move n) = c.widensTo target n := by
  rw [Compilation.widensTo, Compilation.widensTo, h.widens]

/-- **What is not cast** is widened in both programs, or refused in both. -/
theorem parallel_widenOrRefuse (h : Inserted I c k) (id : ExprId) (target : Ty) (e : Expression) :
    Steps I
      (match c.widensTo target id with
        | none => throw .cyclic
        | some true => widen id
        | some false => CheckM.fail (.typeMismatch target e.ty) e.span)
      (match c.widensTo target id with
        | none => throw .cyclic
        | some true => widen (I.move id)
        | some false => CheckM.fail (.typeMismatch target e.ty) e.span) c k := by
  split
  · exact ⟨rfl, h, .refl c⟩
  · rename_i hwidens
    have hlt : id.index < c.arena.exprs.size := by
      by_contra hlt
      have hwidens := ((widensTo_eq_iff (by simp)).1 hwidens).2
      rw [Compilation.widens, widensWithin_of_size_le (Nat.le_of_not_lt hlt)] at hwidens
      cases hwidens
    have hshallow := (h.grounded.shallow hlt).mono (Nat.le_succ _)
    simp only [widen, parallel_arena]
    refine (parallel_widenWithin h hshallow ?_).imp fun _ _ _ _ => trivial
    rw [h.arena.size]
    omega
  · exact parallel_fail h _ _

/-- **An expression is brought into a type** in both programs. -/
theorem parallel_coerceTo (h : Inserted I c k) (id : ExprId) (target : Ty) :
    Steps I (coerceTo id target) (coerceTo (I.move id) target) c k := by
  simp only [coerceTo_eq, parallel_get, h.arena.expr, Expression.ty_relocate,
    Expression.kind_relocate, ExprKind.isValue_relocate, Expression.cast?_relocate, h.widensTo,
    Expression.span_relocate]
  split
  · exact parallel_pure h trivial
  · have hwiden := parallel_widenOrRefuse h id target (c.arena.expr id)
    cases hvalue : (c.arena.expr id).kind.isValue with
    | true =>
      simp only [if_true]
      cases hcast : (c.arena.expr id).cast? (c.arena.expr id).ty target with
      | some cast =>
        refine (steps_put h (ExprKind.children_eq (Expression.cast?_kind hcast))).imp ?_
        exact fun _ _ _ _ => trivial
      | none => exact hwiden
    | false => exact hwiden

theorem parallel_honourDeclared (h : Inserted I c k) (id : ExprId) :
    Steps I (honourDeclared id) (honourDeclared (I.move id)) c k := by
  simp only [honourDeclared, parallel_expr, h.arena.expr, Expression.declared_relocate]
  split
  · exact parallel_coerceTo h id _
  · exact parallel_pure h trivial

theorem parallel_requireNative (h : Inserted I c k) (id : ExprId) :
    Steps I (requireNative id) (requireNative (I.move id)) c k := by
  simp only [requireNative, parallel_expr, h.arena.expr, Expression.ty_relocate,
    Expression.span_relocate]
  split
  · exact parallel_pure h trivial
  · exact parallel_fail h _ _

/-! ## Uses -/

theorem parallel_typeReference (h : Inserted I c k) (id : ExprId) (d : DefId) :
    Steps I (typeReference id d) (typeReference (I.move id) d) c k := by
  simp only [typeReference, parallel_definitionType, parallel_definition, parallel_expr,
    h.definitionType, h.definition, h.arena.expr, Expression.span_relocate]
  split
  · exact parallel_fail_bind h _ _
  · split
    · exact parallel_fail_bind h _ _
    · exact steps_setType h id _

/-- The same body is copied to the place of a use and of its counterpart. -/
theorem parallel_replace (h : Inserted I c k) {b : ExprId}
    (hb : (c.arena.definition d).body = .expression b)
    (hleaf : (c.arena.expr id).kind.children = []) (hid : id.index < c.arena.exprs.size) :
    Steps I (putCopy id b) (putCopy (I.move id) b) c k := by
  have hlt := (h.grounded.bodies d b hb).trans_le h.arena.start
  obtain ⟨hc, hk⟩ := h.copy_ne_none hb
  rw [Steps, Parallel, Lockstep, putCopy_of_ne_none hc, putCopy_of_ne_none hk]
  exact ⟨h.replace hb hid, h.grounded.branches_replace hlt hid hleaf, trivial⟩

/-- **A use is replaced** in both programs or in none. -/
theorem parallel_substituteReference (h : Inserted I c k) (id : ExprId) (d : DefId)
    (hleaf : (c.arena.expr id).kind.children = []) (hid : id.index < c.arena.exprs.size) :
    Parallel I (substituteReference id d) (substituteReference (I.move id) d) c k
      fun replaced replaced' c' => replaced' = replaced ∧
        (replaced = false → c'.arena = c.arena) := by
  -- A use that is kept says so in both programs, or in neither.
  have hkept (event : Event) : Parallel I (do CheckM.emit event; return false)
      (do CheckM.emit event; return false) c k fun replaced replaced' c' =>
        replaced' = replaced ∧ (replaced = false → c'.arena = c.arena) := by
    refine (steps_emit h event event).bind ?_
    rintro _ _ c' k' h' _ rfl
    exact parallel_pure h' ⟨rfl, fun _ => rfl⟩
  have hpure : Parallel I (pure false) (pure false) c k fun replaced replaced' c' =>
      replaced' = replaced ∧ (replaced = false → c'.arena = c.arena) :=
    parallel_pure h ⟨rfl, fun _ => rfl⟩
  simp only [substituteReference, parallel_arena, h.definition, h.definitionType, h.arena.expr,
    Expression.declared_relocate]
  split
  · exact hkept _
  · exact hpure
  · exact hpure
  · rename_i b hb
    have hdone : Parallel I
        (do
          putCopy id b
          CheckM.emit (.substituted (c.arena.definition d).name)
          return true)
        (do
          putCopy (I.move id) b
          CheckM.emit (.substituted (c.arena.definition d).name)
          return true) c k fun replaced replaced' c' =>
        replaced' = replaced ∧ (replaced = false → c'.arena = c.arena) := by
      refine (parallel_replace h hb hleaf hid).bind fun _ _ c₁ k₁ h₁ _ _ => ?_
      refine (steps_emit h₁ _ _).bind fun _ _ c₂ k₂ h₂ _ _ => ?_
      exact parallel_pure h₂ ⟨rfl, fun hfalse => by cases hfalse⟩
    have hbody : (k.arena.expr b).kind.isSubstitutable =
        (c.arena.expr b).kind.isSubstitutable := by
      have hexpr := h.arena.expr b
      rw [h.index_body hb] at hexpr
      rw [hexpr, Expression.kind_relocate, ExprKind.isSubstitutable_relocate]
    rw [hbody]
    split
    · exact hkept _
    · split_ifs
      · exact hkept _
      · exact hpure
      · exact hpure
      · exact hdone
      · exact hpure
      · exact hdone

theorem parallel_substitute (settings : Settings) (h : Inserted I c k) (id : ExprId)
    (hd : (c.arena.expr id).kind.definition? = some d) :
    Parallel I (substitute settings id) (substitute settings (I.move id)) c k
      fun replaced replaced' _ => replaced' = replaced := by
  have hid : id.index < c.arena.exprs.size :=
    Arena.lt_size_of_kind_ne fun hk => by rw [hk] at hd; cases hd
  have hpure : Parallel I (pure false) (pure false) c k fun replaced replaced' _ =>
      replaced' = replaced := parallel_pure h rfl
  simp only [substitute]
  split
  · exact hpure
  · simp only [parallel_expr, h.arena.expr, Expression.kind_relocate]
    cases hk : (c.arena.expr id).kind with
    | reference d' =>
      refine (parallel_substituteReference h id d' ?_ hid).imp fun _ _ _ h => h.1
      rw [hk]
      rfl
    | call d' args =>
      simp only [ExprKind.relocate, substituteCall, parallel_definitionType, h.definitionType,
        List.isEmpty_map]
      split
      · exact hpure
      · rename_i hargs
        obtain rfl : args = [] := by
          cases args with
          | nil => rfl
          | cons arg args => simp at hargs
        simp only [parallel_expr]
        -- The call is read as a reference, and becomes a call again if nothing came of it.
        have hread := steps_modifyExpr h id (f := fun e => { e with kind := .reference d' })
          (g := fun e => { e with kind := .reference d' }) rfl (by rw [hk]; rfl)
        refine hread.bind ?_
        rintro _ _ c₁ k₁ h₁ _ rfl
        have hself := Arena.expr_modifyExpr_self hid fun e => { e with kind := .reference d' }
        have hleaf : ((c.modifyArena (·.modifyExpr id fun e =>
            { e with kind := .reference d' })).arena.expr id).kind.children = [] := by
          simp only [modifyArena, hself, ExprKind.children]
        have hid₁ : id.index < (c.modifyArena (·.modifyExpr id fun e =>
            { e with kind := .reference d' })).arena.exprs.size := by
          simpa [modifyArena] using hid
        refine (parallel_substituteReference h₁ id d' hleaf hid₁).bind ?_
        rintro (_ | _) _ c₂ k₂ h₂ - ⟨rfl, hkept⟩
        · have hback := steps_modifyExpr h₂ id (f := fun e => { e with kind := .call d' [] })
            (g := fun e => { e with kind := .call d' [] }) rfl (by rw [hkept rfl, hleaf]; rfl)
          have hk' : (k.arena.expr (I.move id)).kind = .call d' [] := by
            rw [h.arena.expr, Expression.kind_relocate, hk]
            rfl
          simp only [Bool.false_eq_true, if_false, hk, hk']
          refine hback.bind fun _ _ c₃ k₃ h₃ _ _ => ?_
          exact parallel_pure h₃ rfl
        · simp only [if_true, parallel_definition, h₂.definition]
          refine (steps_emit h₂ _ _).bind fun _ _ c₃ k₃ h₃ _ _ => ?_
          exact parallel_pure h₃ rfl
    | _ => exact hpure

/-! ## Calls -/

theorem Compilation.Inserted.unifiedNumber (h : Inserted I c k) (args : List ExprId)
    (params : List Ty) :
    unifiedNumber k.arena (args.map I.move) params = unifiedNumber c.arena args params := by
  simp only [Termwise.unifiedNumber, List.zip_map_left, List.any_map, Function.comp_def,
    Prod.map_fst, Prod.map_snd, h.arena.expr, Expression.ty_relocate, id_eq]

theorem parallel_coerceAll (unified : Ty) (args : List ExprId) (params : List Ty)
    (h : Inserted I c k) :
    Steps I (coerceAll unified args params) (coerceAll unified (args.map I.move) params) c k := by
  induction args generalizing params c k with
  | nil => exact parallel_pure h trivial
  | cons arg args ih =>
    cases params with
    | nil => exact parallel_pure h trivial
    | cons param params =>
      refine (parallel_coerceTo h arg _).bind ?_
      exact fun _ _ c' k' h' _ _ => ih params h'

theorem parallel_typeCall (h : Inserted I c k) (id : ExprId) (calleeType : Ty)
    (args : List ExprId) :
    Steps I (typeCall id calleeType args) (typeCall (I.move id) calleeType (args.map I.move)) c
      k := by
  unfold typeCall
  cases calleeType with
  | function params result isPure =>
    simp only [parallel_arena, h.unifiedNumber]
    refine (parallel_coerceAll _ args params h).bind fun _ _ c' k' h' _ _ => ?_
    split
    · exact steps_setType h' id _
    · exact parallel_pure h' trivial
  | builtin b => exact steps_setType h id _
  | _ => exact steps_setType h id _

theorem parallel_coerceArgs (args : List ExprId) (params : List Ty) (h : Inserted I c k) :
    Parallel I (coerceArgs args params) (coerceArgs (args.map I.move) params) c k fun _ _ =>
      c.SameTrees := by
  induction args generalizing params c k with
  | nil => exact parallel_pure h (.refl c)
  | cons arg args ih =>
    cases params with
    | nil => exact parallel_pure h (.refl c)
    | cons param params =>
      have harg : Parallel I (coerceArg arg param) (coerceArg (I.move arg) param) c k fun _ _ =>
          c.SameTrees := by
        simp only [coerceArg_eq, parallel_expr, h.arena.expr, Expression.coerce_relocate]
        cases hcoerce : (c.arena.expr arg).coerce param with
        | ok coerced =>
          have hput := ExprKind.children_eq (Expression.coerce_kind hcoerce)
          refine (steps_put h hput).imp ?_
          rintro _ _ _ rfl
          exact sameTrees_modifyExpr hput
        | error cause => exact parallel_fail h _ _
      refine harg.bind fun _ _ c' k' h' _ hsame => ?_
      exact (ih params h').imp fun _ _ _ => hsame.trans

/-- The parameters that are left open are the same in both programs. -/
theorem unboundParams_move {isMissing isMissing' : ExprId → Bool}
    (h : ∀ n, isMissing' (I.move n) = isMissing n) (params : List Ty) (args : List ExprId) :
    unboundParams isMissing' params (args.map I.move) = unboundParams isMissing params args := by
  induction params generalizing args with
  | nil => cases args <;> rfl
  | cons param params ih =>
    cases args with
    | nil => rfl
    | cons arg args =>
      simp only [List.map_cons, unboundParams, h, ih]

theorem parallel_functionType (h : Inserted I c k) (params : List Ty) (result : Ty)
    (isPure : Bool) :
    Parallel I (CheckM.functionType params result isPure)
      (CheckM.functionType params result isPure) c k fun ty ty' c' =>
        ty' = ty ∧ c.SameTrees c' := by
  refine ⟨h.of_arena_eq rfl rfl rfl rfl, branches_of_children ⟨rfl, rfl, rfl, rfl⟩ rfl fun _ => rfl,
    ?_, fun _ => rfl, rfl⟩
  exact (k.types.functionType_ty params result isPure).trans
    (c.types.functionType_ty params result isPure).symm

/-- **The same call** is created in both programs. -/
theorem parallel_createCall (h : Inserted I c k) (d : DefId) (args : List ExprId) (span : Span) :
    Parallel I (createCall d args span) (createCall d (args.map I.move) span) c k fun e e' c' =>
      (∃ ty, e = .new (.call d args) ty span ∧ e' = .new (.call d (args.map I.move)) ty span) ∧
        c.SameTrees c' := by
  simp only [createCall, parallel_definitionType, h.definitionType]
  split
  · simp only [List.length_map]
    split
    · simp only [parallel_definition, h.definition]
      exact parallel_fail_bind h _ _
    · refine (parallel_coerceArgs args _ h).bind fun _ _ c₁ k₁ h₁ _ hsame => ?_
      simp only [parallel_arena, unboundParams_move h₁.isMissing]
      split
      · exact parallel_pure h₁ ⟨⟨_, rfl, rfl⟩, hsame⟩
      · refine (parallel_functionType h₁ _ _ _).bind ?_
        rintro ty _ c₂ k₂ h₂ - ⟨rfl, hsame₂⟩
        exact parallel_pure h₂ ⟨⟨_, rfl, rfl⟩, hsame.trans hsame₂⟩
  · simp only [List.isEmpty_map]
    split
    · exact parallel_pure h ⟨⟨_, rfl, rfl⟩, .refl c⟩
    · simp only [parallel_definition, h.definition]
      exact parallel_fail_bind h _ _

/-- **A minus sign** becomes the same call in both programs, if its operand still lies below it. -/
theorem parallel_callNegation (h : Inserted I c k)
    (hx : (c.arena.expr id).kind.children = [x]) :
    Steps I (callNegation id x) (callNegation (I.move id) (I.move x)) c k := by
  simp only [callNegation, parallel_get, parallel_expr, h.negationFor, h.arena.expr,
    Expression.span_relocate]
  refine (parallel_createCall h _ [x] _).bind ?_
  rintro _ _ c' k' h' - ⟨⟨ty, rfl, rfl⟩, hsame⟩
  have hput := steps_modifyExpr h' id
    (f := fun e => e.replaceBy (.new (.call (c.negationFor x) [x]) ty (c.arena.expr id).span))
    (g := fun e => e.replaceBy
      (.new (.call (c.negationFor x) [I.move x]) ty (c.arena.expr id).span))
    rfl (by rw [hsame.children, hx]; rfl)
  exact hput.imp fun _ _ _ _ => trivial

end Termwise
