import Mathlib.Order.Basic
import Mathlib.Order.Lattice
import Termwise.Proofs.Calls

/-!
# What resolution leaves in place

Building a call changes the tables in two ways only: it appends, and it gives an argument the type
or the value that a parameter asks for. What an expression is stays, up to the value of a known
value. Resolution changes what a run is as well, and so much may happen to every run below it;
everything else stays what it is for good.

## Main definitions

* `Compilation.Steady`: no expression became another kind of thing
* `Compilation.Extends`: no expression did but runs, which are resolved

## Main results

* `allocCall_steady`: building a call is steady
-/

namespace Termwise

/-! ## Reading the tables back -/

namespace Arena

theorem definitionType_of_declared {a : Arena} {d : DefId} {ty : Ty}
    (h : (a.definition d).declared = some ty) : a.definitionType d = ty := by
  simp only [definitionType, h]

theorem definitionType_of_body {a : Arena} {d : DefId} {body : ExprId}
    (h : (a.definition d).declared = none) (hbody : (a.definition d).body = .expression body) :
    a.definitionType d = (a.expr body).ty := by
  simp only [definitionType, h, hbody]

theorem definitionType_of_no_body {a : Arena} {d : DefId}
    (h : (a.definition d).declared = none) (hbody : ∀ b, (a.definition d).body ≠ .expression b) :
    a.definitionType d = .hole := by
  cases hb : (a.definition d).body with
  | expression b => exact (hbody b hb).elim
  | statement | builtin | undefined => simp only [definitionType, h, hb]

end Arena

/-- The kinds that stay what they are while runs are resolved. A run is resolved, and a value may
be cast to another one. A dropped expression stands for what is outside the table, too. -/
def ExprKind.isFixed : ExprKind → Bool
  | .run _ | .value _ | .deleted => false
  | _ => true

namespace Compilation

/-- Nothing that was in the tables became another kind of thing, no run was added, and nothing was
reported. -/
structure Steady (c c' : Compilation) : Prop where
  builtins : c'.builtins = c.builtins
  defs : c'.arena.defs = c.arena.defs
  diagnostics : c'.diagnostics = c.diagnostics
  isValid : c'.isValid = c.isValid
  size : c.arena.exprs.size ≤ c'.arena.exprs.size
  kind : ∀ n : ExprId, n.index < c.arena.exprs.size → (c.arena.expr n).kind.isValue = false →
    (c'.arena.expr n).kind = (c.arena.expr n).kind
  value : ∀ n : ExprId, (c.arena.expr n).kind.isValue = true →
    (c'.arena.expr n).kind.isValue = true
  run : ∀ (n : ExprId) (ts : List ExprId), (c'.arena.expr n).kind = .run ts →
    (c.arena.expr n).kind = .run ts

/-- Nothing that was in the tables became another kind of thing except for runs. -/
structure Extends (c c' : Compilation) : Prop where
  builtins : c'.builtins = c.builtins
  defs : c'.arena.defs = c.arena.defs
  size : c.arena.exprs.size ≤ c'.arena.exprs.size
  kind : ∀ n : ExprId, (c.arena.expr n).kind.isFixed = true →
    (c'.arena.expr n).kind = (c.arena.expr n).kind
  value : ∀ n : ExprId, (c.arena.expr n).kind.isValue = true →
    (c'.arena.expr n).kind.isValue = true

variable {c c' c'' : Compilation}

theorem lt_size_of_isValue {n : ExprId} (h : (c.arena.expr n).kind.isValue = true) :
    n.index < c.arena.exprs.size :=
  Arena.lt_size_of_kind_ne fun hk => by simp [hk, ExprKind.isValue] at h

theorem Steady.refl (c : Compilation) : c.Steady c :=
  ⟨rfl, rfl, rfl, rfl, le_rfl, fun _ _ _ => rfl, fun _ => id, fun _ _ => id⟩

theorem Steady.trans (h : c.Steady c') (h' : c'.Steady c'') : c.Steady c'' where
  builtins := h'.builtins.trans h.builtins
  defs := h'.defs.trans h.defs
  diagnostics := h'.diagnostics.trans h.diagnostics
  isValid := h'.isValid.trans h.isValid
  size := h.size.trans h'.size
  kind n hn hv := by
    have hk := h.kind n hn hv
    rw [h'.kind n (hn.trans_le h.size) (by rwa [hk]), hk]
  value n hv := h'.value n (h.value n hv)
  run n ts hk := h.run n ts (h'.run n ts hk)

theorem Extends.trans (h : c.Extends c') (h' : c'.Extends c'') : c.Extends c'' where
  builtins := h'.builtins.trans h.builtins
  defs := h'.defs.trans h.defs
  size := h.size.trans h'.size
  kind n hn := by
    have hk := h.kind n hn
    rw [h'.kind n (by rwa [hk]), hk]
  value n hv := h'.value n (h.value n hv)

theorem Steady.extends (h : c.Steady c') : c.Extends c' where
  builtins := h.builtins
  defs := h.defs
  size := h.size
  kind n hn :=
    h.kind n (Arena.lt_size_of_kind_ne fun hk => by simp [hk, ExprKind.isFixed] at hn)
      (by cases hk : (c.arena.expr n).kind <;> simp_all [ExprKind.isFixed, ExprKind.isValue])
  value := h.value

/-- The definitions are not changed by resolution. -/
theorem Extends.definition (h : c.Extends c') (d : DefId) :
    c'.arena.definition d = c.arena.definition d := by
  simp only [Arena.definition, h.defs]

/-! ## Steps -/

theorem steady_modifyExpr {id : ExprId} {f : Expression → Expression}
    (h : (f (c.arena.expr id)).kind = (c.arena.expr id).kind ∨
      (c.arena.expr id).kind.isValue = true ∧ (f (c.arena.expr id)).kind.isValue = true) :
    c.Steady (c.modifyArena (·.modifyExpr id f)) where
  builtins := rfl
  defs := rfl
  diagnostics := rfl
  isValid := rfl
  size := by simp [modifyArena]
  kind n _ hv := by
    simp only [modifyArena, Arena.expr_modifyExpr]
    split <;> rename_i hn
    · obtain ⟨rfl, -⟩ := hn
      exact h.resolve_right fun hval => by simp [hval.1] at hv
    · rfl
  value n hv := by
    simp only [modifyArena, Arena.expr_modifyExpr]
    split <;> rename_i hn
    · obtain ⟨rfl, -⟩ := hn
      exact h.elim (fun hk => by rwa [hk]) And.right
    · exact hv
  run n ts hk := by
    simp only [modifyArena, Arena.expr_modifyExpr] at hk
    split at hk <;> rename_i hn
    · obtain ⟨rfl, -⟩ := hn
      rcases h with h | ⟨-, hv⟩
      · rwa [h] at hk
      · simp [hk, ExprKind.isValue] at hv
    · exact hk

theorem steady_allocExpr (c : Compilation) {e : Expression} (h : ∀ ts, e.kind ≠ .run ts) :
    c.Steady (c.allocExpr e).2 where
  builtins := rfl
  defs := rfl
  diagnostics := rfl
  isValid := rfl
  size := by simp [allocExpr]
  kind n hn _ := by simp [allocExpr, Arena.expr_allocExpr, hn.ne]
  value n hv := by simpa [allocExpr, Arena.expr_allocExpr, (lt_size_of_isValue hv).ne] using hv
  run n ts hk := by
    simp only [allocExpr, Arena.expr_allocExpr] at hk
    split at hk
    · exact (h ts hk).elim
    · exact hk

theorem steady_types (c : Compilation) (types : TypeStore) : c.Steady { c with types } :=
  ⟨rfl, rfl, rfl, rfl, le_rfl, fun _ _ _ => rfl, fun _ => id, fun _ _ => id⟩

/-- A run may become anything. -/
theorem extends_modifyExpr_run {id : ExprId} {ts : List ExprId} {f : Expression → Expression}
    (hk : (c.arena.expr id).kind = .run ts) : c.Extends (c.modifyArena (·.modifyExpr id f)) where
  builtins := rfl
  defs := rfl
  size := by simp [modifyArena]
  kind n hn := by
    have hne : n ≠ id := fun heq => by simp [heq, hk, ExprKind.isFixed] at hn
    simp only [modifyArena, Arena.expr_modifyExpr_of_ne hne]
  value n hn := by
    have hne : n ≠ id := fun heq => by simp [heq, hk, ExprKind.isValue] at hn
    simpa only [modifyArena, Arena.expr_modifyExpr_of_ne hne] using hn

theorem steady_emit (c : Compilation) (event : Event) : c.Steady (c.emit event) :=
  ⟨rfl, rfl, rfl, rfl, le_rfl, fun _ _ _ => rfl, fun _ => id, fun _ _ => id⟩

end Compilation

open Compilation

/-! ## Calls -/

/-- One of the two negations. -/
def Compilation.IsNegation (c : Compilation) (d : DefId) : Prop :=
  d = c.builtins.unaryMinus ∨ d = c.builtins.unaryMinusFloat

theorem Compilation.isNegation_negationFor (c : Compilation) (operand : ExprId) :
    c.IsNegation (c.negationFor operand) := by
  unfold negationFor IsNegation
  exact (ite_eq_or_eq ..).symm

variable {c : Compilation}

/-- What is done for a call is steady, and nothing is appended for it. -/
theorem callLaw_steady (args : List ExprId) :
    CallLaw args fun c c' => c.Steady c' ∧ c'.arena.exprs.size = c.arena.exprs.size where
  refl c := ⟨Steady.refl c, rfl⟩
  trans h h' := ⟨h.1.trans h'.1, h'.2.trans h.2⟩
  coerced _ h := ⟨steady_modifyExpr (Expression.coerce_kind h), by simp [modifyArena]⟩
  issued c _ _ _ := ⟨steady_types c _, rfl⟩

theorem createCall_steady (d : DefId) (args : List ExprId) (span : Span) :
    Outcome (createCall d args span) c
      (fun e c' => c.Steady c' ∧ c'.arena.exprs.size = c.arena.exprs.size ∧
        e.kind = .call d args)
      fun stop c' => stop.RefusesCall ∧ c.Steady c' :=
  ((callLaw_steady args).outcome_createCall d span c).mono
    (fun _ _ h => ⟨h.1.1, h.1.2, h.2.1⟩) fun _ _ h => ⟨h.1, h.2.1⟩

/-- **Building a call** is steady, and the call is the next entry of the table. -/
theorem allocCall_steady (d : DefId) (args : List ExprId) (span : Span) :
    Outcome (allocCall d args span) c
      (fun n c' => c.Steady c' ∧ n.index = c.arena.exprs.size ∧
        (c'.arena.expr n).kind = .call d args)
      fun stop c' => stop.RefusesCall ∧ c.Steady c' := by
  simp only [allocCall, outcome_bind, outcome_allocExpr]
  refine (createCall_steady d args span).imp ?_
  rintro e c' ⟨hs, hsize, hk⟩
  exact ⟨hs.trans (steady_allocExpr c' (by simp [hk])), hsize, by simp [allocExpr, hk]⟩

theorem allocMissing_steady (span : Span) :
    Outcome (Arrangement.allocMissing span) c
      (fun n c' => c.Steady c' ∧ n.index = c.arena.exprs.size ∧
        (c'.arena.expr n).kind = .missingArg)
      fun _ _ => False :=
  ⟨steady_allocExpr c (by simp [Expression.new]), rfl,
    congrArg Expression.kind (Arena.expr_allocExpr_self ..)⟩

end Termwise
