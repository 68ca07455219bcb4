import Termwise.Proofs.Concretization.CopyDepth
import Termwise.Proofs.Concretization.Steps

/-!
# Substituted bodies

A use is replaced by a copy of a body, which takes fresh nodes for all that lies below its root.
Copies are as sane as what they are copies of. A use that is replaced has a value afterwards, since
a body without one is never substituted; a use that is not replaced stays as it was.

## Main definitions

* `Arena.Grows`: expressions were appended, and nothing else changed

## Main results

* `Arena.copyWithin_grows`: what a copy appends
* `substitute_outcome`: a use, replaced or not
-/

namespace Termwise

namespace Arena

variable {a a' a'' : Arena}

/-- Sane expressions were appended, and nothing else changed. -/
structure Grows (a a' : Arena) : Prop where
  defs : a'.defs = a.defs
  stmts : a'.stmts = a.stmts
  roots : a'.roots = a.roots
  size : a.exprs.size ≤ a'.exprs.size
  expr : ∀ n, a'.expr n = a.expr n ∨ a.exprs.size ≤ n.index ∧ (a'.expr n).Sane

theorem Grows.refl (a : Arena) : a.Grows a := ⟨rfl, rfl, rfl, le_rfl, fun _ => .inl rfl⟩

theorem Grows.trans (h : a.Grows a') (h' : a'.Grows a'') : a.Grows a'' where
  defs := h'.defs.trans h.defs
  stmts := h'.stmts.trans h.stmts
  roots := h'.roots.trans h.roots
  size := h.size.trans h'.size
  expr n := by
    rcases h'.expr n with heq' | ⟨hfresh', hsane'⟩
    · rw [heq']
      exact h.expr n
    · exact .inr ⟨h.size.trans hfresh', hsane'⟩

theorem Grows.sound (h : a.Grows a') (ha : a.Sound) : a'.Sound := by
  intro n
  rcases h.expr n with heq | ⟨-, hsane⟩
  · rw [heq]
    exact ha n
  · exact hsane

theorem grows_allocExpr (a : Arena) {e : Expression} (he : e.Sane) :
    a.Grows (a.allocExpr e).2 where
  defs := rfl
  stmts := rfl
  roots := rfl
  size := by simp
  expr n := by
    rw [expr_allocExpr]
    split <;> rename_i hn
    · exact .inr ⟨hn.ge, he⟩
    · exact .inl rfl

/-- An expression is a copy of another one, up to what lies below it. -/
structure Copied (e e' : Expression) : Prop where
  sane : e'.Sane
  isSentinel : e'.kind.isSentinel = e.kind.isSentinel

theorem copyEach_grows {copy : ExprId → StateM Arena Expression}
    (hcopy : ∀ id a, a.Sound → a.Grows (copy id a).2 ∧ (copy id a).1.Sane) (ids : List ExprId)
    (ha : a.Sound) : a.Grows (copyEach copy ids a).2 := by
  induction ids generalizing a with
  | nil => exact .refl a
  | cons id ids ih =>
    obtain ⟨hgrows, hsane⟩ := hcopy id a ha
    have halloc := hgrows.trans (grows_allocExpr _ hsane)
    have hrest := ih (halloc.sound ha)
    rw [copyEach, List.mapM_cons]
    exact halloc.trans hrest

/-- **A copy** of a tree appends nodes, and its root is as sane as the one that was copied. -/
theorem copyWithin_grows (depth : Nat) (id : ExprId) (ha : a.Sound) :
    a.Grows (copyWithin depth id a).2 ∧ Copied (a.expr id) (copyWithin depth id a).1 := by
  induction depth generalizing a id with
  | zero => exact ⟨.refl a, ha id, rfl⟩
  | succ depth ih =>
    have hcopy : ∀ id a, Arena.Sound a →
        a.Grows (copyWithin depth id a).2 ∧ (copyWithin depth id a).1.Sane :=
      fun id a ha => ⟨(ih id ha).1, (ih id ha).2.sane⟩
    have hcopied {kind : ExprKind} (hid : (a.expr id).kind.isSentinel = false)
        (hk : kind.isSentinel = false) : Copied (a.expr id) { a.expr id with kind } := by
      refine ⟨⟨?_, fun habsurd => ?_⟩, hk.trans hid.symm⟩
      · rintro rfl
        cases hk
      · rw [(ha id).ty habsurd] at hid
        cases hid
    rw [copyWithin_succ]
    split <;> rename_i hk
    · exact ⟨copyEach_grows hcopy _ ha, hcopied (by rw [hk]; rfl) rfl⟩
    · obtain ⟨hgrows, hsane⟩ := hcopy _ a ha
      exact ⟨hgrows.trans (grows_allocExpr _ hsane), hcopied (by rw [hk]; rfl) rfl⟩
    · exact ⟨copyEach_grows hcopy _ ha, hcopied (by rw [hk]; rfl) rfl⟩
    · exact ⟨.refl a, ha id, rfl⟩

end Arena

open Compilation

variable {c c' : Compilation} {id : ExprId} {d : DefId}

/-- The definition that an expression uses. -/
def ExprKind.definition? : ExprKind → Option DefId
  | .reference d | .operator d | .call d _ => some d
  | _ => none

theorem ExprKind.isSentinel_of_isSubstitutable {k : ExprKind} (h : k.isSubstitutable = true) :
    k.isSentinel = false := by
  cases k <;> first | rfl | cases h

/-- Nothing changed but the log. -/
structure Compilation.Unchanged (c c' : Compilation) : Prop extends SameProgram c c' where
  isValid : c'.isValid = c.isValid
  size : c'.arena.exprs.size = c.arena.exprs.size
  expr : ∀ n, c'.arena.expr n = c.arena.expr n

theorem Compilation.Unchanged.refl (c : Compilation) : c.Unchanged c :=
  ⟨.refl c, rfl, rfl, fun _ => rfl⟩

theorem Compilation.Unchanged.casts (h : c.Unchanged c') (S : Set ExprId) : Casts S c c' :=
  ⟨h.toSameProgram, h.isValid, h.size.ge, fun n => .inl (h.expr n)⟩

theorem unchanged_emit (c : Compilation) (event : Event) : c.Unchanged (c.emit event) :=
  ⟨⟨rfl, rfl, rfl, rfl⟩, rfl, rfl, fun _ => rfl⟩

theorem Arena.Grows.moves {a : Arena} (h : c.arena.Grows a) (hid : c.Alive id) :
    c.Moves id { c with arena := a } where
  toSameProgram := ⟨rfl, h.defs, h.stmts, h.roots⟩
  isValid := rfl
  size := h.size
  expr n := (h.expr n).imp_right fun hn => .inr ⟨.inr hn.1, hn.2⟩
  alive := by
    rcases h.expr id with heq | ⟨hfresh, -⟩
    · rw [heq]
    · have hlt := hid.lt_size
      omega
  retains p := by
    rcases h.expr p with heq | ⟨hfresh, -⟩
    · exact .inr (by rw [heq])
    · exact .inl (by rw [Arena.expr_of_size_le hfresh]; rfl)

/-- A use takes a copy of a body that has a value. -/
theorem moves_copy {b : ExprId} (hc : c.arena.Sound) (hid : c.Alive id)
    (hleaf : (c.arena.expr id).kind.children = []) (hb : c.Alive b) :
    c.Moves id { c with arena := (c.arena.copy b).2.replaceExpr id (c.arena.copy b).1 } := by
  obtain ⟨hgrows, hcopied⟩ := Arena.copyWithin_grows c.arena.exprs.size b hc
  have hmoves := hgrows.moves hid
  have hid' := hmoves.alive_of_alive hid
  have hvalue : (c.arena.copy b).1.kind.isSentinel = false := hcopied.isSentinel.trans hb
  refine hmoves.trans (moves_modifyExpr (f := (·.replaceBy (c.arena.copy b).1)) ?_ ?_ (.inl ?_))
  · exact ⟨hcopied.sane.kind, hcopied.sane.ty⟩
  · rw [hid']
    exact hvalue
  · rcases hgrows.expr id with heq | ⟨hfresh, -⟩
    · exact (congrArg (·.kind.children) heq).trans hleaf
    · exact (hfresh.not_gt hid.lt_size).elim

/-- What an attempt to replace a use comes to. -/
structure Compilation.Replaces (id : ExprId) (d : DefId) (c c' : Compilation) (replaced : Bool) :
    Prop where
  isValid : c'.isValid = c.isValid
  done : c.arena.Sound → c.Alive id → (c.arena.expr id).kind.children = [] → replaced = true →
    c.Moves id c' ∧ c'.AliveBody d
  kept : replaced = false → c.Unchanged c'

theorem Compilation.Unchanged.replaces (h : c.Unchanged c') : c.Replaces id d c' false :=
  ⟨h.isValid, fun _ _ _ hreplaced => (by cases hreplaced), fun _ => h⟩

/-- The compilation while a use is read as a plain reference to its definition. -/
def Compilation.readAs (c : Compilation) (id : ExprId) (d : DefId) : Compilation :=
  c.modifyArena (·.modifyExpr id fun e => { e with kind := .reference d })

/-- A reference is read as what it is. -/
theorem Compilation.readAs_of_reference (hk : (c.arena.expr id).kind = .reference d) :
    c.readAs id d = c :=
  congrArg (fun arena => { c with arena }) (Arena.modifyExpr_eq_self (by rw [← hk]))

/-- The body of a definition could take the place of a use, but is too deep to be copied. -/
def Compilation.LacksCopy (c : Compilation) (d : DefId) : Prop :=
  ∃ b, (c.arena.definition d).body = .expression b ∧
    (c.arena.expr b).kind.isSubstitutable = true ∧ c.arena.copy? b = none

/-- **An attempt to replace a use is cut off**, while the use is read as a reference, because the
body of its definition is too deep to be copied. -/
structure Compilation.CutOff (id : ExprId) (d : DefId) (c : Compilation) (stop : Stop)
    (c' : Compilation) : Prop where
  stop : stop = .cyclic
  use : (c.arena.expr id).kind = .reference d ∨ (c.arena.expr id).kind = .call d []
  read : c' = c.readAs id d
  deep : c'.LacksCopy d

theorem Compilation.CutOff.not_isSilent {stop : Stop} (h : c.CutOff id d stop c') :
    ¬ stop.IsSilent := by
  rw [h.stop]
  exact fun hsilent => hsilent

/-- **A reference** is replaced only by a body that has a value, or nothing changes. -/
theorem substituteReference_outcome (id : ExprId) (d : DefId) :
    Outcome (substituteReference id d) c (fun replaced c' => c.Replaces id d c' replaced)
      fun stop c' => stop = .cyclic ∧ c' = c ∧ c.LacksCopy d := by
  simp only [substituteReference, outcome_bind, outcome_arena]
  split
  · exact (unchanged_emit _ _).replaces
  · exact (Unchanged.refl c).replaces
  · exact (Unchanged.refl c).replaces
  · rename_i b hb
    split
    · exact (unchanged_emit _ _).replaces
    · let c' := Compilation.emit { c with
        arena := (c.arena.copy b).2.replaceExpr id (c.arena.copy b).1 }
        (.substituted (c.arena.definition d).name)
      have hplace (h : ¬ (!(c.arena.expr b).kind.isSubstitutable) = true) :
          c.Replaces id d c' true := by
        refine ⟨rfl, fun hc hid hleaf _ => ?_, fun hkept => by cases hkept⟩
        have hb' : c.Alive b := ExprKind.isSentinel_of_isSubstitutable (by simpa using h)
        have hmoves : c.Moves id c' :=
          (moves_copy hc hid hleaf hb').trans (casts_emit _ _ _).moves_self
        refine ⟨hmoves, fun _ hbody => hmoves.alive_of_alive ?_⟩
        rw [hmoves.definition] at hbody
        cases hb.symm.trans hbody
        exact hb'
      have hput (h : ¬ (!(c.arena.expr b).kind.isSubstitutable) = true) :
          Outcome (do
              putCopy id b
              CheckM.emit (.substituted (c.arena.definition d).name)
              return true) c (fun replaced c' => c.Replaces id d c' replaced)
            fun stop c' => stop = .cyclic ∧ c' = c ∧ c.LacksCopy d := by
        simp only [outcome_bind]
        refine outcome_putCopy.2 ?_
        exact ⟨fun hdeep => ⟨rfl, rfl, b, hb, by simpa using h, hdeep⟩, fun _ => hplace h⟩
      split_ifs with _ _ _ h h
      · exact (unchanged_emit _ _).replaces
      · exact (Unchanged.refl c).replaces
      · exact (Unchanged.refl c).replaces
      · exact hput h
      · exact (Unchanged.refl c).replaces
      · exact hput h

/-- A call that is read as a reference to its callee, and back. -/
theorem substituteCall_outcome {args : List ExprId}
    (hk : (c.arena.expr id).kind = .call d args) :
    Outcome (substituteCall id d args) c (fun replaced c' => c.Replaces id d c' replaced)
      (c.CutOff id d) := by
  simp only [substituteCall, outcome_bind, outcome_definitionType]
  split
  · exact (Unchanged.refl c).replaces
  · rename_i hpure
    have hargs : args = [] := by
      simp only [Bool.or_eq_true, Bool.not_eq_true', not_or, Bool.not_eq_false] at hpure
      exact List.isEmpty_iff.1 hpure.2
    simp only [outcome_bind, outcome_expr, outcome_modifyExpr]
    let c₁ := c.readAs id d
    refine (substituteReference_outcome id d).mono (fun replaced c₂ h => ?_) ?_
    swap
    · rintro _ _ ⟨rfl, rfl, hdeep⟩
      exact ⟨rfl, .inr (hk.trans (by rw [hargs])), rfl, hdeep⟩
    split <;> rename_i hreplaced
    · simp only [outcome_bind, outcome_definition, outcome_emit]
      refine ⟨h.isValid, fun hc hid hleaf _ => ?_, fun hkept => by cases hkept⟩
      have hcall : c.Moves id c₁ := by
        refine moves_modifyExpr ⟨by simp, fun habsurd => ?_⟩ hid.symm (.inl hleaf)
        rw [← (hc id).ty habsurd, hid]
        rfl
      have hleaf₁ : (c₁.arena.expr id).kind.children = [] := by
        simp only [c₁, readAs, modifyArena, Arena.expr_modifyExpr_self hid.lt_size]
        rfl
      obtain ⟨hmoves, hbody⟩ := h.done (hcall.sound hc) (hcall.alive_of_alive hid) hleaf₁ hreplaced
      exact ⟨hcall.trans (hmoves.trans (casts_emit _ _ _).moves_self), hbody⟩
    -- If nothing was put there, the expression is made the call again that it was.
    · have hkept := h.kept (by simpa using hreplaced)
      refine Unchanged.replaces ⟨⟨hkept.builtins, hkept.defs, hkept.stmts, hkept.roots⟩,
        hkept.isValid, ?_, fun n => ?_⟩
      · simpa [modifyArena] using hkept.size
      · have hsize : c₂.arena.exprs.size = c.arena.exprs.size := by
          simpa [modifyArena] using hkept.size
        have hexpr : c₂.arena.expr n = c₁.arena.expr n := hkept.expr n
        simp only [modifyArena, Arena.expr_modifyExpr, hexpr, c₁, readAs, hsize]
        split <;> rename_i hn
        · rw [hn.1]
        · rfl

/-- **A use** is replaced only by a body that has a value, or it keeps what it is. -/
theorem substitute_outcome (settings : Settings)
    (hd : (c.arena.expr id).kind.definition? = some d) :
    Outcome (substitute settings id) c (fun replaced c' => c.Replaces id d c' replaced)
      (c.CutOff id d) := by
  simp only [substitute]
  split
  · exact (Unchanged.refl c).replaces
  · simp only [outcome_bind, outcome_expr]
    split <;> rename_i hk <;> try rw [hk] at hd; cases hd
    · refine (substituteReference_outcome id d).mono (fun _ _ h => h) ?_
      rintro _ _ ⟨rfl, rfl, hdeep⟩
      exact ⟨rfl, .inl hk, (readAs_of_reference hk).symm, hdeep⟩
    · exact substituteCall_outcome hk
    · exact (Unchanged.refl c).replaces

end Termwise
