import Termwise.Proofs.Concretization.Region

/-!
# Uses of declared definitions

A definition may declare its type. Nothing compares that with the type of its body: a use that is kept
takes the declared type, a use that is replaced takes that of the body, and the body goes by what is
declared for itself. The three agree where the missing comparison would change nothing: if the body is
a known value that has the declared type from the start, then the body keeps it, and a use of the
definition has it in the end, replaced or not. Without substitution a use has it in any case.

## Main definitions

* `Compilation.Constant`: a known value of a native type, which nothing can convert
* `Compilation.Supplies`: a definition, its body and a use
* `Compilation.Rewritten`: a program in which one expression was rewritten
* `supplying`: to keep them, as a discipline

## Main results

* `declared_uses_of_concretizeAll`: uses have the type that their definition declares
-/

namespace Termwise

open Compilation

namespace Compilation

/-- A known value of a native type that is no operand, so that nothing converts it. -/
structure Constant (c : Compilation) (b : ExprId) (ty : Ty) : Prop where
  value : (c.arena.expr b).kind.isValue = true
  typed : (c.arena.expr b).ty = ty
  native : ty.native = .yes
  declared : ∀ t, (c.arena.expr b).declared = some t → t = ty
  free : ¬ c.Operand b

/-- A definition `d` that declares a type, its body `b`, and a use `e` that is no operand and declares
nothing. The use may have been replaced by a value, and it takes no other native type than that of the
definition. If `known`, then the body is a constant. -/
structure Supplies (known : Prop) (d : DefId) (b e : ExprId) (ty : Ty) (c : Compilation) : Prop where
  declared : (c.arena.definition d).declared = some ty
  body : (c.arena.definition d).body = .expression b
  use : (c.arena.expr e).kind = .reference d ∨
    (c.arena.expr e).kind.isValue = true ∧ (c.arena.expr e).ty.native = .yes
  typed : (c.arena.expr e).ty.native = .yes → (c.arena.expr e).ty = ty
  plain : (c.arena.expr e).declared = none
  free : ¬ c.Operand e
  constant : known → c.Constant b ty

/-- A walk kept a definition, its body and a use. -/
def Serves (known : Prop) (d : DefId) (b e : ExprId) (ty : Ty) (active : List DefId)
    (c c' : Compilation) : Prop :=
  Supplies known d b e ty c → Supplies known d b e ty c' ∧ c.SameProgram c' ∧
    (c.Kept active d → (c.arena.expr e).kind = .reference d →
      (c'.arena.expr e).kind = .reference d)

variable {c c' c'' c₁ : Compilation} {known : Prop} {active : List DefId} {d d' : DefId}
  {b b' e id n x : ExprId} {ty : Ty} {settings : Settings} {S : Set ExprId}

theorem Serves.refl (active : List DefId) (c : Compilation) :
    Serves known d b e ty active c c :=
  fun h => ⟨h, .refl c, fun _ => id⟩

theorem SameProgram.kept (h : c.SameProgram c') (hd : c.Kept active d) : c'.Kept active d := by
  unfold Kept
  rwa [h.definition]

theorem Serves.trans (h : Serves known d b e ty active c c')
    (h' : Serves known d b e ty active c' c'') : Serves known d b e ty active c c'' := by
  intro hc
  obtain ⟨hc', hsame, hkept⟩ := h hc
  obtain ⟨hc'', hsame', hkept'⟩ := h' hc'
  exact ⟨hc'', hsame.trans hsame',
    fun hd hk => hkept' (hsame.kept hd) (hkept hd hk)⟩

/-- The body and the use, if they are what a walk has to leave alone. -/
def Guarded (known : Prop) (b e : ExprId) : Set ExprId := { n | n = e ∨ known ∧ n = b }

theorem Supplies.not_operand (h : Supplies known d b e ty c) (hn : n ∈ Guarded known b e) :
    ¬ c.Operand n := by
  rcases hn with rfl | ⟨hknown, rfl⟩
  · exact h.free
  · exact (h.constant hknown).free

/-- What leaves the body and the use as they were, and makes no operands of them. -/
theorem serves_of_expr (hsame : c.SameProgram c')
    (hexpr : ∀ n ∈ Guarded known b e, c'.arena.expr n = c.arena.expr n)
    (hfree : ∀ n ∈ Guarded known b e, c'.Operand n → c.Operand n) :
    Serves known d b e ty active c c' := by
  intro h
  have he := hexpr e (.inl rfl)
  refine ⟨⟨?_, ?_, ?_, ?_, ?_, fun hop => h.free (hfree e (.inl rfl) hop), fun hknown => ?_⟩,
    hsame, ?_⟩
  · rw [hsame.definition]
    exact h.declared
  · rw [hsame.definition]
    exact h.body
  · rw [he]
    exact h.use
  · rw [he]
    exact h.typed
  · rw [he]
    exact h.plain
  · have hb := hexpr b (.inr ⟨hknown, rfl⟩)
    have hconstant := h.constant hknown
    exact ⟨hb ▸ hconstant.value, hb ▸ hconstant.typed, hconstant.native, hb ▸ hconstant.declared,
      fun hop => hconstant.free (hfree b (.inr ⟨hknown, rfl⟩) hop)⟩
  · rw [he]
    exact fun _ hk => hk

/-! ## Steps that leave them alone -/

theorem Casts.operand (h : Casts S c c') (hn : c'.Operand n) : c.Operand n := by
  obtain ⟨p, hp⟩ := hn
  exact ⟨p, by rwa [(h.alike p).children] at hp⟩

/-- What is cast at some places leaves the body and the use alone, if they are not among these. -/
theorem Casts.serves (h : Casts S c c') (hS : Supplies known d b e ty c →
    ∀ n ∈ Guarded known b e, n ∉ S) : Serves known d b e ty active c c' := by
  intro hc
  refine serves_of_expr h.toSameProgram (fun n hn => ?_) (fun n _ => h.operand) hc
  rcases h.expr n with heq | ⟨-, hmem | hop⟩
  · exact heq
  · exact (hS hc n hn hmem).elim
  · exact (hc.not_operand hn (h.operand hop)).elim

/-- The body and the use have native types if they are known values. -/
theorem Supplies.native (h : Supplies known d b e ty c) (hn : n ∈ Guarded known b e)
    (hk : (c.arena.expr n).kind.isValue = true) : (c.arena.expr n).ty.native = .yes := by
  rcases hn with rfl | ⟨hknown, rfl⟩
  · rcases h.use with huse | ⟨-, hnative⟩
    · rw [huse] at hk
      cases hk
    · exact hnative
  · rw [(h.constant hknown).typed]
    exact (h.constant hknown).native

end Compilation

variable {c c' c'' c₁ : Compilation} {known : Prop} {active : List DefId} {d d' : DefId}
  {b b' e id n x : ExprId} {ty : Ty} {settings : Settings} {S : Set ExprId}

theorem concretizeValue_serves (hk : (c.arena.expr id).kind.isValue = true) :
    Outcome (concretizeValue id) c (fun _ => Serves known d b e ty active c)
      fun _ => Serves known d b e ty active c := by
  by_cases hnative : (c.arena.expr id).ty.native = .yes
  · simp only [concretizeValue_eq, outcome_bind, outcome_expr, if_pos hnative]
    exact .refl active c
  · refine ((retypingLaw_casts {id}).outcome_concretizeValue (.inl rfl)).mono
      (fun _ c' hcasts => hcasts.serves fun hc n hn hmem => ?_) ?_
    · obtain rfl := hmem
      exact hnative (hc.native hn hk)
    · rintro _ _ ⟨-, rfl⟩
      exact .refl active _

theorem coerceTo_serves (target : Ty) (hc₀ : (c.arena.expr id).declared = some target ∨
      ∃ c₀, Supplies known d b e ty c₀ ∧ c₀.Operand id) :
    Outcome (coerceTo id target) c (fun _ => Serves known d b e ty active c)
      fun _ => Serves known d b e ty active c := by
  by_cases hty : (c.arena.expr id).ty = target
  · simp only [coerceTo_eq, outcome_bind, outcome_get, if_pos hty]
    exact .refl active c
  · refine ((retypingLaw_casts {id}).outcome_coerceTo target (.inl rfl)).mono
      (fun _ c' hcasts => hcasts.serves fun hc n hn hmem => ?_) ?_
    · -- A body is brought into the type that it has, and that changes nothing.
      obtain rfl := hmem
      rcases hc₀ with hdeclared | ⟨c₀, hc₀, hop⟩
      · rcases hn with rfl | ⟨hknown, rfl⟩
        · cases hc.plain.symm.trans hdeclared
        · rw [(hc.constant hknown).typed] at hty
          exact hty ((hc.constant hknown).declared _ hdeclared).symm
      · exact hc₀.not_operand hn hop
    · rintro _ _ ⟨-, rfl⟩
      exact .refl active _

/-- A call over one argument is created by a cast of the argument at most. -/
theorem createCall_unary (d : DefId) (x : ExprId) (span : Span) :
    Outcome (createCall d [x] span) c
      (fun e c' => e.kind = .call d [x] ∧ c'.builtins = c.builtins ∧
        ∃ e' : Expression, e'.kind.children = (c.arena.expr x).kind.children ∧
          c'.arena = c.arena.modifyExpr x fun _ => e')
      fun _ c' => c' = c := by
  simp only [createCall, outcome_bind, outcome_definitionType]
  split
  · rename_i params result isPure _
    cases params with
    | nil => rfl
    | cons param params =>
      split
      · rfl
      · simp only [coerceArgs, coerceArg_eq, outcome_bind, outcome_expr, outcome_arena]
        split
        · rename_i coerced hcoerced
          have hchildren : coerced.kind.children = (c.arena.expr x).kind.children :=
            ExprKind.children_eq (Expression.coerce_kind hcoerced)
          simp only [outcome_modifyExpr, outcome_pure]
          split
          · exact ⟨rfl, rfl, coerced, hchildren, rfl⟩
          · exact ⟨rfl, rfl, coerced, hchildren, rfl⟩
        · rfl
  · rfl

/-- A minus sign becomes a call: its operand is cast, and nothing else changes. -/
theorem callNegation_serves
    (hid : Supplies known d b e ty c → id ∉ Guarded known b e ∧ x ∉ Guarded known b e) :
    Outcome (callNegation id x) c (fun _ => Serves known d b e ty active c)
      fun _ => Serves known d b e ty active c := by
  simp only [callNegation, outcome_bind, outcome_get, outcome_expr, outcome_modifyExpr]
  refine (createCall_unary _ x _).mono ?_ ?_
  · rintro call c₁ ⟨hcall, hbuiltins, e', hchildren, harena⟩ hc
    obtain ⟨hid, hx⟩ := hid hc
    have hne {n : ExprId} (hn : n ∈ Guarded known b e) : n ≠ id ∧ n ≠ x :=
      ⟨fun heq => hid (heq ▸ hn), fun heq => hx (heq ▸ hn)⟩
    refine serves_of_expr ⟨hbuiltins, ?_, ?_, ?_⟩ (fun n hn => ?_) (fun n hn hop => ?_) hc
    · simp only [modifyArena, harena, Arena.modifyExpr]
    · simp only [modifyArena, harena, Arena.modifyExpr]
    · simp only [modifyArena, harena, Arena.modifyExpr]
    · simp only [modifyArena, harena, Arena.expr_modifyExpr_of_ne (hne hn).1,
        Arena.expr_modifyExpr_of_ne (hne hn).2]
    · have hreplaced (e : Expression) : (e.replaceBy call).kind.children = [x] := by
        simp [Expression.replaceBy, hcall, ExprKind.children]
      obtain ⟨p, hp⟩ := hop
      simp only [modifyArena, harena, Arena.expr_modifyExpr] at hp
      split_ifs at hp with hpid hpx hpx
      · rw [hreplaced] at hp
        exact ((hne hn).2 (List.mem_singleton.1 hp)).elim
      · rw [hreplaced] at hp
        exact ((hne hn).2 (List.mem_singleton.1 hp)).elim
      · exact ⟨x, hchildren ▸ hp⟩
      · exact ⟨p, hp⟩
  · rintro _ c' rfl
    exact .refl active c'

/-! ## Replaced uses -/

/-- Nothing lies below these kinds, so that a copy of one is itself. -/
def ExprKind.isLeaf : ExprKind → Bool
  | .value _ | .reference _ => true
  | _ => false

theorem Arena.copyWithin_leaf {a : Arena} (h : (a.expr id).kind.isLeaf = true) (depth : Nat) :
    Arena.copyWithin depth id a = (a.expr id, a) := by
  cases depth with
  | zero => rfl
  | succ depth =>
    rw [copyWithin_succ]
    split <;> rename_i hk <;> first | rfl | (rw [hk] at h; cases h)

theorem ExprKind.children_of_isLeaf {k : ExprKind} (h : k.isLeaf = true) : k.children = [] := by
  cases k <;> first | rfl | cases h

theorem ExprKind.isLeaf_of_isValue {k : ExprKind} (h : k.isValue = true) : k.isLeaf = true := by
  cases k <;> first | rfl | cases h

namespace Compilation

theorem Supplies.isLeaf (h : Supplies known d b e ty c) (hn : n ∈ Guarded known b e) :
    (c.arena.expr n).kind.isLeaf = true := by
  rcases hn with rfl | ⟨hknown, rfl⟩
  · rcases h.use with huse | ⟨huse, -⟩
    · rw [huse]
      rfl
    · exact ExprKind.isLeaf_of_isValue huse
  · exact ExprKind.isLeaf_of_isValue (h.constant hknown).value

/-- A copy makes no operand of a leaf that was none, and leaves it as it was. -/
theorem copy_leaf {a : Arena} (hfree : ∀ p, n ∉ (a.expr p).kind.children)
    (hleaf : (a.expr n).kind.isLeaf = true) (b : ExprId) :
    (a.copy b).2.expr n = a.expr n ∧ n ∉ (a.copy b).1.kind.children ∧
      ∀ p, n ∉ ((a.copy b).2.expr p).kind.children := by
  have hlt : n.index < a.exprs.size := Arena.lt_size_of_kind_ne fun hk => by
    rw [hk] at hleaf
    cases hleaf
  by_cases hb : b = n
  · subst hb
    rw [Arena.copy, Arena.copyWithin_leaf hleaf, ExprKind.children_of_isLeaf hleaf]
    exact ⟨rfl, List.not_mem_nil, hfree⟩
  · -- What is copied leads to anything but the leaf.
    have hencloses : a.Encloses { z | z ≠ n } fun _ => True :=
      ⟨fun z _ m hm heq => hfree z (heq ▸ hm), fun _ _ => trivial,
        fun z hz heq => (heq ▸ hz).not_gt hlt⟩
    have hcopied := Arena.copyWithin_encloses (fun _ _ _ h => h) a.exprs.size b a hencloses hb
    have hexpr := hcopied.appends.expr n hlt
    refine ⟨hexpr, fun hmem => hcopied.children n hmem rfl, fun p hp => ?_⟩
    by_cases hpn : p = n
    · subst hpn
      rw [show (a.copy b).2.expr p = _ from hexpr, ExprKind.children_of_isLeaf hleaf] at hp
      cases hp
    · exact hcopied.encloses.children p hpn n hp rfl

theorem Replaced.sameProgram (h : c.Replaced id d' b' c') : c.SameProgram c' := by
  obtain ⟨read, rfl, -, harena⟩ := h.arena
  have hcopied := Arena.copyWithin_encloses (Z := Set.univ) (K := fun _ => True)
    (fun _ _ _ h => h)
    (c.arena.modifyExpr id fun e => { e with kind := .reference d' }).exprs.size b'
    (c.arena.modifyExpr id fun e => { e with kind := .reference d' })
    ⟨fun _ _ _ _ => trivial, fun _ _ => trivial, fun _ _ => trivial⟩ trivial
  refine ⟨h.builtins, ?_, ?_, ?_⟩ <;> rw [harena]
  · exact hcopied.appends.defs
  · exact hcopied.appends.stmts
  · exact hcopied.appends.roots

/-- A known value is no use. -/
theorem Replaced.ne_of_isValue (h : c.Replaced id d' b' c')
    (hn : (c.arena.expr n).kind.isValue = true) : n ≠ id := by
  rintro rfl
  rcases h.use with hk | hk <;> rw [hk] at hn <;> cases hn

/-- An expression is rewritten, and the program is what it was. -/
structure Rewritten (c : Compilation) (id : ExprId) (x : Expression) (c' : Compilation) : Prop
    extends SameProgram c c' where
  isValid : c'.isValid = c.isValid
  size : c'.arena.exprs.size = c.arena.exprs.size
  self : c'.arena.expr id = x
  other : ∀ n ≠ id, c'.arena.expr n = c.arena.expr n

/-- Where the body is a constant, a use is replaced by the constant itself. -/
theorem Replaced.rewritten (h : c.Replaced id d' b' c')
    (hb : (c.arena.expr b').kind.isValue = true) :
    c.Rewritten id ((c.arena.expr id).replaceBy (c.arena.expr b')) c' := by
  have hsame := h.sameProgram
  have hne : b' ≠ id := h.ne_of_isValue hb
  have hlt : id.index < c.arena.exprs.size := Arena.lt_size_of_kind_ne (by
    rcases h.use with hk | hk <;> rw [hk] <;> simp)
  obtain ⟨read, rfl, -, harena⟩ := h.arena
  have hread : (c.arena.modifyExpr id fun e => { e with kind := .reference d' }).expr b' =
      c.arena.expr b' := Arena.expr_modifyExpr_of_ne hne _
  rw [Arena.copy, Arena.copyWithin_leaf (by rw [hread]; exact ExprKind.isLeaf_of_isValue hb), hread,
    Arena.replaceExpr] at harena
  refine ⟨hsame, h.isValid, ?_, ?_, fun n hn => ?_⟩ <;> rw [harena]
  · simp only [Arena.size_modifyExpr]
  · rw [Arena.expr_modifyExpr_self (by simpa using hlt), Arena.expr_modifyExpr_self hlt]
    rfl
  · rw [Arena.expr_modifyExpr_of_ne hn, Arena.expr_modifyExpr_of_ne hn]

/-- Nothing lies below a value that takes the place of an expression. -/
theorem Rewritten.operand {x : Expression} (h : c.Rewritten id x c')
    (hx : x.kind.isValue = true) (hop : c'.Operand n) : c.Operand n := by
  obtain ⟨p, hp⟩ := hop
  by_cases hid : p = id
  · rw [hid, h.self, ExprKind.children_of_isValue hx] at hp
    cases hp
  · exact ⟨p, by rwa [h.other p hid] at hp⟩

/-- **The use** is replaced by the constant of its definition. -/
theorem Replaced.of_use (h : c.Replaced e d' b' c') (hc : Supplies known d b e ty c)
    (hknown : known) :
    d' = d ∧ c.Rewritten e ((c.arena.expr e).replaceBy (c.arena.expr b)) c' := by
  have hk : (c.arena.expr e).kind = .reference d :=
    hc.use.resolve_right fun huse => h.ne_of_isValue huse.1 rfl
  obtain rfl : d' = d := by
    have hdefinition := h.definition?
    rw [hk] at hdefinition
    exact (Option.some.inj hdefinition).symm
  obtain rfl : b' = b := by
    cases h.body.symm.trans hc.body
    rfl
  exact ⟨rfl, h.rewritten (hc.constant hknown).value⟩

theorem Replaced.serves_use (h : c.Replaced e d' b' c') (hknown : known) (hd : d' ∉ active) :
    Serves known d b e ty active c c' := by
  intro hc
  have hconstant := hc.constant hknown
  obtain ⟨rfl, hrewritten⟩ := h.of_use hc hknown
  have hsame := hrewritten.toSameProgram
  have he := hrewritten.self
  have hb : c'.arena.expr b = c.arena.expr b :=
    hrewritten.other b (h.ne_of_isValue hconstant.value)
  have hfree {n : ExprId} (hop : c'.Operand n) : c.Operand n :=
    hrewritten.operand hconstant.value hop
  have hty : (c'.arena.expr e).ty = ty := by
    rw [he]
    exact hconstant.typed
  refine ⟨⟨?_, ?_, .inr ⟨?_, hty ▸ hconstant.native⟩, fun _ => hty, ?_,
    fun hop => hc.free (hfree hop), fun _ => ⟨hb ▸ hconstant.value, hb ▸ hconstant.typed,
      hconstant.native, hb ▸ hconstant.declared, fun hop => hconstant.free (hfree hop)⟩⟩, hsame,
    ?_⟩
  · rw [hsame.definition]
    exact hc.declared
  · rw [hsame.definition]
    exact hc.body
  · rw [he]
    exact hconstant.value
  · rw [he]
    exact hc.plain
  · rintro (hmem | hbody) _
    · exact (hd hmem).elim
    · exact (hbody b hc.body).elim

/-- The replacement of another use leaves the body and the use alone. -/
theorem Replaced.serves_of_ne (h : c.Replaced id d' b' c') (hid : e ≠ id) :
    Serves known d b e ty active c c' := by
  intro hc
  obtain ⟨read, rfl, -, harena⟩ := h.arena
  have hne {n : ExprId} (hn : n ∈ Guarded known b e) : n ≠ id := by
    rcases hn with rfl | ⟨hknown, rfl⟩
    · exact hid
    · exact h.ne_of_isValue (hc.constant hknown).value
  have hcopy {n : ExprId} (hn : n ∈ Guarded known b e) :=
    copy_leaf (n := n) (a := c.arena.modifyExpr id fun e => { e with kind := .reference d' })
      (fun p hp => by
        rw [Arena.expr_modifyExpr] at hp
        split at hp
        · cases hp
        · exact hc.not_operand hn ⟨p, hp⟩)
      (by rw [Arena.expr_modifyExpr_of_ne (hne hn)]; exact hc.isLeaf hn) b'
  refine serves_of_expr h.sameProgram (fun n hn => ?_) (fun n hn hop => ?_) hc
  · rw [harena, Arena.replaceExpr, Arena.expr_modifyExpr_of_ne (hne hn), (hcopy hn).1,
      Arena.expr_modifyExpr_of_ne (hne hn)]
  · obtain ⟨p, hp⟩ := hop
    rw [harena, Arena.replaceExpr, Arena.expr_modifyExpr] at hp
    split at hp
    · exact ((hcopy hn).2.1 hp).elim
    · exact ((hcopy hn).2.2 p hp).elim

theorem Replaced.serves (h : c.Replaced id d' b' c') (hknown : known) (hd : d' ∉ active) :
    Serves known d b e ty active c c' := by
  by_cases hid : e = id
  · subst hid
    exact h.serves_use hknown hd
  · exact h.serves_of_ne hid

/-- **A use that is cut off** is read as a reference. The use that is looked after is one already. -/
theorem CutOff.serves {stop : Stop} (h : c.CutOff id d' stop c') :
    Serves known d b e ty active c c' := by
  intro hc
  obtain rfl := h.read
  have hguarded {n : ExprId} (hn : n ∈ Guarded known b e) (heq : n = id) :
      (c.arena.expr id).kind = .reference d' := by
    subst heq
    refine h.use.resolve_right fun hcall => ?_
    have hleaf := hc.isLeaf hn
    rw [hcall] at hleaf
    cases hleaf
  by_cases hid : id ∈ Guarded known b e
  · rw [readAs_of_reference (hguarded hid rfl)]
    exact Serves.refl active c hc
  · refine serves_of_expr ⟨rfl, rfl, rfl, rfl⟩ (fun n hn => ?_) (fun n _ hop => ?_) hc
    · exact Arena.expr_modifyExpr_of_ne (fun heq : n = id => hid (heq ▸ hn)) _
    · obtain ⟨p, hp⟩ := hop
      simp only [readAs, modifyArena, Arena.expr_modifyExpr] at hp
      split at hp
      · cases hp
      · exact ⟨p, hp⟩

end Compilation

/-- Without substitution no use is replaced. -/
theorem substitute_of_debugNoInline (h : settings.debugNoInline = true) (id : ExprId) :
    substitute settings id = pure false := by
  simp only [substitute, h, if_true]

/-- **A use is replaced** only if the body is a constant, or nothing changes. -/
theorem substitute_serves (hknown : settings.debugNoInline = true ∨ known)
    (hd : (c.arena.expr id).kind.definition? = some d') (hactive : d' ∉ active) :
    Outcome (substitute settings id) c (fun _ => Serves known d b e ty active c)
      fun _ => Serves known d b e ty active c := by
  rcases hknown with hinline | hknown
  · rw [substitute_of_debugNoInline hinline]
    exact .refl active c
  · refine ((substitute_outcome settings hd).and (substitute_copies settings hd)).mono ?_
      fun _ _ h => h.1.serves
    rintro (_ | _) c' ⟨hkept, hcopied⟩
    · have hunchanged := hkept.kept rfl
      refine serves_of_expr hunchanged.toSameProgram (fun n _ => hunchanged.expr n)
        fun n _ hop => ?_
      obtain ⟨p, hp⟩ := hop
      exact ⟨p, by rwa [hunchanged.expr] at hp⟩
    · obtain ⟨b', hreplaced⟩ := hcopied rfl
      exact hreplaced.serves hknown hactive

namespace Compilation

/-- What is kept as a use is a reference. -/
theorem Supplies.lasting (h : Supplies known d b e ty c) (hn : n ∈ Guarded known b e)
    (hlasting : c.Lasting active n) :
    (c.arena.expr n).kind = .reference d ∧ c.Kept active d := by
  have hleaf := h.isLeaf hn
  cases hlasting with
  | operator hk | call hk =>
    rw [hk] at hleaf
    cases hleaf
  | reference hk hkept =>
    rcases hn with rfl | ⟨hknown, rfl⟩
    · rcases h.use with huse | ⟨huse, -⟩
      · cases hk.symm.trans huse
        exact ⟨huse, hkept⟩
      · rw [hk] at huse
        cases huse
    · have hvalue := (h.constant hknown).value
      rw [hk] at hvalue
      cases hvalue

theorem Supplies.eq_of_reference (h : Supplies known d b e ty c) (hn : n ∈ Guarded known b e)
    (hk : (c.arena.expr n).kind = .reference d') : n = e := by
  rcases hn with rfl | ⟨hknown, rfl⟩
  · rfl
  · have hvalue := (h.constant hknown).value
    rw [hk] at hvalue
    cases hvalue

theorem Operand.of_retype {t : Ty}
    (h : (c.modifyArena (·.modifyExpr id fun e => { e with ty := t })).Operand n) : c.Operand n := by
  obtain ⟨p, hp⟩ := h
  refine ⟨p, ?_⟩
  simp only [modifyArena, Arena.expr_modifyExpr] at hp
  split at hp
  · rename_i hpid
    exact hpid.1 ▸ hp
  · exact hp

theorem serves_of_retype (hid : id ∉ Guarded known b e) (t : Ty) :
    Serves known d b e ty active c
      (c.modifyArena (·.modifyExpr id fun e => { e with ty := t })) :=
  serves_of_expr ⟨rfl, rfl, rfl, rfl⟩
    (fun n hn => Arena.expr_modifyExpr_of_ne (fun heq : n = id => hid (heq ▸ hn)) _)
    fun _ _ hop => hop.of_retype

/-- **The use** may take the type that its definition declares. -/
theorem serves_retype (hk : (c.arena.expr e).kind = .reference d) :
    Serves known d b e ty active c
      (c.modifyArena (·.modifyExpr e fun e => { e with ty })) := by
  intro hc
  have hlt : e.index < c.arena.exprs.size := Arena.lt_size_of_kind_ne fun h => by
    rw [hk] at h
    cases h
  have he : (c.arena.modifyExpr e fun e => { e with ty }).expr e =
      { c.arena.expr e with ty } := Arena.expr_modifyExpr_self hlt _
  refine ⟨⟨hc.declared, hc.body, .inl ?_, fun _ => ?_, ?_, fun hop => hc.free hop.of_retype,
    fun hknown => ?_⟩, ⟨rfl, rfl, rfl, rfl⟩, fun _ _ => ?_⟩
  · simp only [modifyArena, he, hk]
  · simp only [modifyArena, he]
  · simp only [modifyArena, he, hc.plain]
  · have hconstant := hc.constant hknown
    have hb : (c.arena.modifyExpr e fun e => { e with ty }).expr b = c.arena.expr b :=
      Arena.expr_modifyExpr_of_ne (fun heq => by
        have hvalue := hconstant.value
        rw [heq, hk] at hvalue
        cases hvalue) _
    exact ⟨by simpa only [modifyArena, hb] using hconstant.value,
      by simpa only [modifyArena, hb] using hconstant.typed, hconstant.native,
      by simpa only [modifyArena, hb] using hconstant.declared,
      fun hop => hconstant.free hop.of_retype⟩
  · simp only [modifyArena, he, hk]

end Compilation

/-- **To keep a definition, its body and a use** is a discipline, if the body is a constant or nothing
is substituted. -/
def supplying (settings : Settings) (known : Prop) (d : DefId) (b e : ExprId) (ty : Ty)
    (hknown : settings.debugNoInline = true ∨ known) : Discipline settings where
  region := Set.univ
  Valid c := Supplies known d b e ty c
  Rel active c c' := Serves known d b e ty active c c'
  refl := .refl
  trans := Serves.trans
  inner {active d' c c'} h hc := by
    obtain ⟨hc', hsame, hkept⟩ := h hc
    exact ⟨hc', hsame, fun hd => hkept (hd.imp_left (List.mem_cons_of_mem d'))⟩
  valid hc h := (h hc).1
  onward _ _ _ := trivial
  report {c} _ err _ := by
    have harena := c.arena_reportNew err
    refine serves_of_expr (c.sameProgram_reportNew err) (fun n _ => by rw [harena]) fun n _ hop => ?_
    obtain ⟨p, hp⟩ := hop
    exact ⟨p, by rwa [harena] at hp⟩
  value _ _ _ hk := concretizeValue_serves hk
  coerce _ target _ _ h := coerceTo_serves target h
  retype {c c' active' id} active t hc _ hlasting h ht := by
    by_cases hid : id ∈ Guarded known b e
    · -- Only the use is no value, and it takes the type that its definition declares.
      obtain ⟨hk, hkept⟩ := hc.lasting hid hlasting
      obtain rfl : id = e := hc.eq_of_reference hid hk
      obtain rfl : t = ty := by
        rw [ht d hk, Arena.definitionType_of_declared (h hc).1.declared]
      exact serves_retype ((h hc).2.2 hkept hk)
    · exact serves_of_retype hid t
  replace hc _ hd hactive := substitute_serves hknown hd hactive
  negate {c c' active id x} hc _ hk h _ := by
    refine callNegation_serves fun hc' => ⟨fun hmem => ?_, fun hmem => ?_⟩
    · have hleaf := hc.isLeaf hmem
      rw [hk] at hleaf
      cases hleaf
    · exact hc.not_operand hmem ⟨id, by rw [hk]; exact List.mem_singleton_self x⟩

/-! ## Uses have the declared type -/

/-- **Uses have the type that their definition declares**, where concretization says that the program
is valid, if nothing is substituted, or if the body is a constant of that type. The body has the
declared type as well if it is such a constant. This is about uses that are no operands, that declare
nothing themselves, and that do not have another native type to begin with. -/
theorem declared_uses_of_concretizeAll (hc : c.WellFormed)
    (hneg : ∀ d, c.IsNegation d → (c.arena.definition d).declared ≠ none)
    (h : concretizeAll settings c = .ok true c')
    (hd : (c.arena.definition d).declared = some ty)
    (hb : (c.arena.definition d).body = .expression b)
    (hk : (c.arena.expr e).kind = .reference d) (hplain : (c.arena.expr e).declared = none)
    (hty : (c.arena.expr e).ty.native = .yes → (c.arena.expr e).ty = ty) (hfree : ¬ c.Operand e)
    (hconstant : settings.debugNoInline = true ∨ c.Constant b ty) (hn : c'.arena.Reaches e) :
    (c'.arena.expr e).ty = ty ∧ (c.Constant b ty → (c'.arena.expr b).ty = ty) := by
  have hserves : Outcome (concretizeAll settings) c
      (fun _ => Serves (c.Constant b ty) d b e ty [] c) fun _ _ => True :=
    ((supplying settings (c.Constant b ty) d b e ty hconstant).concretizeAll_rel
      ⟨hd, hb, .inl hk, hty, hplain, hfree, fun hb => hb⟩ fun _ => trivial).mono
      (fun _ _ h => h) fun _ _ _ => trivial
  have hsupplies := (hserves.of_ok h ⟨hd, hb, .inl hk, hty, hplain, hfree, fun hb => hb⟩).1
  -- A walk that was accepted went through the use, which has a native type by now.
  obtain ⟨A, hconcrete, hreaches⟩ := (concretizeAll_outcome hc hneg).of_ok h rfl
  exact ⟨hsupplies.typed (hconcrete e (hreaches e hn)).ty, fun hb => (hsupplies.constant hb).typed⟩

/-- A program with a constant that is declared to be an integer, and a use of it. -/
def declaredConstant : Compilation :=
  { Compilation.new with
    arena :=
      { exprs := #[.new (.value (.int 1)) .int .origin, .new (.reference ⟨9⟩) .int .origin]
        defs := Builtins.definitions.toArray.push
          ⟨"v", .expression ⟨0⟩, some .int, none, .origin⟩
        stmts := #[⟨.bind ⟨9⟩, .origin⟩, ⟨.expression ⟨1⟩, .origin⟩]
        roots := [⟨0⟩, ⟨1⟩] } }

theorem declaredConstant_wellFormed : declaredConstant.WellFormed := by
  refine .of_tables (by simp [declaredConstant, Expression.new]) (fun x hx => ?_)
    (by simp [declaredConstant, Expression.new])
  rcases Array.mem_push.1 hx with hx | rfl
  · exact .inl (by simpa using hx)
  · exact .inr (by simp)

theorem declaredConstant_not_operand (n : ExprId) : ¬ declaredConstant.Operand n := by
  rintro ⟨p, hp⟩
  revert hp
  exact Arena.forall_expr (p := fun e => n ∉ e.kind.children)
    (by simp [declaredConstant, Expression.new, ExprKind.children])
    (by simp [Expression.tombstone, Expression.sentinel, Expression.new, ExprKind.children]) p

theorem declaredConstant_constant : declaredConstant.Constant ⟨0⟩ .int :=
  ⟨rfl, rfl, rfl, (fun _ h => by cases h), declaredConstant_not_operand _⟩

/-- The use is replaced, and both it and the body are integers. -/
theorem declared_uses_declaredConstant :
    ∃ c', concretizeAll {} declaredConstant = .ok true c' ∧ c'.arena.Reaches ⟨1⟩ ∧
      (c'.arena.expr ⟨1⟩).kind = .value (.int 1) ∧ (c'.arena.expr ⟨1⟩).ty = .int ∧
      (declaredConstant.Constant ⟨0⟩ .int → (c'.arena.expr ⟨0⟩).ty = .int) := by
  have hneg : ∀ d, declaredConstant.IsNegation d →
      (declaredConstant.arena.definition d).declared ≠ none := by
    rintro d (rfl | rfl) <;> decide
  obtain ⟨c', h, hcheck⟩ := exists_of_check {} declaredConstant
    (fun c' => decide (⟨1⟩ ∈ c'.arena.roots ∧ (c'.arena.stmt ⟨1⟩).kind = .expression ⟨1⟩ ∧
      (c'.arena.expr ⟨1⟩).kind = .value (.int 1))) (by decide +kernel)
  obtain ⟨hroot, hstmt, hk⟩ := of_decide_eq_true hcheck
  have hn : c'.arena.Reaches ⟨1⟩ := .root hroot (.expression hstmt)
  exact ⟨c', h, hn, hk, declared_uses_of_concretizeAll declaredConstant_wellFormed hneg h
    (d := ⟨9⟩) rfl rfl rfl rfl (fun _ => rfl) (declaredConstant_not_operand _)
    (.inr declaredConstant_constant) hn⟩

/-- A program with a literal that is declared to be a float as a definition, but not as an expression,
and a use of it. -/
def declaredBody : Compilation :=
  { Compilation.new with
    arena :=
      { exprs := #[.new (.value (.string "1")) .numberLiteral .origin,
          .new (.reference ⟨9⟩) .float .origin]
        defs := Builtins.definitions.toArray.push
          ⟨"v", .expression ⟨0⟩, some .float, none, .origin⟩
        stmts := #[⟨.bind ⟨9⟩, .origin⟩, ⟨.expression ⟨1⟩, .origin⟩]
        roots := [⟨0⟩, ⟨1⟩] } }

/-- **A body is not held against the declared type of its definition**: it becomes an integer, and so
does the use that it replaces. If the use is kept, then it is a float, and the body is an integer
still. -/
theorem declared_uses_declaredBody :
    (∃ c', concretizeAll {} declaredBody = .ok true c' ∧
      (c'.arena.definition ⟨9⟩).declared = some .float ∧ (c'.arena.expr ⟨0⟩).ty = .int ∧
      (c'.arena.expr ⟨1⟩).ty = .int) ∧
    ∃ c', concretizeAll { debugNoInline := true } declaredBody = .ok true c' ∧
      (c'.arena.expr ⟨0⟩).ty = .int ∧ (c'.arena.expr ⟨1⟩).ty = .float := by
  constructor
  · obtain ⟨c', h, hcheck⟩ := exists_of_check {} declaredBody
      (fun c' => decide ((c'.arena.definition ⟨9⟩).declared = some .float ∧
        (c'.arena.expr ⟨0⟩).ty = .int ∧ (c'.arena.expr ⟨1⟩).ty = .int)) (by decide +kernel)
    exact ⟨c', h, of_decide_eq_true hcheck⟩
  · obtain ⟨c', h, hcheck⟩ := exists_of_check { debugNoInline := true } declaredBody
      (fun c' => decide ((c'.arena.expr ⟨0⟩).ty = .int ∧ (c'.arena.expr ⟨1⟩).ty = .float))
      (by decide +kernel)
    exact ⟨c', h, of_decide_eq_true hcheck⟩

end Termwise
