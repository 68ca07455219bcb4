import Mathlib.Data.Multiset.AddSub
import Termwise.Proofs.Concretization.Gate
import Termwise.Proofs.Coupled
import Termwise.Proofs.Run.Mending

/-!
# Compilations that mirror each other

Two compilations over the same definitions may hold the same trees under different positions,
because one of them made a detour and appended other nodes. A correspondence between positions
says which nodes are the same. It grows as both compilations append what they build.

Some runs may lag behind: one compilation still has the run where the other one has what it came
to. Such a run corresponds to nothing yet, but it may be a term of runs that do correspond.

## Main definitions

* `ExprKind.Mirrors`, `Expression.Mirrors`: two nodes are the same up to the nodes below them
* `Extent`: the nodes that may change, the terms among them, and the definitions these name
* `Alike`: two compilations mirror each other along a correspondence
* `Outset`: what the two compilations were like earlier

## Main results

* `Alike.modifyExpr`, `Alike.allocExpr`: the same step on both sides
* `Outset.Leads.modifyExpr`, `Outset.Leads.allocExpr`: where such a step may reach
-/

namespace Termwise

open Compilation

/-! ## Nodes -/

/-- The kinds that have nothing below them. -/
def ExprKind.isAtom : ExprKind → Bool
  | .run _ | .call .. | .negated _ => false
  | _ => true

theorem ExprKind.children_of_isAtom {k : ExprKind} (h : k.isAtom = true) : k.children = [] := by
  cases k <;> first | rfl | cases h

/-- **Two nodes are the same** up to the nodes below: terms correspond in one way, and the operands
of calls and of minus signs in another. -/
inductive ExprKind.Mirrors (Q R : ExprId → ExprId → Prop) : ExprKind → ExprKind → Prop
  | leaf {k : ExprKind} : k.isAtom = true → Mirrors Q R k k
  | run {ts ts' : List ExprId} : List.Forall₂ Q ts ts' → Mirrors Q R (.run ts) (.run ts')
  | call (d : DefId) {args args' : List ExprId} :
    List.Forall₂ R args args' → Mirrors Q R (.call d args) (.call d args')
  | negated {n m : ExprId} : R n m → Mirrors Q R (.negated n) (.negated m)

/-- Two expressions are the same up to the nodes below. -/
structure Expression.Mirrors (Q R : ExprId → ExprId → Prop) (e e' : Expression) : Prop where
  kind : e.kind.Mirrors Q R e'.kind
  ty : e'.ty = e.ty
  declared : e'.declared = e.declared
  span : e'.span = e.span

namespace ExprKind

variable {Q Q' R R' : ExprId → ExprId → Prop} {k k' : ExprKind} {d : DefId}

theorem Mirrors.mono (h : k.Mirrors Q R k') (hQ : ∀ n m, Q n m → Q' n m)
    (hR : ∀ n m, R n m → R' n m) : k.Mirrors Q' R' k' := by
  cases h with
  | leaf hk => exact .leaf hk
  | run hts => exact .run (hts.imp hQ)
  | call d hargs => exact .call d (hargs.imp hR)
  | negated hn => exact .negated (hR _ _ hn)

/-- What has nothing below it that could differ is the same. -/
theorem Mirrors.refl (hrun : ∀ ts, k = .run ts → ∀ t ∈ ts, Q t t)
    (hargs : (∀ ts, k ≠ .run ts) → ∀ n ∈ k.children, R n n) : k.Mirrors Q R k := by
  cases k with
  | run ts => exact .run (List.forall₂_same.2 (hrun ts rfl))
  | call d args => exact .call d (List.forall₂_same.2 (hargs nofun))
  | negated n => exact .negated (hargs nofun n (List.mem_singleton_self n))
  | _ => exact .leaf rfl

theorem Mirrors.isMissingArg (h : k.Mirrors Q R k') : k'.isMissingArg = k.isMissingArg := by
  cases h <;> rfl

theorem Mirrors.isAtom (h : k.Mirrors Q R k') : k'.isAtom = k.isAtom := by
  cases h <;> rfl

theorem Mirrors.of_run {ts : List ExprId} (h : (ExprKind.run ts).Mirrors Q R k') :
    ∃ ts', k' = .run ts' ∧ List.Forall₂ Q ts ts' := by
  cases h with
  | leaf hk => cases hk
  | run hts => exact ⟨_, rfl, hts⟩

theorem Mirrors.of_call {args : List ExprId} (h : (ExprKind.call d args).Mirrors Q R k') :
    ∃ args', k' = .call d args' ∧ List.Forall₂ R args args' := by
  cases h with
  | leaf hk => cases hk
  | call d hargs => exact ⟨_, rfl, hargs⟩

theorem Mirrors.of_negated {n : ExprId} (h : (ExprKind.negated n).Mirrors Q R k') :
    ∃ m, k' = .negated m ∧ R n m := by
  cases h with
  | leaf hk => cases hk
  | negated hn => exact ⟨_, rfl, hn⟩

theorem Mirrors.of_isAtom (h : k.Mirrors Q R k') (hk : k.isAtom = true) : k' = k := by
  cases h with
  | leaf => rfl
  | run | call | negated => cases hk

/-- What is below two nodes corresponds, if terms correspond as operands do. -/
theorem Mirrors.children (h : k.Mirrors Q R k') (hQ : ∀ n m, Q n m → R n m) :
    List.Forall₂ R k.children k'.children := by
  cases h with
  | leaf hk =>
    rw [children_of_isAtom hk]
    exact .nil
  | run hts => exact hts.imp hQ
  | call d hargs => exact hargs
  | negated hn => exact .cons hn .nil

/-- What is below a node that mirrors another one corresponds to something. -/
theorem Mirrors.mem_children (h : k.Mirrors Q R k') (hQ : ∀ n m, Q n m → R n m) {n : ExprId}
    (hn : n ∈ k.children) : ∃ m, R n m := by
  have hchildren := h.children hQ
  obtain ⟨i, hi, rfl⟩ := List.getElem_of_mem hn
  exact ⟨_, hchildren.get hi (hchildren.length_eq ▸ hi)⟩

end ExprKind

namespace Expression

variable {Q Q' R R' : ExprId → ExprId → Prop} {e e' x : Expression}

theorem Mirrors.mono (h : e.Mirrors Q R e') (hQ : ∀ n m, Q n m → Q' n m)
    (hR : ∀ n m, R n m → R' n m) : e.Mirrors Q' R' e' :=
  ⟨h.kind.mono hQ hR, h.ty, h.declared, h.span⟩

theorem Mirrors.eq_of_isAtom (h : e.Mirrors Q R e') (hk : e.kind.isAtom = true) : e' = e := by
  obtain ⟨hkind, hty, hdeclared, hspan⟩ := h
  have hkind := hkind.of_isAtom hk
  cases e
  cases e'
  simp_all

/-- What has something below it is coerced without a cast. -/
theorem coerce_of_not_isAtom (h : e.kind.isAtom = false) (param : Ty) :
    e.coerce param =
      if e.ty = param ∨ e.ty = .absurd ∨ param = .hole then .ok e
      else if e.ty = .hole then .ok { e with ty := param }
      else if param = .number ∧ e.ty.numeric = .yes then .ok e
      else if e.ty = .number ∧ param.numeric = .yes then .ok e
      else .error (.typeMismatch param e.ty) := by
  have hmissing : e.kind.isMissingArg = false := by
    cases hk : e.kind <;> simp_all [ExprKind.isMissingArg, ExprKind.isAtom]
  have hvalue : e.kind.isValue = false := by
    cases hk : e.kind <;> simp_all [ExprKind.isValue, ExprKind.isAtom]
  simp only [coerce_eq, hmissing, hvalue, Bool.false_eq_true, if_false]

/-- **An argument is accepted** on both sides or on none, and what becomes of it mirrors. -/
theorem Mirrors.coerce (h : e.Mirrors Q R e') (param : Ty) :
    (∃ cause, e.coerce param = .error cause ∧ e'.coerce param = .error cause) ∨
      ∃ x x', e.coerce param = .ok x ∧ e'.coerce param = .ok x' ∧ x.Mirrors Q R x' := by
  cases hleaf : e.kind.isAtom with
  | true =>
    rw [h.eq_of_isAtom hleaf]
    cases hc : e.coerce param with
    | error cause => exact .inl ⟨cause, rfl, rfl⟩
    | ok x =>
      refine .inr ⟨x, x, rfl, rfl, .leaf ?_, rfl, rfl, rfl⟩
      rcases coerce_kind hc with hk | ⟨-, hv⟩
      · rw [hk, hleaf]
      · cases hk : x.kind <;> simp_all [ExprKind.isValue, ExprKind.isAtom]
  | false =>
    have hleaf' : e'.kind.isAtom = false := h.kind.isAtom.trans hleaf
    rw [coerce_of_not_isAtom hleaf, coerce_of_not_isAtom hleaf', h.ty]
    have hty : ({ e with ty := param } : Expression).Mirrors Q R { e' with ty := param } :=
      ⟨h.kind, rfl, h.declared, h.span⟩
    split
    · exact .inr ⟨e, e', rfl, rfl, h⟩
    · split
      · exact .inr ⟨_, _, rfl, rfl, hty⟩
      · split
        · exact .inr ⟨e, e', rfl, rfl, h⟩
        · split
          · exact .inr ⟨e, e', rfl, rfl, h⟩
          · exact .inl ⟨_, rfl, rfl⟩

end Expression

/-! ## Compilations -/

/-- **Where two compilations are compared.** Nodes outside the zone never change; what is appended
from the floor on is inside. Terms in the zone name only definitions that are listed. A run that
lags may be a term where the other compilation has what it came to. -/
structure Extent where
  builtins : Builtins
  floor : Nat
  zone : Set ExprId
  terms : Set ExprId
  names : Set DefId
  late : ExprId → ExprId → Prop
  zone_of_le : ∀ n : ExprId, floor ≤ n.index → n ∈ zone
  terms_of_le : ∀ n : ExprId, floor ≤ n.index → n ∈ terms

namespace Extent

/-- Terms correspond if they are the same or one of them lags. -/
def Among (Z : Extent) (R : ExprId → ExprId → Prop) (t t' : ExprId) : Prop := R t t' ∨ Z.late t t'

/-- A node of a kind is admitted: if it may be a term then it names what is listed, and its own
terms may be terms. -/
structure Admits (Z : Extent) (n : ExprId) (k : ExprKind) : Prop where
  names : n ∈ Z.terms → ∀ d ∈ k.named Z.builtins, d ∈ Z.names
  terms : ∀ ts, k = .run ts → ∀ t ∈ ts, t ∈ Z.terms

end Extent

/-- **Two compilations mirror each other** along a correspondence of their nodes. -/
structure Alike (Z : Extent) (R : ExprId → ExprId → Prop) (c k : Compilation) : Prop where
  program : SameProgram c k
  builtins : c.builtins = Z.builtins
  floor : Z.floor ≤ c.arena.exprs.size
  floor' : Z.floor ≤ k.arena.exprs.size
  inside : ∀ {n m}, R n m → n.index < c.arena.exprs.size ∧ m.index < k.arena.exprs.size
  zone : ∀ {n m}, R n m → n ∈ Z.zone ∧ m ∈ Z.zone
  left_unique : ∀ {n n' m}, R n m → R n' m → n = n'
  right_unique : ∀ {n m m'}, R n m → R n m' → m = m'
  expr : ∀ {n m}, R n m → (c.arena.expr n).Mirrors (Z.Among R) R (k.arena.expr m)
  admits : ∀ {n m}, R n m → Z.Admits n (c.arena.expr n).kind
  outside : ∀ n ∉ Z.zone, k.arena.expr n = c.arena.expr n
  body : ∀ d ∈ Z.names, (c.arena.definition d).declared = none → ∀ b,
    (c.arena.definition d).body = .expression b → b ∉ Z.zone ∨ R b b

/-- A correspondence with one more pair. -/
def extend (R : ExprId → ExprId → Prop) (n₀ m₀ : ExprId) (n m : ExprId) : Prop :=
  R n m ∨ n = n₀ ∧ m = m₀

variable {Z : Extent} {R R' : ExprId → ExprId → Prop} {c c' k k' : Compilation} {n m : ExprId}
  {e e' : Expression} {d : DefId}

theorem Extent.Among.mono {t t' : ExprId} (h : Z.Among R t t') (hR : ∀ n m, R n m → R' n m) :
    Z.Among R' t t' := h.imp_left (hR t t')

theorem Expression.Mirrors.grow (h : e.Mirrors (Z.Among R) R e') (hR : ∀ n m, R n m → R' n m) :
    e.Mirrors (Z.Among R') R' e' := h.mono (fun _ _ h => h.mono hR) hR

/-- The negation of what has something below it is chosen by its type. -/
theorem Compilation.negationFor_of_not_isAtom (h : (c.arena.expr n).kind.isAtom = false) :
    c.negationFor n =
      if (c.arena.expr n).ty = .float then c.builtins.unaryMinusFloat
      else c.builtins.unaryMinus := by
  unfold Compilation.negationFor
  cases hk : (c.arena.expr n).kind <;> simp_all [ExprKind.isAtom] <;> split <;> simp_all

namespace Alike

variable (h : Alike Z R c k)
include h

theorem builtins' : k.builtins = Z.builtins := h.program.builtins.trans h.builtins

theorem definition (d : DefId) : k.arena.definition d = c.arena.definition d := by
  simp only [Arena.definition, h.program.defs]

/-- **A definition that may be named** has the same type on both sides. -/
theorem definitionType (hd : d ∈ Z.names) :
    k.arena.definitionType d = c.arena.definitionType d := by
  cases hdeclared : (c.arena.definition d).declared with
  | some ty =>
    rw [Arena.definitionType_of_declared hdeclared,
      Arena.definitionType_of_declared ((congrArg _ (h.definition d)).trans hdeclared)]
  | none =>
    have hdeclared' := (congrArg Definition.declared (h.definition d)).trans hdeclared
    by_cases hbody : ∃ b, (c.arena.definition d).body = .expression b
    · obtain ⟨b, hb⟩ := hbody
      have hb' := (congrArg Definition.body (h.definition d)).trans hb
      rw [Arena.definitionType_of_body hdeclared hb, Arena.definitionType_of_body hdeclared' hb']
      rcases h.body d hd hdeclared b hb with hout | hR
      · rw [h.outside b hout]
      · exact (h.expr hR).ty
    · have hbody' : ∀ b, (k.arena.definition d).body ≠ .expression b := by
        intro b hb
        exact hbody ⟨b, (congrArg Definition.body (h.definition d)).symm.trans hb⟩
      rw [Arena.definitionType_of_no_body hdeclared fun b hb => hbody ⟨b, hb⟩,
        Arena.definitionType_of_no_body hdeclared' hbody']

theorem isMissing (hR : R n m) : k.arena.isMissing m = c.arena.isMissing n :=
  (h.expr hR).kind.isMissingArg

/-- The negation that suits an operand is the same on both sides. -/
theorem negationFor (hR : R n m) : k.negationFor m = c.negationFor n := by
  have he := h.expr hR
  cases hleaf : (c.arena.expr n).kind.isAtom with
  | true => simp only [Compilation.negationFor, he.eq_of_isAtom hleaf, h.builtins, h.builtins']
  | false =>
    rw [negationFor_of_not_isAtom hleaf, negationFor_of_not_isAtom (he.kind.isAtom.trans hleaf),
      he.ty, h.builtins, h.builtins']

/-! ### Steps -/

/-- What changes no tables changes no correspondence. -/
theorem of_arena_eq (hc : c'.arena = c.arena) (hbuiltins : c'.builtins = c.builtins)
    (hk : k'.arena = k.arena) (hbuiltins' : k'.builtins = k.builtins) : Alike Z R c' k' := by
  obtain ⟨⟨hb, hdefs, hstmts, hroots⟩, hb', hfloor, hfloor', hinside, hzone, hleft, hright, hexpr,
    hadmits, hout, hbody⟩ := h
  rw [← hc] at hdefs hstmts hroots hfloor hinside hexpr hadmits hout hbody
  rw [← hk] at hdefs hstmts hroots hfloor' hinside hexpr hout
  rw [← hbuiltins, ← hbuiltins'] at hb
  rw [← hbuiltins] at hb'
  exact ⟨⟨hb, hdefs, hstmts, hroots⟩, hb', hfloor, hfloor', hinside, hzone, hleft, hright, hexpr,
    hadmits, hout, hbody⟩

/-- **The same change** of two nodes that correspond. -/
theorem modifyExpr (hR : R n m) {f g : Expression → Expression}
    (he : (f (c.arena.expr n)).Mirrors (Z.Among R) R (g (k.arena.expr m)))
    (hadmits : Z.Admits n (f (c.arena.expr n)).kind) :
    Alike Z R (c.modifyArena (·.modifyExpr n f)) (k.modifyArena (·.modifyExpr m g)) where
  program := ⟨h.program.builtins, h.program.defs, h.program.stmts, h.program.roots⟩
  builtins := h.builtins
  floor := by simpa [modifyArena] using h.floor
  floor' := by simpa [modifyArena] using h.floor'
  inside hR' := by simpa [modifyArena] using h.inside hR'
  zone := h.zone
  left_unique := h.left_unique
  right_unique := h.right_unique
  expr {x y} hxy := by
    obtain ⟨hx, hy⟩ := h.inside hxy
    simp only [modifyArena, Arena.expr_modifyExpr, hx, hy, and_true]
    by_cases hxn : x = n
    · subst hxn
      cases h.right_unique hxy hR
      simpa using he
    · have hym : y ≠ m := by
        rintro rfl
        exact hxn (h.left_unique hxy hR)
      simpa only [hxn, hym, if_false] using h.expr hxy
  admits {x y} hxy := by
    obtain ⟨hx, -⟩ := h.inside hxy
    simp only [modifyArena, Arena.expr_modifyExpr, hx, and_true]
    split
    · subst_vars
      exact hadmits
    · exact h.admits hxy
  outside x hx := by
    have hxn : x ≠ n := fun heq => hx (heq ▸ (h.zone hR).1)
    have hxm : x ≠ m := fun heq => hx (heq ▸ (h.zone hR).2)
    simp only [modifyArena, Arena.expr_modifyExpr_of_ne hxn, Arena.expr_modifyExpr_of_ne hxm]
    exact h.outside x hx
  body := h.body

/-- **The same node** appended on both sides. -/
theorem allocExpr (he : e.Mirrors (Z.Among R) R e')
    (hadmits : Z.Admits (c.allocExpr e).1 e.kind) :
    Alike Z (extend R (c.allocExpr e).1 (k.allocExpr e').1) (c.allocExpr e).2
      (k.allocExpr e').2 := by
  have hgrow : ∀ n m, R n m → extend R (c.allocExpr e).1 (k.allocExpr e').1 n m :=
    fun _ _ => .inl
  have hold {x y : ExprId} (hxy : R x y) :
      (c.allocExpr e).2.arena.expr x = c.arena.expr x ∧
        (k.allocExpr e').2.arena.expr y = k.arena.expr y := by
    obtain ⟨hx, hy⟩ := h.inside hxy
    exact ⟨Arena.expr_allocExpr_of_lt hx e, Arena.expr_allocExpr_of_lt hy e'⟩
  have hnew : (c.allocExpr e).1.index = c.arena.exprs.size := rfl
  have hnew' : (k.allocExpr e').1.index = k.arena.exprs.size := rfl
  -- A pair is an old one or the new one, and the index of a new node tells it from old ones.
  refine ⟨⟨h.program.builtins, h.program.defs, h.program.stmts, h.program.roots⟩, h.builtins, ?_,
    ?_, ?_, ?_, ?_, ?_, ?_, ?_, ?_, ?_⟩
  · simpa [Compilation.allocExpr] using h.floor.trans (Nat.le_succ _)
  · simpa [Compilation.allocExpr] using h.floor'.trans (Nat.le_succ _)
  · rintro x y (hxy | ⟨rfl, rfl⟩)
    · obtain ⟨hx, hy⟩ := h.inside hxy
      simp only [Compilation.allocExpr, Arena.size_allocExpr]
      omega
    · simp [Compilation.allocExpr, Arena.allocExpr]
  · rintro x y (hxy | ⟨rfl, rfl⟩)
    · exact h.zone hxy
    · exact ⟨Z.zone_of_le _ h.floor, Z.zone_of_le _ h.floor'⟩
  · rintro x x' y (hxy | ⟨rfl, rfl⟩) (hxy' | ⟨rfl, hy⟩)
    · exact h.left_unique hxy hxy'
    · have := (h.inside hxy).2
      rw [hy, hnew'] at this
      omega
    · have := (h.inside hxy').2
      omega
    · rfl
  · rintro x y y' (hxy | ⟨rfl, rfl⟩) (hxy' | ⟨hx, rfl⟩)
    · exact h.right_unique hxy hxy'
    · have := (h.inside hxy).1
      rw [hx, hnew] at this
      omega
    · have := (h.inside hxy').1
      omega
    · rfl
  · rintro x y (hxy | ⟨rfl, rfl⟩)
    · rw [(hold hxy).1, (hold hxy).2]
      exact (h.expr hxy).grow hgrow
    · simp only [Compilation.allocExpr, Arena.expr_allocExpr_self]
      exact he.grow hgrow
  · rintro x y (hxy | ⟨rfl, rfl⟩)
    · rw [(hold hxy).1]
      exact h.admits hxy
    · simp only [Compilation.allocExpr, Arena.expr_allocExpr_self]
      exact hadmits
  · intro x hx
    have hlt : x.index < Z.floor := Nat.lt_of_not_le fun hle => hx (Z.zone_of_le x hle)
    simp only [Compilation.allocExpr, Arena.expr_allocExpr_of_lt (hlt.trans_le h.floor),
      Arena.expr_allocExpr_of_lt (hlt.trans_le h.floor')]
    exact h.outside x hx
  · exact fun d hd hdeclared b hb => (h.body d hd hdeclared b hb).imp_right (hgrow b b)

end Alike

/-! ## What was before -/

/-- What was reported since a compilation was another one, and whether it is still valid. -/
def Compilation.Grown (c : Compilation) (added : Multiset Diagnostic) (valid : Bool)
    (c' : Compilation) : Prop :=
  (c'.diagnostics : Multiset Diagnostic) = c.diagnostics + added ∧ c'.isValid = (c.isValid && valid)

/-- Two earlier compilations, and the nodes that corresponded then. -/
structure Outset where
  left : Compilation
  right : Compilation
  start : ExprId → ExprId → Prop

/-- **What has happened to two compilations since.** They appended nodes that correspond, nothing
else was changed but what corresponded before, and the same was reported. -/
structure Outset.Leads (F : Outset) (R : ExprId → ExprId → Prop) (c k : Compilation) : Prop where
  same : F.left.SameProgram c
  same' : F.right.SameProgram k
  size : F.left.arena.exprs.size ≤ c.arena.exprs.size
  size' : F.right.arena.exprs.size ≤ k.arena.exprs.size
  start : ∀ n m, F.start n m → R n m
  fresh : ∀ n m, R n m → F.start n m ∨
    F.left.arena.exprs.size ≤ n.index ∧ F.right.arena.exprs.size ≤ m.index
  covered : ∀ n : ExprId, F.left.arena.exprs.size ≤ n.index → n.index < c.arena.exprs.size →
    ∃ m, R n m
  left : ∀ n : ExprId, n.index < F.left.arena.exprs.size → (∀ m, ¬ F.start n m) →
    c.arena.expr n = F.left.arena.expr n
  right : ∀ m : ExprId, m.index < F.right.arena.exprs.size → (∀ n, ¬ F.start n m) →
    k.arena.expr m = F.right.arena.expr m
  books : ∃ added valid, F.left.Grown added valid c ∧ F.right.Grown added valid k

namespace Compilation

theorem grown_refl (c : Compilation) : c.Grown 0 true c := ⟨(Multiset.add_zero _).symm, by simp⟩

theorem Grown.trans {X Y : Multiset Diagnostic} {x y : Bool} {c'' : Compilation}
    (h : c.Grown X x c') (h' : c'.Grown Y y c'') : c.Grown (X + Y) (x && y) c'' :=
  ⟨by rw [h'.1, h.1, Multiset.add_assoc], by rw [h'.2, h.2, Bool.and_assoc]⟩

end Compilation

namespace Outset.Leads

variable {F : Outset} (h : F.Leads R c k)
include h

/-- What changes neither the tables nor the reports. -/
theorem of_arena_eq (hc : c'.arena = c.arena) (hbuiltins : c'.builtins = c.builtins)
    (hk : k'.arena = k.arena) (hbuiltins' : k'.builtins = k.builtins)
    (hbooks : ∃ added valid, c.Grown added valid c' ∧ k.Grown added valid k') :
    F.Leads R c' k' := by
  obtain ⟨X, x, hX, hX'⟩ := h.books
  obtain ⟨Y, y, hY, hY'⟩ := hbooks
  have hprogram {c c' : Compilation} (harena : c'.arena = c.arena) (hb : c'.builtins = c.builtins) :
      c.SameProgram c' :=
    ⟨hb, by rw [harena], by rw [harena], by rw [harena]⟩
  exact
    { h with
      same := h.same.trans (hprogram hc hbuiltins)
      same' := h.same'.trans (hprogram hk hbuiltins')
      size := by rw [hc]; exact h.size
      size' := by rw [hk]; exact h.size'
      covered := by rw [hc]; exact h.covered
      left := by rw [hc]; exact h.left
      right := by rw [hk]; exact h.right
      books := ⟨X + Y, (x && y), hX.trans hY, hX'.trans hY'⟩ }

/-- A change of two nodes that correspond. -/
theorem modifyExpr (hR : R n m) (f g : Expression → Expression) :
    F.Leads R (c.modifyArena (·.modifyExpr n f)) (k.modifyArena (·.modifyExpr m g)) where
  same := ⟨h.same.builtins, h.same.defs, h.same.stmts, h.same.roots⟩
  same' := ⟨h.same'.builtins, h.same'.defs, h.same'.stmts, h.same'.roots⟩
  size := by simpa [modifyArena] using h.size
  size' := by simpa [modifyArena] using h.size'
  start := h.start
  fresh := h.fresh
  covered x hle hlt := h.covered x hle (by simpa [modifyArena] using hlt)
  left x hx hstart := by
    have hne : x ≠ n := by
      rintro rfl
      rcases h.fresh x m hR with hs | ⟨hle, -⟩
      · exact hstart m hs
      · omega
    rw [← h.left x hx hstart]
    exact Arena.expr_modifyExpr_of_ne hne f
  right y hy hstart := by
    have hne : y ≠ m := by
      rintro rfl
      rcases h.fresh n y hR with hs | ⟨-, hle⟩
      · exact hstart n hs
      · omega
    rw [← h.right y hy hstart]
    exact Arena.expr_modifyExpr_of_ne hne g
  books := h.books

/-- A node appended on both sides. -/
theorem allocExpr (e e' : Expression) :
    F.Leads (extend R (c.allocExpr e).1 (k.allocExpr e').1) (c.allocExpr e).2
      (k.allocExpr e').2 where
  same := ⟨h.same.builtins, h.same.defs, h.same.stmts, h.same.roots⟩
  same' := ⟨h.same'.builtins, h.same'.defs, h.same'.stmts, h.same'.roots⟩
  size := h.size.trans (by simp [Compilation.allocExpr])
  size' := h.size'.trans (by simp [Compilation.allocExpr])
  start n m hs := .inl (h.start n m hs)
  fresh n m hR := by
    rcases hR with hR | ⟨rfl, rfl⟩
    · exact h.fresh n m hR
    · exact .inr ⟨h.size, h.size'⟩
  covered n hle hlt := by
    simp only [Compilation.allocExpr, Arena.size_allocExpr] at hlt
    by_cases hn : n.index < c.arena.exprs.size
    · obtain ⟨m, hm⟩ := h.covered n hle hn
      exact ⟨m, .inl hm⟩
    · refine ⟨(k.allocExpr e').1, .inr ⟨ExprId.ext ?_, rfl⟩⟩
      show n.index = c.arena.exprs.size
      omega
  left n hn hstart := by
    rw [← h.left n hn hstart]
    exact Arena.expr_allocExpr_of_lt (hn.trans_le h.size) e
  right m hm hstart := by
    rw [← h.right m hm hstart]
    exact Arena.expr_allocExpr_of_lt (hm.trans_le h.size') e'
  books := h.books

end Outset.Leads

/-- At the outset, nothing has happened. -/
theorem Outset.leads_start (F : Outset) : F.Leads F.start F.left F.right where
  same := SameProgram.refl _
  same' := SameProgram.refl _
  size := le_rfl
  size' := le_rfl
  start _ _ := id
  fresh _ _ := .inl
  covered _ hle hlt := absurd hle (Nat.not_le.2 hlt)
  left _ _ _ := rfl
  right _ _ _ := rfl
  books := ⟨0, true, grown_refl _, grown_refl _⟩

end Termwise
