import Mathlib.Logic.Relation
import Termwise.Proofs.Concretization.Insertion
import Termwise.Proofs.Run.Custody
import Termwise.Proofs.Run.Failures
import Termwise.Proofs.Run.Wholeness

/-!
# Resolution within an enclosure

A run that is resolved takes the place of an expression that may have been appended long after it,
so that no order of the positions rules out a cycle. What does is an enclosure: all that lies
below the run, and all that is appended from now on. Terms are rewritten and calls are built
within the enclosure, nothing in it leads out of it, and the run itself is not part of it. So what
the run comes to has only nodes below it that the run does not lie below.

## Main definitions

* `Compilation.Upright`: every handle is in the tables, and no expression lies below itself
* `Compilation.Enclosed`: the expressions of a set lead nowhere else
* `Compilation.Works`: what is done within an enclosure
* `Compilation.Reworked`: what is done when a run is resolved
* `Compilation.enclosureCustody`: what a run takes and builds within an enclosure

## Main results

* `resolveTerms_works`: terms are resolved within the enclosure
* `resolveWithin_reworks`: a run is resolved, and there is still no cycle
-/

namespace Termwise

open Compilation

/-! ## Cycles -/

namespace Arena

variable {a a' : Arena} {Z : Set ExprId} {id n : ExprId} {e : Expression}

/-- **No cycle is made** by new ways into nodes that have none below them. -/
theorem Acyclic.of_acc (ha : a.Acyclic)
    (hZ : ∀ n ∈ Z, Acc (fun m n => m ∈ (a'.expr n).kind.children) n)
    (hold : ∀ n, ∀ m ∈ (a'.expr n).kind.children, m ∈ Z ∨ m ∈ (a.expr n).kind.children) :
    a'.Acyclic := by
  constructor
  intro n
  induction ha.apply n with
  | intro n _ ih =>
    constructor
    intro m hm
    rcases hold n m hm with hmem | hmem
    · exact hZ m hmem
    · exact ih m hmem

/-- What leads nowhere else and is left alone has no cycle below it, either. -/
theorem acc_of_closed (ha : a.Acyclic)
    (hclosed : ∀ n ∈ Z, ∀ m ∈ (a.expr n).kind.children, m ∈ Z)
    (hsame : ∀ n ∈ Z, (a'.expr n).kind.children = (a.expr n).kind.children) :
    ∀ n ∈ Z, Acc (fun m n => m ∈ (a'.expr n).kind.children) n := by
  intro n hn
  induction ha.apply n with
  | intro n _ ih =>
    constructor
    intro m hm
    rw [hsame n hn] at hm
    exact ih m hm (hclosed n hn m hm)

theorem Acyclic.of_children_subset (ha : a.Acyclic)
    (h : ∀ n, (a'.expr n).kind.children ⊆ (a.expr n).kind.children) : a'.Acyclic :=
  ha.of_acc (Z := ∅) nofun fun n _ hm => .inr (h n hm)

/-- A node whose children are in the table closes no cycle when it is appended. -/
theorem Acyclic.allocExpr (ha : a.Acyclic)
    (hin : ∀ n, ∀ m ∈ (a.expr n).kind.children, m.index < a.exprs.size)
    (he : ∀ m ∈ e.kind.children, m.index < a.exprs.size) : (a.allocExpr e).2.Acyclic := by
  refine ha.of_acc (Z := {n | n.index < a.exprs.size}) (acc_of_closed ha ?_ ?_) ?_
  · exact fun n _ m hm => hin n m hm
  · intro n hn
    rw [expr_allocExpr_of_lt hn]
  · intro n m hm
    rw [expr_allocExpr] at hm
    split at hm
    · exact .inl (he m hm)
    · exact .inr hm

/-- **A node is overwritten** and closes no cycle, if its new children lead nowhere that it lies
below. -/
theorem Acyclic.modifyExpr (ha : a.Acyclic) {f : Expression → Expression} (hid : id ∉ Z)
    (hclosed : ∀ n ∈ Z, ∀ m ∈ (a.expr n).kind.children, m ∈ Z)
    (hf : ∀ m ∈ (f (a.expr id)).kind.children, m ∈ Z) : (a.modifyExpr id f).Acyclic := by
  refine ha.of_acc (acc_of_closed ha hclosed fun n hn => ?_) fun n m hm => ?_
  · have hne : n ≠ id := by
      rintro rfl
      exact hid hn
    rw [expr_modifyExpr_of_ne hne]
  · rw [expr_modifyExpr] at hm
    split at hm
    · rename_i heq
      rw [heq.1] at hm
      exact .inl (hf m hm)
    · exact .inr hm

end Arena

namespace Compilation

/-! ## Enclosures -/

/-- **Every handle is in the tables, and no expression lies below itself.** -/
structure Upright (c : Compilation) : Prop where
  children : ∀ n, ∀ m ∈ (c.arena.expr n).kind.children, m.index < c.arena.exprs.size
  uses : ∀ n, ∀ d ∈ (c.arena.expr n).kind.definition?, d.index < c.arena.defs.size
  builtins : ∀ name, ∀ d ∈ c.builtins.get? name, d.index < c.arena.defs.size
  acyclic : c.arena.Acyclic

/-- **The expressions of a set lead nowhere else**, and there is room in it for what will be
appended. -/
structure Enclosed (c : Compilation) (Z : Set ExprId) : Prop extends Upright c where
  closed : ∀ n ∈ Z, ∀ m ∈ (c.arena.expr n).kind.children, m ∈ Z
  fresh : ∀ n : ExprId, c.arena.exprs.size ≤ n.index → n ∈ Z

/-- **No handle is invalidated**: expressions are only appended, definitions, statements and roots
are what they were, and every expression stays at its place, with its declared type. -/
structure Preserves (c c' : Compilation) : Prop extends Placed c c', SameProgram c c' where
  queue : c'.queue ⊆ c.queue

/-- **What is done within an enclosure**: all else is what it was. -/
structure Works (Z : Set ExprId) (c c' : Compilation) : Prop extends Preserves c c' where
  outside : ∀ n ∉ Z, (c'.arena.expr n).kind = (c.arena.expr n).kind
  enclosed : c.Enclosed Z → c'.Enclosed Z

/-- An expression of the table is in an enclosure. -/
def Has (c : Compilation) (Z : Set ExprId) (n : ExprId) : Prop :=
  n ∈ Z ∧ n.index < c.arena.exprs.size

/-- A kind that may stand in an enclosure. -/
structure Befits (c : Compilation) (Z : Set ExprId) (k : ExprKind) : Prop where
  children : ∀ m ∈ k.children, c.Has Z m
  uses : ∀ d ∈ k.definition?, d.index < c.arena.defs.size

variable {c c' c'' : Compilation} {Z Z' : Set ExprId} {id n m t : ExprId} {d : DefId}
  {e : Expression} {k : ExprKind}

theorem Preserves.refl (c : Compilation) : c.Preserves c :=
  ⟨.refl c, .refl c, List.Subset.refl _⟩

theorem Preserves.trans (h : c.Preserves c') (h' : c'.Preserves c'') : c.Preserves c'' :=
  ⟨h.toPlaced.trans h'.toPlaced, h.toSameProgram.trans h'.toSameProgram,
    List.Subset.trans h'.queue h.queue⟩

theorem Works.refl (Z : Set ExprId) (c : Compilation) : c.Works Z c :=
  ⟨.refl c, fun _ _ => rfl, id⟩

theorem Works.trans (h : c.Works Z c') (h' : c'.Works Z c'') : c.Works Z c'' :=
  ⟨h.toPreserves.trans h'.toPreserves, fun n hn => (h'.outside n hn).trans (h.outside n hn),
    h'.enclosed ∘ h.enclosed⟩

theorem Works.has (h : c.Works Z c') (hn : c.Has Z n) : c'.Has Z n :=
  ⟨hn.1, hn.2.trans_le h.size⟩

theorem Works.index_lt (h : c.Works Z c') (hd : d.index < c.arena.defs.size) :
    d.index < c'.arena.defs.size := by
  rwa [h.defs]

theorem Enclosed.befits (h : c.Enclosed Z) (hn : n ∈ Z) : c.Befits Z (c.arena.expr n).kind :=
  ⟨fun m hm => ⟨h.closed n hn m hm, h.children n m hm⟩, h.uses n⟩

theorem Enclosed.child (h : c.Enclosed Z) (hn : n ∈ Z) (hm : m ∈ (c.arena.expr n).kind.children) :
    c.Has Z m :=
  (h.befits hn).children m hm

/-- A sign stands for a builtin definition. -/
theorem Upright.negationFor (h : c.Upright) (x : ExprId) :
    (c.negationFor x).index < c.arena.defs.size := by
  rcases c.isNegation_negationFor x with heq | heq <;> rw [heq]
  · exact h.builtins "unary_minus" _ rfl
  · exact h.builtins "unary_minus_float" _ rfl

/-- What is not in the tables of expressions does not count. -/
theorem works_of_arena_eq (harena : c'.arena = c.arena) (hbuiltins : c'.builtins = c.builtins)
    (hqueue : c'.queue ⊆ c.queue) : c.Works Z c' where
  size := by rw [harena]
  span n _ := by rw [harena]
  declared n _ := by rw [harena]
  builtins := hbuiltins
  defs := by rw [harena]
  stmts := by rw [harena]
  roots := by rw [harena]
  queue := hqueue
  outside n _ := by rw [harena]
  enclosed h := by
    refine ⟨⟨?_, ?_, ?_, ?_⟩, ?_, ?_⟩ <;> rw [harena]
    · exact h.children
    · exact h.uses
    · exact hbuiltins ▸ h.builtins
    · exact h.acyclic
    · exact h.closed
    · exact h.fresh

/-- An expression is changed, and nothing else lies below it than before. -/
theorem works_modifyExpr {f : Expression → Expression} (hn : n ∈ Z)
    (hspan : (f (c.arena.expr n)).span = (c.arena.expr n).span)
    (hdeclared : (f (c.arena.expr n)).declared = (c.arena.expr n).declared)
    (hchildren : (f (c.arena.expr n)).kind.children ⊆ (c.arena.expr n).kind.children)
    (huses : c.Upright → ∀ d ∈ (f (c.arena.expr n)).kind.definition?,
      d.index < c.arena.defs.size) :
    c.Works Z (c.modifyArena (·.modifyExpr n f)) := by
  have hsub (m : ExprId) : ((c.modifyArena (·.modifyExpr n f)).arena.expr m).kind.children ⊆
      (c.arena.expr m).kind.children := by
    simp only [modifyArena, Arena.expr_modifyExpr]
    split
    · rename_i heq
      rw [heq.1]
      exact hchildren
    · exact List.Subset.refl _
  refine { placed_modifyExpr hspan hdeclared, SameProgram.refl c with
    queue := List.Subset.refl _
    outside := fun m hm => ?_
    enclosed := fun h => ⟨⟨fun m k hk => ?_, fun m d hd => ?_, h.builtins,
      h.acyclic.of_children_subset hsub⟩, fun m hm k hk => ?_, fun m hm => ?_⟩ }
  · have hne : m ≠ n := by
      rintro rfl
      exact hm hn
    exact congrArg _ (Arena.expr_modifyExpr_of_ne hne f)
  · simpa [modifyArena] using h.children m k (hsub m hk)
  · simp only [modifyArena, Arena.expr_modifyExpr] at hd
    split at hd
    · rename_i heq
      rw [heq.1] at hd
      exact huses h.toUpright d hd
    · exact h.uses m d hd
  · exact h.closed m hm k (hsub m hk)
  · exact h.fresh m (by simpa [modifyArena] using hm)

theorem works_setType (hn : n ∈ Z) (ty : Ty) :
    c.Works Z (c.modifyArena (·.modifyExpr n fun e => { e with ty })) :=
  works_modifyExpr hn rfl rfl (List.Subset.refl _) fun h => h.uses n

/-- A known value or what it is already takes the place of an expression. -/
theorem works_put (hn : n ∈ Z) (hspan : e.span = (c.arena.expr n).span)
    (hdeclared : e.declared = (c.arena.expr n).declared)
    (hk : e.kind = (c.arena.expr n).kind ∨
      (c.arena.expr n).kind.isValue = true ∧ e.kind.isValue = true) :
    c.Works Z (c.modifyArena (·.modifyExpr n fun _ => e)) := by
  refine works_modifyExpr hn hspan hdeclared ?_ fun h d hd => ?_
  · rcases hk with hk | ⟨-, hv⟩
    · rw [hk]
      exact List.Subset.refl _
    · rw [ExprKind.children_of_isValue hv]
      exact List.nil_subset _
  · rcases hk with hk | ⟨-, hv⟩
    · exact h.uses n d (hk ▸ hd)
    · cases he : e.kind <;> simp_all [ExprKind.isValue, ExprKind.definition?]

theorem works_allocExpr (hc : c.Enclosed Z) (he : c.Befits Z e.kind) :
    c.Works Z (c.allocExpr e).2 where
  size := by simp [Compilation.allocExpr]
  span n hn := congrArg _ (Arena.expr_allocExpr_of_lt hn e)
  declared n hn := congrArg _ (Arena.expr_allocExpr_of_lt hn e)
  builtins := rfl
  defs := rfl
  stmts := rfl
  roots := rfl
  queue := List.Subset.refl _
  outside n hn := by
    have hlt : n.index < c.arena.exprs.size := Nat.lt_of_not_le fun hle => hn (hc.fresh n hle)
    exact congrArg _ (Arena.expr_allocExpr_of_lt hlt e)
  enclosed _ := by
    refine ⟨⟨fun n m hm => ?_, fun n d hd => ?_, hc.builtins, ?_⟩, fun n hn m hm => ?_,
      fun n hn => hc.fresh n ?_⟩
    · simp only [Compilation.allocExpr, Arena.expr_allocExpr, Arena.size_allocExpr] at hm ⊢
      split at hm
      · exact Nat.lt_succ_of_lt (he.children m hm).2
      · exact Nat.lt_succ_of_lt (hc.children n m hm)
    · simp only [Compilation.allocExpr, Arena.expr_allocExpr] at hd
      split at hd
      · exact he.uses d hd
      · exact hc.uses n d hd
    · exact hc.acyclic.allocExpr hc.children fun m hm => (he.children m hm).2
    · simp only [Compilation.allocExpr, Arena.expr_allocExpr] at hm
      split at hm
      · exact (he.children m hm).1
      · exact hc.closed n hn m hm
    · simp only [Compilation.allocExpr, Arena.size_allocExpr] at hn
      omega

/-! ## Actions -/

/-- **An action stays within an enclosure**, whether it ends or stops. -/
def Stays {α : Type} (c : Compilation) (Z : Set ExprId) (action : CheckM α)
    (ended : α → Compilation → Prop) : Prop :=
  Outcome action c (fun a c' => c.Works Z c' ∧ ended a c') fun _ c' => c.Works Z c'

section

variable {α β : Type} {ended : α → Compilation → Prop} {mid : β → Compilation → Prop}

theorem stays_pure (a : α) (h : ended a c) : c.Stays Z (pure a) ended := ⟨.refl Z c, h⟩

theorem stays_fail (cause : Cause) (span : Span) :
    c.Stays Z (CheckM.fail cause span : CheckM α) ended := Works.refl Z c

/-- **Actions in sequence** stay within an enclosure if each does. -/
theorem Stays.bind {first : CheckM β} {rest : β → CheckM α} (h : c.Stays Z first mid)
    (hrest : ∀ b c', c.Works Z c' → mid b c' → c'.Stays Z (rest b) ended) :
    c.Stays Z (first >>= rest) ended := by
  rw [Stays, outcome_bind]
  refine Outcome.imp h ?_
  rintro b c' ⟨hworks, hmid⟩
  refine Outcome.mono (hrest b c' hworks hmid) ?_ fun _ _ => hworks.trans
  exact fun a c'' h' => ⟨hworks.trans h'.1, h'.2⟩

@[simp] theorem stays_get {rest : Compilation → CheckM α} :
    c.Stays Z (get >>= rest) ended ↔ c.Stays Z (rest c) ended := Iff.rfl

@[simp] theorem stays_arena {rest : Arena → CheckM α} :
    c.Stays Z (CheckM.arena >>= rest) ended ↔ c.Stays Z (rest c.arena) ended := Iff.rfl

@[simp] theorem stays_expr {rest : Expression → CheckM α} (n : ExprId) :
    c.Stays Z (CheckM.expr n >>= rest) ended ↔ c.Stays Z (rest (c.arena.expr n)) ended := Iff.rfl

@[simp] theorem stays_definition {rest : Definition → CheckM α} (d : DefId) :
    c.Stays Z (CheckM.definition d >>= rest) ended ↔
      c.Stays Z (rest (c.arena.definition d)) ended := Iff.rfl

end

/-! ## Calls -/

/-- What is done for a call stays within an enclosure of its arguments. -/
theorem callLaw_works {args : List ExprId} (hargs : ∀ n ∈ args, n ∈ Z) : CallLaw args (Works Z) where
  refl := Works.refl Z
  trans := Works.trans
  coerced harg h :=
    have hplace := Expression.coerce_place h
    works_put (hargs _ harg) hplace.1 hplace.2 (Expression.coerce_kind h)
  issued _ _ _ _ := works_of_arena_eq rfl rfl (List.Subset.refl _)

theorem createCall_stays (d : DefId) (args : List ExprId) (span : Span)
    (hargs : ∀ n ∈ args, n ∈ Z) :
    c.Stays Z (createCall d args span) fun e _ => e.kind = .call d args :=
  ((callLaw_works hargs).outcome_createCall d span c).mono (fun _ _ h => ⟨h.1, h.2.1⟩)
    fun _ _ => And.right

/-- **A call is built** within an enclosure. -/
theorem allocCall_stays (hc : c.Enclosed Z) (span : Span) {args : List ExprId}
    (hd : d.index < c.arena.defs.size) (hargs : ∀ n ∈ args, c.Has Z n) :
    c.Stays Z (allocCall d args span) fun n c' => c'.Has Z n := by
  have hcreated := createCall_stays (c := c) (Z := Z) d args span fun n hn => (hargs n hn).1
  refine hcreated.bind fun e c₁ h₁ he => ?_
  have hbefits : c₁.Befits Z e.kind := by
    rw [he]
    refine ⟨fun m hm => h₁.has (hargs m hm), ?_⟩
    rintro d' ⟨⟩
    exact h₁.index_lt hd
  refine ⟨works_allocExpr (h₁.enclosed hc) hbefits, (h₁.enclosed hc).fresh _ le_rfl, ?_⟩
  exact Nat.lt_of_lt_of_eq (Nat.lt_succ_self _) (Arena.size_allocExpr ..).symm

theorem allocMissing_stays (hc : c.Enclosed Z) (span : Span) :
    c.Stays Z (Arrangement.allocMissing span) fun n c' => c'.Has Z n := by
  refine ⟨works_allocExpr hc ⟨nofun, nofun⟩, hc.fresh _ le_rfl, ?_⟩
  exact Nat.lt_of_lt_of_eq (Nat.lt_succ_self _) (Arena.size_allocExpr ..).symm

end Compilation

/-! ## Operands -/

/-- A classified term is in an enclosure. -/
def Term.Within (c : Compilation) (Z : Set ExprId) : Term → Prop
  | .operand id => c.Has Z id
  | .leading d _ | .trailing d _ => d.index < c.arena.defs.size
  | .binary op => op.definition.index < c.arena.defs.size
  | .minusSign _ => True

namespace Compilation

variable {c c' : Compilation} {Z : Set ExprId} {id n t : ExprId}

theorem Works.within {term : Term} (h : c.Works Z c') (hterm : term.Within c Z) :
    term.Within c' Z := by
  cases term with
  | operand _ => exact h.has hterm
  | leading _ _ | trailing _ _ | binary _ => exact h.index_lt hterm
  | minusSign _ => trivial

theorem normalizeOperand_stays (hc : c.Enclosed Z) (hn : c.Has Z n) :
    c.Stays Z (Arrangement.normalizeOperand n) fun m c' => c'.Has Z m := by
  simp only [Arrangement.normalizeOperand, stays_expr]
  split
  · rename_i x hk
    simp only [stays_get]
    have hx : c.Has Z x := hc.child hn.1 (by rw [hk]; exact List.mem_singleton_self x)
    exact allocCall_stays hc _ (hc.negationFor x) (by simpa using hx)
  · exact stays_pure n hn

theorem applyCollected_stays (hc : c.Enclosed Z) (hn : c.Has Z n) {args : List ExprId}
    (hargs : ∀ m ∈ args, c.Has Z m) :
    c.Stays Z (Arrangement.applyCollected n args) fun m c' => c'.Has Z m := by
  have hbefits := hc.befits hn.1
  unfold Arrangement.applyCollected
  split
  · exact stays_pure n hn
  · simp only [stays_arena]
    split
    · rename_i d hk
      exact allocCall_stays hc _ (hbefits.uses d (by rw [hk]; rfl)) hargs
    · rename_i d bound hk
      refine allocCall_stays hc _ (hbefits.uses d (by rw [hk]; rfl)) fun m hm => ?_
      -- An argument is one that the call has already, or a new one.
      rcases mem_of_mem_fillOpen hm with hm | hm
      · exact hbefits.children m (by rw [hk]; exact hm)
      · exact hargs m hm
    · exact stays_pure n hn

/-! ## What lies beneath a run -/

/-- **What lies beneath an expression**: below it, but not itself, or not appended yet. -/
def Beneath (c : Compilation) (id : ExprId) : Set ExprId :=
  {n | Relation.TransGen (fun n m => m ∈ (c.arena.expr n).kind.children) id n ∨
    c.arena.exprs.size ≤ n.index}

theorem Upright.enclosed_beneath (h : c.Upright) (id : ExprId) : c.Enclosed (c.Beneath id) :=
  { h with
    closed := fun n hn m hm => by
      rcases hn with hn | hn
      · exact .inl (hn.tail hm)
      · rw [Arena.expr_of_size_le hn] at hm
        cases hm
    fresh := fun _ => .inr }

theorem Upright.not_mem_beneath (h : c.Upright) (hid : id.index < c.arena.exprs.size) :
    id ∉ c.Beneath id := by
  rintro (hcycle | hfresh)
  · obtain ⟨m, hm, hpath⟩ := Relation.TransGen.head'_iff.1 hcycle
    exact Arena.not_reaches_of_acc (h.acyclic.apply id) hm hpath
  · omega

/-- What lies beneath an expression of an enclosure is in the enclosure. -/
theorem Enclosed.beneath_subset (h : c.Enclosed Z) (ht : t ∈ Z) : c.Beneath t ⊆ Z := by
  rintro n (hn | hn)
  · induction hn with
    | single hm => exact h.closed t ht _ hm
    | tail _ hm ih => exact h.closed _ ih _ hm
  · exact h.fresh n hn

/-- **What is done when a run is resolved**: the run leads into what was beneath it, nothing leads
out of that, and all else is what it was. -/
structure Reworked (c : Compilation) (id : ExprId) (c' : Compilation) : Prop
    extends Preserves c c' where
  outside : ∀ n ∉ c.Beneath id, n ≠ id → (c'.arena.expr n).kind = (c.arena.expr n).kind
  upright : c'.Upright
  closed : ∀ n, n ∈ c.Beneath id ∨ n = id →
    ∀ m ∈ (c'.arena.expr n).kind.children, m ∈ c.Beneath id

/-- A run of an enclosure is resolved within it. -/
theorem Reworked.works (h : c.Reworked t c') (hc : c.Enclosed Z) (ht : t ∈ Z) : c.Works Z c' := by
  have hsub := hc.beneath_subset ht
  have houtside : ∀ n ∉ c.Beneath t, n ≠ t →
      (c'.arena.expr n).kind = (c.arena.expr n).kind := h.outside
  refine ⟨h.toPreserves, fun n hn => ?_, fun _ => ?_⟩
  · refine houtside n (fun hmem => hn (hsub hmem)) ?_
    rintro rfl
    exact hn ht
  · refine { h.upright with closed := fun n hn m hm => ?_, fresh := fun n hn => ?_ }
    · by_cases hinside : n ∈ c.Beneath t ∨ n = t
      · exact hsub (h.closed n hinside m hm)
      · obtain ⟨hnot, hne⟩ := not_or.1 hinside
        rw [houtside n hnot hne] at hm
        exact hc.closed n hn m hm
    · exact hc.fresh n (h.size.trans hn)

/-- What was done beneath a run left the run itself alone. -/
theorem Works.reworked (h : c.Works (c.Beneath id) c') (hc : c.Upright)
    (hid : id.index < c.arena.exprs.size) : c.Reworked id c' := by
  have henclosed := h.enclosed (hc.enclosed_beneath id)
  refine ⟨h.toPreserves, fun n hn _ => h.outside n hn, henclosed.toUpright, ?_⟩
  rintro n (hn | rfl) m hm
  · exact henclosed.closed n hn m hm
  · rw [h.outside n (hc.not_mem_beneath hid)] at hm
    exact .inl (.single hm)

/-- **The run is overwritten** by what leads into what was beneath it. -/
theorem Works.overwritten (h : c.Works (c.Beneath id) c') (hc : c.Upright)
    (hid : id.index < c.arena.exprs.size) {f : Expression → Expression}
    (hspan : (f (c'.arena.expr id)).span = (c'.arena.expr id).span)
    (hdeclared : (f (c'.arena.expr id)).declared = (c'.arena.expr id).declared)
    (hk : c'.Befits (c.Beneath id) (f (c'.arena.expr id)).kind) :
    c.Reworked id (c'.modifyArena (·.modifyExpr id f)) := by
  have henclosed := h.enclosed (hc.enclosed_beneath id)
  have hnot := hc.not_mem_beneath hid
  have hexpr (n : ExprId) : n = id ∧ (c'.modifyArena (·.modifyExpr id f)).arena.expr n =
      f (c'.arena.expr id) ∨
        n ≠ id ∧ (c'.modifyArena (·.modifyExpr id f)).arena.expr n = c'.arena.expr n := by
    by_cases heq : n = id
    · subst heq
      exact .inl ⟨rfl, Arena.expr_modifyExpr_self (hid.trans_le h.size) f⟩
    · exact .inr ⟨heq, Arena.expr_modifyExpr_of_ne heq f⟩
  have hplaced := h.toPlaced.trans (placed_modifyExpr hspan hdeclared)
  refine { hplaced, h.toSameProgram with
    queue := h.queue
    outside := fun n hn hne => ?_
    upright := ⟨fun n m hm => ?_, fun n d hd => ?_, henclosed.builtins,
      henclosed.acyclic.modifyExpr hnot henclosed.closed fun m hm => (hk.children m hm).1⟩
    closed := fun n hn m hm => ?_ }
  · obtain ⟨rfl, -⟩ | ⟨-, heq⟩ := hexpr n
    · exact absurd rfl hne
    · rw [heq]
      exact h.outside n hn
  · have hsize : (c'.modifyArena (·.modifyExpr id f)).arena.exprs.size = c'.arena.exprs.size :=
      Arena.size_modifyExpr ..
    rw [hsize]
    obtain ⟨-, heq⟩ | ⟨-, heq⟩ := hexpr n <;> rw [heq] at hm
    · exact (hk.children m hm).2
    · exact henclosed.children n m hm
  · obtain ⟨-, heq⟩ | ⟨-, heq⟩ := hexpr n <;> rw [heq] at hd
    · exact hk.uses d hd
    · exact henclosed.uses n d hd
  · obtain ⟨-, heq⟩ | ⟨hne, heq⟩ := hexpr n <;> rw [heq] at hm
    · exact (hk.children m hm).1
    · exact henclosed.closed n (hn.resolve_right hne) m hm

/-! ## Terms -/

/-- What resolves the runs among the terms stays beneath them. -/
def ReworksRuns (resolveRun : ExprId → CheckM Unit) : Prop :=
  ∀ (c : Compilation) (t : ExprId), c.Upright → t.index < c.arena.exprs.size →
    Outcome (resolveRun t) c (fun _ => c.Reworked t) fun _ => c.Reworked t

variable {resolveRun : ExprId → CheckM Unit} {terms : List ExprId}

theorem refreshReference_stays (ht : t ∈ Z) : c.Stays Z (refreshReference t) fun _ _ => True := by
  simp only [refreshReference, stays_expr]
  split
  · exact ⟨works_setType ht _, trivial⟩
  · exact ⟨works_setType ht _, trivial⟩
  · exact stays_pure () trivial

theorem classifyResolved_stays (hc : c.Enclosed Z) (ht : c.Has Z t) (span : Span) :
    c.Stays Z (classifyResolved t span) fun term c' => term.Within c' Z := by
  refine (refreshReference_stays ht.1).bind fun _ c₁ h₁ _ => ?_
  simp only [stays_expr]
  split
  · exact stays_fail _ _
  · exact stays_fail _ _
  · exact stays_fail _ _
  · exact stays_pure _ trivial
  · rename_i d hk
    have hd : d.index < c₁.arena.defs.size := (h₁.enclosed hc).uses t d (by rw [hk]; rfl)
    simp only [operatorTerm, stays_definition]
    split
    · exact stays_pure _ hd
    · exact stays_pure _ hd
    · exact stays_pure _ hd
    · exact stays_pure _ (h₁.has ht)
  · exact stays_pure _ (h₁.has ht)

/-- **A term is classified** within an enclosure. -/
theorem classify_stays (hres : ReworksRuns resolveRun) (hc : c.Enclosed Z) (ht : c.Has Z t) :
    c.Stays Z (classify resolveRun t) fun term c' => term.Within c' Z := by
  simp only [classify, stays_expr]
  split
  · have hrun := hres c t hc.toUpright ht.2
    rw [Stays, outcome_bind, outcome_attempt]
    refine hrun.mono (fun _ c₁ h => ?_) ?_
    · have h₁ := h.works hc ht.1
      refine Outcome.mono (classifyResolved_stays (h₁.enclosed hc) (h₁.has ht) _) ?_ ?_
      · exact fun term c₂ h₂ => ⟨h₁.trans h₂.1, h₂.2⟩
      · exact fun _ c₂ => h₁.trans
    · rintro (e | _) c₁ h
      · exact h.works hc ht.1
      · exact h.works hc ht.1
  · exact classifyResolved_stays hc ht _

/-- **The custody of an enclosure**: what a run takes and builds is in it. -/
def enclosureCustody (hres : ReworksRuns resolveRun) (Z : Set ExprId) (terms : List ExprId)
    (span : Span) : Custody resolveRun terms span where
  Valid c := c.Enclosed Z ∧ ∀ t ∈ terms, c.Has Z t
  Later := Works Z
  Stops c _ c' := c.Works Z c'
  Takes c term := term.Within c Z
  Opens c n := c.Has Z n
  Holds c n := c.Has Z n
  Yields c e := c.Befits Z e.kind
  refl := Works.refl Z
  trans := Works.trans
  later := Works.trans
  refuse c _ _ _ := Works.refl Z c
  valid hc h := ⟨h.enclosed hc.1, fun t ht => h.has (hc.2 t ht)⟩
  takes hterm h := h.within hterm
  opens hn h := h.has hn
  holds hn h := h.has hn
  closes hn := hn
  classify hc ht := classify_stays hres hc.1 (hc.2 _ ht)
  sign hc _ := hc.1.builtins "unary_minus" _ rfl
  minus {c place op} hc _ hop := by
    rw [Definition.pending?_eq] at hop
    obtain ⟨binding, -, rfl⟩ := Option.map_eq_some_iff.1 hop
    exact hc.1.builtins "-" _ rfl
  operand hc hn := normalizeOperand_stays hc.1 hn
  apply hc hn hargs := applyCollected_stays hc.1 hn hargs
  lead {c d place x} hc hd hx := by
    refine allocCall_stays hc.1 _ ?_ (by simpa using hx)
    split
    · exact hc.1.negationFor x
    · exact hd
  trail hc hd hx := allocCall_stays hc.1 _ hd (by simpa using hx)
  missing hc _ := allocMissing_stays hc.1 _
  combine hc hop hx hy := allocCall_stays hc.1 _ hop (by simpa using ⟨hx, hy⟩)
  empty _ := ⟨nofun, nofun⟩
  only hc ht := hc.1.befits (hc.2 _ ht).1
  negated _ hx := by
    refine ⟨fun m hm => ?_, nofun⟩
    obtain rfl := List.mem_singleton.1 hm
    exact hx
  whole hc hn := hc.1.befits hn.1

/-- **Terms are resolved** within an enclosure. -/
theorem resolveTerms_works (hres : ReworksRuns resolveRun) (hc : c.Enclosed Z) (span : Span)
    (hterms : ∀ t ∈ terms, c.Has Z t) :
    c.Stays Z (resolveTerms resolveRun terms span) fun e c' => c'.Befits Z e.kind :=
  (enclosureCustody hres Z terms span).keeps_resolveTerms ⟨hc, hterms⟩

/-! ## Runs -/

theorem queue_reportNew (c : Compilation) (e : CompileError) : (c.reportNew e).queue = c.queue := by
  unfold reportNew
  split <;> rfl

/-- What is reported or noted down besides. -/
theorem Reworked.of_arena_eq {c'' : Compilation} (h : c.Reworked id c')
    (harena : c''.arena = c'.arena) (hbuiltins : c''.builtins = c'.builtins)
    (hqueue : c''.queue ⊆ c'.queue) : c.Reworked id c'' := by
  have hworks := works_of_arena_eq (Z := c.Beneath id) harena hbuiltins hqueue
  refine ⟨h.toPreserves.trans hworks.toPreserves, ?_, ⟨?_, ?_, ?_, ?_⟩, ?_⟩ <;> rw [harena]
  · exact h.outside
  · exact h.upright.children
  · exact h.upright.uses
  · exact hbuiltins ▸ h.upright.builtins
  · exact h.upright.acyclic
  · exact h.closed

/-- **A run** is resolved beneath itself, if the runs among its terms are. -/
theorem resolveNode_reworks (hres : ReworksRuns resolveRun) :
    ReworksRuns (resolveNode resolveRun) := by
  intro c id hc hid
  simp only [resolveNode, outcome_bind, outcome_expr]
  split
  · rename_i terms hk
    have henclosed := hc.enclosed_beneath id
    have hterms : ∀ t ∈ terms, c.Has (c.Beneath id) t := by
      intro t ht
      have hchild : t ∈ (c.arena.expr id).kind.children := by rwa [hk]
      exact ⟨.inl (.single hchild), hc.children id t hchild⟩
    simp only [outcome_bind, outcome_attempt]
    refine (resolveTerms_works hres henclosed _ hterms).mono ?_ ?_
    · rintro e c₁ ⟨h₁, he⟩
      simp only [outcome_modifyExpr, outcome_expr, outcome_emit]
      exact (h₁.overwritten hc hid (f := (·.replaceBy e)) rfl rfl he).of_arena_eq rfl rfl
        (List.Subset.refl _)
    · rintro (error | _) c₁ h₁
      · simp only [markFailed, outcome_bind, outcome_modifyExpr, outcome_modify, outcome_throw]
        have hleaf : c₁.Befits (c.Beneath id) .syntaxError :=
          ⟨by simp [ExprKind.children], by simp [ExprKind.definition?]⟩
        have hfailed := h₁.overwritten hc hid
          (f := fun e => { e with kind := .syntaxError, ty := .absurd }) rfl rfl hleaf
        refine hfailed.of_arena_eq (arena_reportNew ..) (sameProgram_reportNew ..).builtins ?_
        rw [queue_reportNew]
        exact List.Subset.refl _
      · exact h₁.reworked hc hid
  · exact (Works.refl (c.Beneath id) c).reworked hc hid

/-- **Resolving a run** makes no cycle, to whatever depth it goes. -/
theorem resolveWithin_reworks (depth : Nat) : ReworksRuns (resolveWithin depth) := by
  -- On the depth of nesting: a run is resolved with what resolves the runs among its terms.
  induction depth with
  | zero => exact fun c id hc hid => (Works.refl (c.Beneath id) c).reworked hc hid
  | succ depth ih => exact resolveNode_reworks ih

end Compilation

end Termwise
