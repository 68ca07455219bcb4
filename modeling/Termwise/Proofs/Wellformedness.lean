import Termwise.Proofs.Concretization.Effects
import Termwise.Proofs.Concretization.Parallel
import Termwise.Proofs.Run.Enclosure
import Termwise.Proofs.Run.Queue
import Termwise.Proofs.Validity

/-!
# Tables stay well formed

Expressions are overwritten in place, by trees whose nodes were appended later, so that no order
of the positions shows that there is no cycle. Two arguments do, one for each pass. Resolution
stays within what lies beneath a run. Concretization keeps what lies below an expression, or puts
a tree of new nodes below one that had nothing there.

## Main definitions

* `Compilation.Intact`: every handle is in the tables, and there is no cycle
* `Compilation.Sustains`: what the walk of concretization does to the tables
* `Operation`: the operations on a compilation

## Main results

* `substitute_grafts`: a use is replaced by a copy of the body, even within that body
* `intact_after`: each operation keeps a compilation intact and invalidates no handle
-/

namespace Termwise

open Compilation

/-! ## Intact compilations -/

namespace Compilation

variable {c c' : Compilation}

/-- **Every handle is in the tables**, in the tables themselves, among the builtin definitions and
in the queue, and no expression lies below itself. -/
structure Intact (c : Compilation) : Prop where
  arena : c.arena.InBounds
  builtins : ∀ name, ∀ d ∈ c.builtins.get? name, d.index < c.arena.defs.size
  queue : ∀ n ∈ c.queue, n.index < c.arena.exprs.size
  acyclic : c.arena.Acyclic

theorem Intact.upright (h : c.Intact) : c.Upright where
  children := Arena.forall_expr
    (p := fun e => ∀ m ∈ e.kind.children, m.index < c.arena.exprs.size) h.arena.children nofun
  uses := Arena.forall_expr
    (p := fun e => ∀ d ∈ e.kind.definition?, d.index < c.arena.defs.size) h.arena.uses nofun
  builtins := h.builtins
  acyclic := h.acyclic

/-- What leaves the program alone keeps it intact if it keeps the expressions upright. -/
theorem Intact.of_upright (h : c.Intact) (hpreserves : c.Preserves c') (hup : c'.Upright) :
    c'.Intact where
  arena := by
    have hexpr (e : Expression) (he : e ∈ c'.arena.exprs) : ∃ n, c'.arena.expr n = e := by
      obtain ⟨i, hi, rfl⟩ := Array.mem_iff_getElem.1 he
      exact ⟨⟨i⟩, by simp [Arena.expr, Array.getD_eq_getD_getElem?, hi]⟩
    have hsize := hpreserves.size
    refine ⟨fun e he => ?_, fun e he => ?_, fun d hd => ?_, fun s hs => ?_, fun s hs => ?_⟩
    · obtain ⟨n, rfl⟩ := hexpr e he
      exact hup.children n
    · obtain ⟨n, rfl⟩ := hexpr e he
      exact hup.uses n
    · have hbody := h.arena.defs d (hpreserves.defs ▸ hd)
      cases hk : d.body <;> simp only [hk, Body.InBounds] at hbody ⊢
      · omega
      · rwa [hpreserves.stmts]
    · have hstmt := h.arena.stmts s (hpreserves.stmts ▸ hs)
      cases hk : s.kind <;> simp only [hk, StatementKind.InBounds] at hstmt ⊢
      · omega
      · rwa [hpreserves.defs]
      · omega
      · rwa [hpreserves.stmts]
    · rw [hpreserves.stmts]
      exact h.arena.roots s (hpreserves.roots ▸ hs)
  builtins := hup.builtins
  queue n hn := (h.queue n (hpreserves.queue hn)).trans_le hpreserves.size
  acyclic := hup.acyclic

end Compilation

/-! ## Copies -/

namespace Arena

variable {a a' : Arena} {P : Expression → Prop} {ids xs : List ExprId} {b : ExprId}

/-- What lies below a node after a forest was appended belongs to the forest, or lay there before.
-/
theorem Sprouts.mem_of_child (h : a.Sprouts P a' ids xs) {n m : ExprId}
    (hm : m ∈ (a'.expr n).kind.children) :
    n ∈ xs ∧ m ∈ xs ∨ m ∈ (a.expr n).kind.children := by
  by_cases hn : n ∈ xs
  · exact .inl ⟨hn, h.forest.children_subset hn hm⟩
  · rcases Nat.lt_or_ge n.index a.exprs.size with hold | hge
    · rw [h.expr n hold] at hm
      exact .inr hm
    · -- There are no other new nodes.
      have hout : a'.exprs.size ≤ n.index := Nat.le_of_not_lt fun hlt =>
        hn ((h.mem n).2 ⟨hge, hlt⟩)
      rw [expr_of_size_le hout] at hm
      cases hm

/-- **A forest of new nodes** makes no cycle. -/
theorem Sprouts.acyclic_appended (h : a.Sprouts P a' ids xs) (ha : a.Acyclic) : a'.Acyclic := by
  refine ha.of_acc (Z := {n | n ∈ xs}) (fun n hn => h.forest.acc n hn) fun n m hm => ?_
  exact (h.mem_of_child hm).imp_left And.right

end Arena

namespace Compilation

variable {c c' c'' : Compilation} {settings : Settings} {id n b x : ExprId} {d : DefId}
  {copied : Expression} {a : Arena}

theorem Upright.enclosed (h : c.Upright) : c.Enclosed Set.univ :=
  ⟨h, fun _ _ _ _ => trivial, fun _ _ => trivial⟩

theorem Works.upright {Z : Set ExprId} (h : c.Works Z c') (hc : c.Enclosed Z) : c'.Upright :=
  (h.enclosed hc).toUpright

/-- No path below an expression is longer than the table. -/
theorem Upright.shallow (h : c.Upright) (hb : b.index < c.arena.exprs.size) :
    c.arena.Shallow (fun _ => True) c.arena.exprs.size b := by
  refine Arena.shallow_size (h.acyclic.apply b) fun m hpath => ⟨?_, trivial⟩
  induction hpath with
  | refl => exact hb
  | tail _ hm _ => exact h.children _ _ hm

/-- A copy of a tree is a forest of new nodes below its root. -/
theorem Upright.exists_sprouts (h : c.Upright) (hb : b.index < c.arena.exprs.size)
    (hcopied : c.arena.copy b = (copied, a)) :
    ∃ xs, c.arena.Sprouts (fun _ => True) a copied.kind.children xs := by
  obtain ⟨-, xs, hsprouts⟩ :=
    Arena.copyWithin_sprouts (fun _ _ _ _ _ => trivial) _ b _ (h.shallow hb)
  rw [← Arena.copy, hcopied] at hsprouts
  exact ⟨xs, hsprouts⟩

/-- **A tree is copied**, up to the root of the copy. -/
theorem Upright.works_copy (h : c.Upright) (hb : b.index < c.arena.exprs.size)
    (hcopied : c.arena.copy b = (copied, a)) :
    c.Works Set.univ { c with arena := a } ∧
      Befits { c with arena := a } Set.univ copied.kind := by
  obtain ⟨xs, hsprouts⟩ := h.exists_sprouts hb hcopied
  have hin (n : ExprId) (hn : n ∈ xs) : n.index < a.exprs.size := ((hsprouts.mem n).1 hn).2
  -- A copy uses the definitions that the tree does.
  have hkinds : c.arena.Encloses Set.univ fun k =>
      ∀ d ∈ k.definition?, d.index < c.arena.defs.size :=
    ⟨fun _ _ _ _ => trivial, fun n _ => h.uses n, fun _ _ => trivial⟩
  have huses := Arena.copyWithin_encloses (fun k k' hk hd => ?_) c.arena.exprs.size b c.arena
    hkinds trivial
  · rw [← Arena.copy, hcopied] at huses
    refine ⟨{ size := hsprouts.size, span := ?_, declared := ?_, builtins := rfl,
              defs := hsprouts.defs, stmts := hsprouts.stmts, roots := hsprouts.roots,
              queue := List.Subset.refl _, outside := fun n hn => (hn trivial).elim,
              enclosed := fun _ => Upright.enclosed ⟨fun n m hm => ?_, fun n d hd => ?_, ?_, ?_⟩ },
      fun m hm => ⟨trivial, hin m (hsprouts.forest.subset hm)⟩, fun d hd => ?_⟩
    · exact fun n hn => congrArg _ (hsprouts.expr n hn)
    · exact fun n hn => congrArg _ (hsprouts.expr n hn)
    · rcases hsprouts.mem_of_child hm with ⟨-, hm⟩ | hm
      · exact hin m hm
      · exact (h.children n m hm).trans_le hsprouts.size
    · rw [hsprouts.defs]
      exact huses.encloses.kind n trivial d hd
    · rw [hsprouts.defs]
      exact h.builtins
    · exact hsprouts.acyclic_appended h.acyclic
    · rw [hsprouts.defs]
      exact huses.kind d hd
  · cases hk with
    | refl | call => exact hd
    | negated | run => simp [ExprKind.definition?]

/-! ## What the walk does -/

/-- **What the walk does to the tables**: no handle is invalidated, nothing is taken from below an
expression, and no cycle is made. -/
structure Sustains (c c' : Compilation) : Prop extends Works Set.univ c c' where
  retains : c.Retains c'

/-- **Expressions are changed where they are.** Each has the same ones below it, and none becomes a
minus sign. -/
structure Retouches (c c' : Compilation) : Prop extends Works Set.univ c c' where
  trees : c.SameTrees c'
  negated : ∀ n x, (c'.arena.expr n).kind = .negated x → (c.arena.expr n).kind = .negated x

theorem Sustains.refl (c : Compilation) : c.Sustains c := ⟨.refl _ c, .refl c⟩

theorem Sustains.trans (h : c.Sustains c') (h' : c'.Sustains c'') : c.Sustains c'' :=
  ⟨h.toWorks.trans h'.toWorks, h.retains.trans h'.retains⟩

theorem Sustains.upright (h : c.Sustains c') (hc : c.Upright) : c'.Upright :=
  h.toWorks.upright hc.enclosed

theorem Retouches.refl (c : Compilation) : c.Retouches c :=
  ⟨.refl _ c, .refl c, fun _ _ => id⟩

theorem Retouches.trans (h : c.Retouches c') (h' : c'.Retouches c'') : c.Retouches c'' :=
  ⟨h.toWorks.trans h'.toWorks, h.trees.trans h'.trees,
    fun n x hn => h.negated n x (h'.negated n x hn)⟩

theorem Retouches.sustains (h : c.Retouches c') : c.Sustains c' :=
  ⟨h.toWorks, fun n => .inr (h.trees.children n)⟩

theorem Retouches.upright (h : c.Retouches c') (hc : c.Upright) : c'.Upright :=
  h.toWorks.upright hc.enclosed

/-- What is not in the tables does not count. -/
theorem retouches_of_arena_eq (harena : c'.arena = c.arena) (hbuiltins : c'.builtins = c.builtins)
    (hqueue : c'.queue ⊆ c.queue) : c.Retouches c' :=
  ⟨works_of_arena_eq harena hbuiltins hqueue, ⟨fun n => by rw [harena], by rw [harena]⟩,
    fun n x hn => by rwa [harena] at hn⟩

/-- **A step stops with an error**, after it changed expressions where they are. -/
structure Errs (c : Compilation) (stop : Stop) (c' : Compilation) : Prop where
  error : stop ≠ .cyclic
  retouches : c.Retouches c'

theorem errs_error (c : Compilation) (e : CompileError) : c.Errs (.error e) c :=
  ⟨nofun, .refl c⟩

theorem Retouches.emit (h : c.Retouches c') (event : Event) : c.Retouches (c'.emit event) :=
  h.trans (retouches_of_arena_eq rfl rfl (List.Subset.refl _))

/-- An expression is changed, and what lies below it stays. -/
theorem retouches_modifyExpr {f : Expression → Expression}
    (hspan : (f (c.arena.expr n)).span = (c.arena.expr n).span)
    (hdeclared : (f (c.arena.expr n)).declared = (c.arena.expr n).declared)
    (hchildren : (f (c.arena.expr n)).kind.children = (c.arena.expr n).kind.children)
    (huses : c.Upright → ∀ d ∈ (f (c.arena.expr n)).kind.definition?,
      d.index < c.arena.defs.size)
    (hnegated : ∀ x, (f (c.arena.expr n)).kind = .negated x →
      (c.arena.expr n).kind = .negated x) :
    c.Retouches (c.modifyArena (·.modifyExpr n f)) := by
  refine ⟨works_modifyExpr (Set.mem_univ n) hspan hdeclared (hchildren ▸ List.Subset.refl _) huses,
    sameTrees_modifyExpr hchildren, fun m x hm => ?_⟩
  simp only [modifyArena, Arena.expr_modifyExpr] at hm
  split at hm
  · rename_i heq
    rw [heq.1] at hm ⊢
    exact hnegated x hm
  · exact hm

theorem retouches_setType (n : ExprId) (ty : Ty) :
    c.Retouches (c.modifyArena (·.modifyExpr n fun e => { e with ty })) :=
  retouches_modifyExpr rfl rfl rfl (fun h => h.uses n) fun _ => id

/-- A known value or what it is already takes the place of an expression. -/
theorem retouches_put {e : Expression} (hspan : e.span = (c.arena.expr n).span)
    (hdeclared : e.declared = (c.arena.expr n).declared)
    (hchildren : e.kind.children = (c.arena.expr n).kind.children)
    (hk : e.kind = (c.arena.expr n).kind ∨ e.kind.isValue = true) :
    c.Retouches (c.modifyArena (·.modifyExpr n fun _ => e)) := by
  refine retouches_modifyExpr hspan hdeclared hchildren (fun h d hd => ?_) fun x hx => ?_
  · rcases hk with hk | hv
    · exact h.uses n d (hk ▸ hd)
    · cases he : e.kind <;> simp_all [ExprKind.isValue, ExprKind.definition?]
  · rcases hk with hk | hv
    · exact hk.symm.trans hx
    · rw [hx] at hv
      cases hv

/-! ### Types -/

/-- Calls are typed anew over definitions of the table. -/
theorem Upright.floatCallee (hc : c.Upright) {callee floatCallee : DefId}
    (hcallee : callee.index < c.arena.defs.size) (h : c.floatCallee? callee = some floatCallee) :
    floatCallee.index < c.arena.defs.size := by
  unfold floatCallee? at h
  split at h
  · cases h
    exact hc.builtins "unary_minus_float" _ rfl
  · split at h <;> cases h
    exact hcallee

/-- Expressions get into other types where they are. -/
theorem retypingLaw_retouches : RetypingLaw (fun c _ => c.Upright) Retouches where
  refl := .refl
  trans := .trans
  stays h hc := h.upright hc
  operand hc _ _ := hc
  value _ h := retouches_put h.place.1 h.place.2 (ExprKind.children_eq (.inr h.isValue))
    (.inr h.isValue.2)
  call {c c₁ n d d' args} hc hk hcallee h₁ := by
    -- The arguments were read before they were rebuilt, and are still the same.
    have hargs : args = (c₁.arena.expr n).kind.children := by
      rw [h₁.trees.children, hk]
      rfl
    have hlt := hc.floatCallee (hc.uses n d (by rw [hk]; rfl)) hcallee
    refine h₁.trans (retouches_modifyExpr rfl rfl hargs ?_ ?_)
    · rintro - d ⟨⟩
      rwa [h₁.defs]
    · intro x hx
      cases hx
  emit c event := (Retouches.refl c).emit event

/-- No tree is too deep to be widened. -/
theorem Upright.widens_ne_none (hc : c.Upright) (n : ExprId) : c.widens n ≠ none :=
  Compilation.widens_ne_none hc.shallow

theorem Refuses.errs {stop : Stop} (h : c.Refuses stop c') (hc : c.Upright) : c.Errs stop c' :=
  ⟨h.ne_cyclic hc.widens_ne_none, retypingLaw_retouches.rel_of_refuses h⟩

theorem concretizeValue_retouches (id : ExprId) (hc : c.Upright) :
    Outcome (concretizeValue id) c (fun _ => c.Retouches) c.Errs :=
  (retypingLaw_retouches.outcome_concretizeValue hc).mono (fun _ _ h => h) fun _ _ h =>
    h.errs hc

theorem coerceTo_retouches (id : ExprId) (target : Ty) (hc : c.Upright) :
    Outcome (coerceTo id target) c (fun _ => c.Retouches) c.Errs :=
  (retypingLaw_retouches.outcome_coerceTo target hc).mono (fun _ _ h => h) fun _ _ h =>
    h.errs hc

/-! ### Uses -/

/-- What may happen to the queue: nothing is added. -/
def queued : StepLaw where
  Rel c c' := c'.queue ⊆ c.queue
  refl _ := List.Subset.refl _
  trans h h' := List.Subset.trans h' h
  modifyExpr _ _ _ _ := List.Subset.refl _
  emit _ _ := List.Subset.refl _
  types _ _ := List.Subset.refl _
  copy _ _ _ := List.Subset.refl _

/-- **An expression with nothing below it took a tree of new nodes**, and all others stay. -/
structure Grafted (id : ExprId) (xs : List ExprId) (c c' : Compilation) : Prop
    extends Sustains c c' where
  inTable : id.index < c.arena.exprs.size
  leaf : (c.arena.expr id).kind.children = []
  forest : c'.arena.Forest (c'.arena.expr id).kind.children xs
  nodup : xs.Nodup
  mem : ∀ n, n ∈ xs ↔ c.arena.exprs.size ≤ n.index ∧ n.index < c'.arena.exprs.size
  kept : ∀ n ∉ xs, n ≠ id → (c'.arena.expr n).kind = (c.arena.expr n).kind

/-- What befits the table may take the place of an expression, if no cycle comes of it. -/
theorem Upright.replaceExpr {e : Expression} (hc : c.Upright) (he : c.Befits Set.univ e.kind)
    (hacyclic : (c.arena.replaceExpr id e).Acyclic) :
    Upright { c with arena := c.arena.replaceExpr id e } := by
  refine ⟨fun n m hm => ?_, fun n d hd => ?_, hc.builtins, hacyclic⟩
  · rw [Arena.replaceExpr, Arena.size_modifyExpr]
    simp only [Arena.replaceExpr, Arena.expr_modifyExpr] at hm
    split at hm
    · exact (he.children m hm).2
    · exact hc.children n m hm
  · simp only [Arena.replaceExpr, Arena.expr_modifyExpr] at hd
    split at hd
    · exact he.uses d hd
    · exact hc.uses n d hd

/-- **A copy of a tree is put** at the place of an expression, even of one below that tree. -/
theorem Upright.exists_grafted (hc : c.Upright) (hb : b.index < c.arena.exprs.size)
    (hid : id.index < c.arena.exprs.size) (hleaf : (c.arena.expr id).kind.children = [])
    (hcopied : c.arena.copy b = (copied, a)) (harena : c'.arena = a.replaceExpr id copied)
    (hbuiltins : c'.builtins = c.builtins) (hqueue : c'.queue ⊆ c.queue) :
    ∃ xs, c.Grafted id xs c' := by
  obtain ⟨xs, hsprouts⟩ := hc.exists_sprouts hb hcopied
  obtain ⟨hworks, hbefits⟩ := hc.works_copy hb hcopied
  have hup := hworks.upright hc.enclosed
  have hsize : c'.arena.exprs.size = a.exprs.size := by
    rw [harena]
    exact Arena.size_modifyExpr ..
  have hroot : (c'.arena.expr id).kind = copied.kind := by
    rw [harena, Arena.replaceExpr, Arena.expr_modifyExpr_self (hid.trans_le hsprouts.size)]
    rfl
  have hother {n : ExprId} (hn : n ≠ id) : c'.arena.expr n = a.expr n := by
    rw [harena]
    exact Arena.expr_modifyExpr_of_ne hn _
  have hkept (n : ExprId) (hn : n ∉ xs) (hne : n ≠ id) : c'.arena.expr n = c.arena.expr n := by
    rw [harena]
    rcases hsprouts.expr_replaceExpr id n with hmem | heq | hsame
    · exact absurd hmem hn
    · exact absurd heq hne
    · exact hsame
  -- The copy is appended first, and then its root is put in place.
  have hplaced : Placed { c with arena := a } { c with arena := a.replaceExpr id copied } :=
    placed_modifyExpr (c := { c with arena := a }) (f := (·.replaceBy copied)) rfl rfl
  have hlast : Works Set.univ { c with arena := a.replaceExpr id copied } c' :=
    works_of_arena_eq harena hbuiltins hqueue
  have hup' : c'.Upright :=
    hlast.upright (hup.replaceExpr hbefits (hsprouts.acyclic hid hc.acyclic)).enclosed
  have hsame : SameProgram { c with arena := a } { c with arena := a.replaceExpr id copied } :=
    ⟨rfl, rfl, rfl, rfl⟩
  refine ⟨xs, { (hworks.toPlaced.trans hplaced).trans hlast.toPlaced,
    (hworks.toSameProgram.trans hsame).trans hlast.toSameProgram with
    queue := hqueue
    outside := fun n hn => (hn trivial).elim
    enclosed := fun _ => hup'.enclosed
    retains := fun n => ?_
    inTable := hid
    leaf := hleaf
    forest := ?_
    nodup := hsprouts.nodup
    mem := fun n => by rw [hsize]; exact hsprouts.mem n
    kept := fun n hn hne => congrArg _ (hkept n hn hne) }⟩
  · -- An expression whose children change had none: it is the leaf, or it is new.
    by_cases hn : n = id
    · exact .inl (hn ▸ hleaf)
    · by_cases hmem : n ∈ xs
      · rw [Arena.expr_of_size_le ((hsprouts.mem n).1 hmem).1]
        exact .inl rfl
      · exact .inr (by rw [hkept n hmem hn])
  · rw [hroot]
    refine hsprouts.forest.congr fun n hn => ?_
    have hne : n ≠ id := by
      rintro rfl
      exact Nat.not_le.2 hid ((hsprouts.mem n).1 hn).1
    rw [hother hne]

/-- A change that keeps the trees may come before a tree is put into one. -/
theorem Retouches.grafted {xs : List ExprId} (h : c.Retouches c')
    (hkind : ∀ n ≠ id, (c'.arena.expr n).kind = (c.arena.expr n).kind)
    (h' : c'.Grafted id xs c'') : c.Grafted id xs c'' where
  toSustains := h.sustains.trans h'.toSustains
  inTable := h.trees.size ▸ h'.inTable
  leaf := (h.trees.children id).symm.trans h'.leaf
  forest := h'.forest
  nodup := h'.nodup
  mem n := by rw [← h.trees.size]; exact h'.mem n
  kept n hn hne := (h'.kept n hn hne).trans (hkind n hne)

theorem Replaced.leaf (h : c.Replaced id d b c') : (c.arena.expr id).kind.children = [] := by
  rcases h.use with hk | hk <;> rw [hk] <;> rfl

theorem Replaced.inTable (h : c.Replaced id d b c') : id.index < c.arena.exprs.size := by
  refine Arena.lt_size_of_kind_ne fun hdeleted => ?_
  rcases h.use with hk | hk <;> cases hk.symm.trans hdeleted

/-- The copy is one of what the body is while the use is read as a reference. -/
theorem Replaced.arena_eq (h : c.Replaced id d b c') :
    c'.arena = ((c.readAs id d).arena.copy b).2.replaceExpr id
      ((c.readAs id d).arena.copy b).1 := by
  obtain ⟨_, rfl, -, harena⟩ := h.arena
  exact harena

theorem Replaced.body_inTable (h : c.Replaced id d b c') :
    b.index < (c.readAs id d).arena.exprs.size := by
  obtain ⟨_, rfl, hsubst, -⟩ := h.arena
  refine Arena.lt_size_of_kind_ne fun hdeleted => ?_
  have hbody : ((c.readAs id d).arena.expr b).kind.isSubstitutable = true := hsubst
  rw [hdeleted] at hbody
  cases hbody

/-- A use is read as a reference, and nothing else changes. -/
theorem Replaced.retouches_readAs (h : c.Replaced id d b c') : c.Retouches (c.readAs id d) :=
  retouches_modifyExpr rfl rfl h.leaf.symm
    (fun hc _ hd' => hc.uses id _ (h.definition?.trans hd')) nofun

/-- **A use that is replaced** by the body of its definition took a tree of new nodes. -/
theorem Replaced.exists_grafted (h : c.Replaced id d b c') (hc : c.Upright)
    (hqueue : c'.queue ⊆ c.queue) : ∃ xs, c.Grafted id xs c' := by
  have hread := h.retouches_readAs
  have hkind (n : ExprId) (hn : n ≠ id) :
      ((c.readAs id d).arena.expr n).kind = (c.arena.expr n).kind :=
    congrArg _ (Arena.expr_modifyExpr_of_ne hn _)
  have hid : id.index < (c.readAs id d).arena.exprs.size :=
    h.inTable.trans_eq hread.trees.size.symm
  have hleaf : ((c.readAs id d).arena.expr id).kind.children = [] :=
    (hread.trees.children id).trans h.leaf
  obtain ⟨xs, hgrafted⟩ := (hread.upright hc).exists_grafted h.body_inTable hid hleaf rfl
    h.arena_eq h.builtins hqueue
  exact ⟨xs, hread.grafted hkind hgrafted⟩

/-- What changes no expression changes no table. -/
theorem SameProgram.arena_eq (h : c.SameProgram c')
    (hsize : c'.arena.exprs.size = c.arena.exprs.size)
    (hexpr : ∀ n, c'.arena.expr n = c.arena.expr n) : c'.arena = c.arena := by
  have hexprs : c'.arena.exprs = c.arena.exprs := by
    refine Array.ext hsize fun i hi hi' => ?_
    simpa [Arena.expr, Array.getD_eq_getD_getElem?, hi, hi'] using hexpr ⟨i⟩
  have hdefs := h.defs
  have hstmts := h.stmts
  have hroots := h.roots
  cases hc' : c'.arena
  cases hc : c.arena
  simp_all

theorem Unchanged.arena_eq (h : c.Unchanged c') : c'.arena = c.arena :=
  h.toSameProgram.arena_eq h.size h.expr

/-- **A use is replaced** by a copy of the body of its definition, or no table changes. -/
theorem substitute_grafts (settings : Settings) (hc : c.Upright)
    (hd : (c.arena.expr id).kind.definition? = some d) :
    Outcome (substitute settings id) c
      (fun replaced c' => (replaced = true → ∃ xs, c.Grafted id xs c') ∧
        (replaced = false → c.Retouches c' ∧ c'.arena = c.arena)) fun _ _ => False := by
  have hqueued := StepLaw.obeys_substitute (L := queued) settings id c
  refine (((substitute_outcome settings hd).and (substitute_copies settings hd)).and
    hqueued).mono ?_ fun _ _ h => h.1.1.not_shallow fun b _ => hc.shallow
  rintro replaced c' ⟨⟨hkept, hcopied⟩, hqueue⟩
  constructor
  · intro hreplaced
    obtain ⟨b, h⟩ := hcopied hreplaced
    exact h.exists_grafted hc hqueue
  · intro hreplaced
    have hsame := hkept.kept hreplaced
    exact ⟨retouches_of_arena_eq hsame.arena_eq hsame.builtins hqueue, hsame.arena_eq⟩

theorem substitute_sustains (hc : c.Upright) (hd : (c.arena.expr id).kind.definition? = some d) :
    Outcome (substitute settings id) c (fun _ => c.Sustains) fun _ _ => False := by
  refine (substitute_grafts settings hc hd).imp ?_
  rintro (_ | _) c' ⟨hgrafted, hkept⟩
  · exact (hkept rfl).1.sustains
  · obtain ⟨xs, h⟩ := hgrafted rfl
    exact h.toSustains

/-! ### Negation -/

theorem createCall_retouches (d : DefId) (args : List ExprId) (span : Span) :
    Outcome (createCall d args span) c
      (fun e c' => c.Retouches c' ∧ e.kind = .call d args) c.Errs := by
  have hstays : c.Stays Set.univ (createCall d args span) fun e _ => e.kind = .call d args :=
    createCall_stays d args span fun _ _ => trivial
  have hretouches {c' : Compilation} (hworks : c.Works Set.univ c') (htame : c.Tame c')
      (hsteady : c.Steady c') : c.Retouches c' := by
    refine ⟨hworks, ⟨htame.children, htame.size⟩, fun n x hn => ?_⟩
    have hlt : n.index < c.arena.exprs.size := by
      rw [← htame.size]
      exact Arena.lt_size_of_kind_ne fun hk => by cases hn.symm.trans hk
    cases hv : (c.arena.expr n).kind.isValue with
    | true =>
      have hvalue := hsteady.value n hv
      rw [hn] at hvalue
      cases hvalue
    | false => exact (hsteady.kind n hlt hv).symm.trans hn
  refine ((Outcome.and hstays (createCall_tame d args span)).and
    (createCall_steady d args span)).mono ?_ ?_
  · exact fun e c₁ h => ⟨hretouches h.1.1.1 h.1.2.1 h.2.1, h.1.1.2⟩
  · exact fun _ c₁ h => ⟨h.2.1.ne_cyclic, hretouches h.1.1 h.1.2 h.2.2⟩

/-- **A minus sign becomes a call** of its operand, which it still has. -/
theorem callNegation_retouches (hc : c.Upright)
    (hchildren : (c.arena.expr id).kind.children = [x]) :
    Outcome (callNegation id x) c
      (fun _ c' => c.Retouches c' ∧ ∀ y, (c'.arena.expr id).kind ≠ .negated y) c.Errs := by
  have hbound := hc.negationFor x
  simp only [callNegation, outcome_bind, outcome_get, outcome_expr]
  generalize c.negationFor x = negation at hbound ⊢
  refine (createCall_retouches negation [x] _).imp ?_
  rintro call c₁ ⟨h₁, hk⟩
  have hsame : call.kind.children = (c₁.arena.expr id).kind.children := by
    rw [hk, h₁.trees.children, hchildren]
    rfl
  have hlt : id.index < c₁.arena.exprs.size := by
    rw [h₁.trees.size]
    refine Arena.lt_size_of_kind_ne fun hdeleted => ?_
    rw [hdeleted] at hchildren
    cases hchildren
  refine ⟨h₁.trans (retouches_modifyExpr (f := (·.replaceBy call)) rfl rfl hsame ?_ ?_), ?_⟩
  · intro _ d hd
    have heq : negation = d := Option.some.inj ((congrArg _ hk).symm.trans hd)
    rw [h₁.defs]
    exact heq ▸ hbound
  · exact fun y hy => by cases hk.symm.trans hy
  · intro y hy
    simp only [modifyArena, Arena.expr_modifyExpr_self hlt] at hy
    cases hk.symm.trans hy

/-! ### Walks -/

theorem retouches_reportNew (c : Compilation) (e : CompileError) : c.Retouches (c.reportNew e) := by
  refine retouches_of_arena_eq (arena_reportNew c e) (sameProgram_reportNew c e).builtins ?_
  rw [queue_reportNew]
  exact List.Subset.refl _

/-- **That the tables are sustained** is a discipline. -/
def sustaining (settings : Settings) : Discipline settings where
  region := Set.univ
  Valid := Upright
  Rel _ c c' := c.Sustains c'
  refl _ := .refl
  trans := Sustains.trans
  inner h := h
  valid hc h := h.upright hc
  onward _ _ _ := trivial
  report {c} _ e _ := (retouches_reportNew c e).sustains
  value _ hc _ _ := (concretizeValue_retouches _ hc).mono (fun _ _ h => h.sustains)
    fun _ _ h => h.retouches.sustains
  coerce _ _ hc _ _ := (coerceTo_retouches _ _ hc).mono (fun _ _ h => h.sustains)
    fun _ _ h => h.retouches.sustains
  retype _ ty _ _ _ _ _ := (retouches_setType _ ty).sustains
  replace hc _ hd _ := (substitute_sustains hc hd).mono (fun _ _ h => h) fun _ _ h => h.elim
  negate {c c' active id x} hc _ hk h _ := by
    refine (callNegation_retouches (h.upright hc) ?_).mono (fun _ _ h => h.1.sustains)
      fun _ _ h => h.retouches.sustains
    rcases h.retains id with hnil | heq
    · rw [hk] at hnil
      cases hnil
    · rw [heq, hk]
      rfl

/-! ## Operations -/

/-- No handle is invalidated, every handle is in the tables, and there is no cycle. -/
structure Upholds (c c' : Compilation) : Prop extends Preserves c c' where
  upright : c'.Upright

theorem Upright.upholds (h : c.Upright) : c.Upholds c := ⟨.refl c, h⟩

theorem Upholds.trans (h : c.Upholds c') (h' : c'.Upholds c'') : c.Upholds c'' :=
  ⟨h.toPreserves.trans h'.toPreserves, h'.upright⟩

theorem Works.upholds {Z : Set ExprId} (h : c.Works Z c') (hc : c.Enclosed Z) : c.Upholds c' :=
  ⟨h.toPreserves, h.upright hc⟩

/-- What is not in the tables does not count. -/
theorem Upholds.of_arena_eq (h : c.Upholds c') (harena : c''.arena = c'.arena)
    (hbuiltins : c''.builtins = c'.builtins) (hqueue : c''.queue ⊆ c'.queue) : c.Upholds c'' :=
  h.trans ((works_of_arena_eq (Z := Set.univ) harena hbuiltins hqueue).upholds h.upright.enclosed)

theorem resolve_upholds (hc : c.Upright) (hid : id.index < c.arena.exprs.size) :
    Outcome (resolve id) c (fun _ => c.Upholds) fun _ => c.Upholds := by
  simp only [resolve, outcome_bind, outcome_arena]
  exact (resolveWithin_reworks _ c id hc hid).mono (fun _ _ h => ⟨h.toPreserves, h.upright⟩)
    fun _ _ h => ⟨h.toPreserves, h.upright⟩

theorem resolveEach_upholds (ids : List ExprId) (hc : c.Upright)
    (hids : ∀ n ∈ ids, n.index < c.arena.exprs.size) :
    Outcome (resolveEach ids) c (fun _ => c.Upholds) fun _ => c.Upholds := by
  induction ids generalizing c with
  | nil => exact hc.upholds
  | cons id ids ih =>
    obtain ⟨hid, hids⟩ := List.forall_mem_cons.1 hids
    have hrest (outcome : Except CompileError Unit) (c₁ : Compilation) (h : c.Upholds c₁) :
        Outcome (do
          let failures ← resolveEach ids
          return (if outcome.isOk then failures else failures + 1)) c₁ (fun _ => c.Upholds)
          fun _ => c.Upholds := by
      rw [outcome_bind]
      exact (ih h.upright fun n hn => (hids n hn).trans_le h.size).mono (fun _ _ => h.trans)
        fun _ _ => h.trans
    rw [resolveEach, outcome_bind, outcome_attempt]
    refine (resolve_upholds hc hid).mono (fun _ c₁ h => hrest _ c₁ h) ?_
    rintro (_ | _) c₁ h
    · exact hrest _ c₁ h
    · exact h

theorem resolveAll_upholds (hc : c.Upright)
    (hqueue : ∀ n ∈ c.queue, n.index < c.arena.exprs.size) :
    Outcome resolveAll c (fun _ => c.Upholds) fun _ => c.Upholds := by
  simp only [resolveAll, outcome_bind, outcome_get, outcome_modify, outcome_emit]
  have hemptied : c.Upholds { c with queue := [] } :=
    hc.upholds.of_arena_eq rfl rfl (List.nil_subset _)
  refine (resolveEach_upholds c.queue hemptied.upright hqueue).mono (fun _ c₁ h => ?_)
    fun _ _ => hemptied.trans
  exact (hemptied.trans h).of_arena_eq rfl rfl (List.Subset.refl _)

theorem Sustains.upholds (h : c.Sustains c') (hc : c.Upright) : c.Upholds c' :=
  h.toWorks.upholds hc.enclosed

theorem concretize_upholds (settings : Settings) (id : ExprId) (hc : c.Upright) :
    Outcome (concretize settings id) c (fun _ => c.Upholds) fun _ => c.Upholds := by
  simp only [concretize, outcome_bind, outcome_arena, outcome_runWalk]
  have hgoes := ((sustaining settings).visitor_goes c.arena.rounds).expr [] id ⟨c, []⟩ hc trivial
  exact Outcome.mono hgoes (fun _ _ h => Sustains.upholds h.1 hc) fun _ _ h =>
    Sustains.upholds h hc

theorem concretizeAll_upholds (settings : Settings) (hc : c.Upright) :
    Outcome (concretizeAll settings) c (fun _ => c.Upholds) fun _ => c.Upholds :=
  ((sustaining settings).concretizeAll_rel hc fun _ => trivial).mono
    (fun _ _ h => Sustains.upholds h hc) fun _ _ h => Sustains.upholds h hc

theorem check_upholds (settings : Settings) (hc : c.Upright)
    (hqueue : ∀ n ∈ c.queue, n.index < c.arena.exprs.size) :
    Outcome (check settings) c (fun _ => c.Upholds) fun _ => c.Upholds := by
  simp only [check, outcome_bind, outcome_get, outcome_emit]
  refine (resolveAll_upholds hc hqueue).imp fun _ c₁ h₁ => ?_
  refine (concretizeAll_upholds settings h₁.upright).mono (fun _ c₂ h₂ => ?_) fun _ _ => h₁.trans
  exact (h₁.trans h₂).of_arena_eq rfl rfl (List.Subset.refl _)

theorem substitute_upholds (settings : Settings) (id : ExprId) (hc : c.Upright) :
    Outcome (substitute settings id) c (fun _ => c.Upholds) fun _ => c.Upholds := by
  cases hd : (c.arena.expr id).kind.definition? with
  | some d =>
    exact (substitute_sustains hc hd).mono (fun _ _ h => h.upholds hc) fun _ _ => False.elim
  | none =>
    -- What uses no definition is left alone.
    simp only [substitute]
    split
    · exact hc.upholds
    · simp only [outcome_bind, outcome_expr]
      split
      · simp_all [ExprKind.definition?]
      · simp_all [ExprKind.definition?]
      · exact hc.upholds

theorem allocCall_upholds {args : List ExprId} (hc : c.Upright)
    (hd : d.index < c.arena.defs.size) (hargs : ∀ n ∈ args, n.index < c.arena.exprs.size)
    (span : Span) :
    Outcome (allocCall d args span) c (fun _ => c.Upholds) fun _ => c.Upholds :=
  (allocCall_stays hc.enclosed span hd fun n hn => ⟨trivial, hargs n hn⟩).mono
    (fun _ _ h => h.1.upholds hc.enclosed) fun _ _ h => h.upholds hc.enclosed

theorem upholds_allocCopy (hc : c.Upright) (hb : b.index < c.arena.exprs.size) :
    c.Upholds (c.modifyArena fun a => ((a.copy b).2.allocExpr (a.copy b).1).2) := by
  obtain ⟨hworks, hbefits⟩ := hc.works_copy hb rfl
  have hcopied := hworks.upholds hc.enclosed
  exact hcopied.trans ((works_allocExpr hcopied.upright.enclosed hbefits).upholds
    hcopied.upright.enclosed)

end Compilation

/-! ## Results -/

/-- **The operations on a compilation** that a program goes through, and those they are made of. -/
inductive Operation where
  | resolve (id : ExprId)
  | resolveAll
  /-- A use of a definition is replaced by its body, if it can be. -/
  | inline (settings : Settings) (id : ExprId)
  /-- A tree is copied, and the root of the copy appended. -/
  | copy (id : ExprId)
  | call (callee : DefId) (args : List ExprId) (span : Span)
  | concretize (settings : Settings) (id : ExprId)
  | concretizeAll (settings : Settings)
  | check (settings : Settings)

namespace Operation

/-- What an operation does. -/
def action : Operation → CheckM Unit
  | resolve id => Termwise.resolve id
  | resolveAll => discard Termwise.resolveAll
  | inline settings id => discard (substitute settings id)
  | copy id => modify fun c =>
      c.modifyArena fun a => ((a.copy id).2.allocExpr (a.copy id).1).2
  | call callee args span => discard (allocCall callee args span)
  | concretize settings id => Termwise.concretize settings id
  | concretizeAll settings => discard (Termwise.concretizeAll settings)
  | check settings => discard (Termwise.check settings)

/-- The handles that an operation is given are in the tables. -/
def InBounds (c : Compilation) : Operation → Prop
  | resolve id | inline _ id | copy id | concretize _ id => id.index < c.arena.exprs.size
  | call callee args _ =>
    callee.index < c.arena.defs.size ∧ ∀ n ∈ args, n.index < c.arena.exprs.size
  | resolveAll | concretizeAll _ | check _ => True

variable {c c' : Compilation} {op : Operation}

/-- What an action hands over does not matter to the state it leaves. -/
theorem outcome_discard {α : Type} {step : CheckM α} {ended stopped : Compilation → Prop} :
    Outcome (discard step) c (fun _ => ended) (fun _ => stopped) ↔
      Outcome step c (fun _ => ended) fun _ => stopped := by
  simp only [Outcome, discard, Functor.discard, Functor.mapConst, EStateM.map, Function.comp]
  cases step c <;> exact Iff.rfl

theorem action_upholds (h : c.Intact) (hop : op.InBounds c) :
    Outcome op.action c (fun _ => c.Upholds) fun _ => c.Upholds := by
  have hc := h.upright
  cases op with
  | resolve id => exact resolve_upholds hc hop
  | resolveAll => exact outcome_discard.2 (resolveAll_upholds hc h.queue)
  | inline settings id => exact outcome_discard.2 (substitute_upholds settings id hc)
  | copy id => exact upholds_allocCopy hc hop
  | call callee args span => exact outcome_discard.2 (allocCall_upholds hc hop.1 hop.2 span)
  | concretize settings id => exact concretize_upholds settings id hc
  | concretizeAll settings => exact outcome_discard.2 (concretizeAll_upholds settings hc)
  | check settings => exact outcome_discard.2 (check_upholds settings hc h.queue)

end Operation

/-- **The tables stay well formed.** Whatever operation is performed on a compilation whose
handles are all in the tables and whose expressions have no cycle, and whether it ends or stops,
both are so afterwards. No handle is invalidated: expressions are only appended, definitions,
statements and roots are what they were, and every expression keeps its place in the source and
its declared type. -/
theorem intact_after {c : Compilation} {op : Operation} (h : c.Intact) (hop : op.InBounds c) :
    (c.after op.action).Intact ∧ c.Preserves (c.after op.action) := by
  have hafter : c.Upholds (c.after op.action) := by
    have houtcome := op.action_upholds h hop
    unfold Outcome at houtcome
    unfold Compilation.after
    split at houtcome <;> rename_i heq <;> rw [heq] <;> exact houtcome
  exact ⟨h.of_upright hafter.toPreserves hafter.upright, hafter.toPreserves⟩

/-- The builtin definitions are the first ones of the table. -/
theorem Builtins.lt_of_mem_positions {name : String} {d : DefId}
    (hd : d ∈ Builtins.positions.get? name) : d.index < Builtins.definitions.length := by
  have hall : ∀ d ∈ Builtins.positions.get? name, d.index < Builtins.definitions.length := by
    unfold Builtins.get?
    split <;> simp [Builtins.positions, Builtins.definitions]
  exact hall d hd

/-- A definition that is used in its own body: `d = 1 + d`. -/
def selfUse : Compilation :=
  { Compilation.new with
    arena :=
      { exprs := #[.new (.value (.int 1)) .int .origin, .new (.reference ⟨9⟩) .number .origin,
          .new (.call ⟨1⟩ [⟨0⟩, ⟨1⟩]) .number .origin]
        defs := Builtins.definitions.toArray.push ⟨"d", .expression ⟨2⟩, none, none, .origin⟩
        stmts := #[⟨.bind ⟨9⟩, .origin⟩]
        roots := [⟨0⟩] } }

theorem intact_selfUse : selfUse.Intact where
  arena :=
    { children := by simp [selfUse, Expression.new, ExprKind.children]
      uses := by simp [selfUse, Expression.new, ExprKind.definition?, Builtins.definitions]
      defs := by simp [selfUse, Builtins.definitions, Builtins.entry, Body.InBounds]
      stmts := by simp [selfUse, StatementKind.InBounds, Builtins.definitions]
      roots := by simp [selfUse] }
  builtins name d hd := (Builtins.lt_of_mem_positions hd).trans_le (by decide)
  queue := nofun
  acyclic := Arena.acyclic_of_lt (by decide)

/-- The body is put below itself: nodes that were appended take the place of the use. -/
theorem intact_after_selfUse :
    selfUse.Intact ∧ (Operation.inline {} ⟨1⟩).InBounds selfUse ∧
      (selfUse.after (Operation.inline {} ⟨1⟩).action).Intact ∧
      ((selfUse.after (Operation.inline {} ⟨1⟩).action).arena.expr ⟨1⟩).kind =
        .call ⟨1⟩ [⟨3⟩, ⟨4⟩] := by
  have hop : (Operation.inline {} ⟨1⟩).InBounds selfUse := by
    show 1 < 3
    decide
  exact ⟨intact_selfUse, hop, (intact_after intact_selfUse hop).1, by decide +kernel⟩

end Termwise
