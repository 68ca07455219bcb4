import Termwise.Proofs.Concretization.Soundness
import Termwise.Proofs.Run.Order
import Termwise.Proofs.Run.Wholeness

/-!
# The order of the queue

The runs of a program are queued as they are found, and a run is resolved when its turn comes, or
before that as a term of the run around it. If trees share no node, runs are terms of runs only,
and no term names a definition that takes its type from what is resolved, then the order of the
queue does not matter.

The last condition is about more than runs: the type of a definition may be that of a constant, and
a constant that is a term of a run may be cast when that run is resolved.

## Main definitions

* `Compilation.Separate`: trees share no node
* `Compilation.Orderable`: a queue that may be worked off in any order

## Main results

* `resolveAll_any_order`: the order of the queue does not matter
* `order_of_sharedConstant`: it does if a term takes its type from a term of another run
-/

namespace Termwise

open Compilation

/-! ## Programs -/

/-- **Trees share no node**: a node lies directly below one other node at most, and never below
itself, and a run only below a run. -/
structure Compilation.Separate (c : Compilation) (queued : List ExprId) : Prop where
  inBounds : c.arena.InBounds
  inTable : ∀ id ∈ queued, id.index < c.arena.exprs.size
  acyclic : c.arena.Acyclic
  unshared : ∀ p p' n, n ∈ (c.arena.expr p).kind.children → n ∈ (c.arena.expr p').kind.children →
    p = p'
  nested : ∀ p n ts, n ∈ (c.arena.expr p).kind.children → (c.arena.expr n).kind = .run ts →
    ∃ us, (c.arena.expr p).kind = .run us

/-- **A queue that may be worked off in any order**: trees share no node, and no term that is
resolved names a definition that takes its type from a node that is resolved. -/
structure Compilation.Orderable (c : Compilation) (queued : List ExprId) : Prop
    extends Separate c queued where
  names : ∀ r ∈ queued, ∀ n ts, c.Below r n → (c.arena.expr n).kind = .run ts → ∀ t ∈ ts,
    ∀ d ∈ (c.arena.expr t).kind.named c.builtins, (c.arena.definition d).declared = none →
    ∀ b, (c.arena.definition d).body = .expression b → ∀ r' ∈ queued, ¬ c.Below r' b

namespace Compilation

variable {c : Compilation} {queued : List ExprId} {n m : ExprId}

/-- The nodes that are resolved, and those that are appended. -/
def queuedZone (c : Compilation) (queued : List ExprId) : Set ExprId :=
  {n | c.arena.exprs.size ≤ n.index ∨ ∃ r ∈ queued, c.Below r n}

/-- The terms among them. -/
def queuedTerms (c : Compilation) (queued : List ExprId) : Set ExprId :=
  {n | c.arena.exprs.size ≤ n.index ∨
    ∃ p ∈ c.queuedZone queued, ∃ ts, (c.arena.expr p).kind = .run ts ∧ n ∈ ts}

/-- Where a queue is worked off. -/
def queueExtent (c : Compilation) (queued : List ExprId) : Extent where
  builtins := c.builtins
  floor := c.arena.exprs.size
  zone := c.queuedZone queued
  terms := c.queuedTerms queued
  names := {d | ∃ t ∈ c.queuedTerms queued, d ∈ (c.arena.expr t).kind.named c.builtins}
  late _ _ := False
  zone_of_le _ := .inl
  terms_of_le _ := .inl

theorem Separate.lt_size_of_mem (h : c.Separate queued)
    (hm : m ∈ (c.arena.expr n).kind.children) : m.index < c.arena.exprs.size :=
  Arena.forall_expr (p := fun e => m ∈ e.kind.children → m.index < c.arena.exprs.size)
    (fun e he hm => h.inBounds.children e he m hm) (fun hm => by cases hm) n hm

theorem Separate.lt_size_of_below (h : c.Separate queued) {r : ExprId} (hr : r ∈ queued)
    (hn : c.Below r n) : n.index < c.arena.exprs.size := by
  cases hn with
  | refl => exact h.inTable _ hr
  | tail _ hm => exact h.lt_size_of_mem hm

/-- The nodes at and below a queued run are its territory. -/
theorem Separate.territory (h : c.Separate queued) {r : ExprId} {ts : List ExprId} (hr : r ∈ queued)
    (hk : (c.arena.expr r).kind = .run ts) : Territory c r {n | c.Below r n} where
  root := .refl
  inside n hn := h.lt_size_of_below hr hn
  closed n hn m hm := hn.tail hm
  sealed n hn m hm hbelow := by
    rcases Relation.ReflTransGen.cases_tail hbelow with heq | ⟨p, hp, hpm⟩
    · exact ⟨heq, h.nested n m ts hm (heq ▸ hk)⟩
    · cases h.unshared p n m hpm hm
      exact (hn hp).elim

/-- Of two nodes above a third one, one lies at or below the other. -/
theorem Separate.below_or_below (h : c.Separate queued) {r r' : ExprId} (hn : c.Below r n)
    (hn' : c.Below r' n) : c.Below r r' ∨ c.Below r' r := by
  have hunique : Relator.RightUnique fun n p => n ∈ (c.arena.expr p).kind.children :=
    fun n p p' hp hp' => h.unshared p p' n hp hp'
  have hup {r : ExprId} (hr : c.Below r n) :
      Relation.ReflTransGen (fun n p => n ∈ (c.arena.expr p).kind.children) n r :=
    Relation.ReflTransGen.swap _ _ hr
  rcases Relation.ReflTransGen.total_of_right_unique hunique (hup hn) (hup hn') with hr | hr
  · exact .inr (Relation.ReflTransGen.swap _ _ hr)
  · exact .inl (Relation.ReflTransGen.swap _ _ hr)

/-- **At first**, the territory of a run is what lies at and below it. -/
theorem Orderable.orderly (h : c.Orderable queued) {runs : Finset ExprId}
    (hruns : ∀ a ∈ runs, a ∈ queued ∧ ∃ ts, (c.arena.expr a).kind = .run ts) :
    Orderly (c.queueExtent queued)
      (Relation.TransGen fun m n => m ∈ (c.arena.expr n).kind.children) runs
      (fun a => {n | c.Below a n}) c := by
  have htomb {n : ExprId} (hn : c.arena.exprs.size ≤ n.index) : c.arena.expr n = .tombstone :=
    Arena.expr_of_size_le hn
  refine
    { fits := ⟨rfl, le_rfl, ?_, ?_, ?_⟩
      outside := fun n _ m hm => h.lt_size_of_mem hm
      nested := ?_
      run := fun a ha => (hruns a ha).2
      territory := ?_
      zone := fun a ha n hn => .inr ⟨a, (hruns a ha).1, hn⟩
      inner := fun a _ b _ hb n hn => Relation.ReflTransGen.trans hb hn
      apart := ?_
      below := ?_ }
  · rintro n (hn | ⟨r, hr, hn⟩) m hm
    · rw [htomb hn] at hm
      cases hm
    · exact ⟨.inr ⟨r, hr, hn.tail hm⟩, h.lt_size_of_mem hm⟩
  · exact fun n hn => ⟨fun hterm d hd => ⟨n, hterm, hd⟩, fun ts hk t ht => .inr ⟨n, hn, ts, hk, ht⟩⟩
  · rintro d ⟨t, hterm, hd⟩ hdeclared b hb hzone
    have hbody : (c.arena.definition d).body.InBounds c.arena :=
      Arena.forall_definition (p := fun x => x.body.InBounds c.arena) h.inBounds.defs trivial d
    rw [hb] at hbody
    -- The body is in the table, so it would lie below a queued run, and such a body is not named.
    have hbelow : ∃ r ∈ queued, c.Below r b := hzone.resolve_left (Nat.not_le.2 hbody)
    obtain ⟨r', hr', hbelow⟩ := hbelow
    rcases hterm with hle | ⟨p, hp | ⟨r, hr, hp⟩, ts, hk, ht⟩
    · rw [htomb hle] at hd
      cases hd
    · rw [htomb hp] at hk
      cases hk
    · exact h.names r hr p ts hp hk t ht d hd hdeclared b hb r' hr' hbelow
  · refine fun n => Subrelation.accessible ?_ (h.acyclic.apply n)
    rintro m n ⟨ts, hk, ht⟩
    show m ∈ (c.arena.expr n).kind.children
    rwa [hk]
  · intro a ha
    obtain ⟨hmem, ts, hk⟩ := hruns a ha
    exact h.territory hmem hk
  · intro a _ b _ hnot hnot' n hn hn'
    rcases h.below_or_below hn hn' with hb | ha
    · exact hnot' hb
    · exact hnot ha
  · intro a _ b _ hb
    rcases Relation.reflTransGen_iff_eq_or_transGen.1 hb with rfl | hb
    · exact .inl rfl
    · exact .inr (Relation.TransGen.swap _ _ hb)

end Compilation

/-- What is left of a queue that was worked off. -/
theorem resolveAll_of_ok {c c' : Compilation} {failures : Nat}
    (h : resolveEach c.queue { c with queue := [] } = .ok failures c') :
    resolveAll c = .ok c'.isValid (c'.emit (.drained failures)) := by
  have hall : Outcome (resolveAll) c
      (fun v c'' => v = c'.isValid ∧ c'' = c'.emit (.drained failures)) fun _ _ => False := by
    simp only [resolveAll, outcome_bind, outcome_get, outcome_modify, outcome_emit]
    rw [outcome_of_eq_ok h]
    exact ⟨rfl, rfl⟩
  obtain ⟨_, _, hok, rfl, rfl⟩ := hall.exists_ok
  exact hok

/-- **The order of the queue does not matter**: two queues with the same entries are worked off to
the same program, up to the positions of the nodes that are appended. -/
theorem resolveAll_any_order {c : Compilation} {queue queue' : List ExprId}
    (h : c.Orderable queue) (hsame : ∀ id, id ∈ queue ↔ id ∈ queue') :
    ∃ v c₁ c₂, resolveAll { c with queue := queue } = .ok v c₁ ∧
      resolveAll { c with queue := queue' } = .ok v c₂ ∧
      c₁.queue = [] ∧ c₂.queue = [] ∧
      (∀ id ∈ queue, ∀ ts, (c₁.arena.expr id).kind ≠ .run ts ∧ (c₂.arena.expr id).kind ≠ .run ts) ∧
      c₂.isValid = c₁.isValid ∧
      (∃ added added', c₁.diagnostics = c.diagnostics ++ added ∧
        c₂.diagnostics = c.diagnostics ++ added' ∧ added.Perm added') ∧
      ∃ R, Renaming c.arena.exprs.size R c₁ c₂ := by
  classical
  have h₀ : Orderable { c with queue := [] } queue :=
    ⟨⟨h.inBounds, h.inTable, h.acyclic, h.unshared, h.nested⟩, h.names⟩
  -- Entries that are no runs are passed over, and so are repeated ones.
  let runs := queue.toFinset.filter fun id => ∃ ts, (c.arena.expr id).kind = .run ts
  have hruns : ∀ a ∈ runs, a ∈ queue ∧ ∃ ts, (c.arena.expr a).kind = .run ts :=
    fun a ha => (Finset.mem_filter.1 ha).imp_left List.mem_toFinset.1
  have horderly := h₀.orderly hruns
  obtain ⟨failures, c₁, hok₁, hthins₁, hdone₁⟩ :=
    (resolveEach_ends queue horderly.nested).exists_ok
  obtain ⟨failures', c₂, hok₂, hthins₂, hdone₂⟩ :=
    (resolveEach_ends queue' horderly.nested).exists_ok
  have hends : EndsAlike c.arena.exprs.size c₁ c₂ := by
    refine horderly.endsAlike h.acyclic.transGen
      (fun a ha => ⟨(hruns a ha).1, (hsame a).1 (hruns a ha).1⟩) ?_ ?_ hok₁ hok₂
    · intro id hid
      have hmem : id ∈ queue := hid.elim (fun hid => hid) (hsame id).2
      exact ⟨.inr ⟨id, hmem, .refl⟩, h.inTable id hmem⟩
    · intro id hid ts hk
      have hmem : id ∈ queue := hid.elim (fun hid => hid) (hsame id).2
      exact Finset.mem_filter.2 ⟨List.mem_toFinset.2 hmem, ts, hk⟩
  obtain ⟨added, hadded⟩ := hthins₁.diagnostics
  obtain ⟨added', hadded'⟩ := hthins₂.diagnostics
  obtain ⟨R, hR⟩ := hends.nodes
  have hall₂ : resolveAll { c with queue := queue' } =
      .ok c₁.isValid (c₂.emit (.drained failures')) := by
    rw [← hends.isValid]
    exact resolveAll_of_ok (c := { c with queue := queue' }) hok₂
  refine ⟨c₁.isValid, _, _, resolveAll_of_ok hok₁, hall₂, hthins₁.queue, hthins₂.queue, ?_,
    hends.isValid, ⟨added, added', hadded.symm, hadded'.symm, ?_⟩, R, hR.old, hR.left_unique,
    hR.right_unique, hR.expr⟩
  · exact fun id hid ts => ⟨hdone₁ id hid ts, hdone₂ id ((hsame id).1 hid) ts⟩
  · have hperm := hends.diagnostics
    rw [← hadded, ← hadded'] at hperm
    exact (List.perm_append_left_iff _).1 hperm

/-! ## Small programs -/

/-- What holds of the nodes in the table and of what lies below them holds of all nodes. -/
theorem Arena.forall_children {a : Arena} {p : ExprId → ExprId → Prop}
    (h : ∀ i < a.exprs.size, ∀ m ∈ (a.expr ⟨i⟩).kind.children, p ⟨i⟩ m) (n m : ExprId)
    (hm : m ∈ (a.expr n).kind.children) : p n m := by
  refine h n.index (lt_size_of_kind_ne fun hk => ?_) m hm
  rw [hk] at hm
  cases hm

/-- A table in which nodes come before the nodes above them has no cycle. -/
theorem Arena.acyclic_of_lt {a : Arena}
    (h : ∀ i < a.exprs.size, ∀ m ∈ (a.expr ⟨i⟩).kind.children, m.index < i) : a.Acyclic := by
  refine Subrelation.wf (r := InvImage (· < ·) ExprId.index) ?_ (InvImage.wf _ Nat.lt_wfRel.wf)
  exact fun {m n} hm => forall_children (p := fun n m => m.index < n.index) h n m hm

/-- A node lies directly below one node at most if the nodes of the table share no child. -/
theorem Arena.unshared_of_disjoint {a : Arena}
    (h : ∀ i < a.exprs.size, ∀ j < a.exprs.size, ∀ m ∈ (a.expr ⟨i⟩).kind.children,
      m ∈ (a.expr ⟨j⟩).kind.children → i = j) (p p' n : ExprId)
    (hn : n ∈ (a.expr p).kind.children) (hn' : n ∈ (a.expr p').kind.children) : p = p' := by
  refine forall_children (p := fun p n => n ∈ (a.expr p').kind.children → p = p') ?_ p n hn hn'
  intro i hi m hm hm'
  refine forall_children (p := fun p' m => m ∈ (a.expr ⟨i⟩).kind.children → ⟨i⟩ = p') ?_ p' m hm' hm
  exact fun j hj m hm' hm => congrArg ExprId.mk (h i hi j hj m hm hm')

/-- A node with something below it is a run if that holds in the table. -/
theorem Arena.run_of_mem_children {a : Arena}
    (h : ∀ i < a.exprs.size, ∀ _m ∈ (a.expr ⟨i⟩).kind.children,
      (a.expr ⟨i⟩).kind = .run (a.expr ⟨i⟩).kind.children) (p n : ExprId)
    (hn : n ∈ (a.expr p).kind.children) : ∃ us, (a.expr p).kind = .run us :=
  ⟨_, forall_children (p := fun p _ => (a.expr p).kind = .run (a.expr p).kind.children) h p n hn⟩

/-- The run `3 + (1 2)` shares no term, and no builtin definition takes its type from one. -/
theorem orderable_failingGroup : failingGroup.Orderable [⟨2⟩, ⟨5⟩] where
  inBounds :=
    { children := by simp [failingGroup, Expression.new, ExprKind.children]
      uses := by simp [failingGroup, Expression.new, ExprKind.definition?, Builtins.arena,
        Builtins.definitions]
      defs := by simp [failingGroup, Builtins.arena, Builtins.definitions, Builtins.entry,
        Body.InBounds]
      stmts := by simp [failingGroup, Builtins.arena, Arena.empty]
      roots := by simp [failingGroup, Builtins.arena, Arena.empty] }
  inTable := by simp [failingGroup]
  acyclic := Arena.acyclic_of_lt (by decide)
  unshared := Arena.unshared_of_disjoint (by decide)
  nested p n _ hn _ := Arena.run_of_mem_children (by decide) p n hn
  names _ _ _ _ _ _ _ _ d _ _ b hb := by
    have hbody : (failingGroup.arena.definition d).body ≠ .expression b :=
      Arena.forall_definition (p := fun x => x.body ≠ .expression b)
        (by simp [failingGroup, Builtins.arena, Builtins.definitions, Builtins.entry])
        (fun h => by cases h) d
    exact (hbody hb).elim

/-- The order of the queue does not matter to `3 + (1 2)`, also if the group is queued twice. -/
theorem resolveAll_failingGroup_any_order :
    failingGroup.Orderable [⟨2⟩, ⟨5⟩] ∧
    ∃ v c₁ c₂, resolveAll { failingGroup with queue := [⟨2⟩, ⟨5⟩] } = .ok v c₁ ∧
      resolveAll { failingGroup with queue := [⟨5⟩, ⟨2⟩, ⟨5⟩] } = .ok v c₂ ∧
      c₂.isValid = c₁.isValid ∧
      ∃ R, Renaming failingGroup.arena.exprs.size R c₁ c₂ := by
  have hsame : ∀ id, id ∈ [(⟨2⟩ : ExprId), ⟨5⟩] ↔ id ∈ [(⟨5⟩ : ExprId), ⟨2⟩, ⟨5⟩] := by
    simp [or_comm]
  obtain ⟨v, c₁, c₂, h₁, h₂, -, -, -, hvalid, -, hR⟩ :=
    resolveAll_any_order orderable_failingGroup hsame
  exact ⟨orderable_failingGroup, v, c₁, c₂, h₁, h₂, hvalid, hR⟩

/-- A program with a constant that is a term of one run and the type of a term of another: `f` takes
an integer, `d` is the constant `1`, and the runs are `f 1` and `f d`. -/
def sharedConstant : Compilation :=
  let f : Definition := ⟨"f", .builtin, some (.function [.int] .int true), none, .origin⟩
  let d : Definition := ⟨"d", .expression ⟨0⟩, none, none, .origin⟩
  { Compilation.new with
    arena :=
      { Arena.empty with
        exprs := #[.new (.value (.string "1")) .numberLiteral .origin,
          .new (.reference ⟨9⟩) .hole .origin, .new (.run [⟨1⟩, ⟨0⟩]) .hole .origin,
          .new (.reference ⟨9⟩) .hole .origin, .new (.reference ⟨10⟩) .hole .origin,
          .new (.run [⟨3⟩, ⟨4⟩]) .hole .origin]
        defs := (Builtins.definitions ++ [f, d]).toArray } }

/-- The trees of `f 1` and `f d` share no node. -/
theorem separate_sharedConstant : sharedConstant.Separate [⟨2⟩, ⟨5⟩] where
  inBounds :=
    { children := by simp [sharedConstant, Expression.new, ExprKind.children]
      uses := by simp [sharedConstant, Expression.new, ExprKind.definition?, Builtins.definitions]
      defs := by simp [sharedConstant, Builtins.definitions, Builtins.entry, Body.InBounds]
      stmts := by simp [sharedConstant, Arena.empty]
      roots := by simp [sharedConstant, Arena.empty] }
  inTable := by simp [sharedConstant]
  acyclic := Arena.acyclic_of_lt (by decide)
  unshared := Arena.unshared_of_disjoint (by decide)
  nested p n _ hn _ := Arena.run_of_mem_children (by decide) p n hn

/-- **The order matters if a constant is a term**: the constant of `f 1` is cast to an integer when
that run is resolved, and `f d` is an error only if it is resolved after that. -/
theorem order_of_sharedConstant :
    sharedConstant.Separate [⟨2⟩, ⟨5⟩] ∧
    (∀ d b, (sharedConstant.arena.definition d).body = .expression b →
      ∀ n, sharedConstant.Below b n → ∀ ts, (sharedConstant.arena.expr n).kind ≠ .run ts) ∧
    (∃ c', resolveAll { sharedConstant with queue := [⟨2⟩, ⟨5⟩] } = .ok true c') ∧
    ∃ c', resolveAll { sharedConstant with queue := [⟨5⟩, ⟨2⟩] } = .ok false c' := by
  refine ⟨separate_sharedConstant, ?_, exists_ok_of_eq (by decide +kernel),
    exists_ok_of_eq (by decide +kernel)⟩
  intro d b hb n hn ts hk
  have hbody : ∀ b, (sharedConstant.arena.definition d).body = .expression b → b = ⟨0⟩ :=
    Arena.forall_definition (p := fun x => ∀ b, x.body = .expression b → b = ⟨0⟩)
      (by simp [sharedConstant, Builtins.definitions, Builtins.entry])
      (fun b h => by cases h) d
  cases hbody b hb
  rcases Relation.ReflTransGen.cases_head hn with rfl | ⟨m, hm, -⟩
  · cases hk
  · cases hm

end Termwise
