import Termwise.Proofs.Wellformedness

/-!
# Substituted bodies are the same trees on new nodes

A use that is substituted holds the same tree as the body of its definition, node by node and at
every depth, and no node below it belongs to anything else. The use itself stays where it is: it
keeps its place in the text and its declared type, and no other expression changes.

A call without arguments is read as a reference to its callee while the body is copied. If the call
lies at or below that body, then the copy holds the reference and not the call.

## Main definitions

* `Arena.Replicas`: trees that differ in the numbers of their nodes only
* `Arena.HoldsCopy`: an expression holds the same tree as another one
* `Compilation.Transplanted`: a use was replaced by a copy of a body

## Main results

* `Arena.copyWithin_replicas`: a copy is the same tree as the original
* `substitute_transplants`: substitution copies and isolates, or it changes no table
-/

namespace Termwise

/-! ## Trees on different nodes -/

/-- Two expressions look the same: they may differ in the nodes that lie below them. -/
structure Expression.Resembles (e e' : Expression) : Prop where
  kind : e.kind.Resembles e'.kind
  ty : e'.ty = e.ty
  declared : e'.declared = e.declared
  span : e'.span = e.span

namespace Arena

variable {a a' a'' : Arena} {P : Expression → Prop} {ids ids' xs : List ExprId} {b id : ExprId}

/-- **The trees below some expressions look the same** as those below others, at every depth. -/
inductive Replicas (a a' : Arena) : (ids ids' : List ExprId) → Prop where
  | nil : Replicas a a' [] []
  | cons {n m : ExprId} {ids ids' : List ExprId} (hroot : (a.expr n).Resembles (a'.expr m))
    (hbelow : Replicas a a' (a.expr n).kind.children (a'.expr m).kind.children)
    (hrest : Replicas a a' ids ids') : Replicas a a' (n :: ids) (m :: ids')

/-- What happens elsewhere does not matter to the trees on the left. -/
theorem Replicas.congr_left (h : a.Replicas a' ids ids')
    (hsame : ∀ r ∈ ids, ∀ n,
      Relation.ReflTransGen (fun n m => m ∈ (a''.expr n).kind.children) r n →
        a''.expr n = a.expr n) :
    a''.Replicas a' ids ids' := by
  induction h with
  | nil => exact .nil
  | @cons n m _ _ hroot _ _ ihbelow ihrest =>
    have hn := hsame n List.mem_cons_self n .refl
    refine .cons (hn ▸ hroot) ?_ (ihrest fun r hr => hsame r (List.mem_cons_of_mem _ hr))
    rw [hn]
    exact ihbelow fun r hr k hk => hsame n List.mem_cons_self k (hk.head (hn ▸ hr))

/-- What happens elsewhere does not matter to the trees on the right. -/
theorem Replicas.congr_right (h : a.Replicas a' ids ids') (hforest : a'.Forest ids' xs)
    (hsame : ∀ n ∈ xs, a''.expr n = a'.expr n) : a.Replicas a'' ids ids' := by
  induction h generalizing xs with
  | nil => exact .nil
  | cons hroot _ _ ihbelow ihrest =>
    obtain ⟨below, rest, rfl, hforest, hforest'⟩ := hforest.exists_cons
    obtain ⟨hm, hsame⟩ := List.forall_mem_cons.1 hsame
    obtain ⟨hsame, hsame'⟩ := List.forall_mem_append.1 hsame
    refine .cons (hm ▸ hroot) ?_ (ihrest hforest' hsame')
    rw [hm]
    exact ihbelow hforest hsame

/-- No path below an expression of a shallow tree leaves the table. -/
theorem Shallow.lt_size {depth : Nat} {n m : ExprId} (h : a.Shallow P depth n)
    (hm : Relation.ReflTransGen (fun n m => m ∈ (a.expr n).kind.children) n m) :
    m.index < a.exprs.size := by
  induction depth generalizing n with
  | zero => exact h.elim
  | succ depth ih =>
    rcases hm.cases_head with rfl | ⟨k, hk, hm⟩
    · exact h.1
    · exact ih (h.2.2 k hk) hm

/-- A copy looks like the original. -/
theorem copyWithin_resembles_expr (depth : Nat) (id : ExprId) (a : Arena) :
    (a.expr id).Resembles (copyWithin depth id a).1 := by
  obtain ⟨hty, hkind⟩ := copyWithin_resembles depth id a
  cases depth with
  | zero => exact ⟨hkind, hty, rfl, rfl⟩
  | succ depth =>
    refine ⟨hkind, hty, ?_, ?_⟩ <;> rw [copyWithin_succ] <;> split <;> rfl

theorem copyEach_replicas {depth : Nat} {copy : ExprId → StateM Arena Expression}
    (hsprouts : ∀ (id : ExprId) (a : Arena), a.Shallow (fun _ => True) depth id →
      ∃ xs, Sprouts (fun _ => True) a (copy id a).2 (copy id a).1.kind.children xs)
    (hcopy : ∀ (id : ExprId) (a : Arena), a.Shallow (fun _ => True) depth id →
      (a.expr id).Resembles (copy id a).1 ∧
      a.Replicas (copy id a).2 (a.expr id).kind.children (copy id a).1.kind.children)
    (ids : List ExprId) (h : ∀ n ∈ ids, a.Shallow (fun _ => True) depth n) :
    a.Replicas (copyEach copy ids a).2 ids (copyEach copy ids a).1 := by
  induction ids generalizing a with
  | nil => exact .nil
  | cons id ids ih =>
    obtain ⟨hid, hids⟩ := List.forall_mem_cons.1 h
    obtain ⟨xs, hcopied⟩ := hsprouts id a hid
    obtain ⟨hroot, hbelow⟩ := hcopy id a hid
    have hfirst := hcopied.root trivial
    have hids' (n) (hn : n ∈ ids) := hfirst.toAppends.shallow (hids n hn)
    obtain ⟨xs', hrest⟩ := copyEach_sprouts (fun id a h => ⟨trivial, hsprouts id a h⟩) ids hids'
    rw [copyEach_cons]
    -- The first copy is appended, and then the others are.
    have hlast : (copyEach copy ids ((copy id a).2.allocExpr (copy id a).1).2).2.expr
        ((copy id a).2.allocExpr (copy id a).1).1 = (copy id a).1 := by
      rw [hrest.expr _ (by simp [allocExpr]), expr_allocExpr_self]
    refine .cons (hlast.symm ▸ hroot) ?_ ((ih hids').congr_left fun r hr n hn => ?_)
    · rw [hlast]
      refine hbelow.congr_right hcopied.forest fun n hn => ?_
      have hlt := ((hcopied.mem n).1 hn).2
      rw [hrest.expr n (hlt.trans_le (appends_allocExpr _ _).size), expr_allocExpr_of_lt hlt]
    · exact (hfirst.toAppends.expr n ((hids r hr).lt_size hn)).symm

/-- **A copy is the same tree**, if it descends deep enough. -/
theorem copyWithin_replicas (depth : Nat) (id : ExprId) (a : Arena)
    (h : a.Shallow (fun _ => True) depth id) :
    a.Replicas (copyWithin depth id a).2 (a.expr id).kind.children
      (copyWithin depth id a).1.kind.children := by
  induction depth generalizing id a with
  | zero => exact h.elim
  | succ depth ih =>
    have hsprouts (id a) (h : Shallow a (fun _ => True) depth id) :=
      (copyWithin_sprouts (fun _ _ _ _ _ => trivial) depth id a h).2
    have hcopy (id a) (h : Shallow a (fun _ => True) depth id) :=
      And.intro (copyWithin_resembles_expr depth id a) (ih id a h)
    have hchildren := h.2.2
    rw [copyWithin_succ]
    split <;> rename_i hk <;> try rw [hk] at hchildren ⊢
    · exact copyEach_replicas hsprouts hcopy _ hchildren
    · -- A single operand is copied as a list of one is.
      exact copyEach_replicas hsprouts hcopy [_] hchildren
    · exact copyEach_replicas hsprouts hcopy _ hchildren
    · have hnil : (a.expr id).kind.children = [] := by
        cases hk' : (a.expr id).kind <;> simp_all [ExprKind.children]
      rw [hnil]
      exact .nil

/-- **An expression holds a copy** of the tree of another one: the same kind and type, and trees
that look the same below it. -/
structure HoldsCopy (a : Arena) (b : ExprId) (a' : Arena) (id : ExprId) : Prop where
  kind : (a.expr b).kind.Resembles (a'.expr id).kind
  ty : (a'.expr id).ty = (a.expr b).ty
  below : a.Replicas a' (a.expr b).kind.children (a'.expr id).kind.children

end Arena

/-! ## Substitution -/

namespace Compilation

variable {c c' : Compilation} {id b : ExprId} {d : DefId}

/-- **A use of a definition was replaced** by the body, on nodes of its own. -/
structure Transplanted (id : ExprId) (d : DefId) (b : ExprId) (c c' : Compilation) : Prop where
  body : (c.arena.definition d).body = .expression b
  use : (c.arena.expr id).kind = .reference d ∨ (c.arena.expr id).kind = .call d []
  copied : (c.readAs id d).arena.HoldsCopy b c'.arena id
  /-- The copy is one of the body as it stands, unless a call in that very body was replaced. -/
  faithful : (c.arena.expr id).kind = .reference d ∨ ¬ c.Below b id →
    c.arena.HoldsCopy b c'.arena id
  declared : (c'.arena.expr id).declared = (c.arena.expr id).declared
  span : (c'.arena.expr id).span = (c.arena.expr id).span
  kept : ∀ n ≠ id, n.index < c.arena.exprs.size → c'.arena.expr n = c.arena.expr n
  defs : c'.arena.defs = c.arena.defs
  stmts : c'.arena.stmts = c.arena.stmts
  roots : c'.arena.roots = c.arena.roots
  /-- What lies below is new, lies there once, and lies below nothing else that was there. -/
  isolated : ∃ below, c'.arena.Forest (c'.arena.expr id).kind.children below ∧ below.Nodup ∧
    (∀ n ∈ below, c.arena.exprs.size ≤ n.index) ∧
    ∀ n ≠ id, n.index < c.arena.exprs.size → ∀ m ∈ (c'.arena.expr n).kind.children, m ∉ below

/-- Reading a use as a reference matters to no tree that does not contain it. -/
theorem holdsCopy_of_readAs {a' : Arena} {n : ExprId}
    (h : (c.readAs id d).arena.HoldsCopy b a' n)
    (hid : (c.arena.expr id).kind = .reference d ∨ ¬ c.Below b id) : c.arena.HoldsCopy b a' n := by
  have hother {k : ExprId} (hk : c.Below b k) :
      c.arena.expr k = (c.readAs id d).arena.expr k := by
    by_cases hkid : k = id
    · subst hkid
      have huse := hid.resolve_right (not_not_intro hk)
      rw [readAs, modifyArena, Arena.modifyExpr_eq_self (by rw [← huse])]
    · exact (Arena.expr_modifyExpr_of_ne hkid _).symm
  have hb := hother .refl
  obtain ⟨hkind, hty, hreplicas⟩ := h
  rw [← hb] at hkind hty hreplicas
  exact ⟨hkind, hty, hreplicas.congr_left fun r hr k hk => hother (hk.head hr)⟩

/-- A copy of a tree looks the same, at its root and below. -/
theorem Upright.copy_resembles {copied : Expression} {a : Arena} (hc : c.Upright)
    (hb : b.index < c.arena.exprs.size) (hcopied : c.arena.copy b = (copied, a)) :
    (c.arena.expr b).Resembles copied ∧
      c.arena.Replicas a (c.arena.expr b).kind.children copied.kind.children := by
  have hroot := Arena.copyWithin_resembles_expr c.arena.exprs.size b c.arena
  have hbelow := Arena.copyWithin_replicas c.arena.exprs.size b c.arena (hc.shallow hb)
  rw [← Arena.copy, hcopied] at hroot hbelow
  exact ⟨hroot, hbelow⟩

/-- **A use that is replaced** holds the body on nodes of its own, and nothing else changes. -/
theorem Replaced.transplanted (h : c.Replaced id d b c') (hc : c.Upright) :
    c.Transplanted id d b c' := by
  have hid := h.inTable
  have hup : (c.readAs id d).Upright := h.retouches_readAs.upright hc
  have hsize : (c.readAs id d).arena.exprs.size = c.arena.exprs.size := Arena.size_modifyExpr ..
  -- The copy is made while the use is read as a reference, and put in its place after that.
  rcases hcopied : (c.readAs id d).arena.copy b with ⟨copied, a⟩
  have harena : c'.arena = a.replaceExpr id copied := by rw [h.arena_eq, hcopied]
  obtain ⟨xs, hsprouts⟩ := hup.exists_sprouts h.body_inTable hcopied
  obtain ⟨hcopy, hreplicas⟩ := hup.copy_resembles h.body_inTable hcopied
  have hgrown := hsprouts.size
  have hother {n : ExprId} (hn : n ≠ id) : c'.arena.expr n = a.expr n := by
    rw [harena]
    exact Arena.expr_modifyExpr_of_ne hn _
  have hroot : c'.arena.expr id = (c.arena.expr id).replaceBy copied :=
    calc c'.arena.expr id
      _ = (a.expr id).replaceBy copied := by
        rw [harena]
        exact Arena.expr_modifyExpr_self (by omega) _
      _ = ((c.readAs id d).arena.expr id).replaceBy copied := by
        rw [hsprouts.expr id (by omega)]
      _ = (c.arena.expr id).replaceBy copied := by
        rw [readAs, modifyArena, Arena.expr_modifyExpr_self hid]
        rfl
  have hkept (n : ExprId) (hn : n ≠ id) (hlt : n.index < c.arena.exprs.size) :
      c'.arena.expr n = c.arena.expr n :=
    calc c'.arena.expr n
      _ = a.expr n := hother hn
      _ = (c.readAs id d).arena.expr n := hsprouts.expr n (by omega)
      _ = c.arena.expr n := Arena.expr_modifyExpr_of_ne hn _
  have hnew (n : ExprId) (hn : n ∈ xs) : c.arena.exprs.size ≤ n.index :=
    hsize ▸ ((hsprouts.mem n).1 hn).1
  have hbelow (n : ExprId) (hn : n ∈ xs) : c'.arena.expr n = a.expr n :=
    hother (by rintro rfl; exact Nat.not_le.2 hid (hnew n hn))
  have hholds : (c.readAs id d).arena.HoldsCopy b c'.arena id :=
    ⟨hroot ▸ hcopy.kind, hroot ▸ hcopy.ty,
      hroot ▸ hreplicas.congr_right hsprouts.forest hbelow⟩
  refine {
    body := h.body
    use := h.use
    copied := hholds
    faithful := holdsCopy_of_readAs hholds
    declared := by rw [hroot]; rfl
    span := by rw [hroot]; rfl
    kept := hkept
    defs := by rw [harena]; exact hsprouts.defs
    stmts := by rw [harena]; exact hsprouts.stmts
    roots := by rw [harena]; exact hsprouts.roots
    isolated := ⟨xs, ?_, hsprouts.nodup, hnew, fun n hn hlt m hm hmem => ?_⟩ }
  · rw [hroot]
    exact hsprouts.forest.congr fun n hn => by rw [hbelow n hn]
  · rw [hkept n hn hlt] at hm
    exact Nat.not_le.2 (hc.children n m hm) (hnew m hmem)

end Compilation

open Compilation

/-- **Substitution copies and isolates.** It always ends. If it replaces an expression, that one
was a use of a definition and now holds the body of the definition, on nodes of its own, and
nothing else changes. If it does not, then no table changes. -/
theorem substitute_transplants {c : Compilation} (settings : Settings) (id : ExprId)
    (hc : c.Upright) :
    Outcome (substitute settings id) c
      (fun replaced c' => (replaced = true → ∃ d b, c.Transplanted id d b c') ∧
        (replaced = false → c'.arena = c.arena)) fun _ _ => False := by
  cases hd : (c.arena.expr id).kind.definition? with
  | some d =>
    refine ((substitute_copies settings hd).and (substitute_grafts settings hc hd)).mono ?_
      fun _ _ h => h.2
    rintro replaced c' ⟨hcopied, -, hkept⟩
    refine ⟨fun hreplaced => ?_, fun hreplaced => (hkept hreplaced).2⟩
    obtain ⟨b, h⟩ := hcopied hreplaced
    exact ⟨d, b, h.transplanted hc⟩
  | none =>
    simp only [substitute]
    split
    · exact ⟨fun h => absurd h Bool.false_ne_true, fun _ => rfl⟩
    · simp only [outcome_bind, outcome_expr]
      -- No other expression is a use.
      split <;> rename_i hk <;> try rw [hk] at hd; cases hd
      exact ⟨fun h => absurd h Bool.false_ne_true, fun _ => rfl⟩

/-- A definition whose body calls it: `d = -d()`, and a reference to it. -/
def selfCall : Compilation :=
  { Compilation.new with
    arena :=
      { exprs := #[.new (.call ⟨9⟩ []) .int .origin, .new (.call ⟨7⟩ [⟨0⟩]) .int .origin,
          .new (.reference ⟨9⟩) .int .origin]
        defs := Builtins.definitions.toArray.push ⟨"d", .expression ⟨1⟩, some .int, none, .origin⟩
        stmts := #[]
        roots := [] } }

theorem upright_selfCall : selfCall.Upright where
  children := Arena.forall_children (by decide)
  uses := Arena.forall_expr
    (p := fun e => ∀ d ∈ e.kind.definition?, d.index < selfCall.arena.defs.size) (by decide) nofun
  builtins name d hd := (Builtins.lt_of_mem_positions hd).trans_le (by decide)
  acyclic := Arena.acyclic_of_lt (by decide)

/-- A reference elsewhere is replaced by a copy of the whole body. -/
theorem substitute_selfCall_transplants :
    selfCall.Upright ∧ ∃ c', substitute {} ⟨2⟩ selfCall = .ok true c' ∧
      selfCall.Transplanted ⟨2⟩ ⟨9⟩ ⟨1⟩ c' ∧ (c'.arena.expr ⟨2⟩).kind = .call ⟨7⟩ [⟨3⟩] ∧
      (c'.arena.expr ⟨3⟩).kind = .call ⟨9⟩ [] := by
  refine ⟨upright_selfCall, _, rfl, ?_, rfl, rfl⟩
  obtain ⟨d, b, h⟩ := ((substitute_transplants {} ⟨2⟩ upright_selfCall).of_ok rfl).1 rfl
  obtain rfl : ⟨9⟩ = d := by
    rcases h.use with hk | hk <;> cases hk
    rfl
  obtain rfl : ⟨1⟩ = b := by
    cases h.body
    rfl
  exact h

/-- **A call in the body of its own callee** is replaced by a copy of the body in which the call
became a reference. -/
theorem substitute_not_holdsCopy :
    selfCall.Upright ∧ (selfCall.arena.definition ⟨9⟩).body = .expression ⟨1⟩ ∧
      ∃ c', substitute {} ⟨0⟩ selfCall = .ok true c' ∧
        ¬ selfCall.arena.HoldsCopy ⟨1⟩ c'.arena ⟨0⟩ := by
  refine ⟨upright_selfCall, rfl, _, rfl, fun h => ?_⟩
  have hbelow : selfCall.arena.Replicas _ [⟨0⟩] [⟨3⟩] := h.below
  cases hbelow with
  | cons hroot =>
    have hkind : (ExprKind.call ⟨9⟩ []).Resembles (.reference ⟨9⟩) := hroot.kind
    cases hkind

end Termwise
