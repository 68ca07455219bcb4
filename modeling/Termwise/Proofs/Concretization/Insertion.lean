import Termwise.Proofs.Concretization.CopiedTrees

/-!
# Nodes put in between

A program that has a few more nodes than another one does not look the same to the passes: what is
appended later has other positions. But positions are only names. If the additional nodes stand
behind all that the program had and nothing leads to them, then every node of the smaller program
has its counterpart, with what lies below it moved alike, and this is kept up as both programs are
changed and copied in the same way.

## Main definitions

* `Insertion`: some nodes, and where they were put in
* `Arena.Inserted`, `Compilation.Inserted`: a program with and without them

## Main results

* `Compilation.Inserted.modifyExpr`: the same change in both
* `Compilation.Inserted.replace`: the same copy in both
-/

namespace Termwise

open Compilation

/-! ## Moved nodes -/

/-- **Some nodes that were put in**: `gap` many of them at `start`. -/
structure Insertion where
  start : Nat
  gap : Nat
  added : ExprId → Expression

/-- Where a node stands once they were put in. -/
def Insertion.move (I : Insertion) (n : ExprId) : ExprId :=
  if n.index < I.start then n else ⟨n.index + I.gap⟩

/-- A kind with what lies below it moved. -/
def ExprKind.relocate (f : ExprId → ExprId) : ExprKind → ExprKind
  | .run ts => .run (ts.map f)
  | .call d args => .call d (args.map f)
  | .negated n => .negated (f n)
  | k => k

/-- An expression with what lies below it moved. -/
def Expression.relocate (f : ExprId → ExprId) (e : Expression) : Expression :=
  { e with kind := e.kind.relocate f }

namespace Insertion

variable {I : Insertion} {n m : ExprId}

theorem move_of_lt (h : n.index < I.start) : I.move n = n := if_pos h

theorem move_of_le (h : I.start ≤ n.index) : I.move n = ⟨n.index + I.gap⟩ :=
  if_neg (Nat.not_lt.2 h)

theorem move_injective : Function.Injective I.move := by
  intro n m h
  unfold move at h
  split at h <;> split at h <;> simp only [ExprId.ext_iff] at h ⊢ <;> omega

/-- Nothing is moved to where the nodes were put in. -/
theorem index_move (n : ExprId) :
    (I.move n).index < I.start ∨ I.start + I.gap ≤ (I.move n).index := by
  unfold move
  split
  · exact .inl ‹_›
  · exact .inr (by simp only; omega)

/-- Nodes stay in front of a position that is moved along. -/
theorem index_move_lt_iff {bound : Nat} (h : I.start ≤ bound) :
    (I.move n).index < bound + I.gap ↔ n.index < bound := by
  unfold move
  split
  · omega
  · simp only
    omega

end Insertion

namespace ExprKind

variable (f : ExprId → ExprId) (k : ExprKind)

@[simp] theorem children_relocate : (k.relocate f).children = k.children.map f := by
  cases k <;> rfl

@[simp] theorem isMissingArg_relocate : (k.relocate f).isMissingArg = k.isMissingArg := by
  cases k <;> rfl

@[simp] theorem isValue_relocate : (k.relocate f).isValue = k.isValue := by
  cases k <;> rfl

@[simp] theorem isSubstitutable_relocate : (k.relocate f).isSubstitutable = k.isSubstitutable := by
  cases k <;> rfl

/-- A kind with nothing below it stays as it is. -/
theorem relocate_eq_self {k : ExprKind} (h : ∀ n ∈ k.children, f n = n) : k.relocate f = k := by
  cases k with
  | run ts => exact congrArg run ((List.map_congr_left h).trans (List.map_id _))
  | call d args => exact congrArg (call d) ((List.map_congr_left h).trans (List.map_id _))
  | negated n => simp only [relocate, h n (List.mem_singleton_self n)]
  | _ => rfl

end ExprKind

namespace Expression

variable (f : ExprId → ExprId) (e : Expression)

@[simp] theorem kind_relocate : (e.relocate f).kind = e.kind.relocate f := rfl

@[simp] theorem ty_relocate : (e.relocate f).ty = e.ty := rfl

@[simp] theorem declared_relocate : (e.relocate f).declared = e.declared := rfl

@[simp] theorem span_relocate : (e.relocate f).span = e.span := rfl

@[simp] theorem value?_relocate : (e.relocate f).value? = e.value? := by
  unfold value?
  rw [kind_relocate]
  cases e.kind <;> rfl

theorem converted?_relocate (source : Builtin) (target : Ty) :
    (e.relocate f).converted? source target = (e.converted? source target).map (relocate f) := by
  rw [converted?.eq_def, converted?.eq_def, value?_relocate]
  cases target with
  | builtin b =>
    cases e.value? with
    | none => rfl
    | some v =>
      simp only [Option.map_map]
      rfl
  | named | function => rfl

/-- A cast looks at no node below. -/
theorem cast?_relocate (source target : Ty) :
    (e.relocate f).cast? source target = (e.cast? source target).map (relocate f) := by
  rw [cast?_eq, cast?_eq]
  split
  · rfl
  · split
    · rfl
    · cases source with
      | builtin b => exact converted?_relocate f e b target
      | named | function => rfl

theorem settle?_relocate (source : Ty) :
    (e.relocate f).settle? source = (e.settle? source).map (relocate f) := by
  rw [settle?_eq, settle?_eq]
  rw [value?_relocate]
  split
  iterate 5 rfl
  · cases e.value? with
    | none => rfl
    | some v =>
      simp only [Option.bind_some, Option.map_map]
      rfl
  · cases e.value? with
    | none => rfl
    | some v =>
      simp only [Option.bind_some, Option.map_map]
      rfl
  · rfl

/-- Whether an argument is accepted does not depend on where the nodes below it are. -/
theorem coerce_relocate (param : Ty) :
    (e.relocate f).coerce param = (e.coerce param).map (relocate f) := by
  have hcast := cast?_relocate f e e.ty param
  rw [coerce_eq, coerce_eq]
  rcases e with ⟨k, ty, declared, span⟩
  simp only [relocate] at hcast
  simp only [relocate, ExprKind.isMissingArg_relocate, ExprKind.isValue_relocate, hcast]
  split_ifs <;> try rfl
  · exact congrArg Except.ok (if_pos ‹_›)
  · exact congrArg Except.ok (if_neg ‹_›)
  · cases cast? ⟨k, ty, declared, span⟩ ty param <;> rfl

theorem relocate_eq_self {e : Expression} (h : ∀ n ∈ e.kind.children, f n = n) :
    e.relocate f = e := by
  unfold relocate
  rw [ExprKind.relocate_eq_self f h]

end Expression

/-! ## Tables -/

/-- **Two tables**, without the nodes and with them. -/
structure Arena.Inserted (I : Insertion) (a a' : Arena) : Prop where
  start : I.start ≤ a.exprs.size
  size : a'.exprs.size = a.exprs.size + I.gap
  expr : ∀ n, a'.expr (I.move n) = (a.expr n).relocate I.move
  added : ∀ m : ExprId, I.start ≤ m.index → m.index < I.start + I.gap → a'.expr m = I.added m

namespace Arena.Inserted

variable {I : Insertion} {a a' : Arena} {n id : ExprId} {depth depth' : Nat}

theorem index_move_lt (h : Arena.Inserted I a a') :
    (I.move n).index < a'.exprs.size ↔ n.index < a.exprs.size := by
  rw [h.size]
  exact Insertion.index_move_lt_iff h.start

/-- No path below a counterpart is longer. -/
theorem shallow (h : Arena.Inserted I a a') (hs : a.Shallow (fun _ => True) depth n) :
    a'.Shallow (fun _ => True) depth (I.move n) := by
  induction depth generalizing n with
  | zero => exact hs.elim
  | succ depth ih =>
    obtain ⟨hlt, -, hbelow⟩ := hs
    refine ⟨h.index_move_lt.2 hlt, trivial, fun m hm => ?_⟩
    rw [h.expr, Expression.kind_relocate, ExprKind.children_relocate] at hm
    obtain ⟨m, hmem, rfl⟩ := List.mem_map.1 hm
    exact ih (hbelow m hmem)

/-- The same node is appended to both. -/
theorem allocExpr (h : Arena.Inserted I a a') (e : Expression) :
    (a'.allocExpr (e.relocate I.move)).1 = I.move (a.allocExpr e).1 ∧
      Arena.Inserted I (a.allocExpr e).2 (a'.allocExpr (e.relocate I.move)).2 := by
  have hid : (a'.allocExpr (e.relocate I.move)).1 = I.move (a.allocExpr e).1 := by
    have hmove := I.move_of_le (n := (a.allocExpr e).1) h.start
    rw [hmove]
    exact ExprId.ext h.size
  refine ⟨hid, ?_, ?_, ?_, ?_⟩
  · rw [size_allocExpr]
    exact h.start.trans (Nat.le_succ _)
  · rw [size_allocExpr, size_allocExpr, h.size]
    omega
  · intro n
    have hle := h.start
    rcases lt_trichotomy n.index a.exprs.size with hlt | heq | hgt
    · rw [expr_allocExpr_of_lt hlt, expr_allocExpr_of_lt (h.index_move_lt.2 hlt), h.expr]
    · obtain rfl : n = (a.allocExpr e).1 := ExprId.ext heq
      rw [← hid, expr_allocExpr_self, expr_allocExpr_self]
    · rw [expr_of_size_le (n := I.move n), expr_of_size_le (n := n)]
      · rfl
      · rw [size_allocExpr]
        exact hgt
      · rw [size_allocExpr, h.size, I.move_of_le (hle.trans hgt.le)]
        simp only
        omega
  · intro m hm hm'
    have hle := h.start
    rw [expr_allocExpr_of_lt (by rw [h.size]; omega)]
    exact h.added m hm hm'

/-- **The same change** of a node and of its counterpart. -/
theorem modifyExpr (h : Arena.Inserted I a a') {f g : Expression → Expression}
    (hfg : g ((a.expr id).relocate I.move) = (f (a.expr id)).relocate I.move) :
    Arena.Inserted I (a.modifyExpr id f) (a'.modifyExpr (I.move id) g) where
  start := by simpa using h.start
  size := by simpa using h.size
  expr n := by
    simp only [expr_modifyExpr, h.index_move_lt, I.move_injective.eq_iff, h.expr]
    split
    · rename_i hn
      rw [hn.1, hfg]
    · rfl
  added m hm hm' := by
    rw [expr_modifyExpr_of_ne, h.added m hm hm']
    rintro rfl
    rcases I.index_move id with hlt | hle
    · omega
    · omega

/-- Trees are copied one after the other in both. -/
theorem copyEach {P : Expression → Prop} {copy copy' : ExprId → StateM Arena Expression}
    (hcopy : ∀ id (a a' : Arena), a.Shallow P depth id → Arena.Inserted I a a' →
      (copy' (I.move id) a').1 = (copy id a).1.relocate I.move ∧
        Arena.Inserted I (copy id a).2 (copy' (I.move id) a').2 ∧ a.Appends (copy id a).2)
    (ids : List ExprId) (hids : ∀ n ∈ ids, a.Shallow P depth n) (h : Arena.Inserted I a a') :
    (Arena.copyEach copy' (ids.map I.move) a').1 = (Arena.copyEach copy ids a).1.map I.move ∧
      Arena.Inserted I (Arena.copyEach copy ids a).2 (Arena.copyEach copy' (ids.map I.move) a').2 ∧
      a.Appends (Arena.copyEach copy ids a).2 := by
  induction ids generalizing a a' with
  | nil => exact ⟨rfl, h, .refl a⟩
  | cons id ids ih =>
    obtain ⟨hid, hids⟩ := List.forall_mem_cons.1 hids
    obtain ⟨hroot, hcopied, happends⟩ := hcopy id a a' hid h
    obtain ⟨hroot', hallocated⟩ := hcopied.allocExpr (copy id a).1
    have happends := happends.trans (appends_allocExpr _ (copy id a).1)
    obtain ⟨hrest, hcopied', happends'⟩ := ih (fun n hn => happends.shallow (hids n hn)) hallocated
    rw [List.map_cons, copyEach_cons, copyEach_cons]
    simp only [hroot, hroot', List.map_cons]
    exact ⟨congrArg _ hrest, hcopied', happends.trans happends'⟩

/-- **A tree is copied** in both, provided that the descent is deep enough for it. -/
theorem copyWithin {P : Expression → Prop} (hs : a.Shallow P depth id) (hle : depth ≤ depth')
    (h : Arena.Inserted I a a') :
    (Arena.copyWithin depth' (I.move id) a').1 =
        (Arena.copyWithin depth id a).1.relocate I.move ∧
      Arena.Inserted I (Arena.copyWithin depth id a).2
        (Arena.copyWithin depth' (I.move id) a').2 ∧
      a.Appends (Arena.copyWithin depth id a).2 := by
  induction depth generalizing depth' id a a' with
  | zero => exact hs.elim
  | succ depth ih =>
    obtain ⟨depth', rfl⟩ := Nat.exists_eq_add_one.2 (Nat.zero_lt_of_lt hle)
    obtain ⟨-, -, hchildren⟩ := hs
    have hchild : ∀ id (a a' : Arena), a.Shallow P depth id → Arena.Inserted I a a' → _ :=
      fun id a a' hs h => ih hs (Nat.le_of_succ_le_succ hle) h
    -- The kinds are the same up to the shift, so both copies go the same way.
    have hkind := congrArg Expression.kind (h.expr id)
    rw [Expression.kind_relocate] at hkind
    rw [copyWithin_succ, copyWithin_succ, hkind]
    cases hk : (a.expr id).kind with
    | call d args =>
      rw [hk] at hchildren
      obtain ⟨hargs, hcopied, happends⟩ := copyEach hchild args hchildren h
      refine ⟨?_, hcopied, happends⟩
      simp only [ExprKind.relocate, h.expr, hargs]
      rfl
    | run ts =>
      rw [hk] at hchildren
      obtain ⟨hts, hcopied, happends⟩ := copyEach hchild ts hchildren h
      refine ⟨?_, hcopied, happends⟩
      simp only [ExprKind.relocate, h.expr, hts]
      rfl
    | negated x =>
      rw [hk] at hchildren
      obtain ⟨hx, hcopied, happends⟩ := hchild x a a' (hchildren x (List.mem_singleton_self x)) h
      obtain ⟨hx', hallocated⟩ := hcopied.allocExpr (Arena.copyWithin depth x a).1
      refine ⟨?_, ?_, happends.trans (appends_allocExpr _ _)⟩
      · simp only [ExprKind.relocate, h.expr, hx, hx']
        rfl
      · simp only [ExprKind.relocate, hx]
        exact hallocated
    | _ => exact ⟨h.expr id, h, .refl a⟩

end Arena.Inserted

/-! ## Trees put at the place of a node -/

namespace Arena

variable {P : Expression → Prop} {a a' : Arena} {root : Expression} {xs : List ExprId}
  {id n : ExprId}

/-- A copy only appends nodes. -/
theorem appends_copy (a : Arena) (id : ExprId) : a.Appends (a.copy id).2 := by
  have hall : a.Encloses Set.univ fun _ => True :=
    ⟨fun _ _ _ _ => trivial, fun _ _ => trivial, fun _ _ => trivial⟩
  exact (copyWithin_encloses (fun _ _ _ _ => trivial) _ id a hall trivial).appends

namespace Sprouts

/-- Besides the fresh nodes and the one whose place was taken, all nodes stay. -/
theorem expr_replaceExpr (h : a.Sprouts P a' root.kind.children xs) (id n : ExprId) :
    n ∈ xs ∨ n = id ∨ (a'.replaceExpr id root).expr n = a.expr n := by
  by_cases hn : n = id
  · exact .inr (.inl hn)
  · have hother : (a'.replaceExpr id root).expr n = a'.expr n := expr_modifyExpr_of_ne hn _
    rcases Nat.lt_or_ge n.index a.exprs.size with hold | hge
    · exact .inr (.inr (hother.trans (h.expr n hold)))
    · by_cases hnew : n.index < a'.exprs.size
      · exact .inl ((h.mem n).2 ⟨hge, hnew⟩)
      · refine .inr (.inr ?_)
        rw [hother, expr_of_size_le hge, expr_of_size_le (Nat.le_of_not_lt hnew)]

/-- Only fresh nodes lie below the fresh ones and below the one whose place was taken. -/
theorem children_replaceExpr (h : a.Sprouts P a' root.kind.children xs)
    (hid : id.index < a.exprs.size) (hn : n ∈ xs ∨ n = id) :
    ((a'.replaceExpr id root).expr n).kind.children ⊆ xs := by
  by_cases heq : n = id
  · subst heq
    rw [replaceExpr, expr_modifyExpr_self (hid.trans_le h.size)]
    exact h.forest.subset
  · rw [replaceExpr, expr_modifyExpr_of_ne heq]
    exact h.forest.children_subset (hn.resolve_right heq)

/-- **There is still no cycle.** -/
theorem acyclic (h : a.Sprouts P a' root.kind.children xs) (hid : id.index < a.exprs.size)
    (ha : a.Acyclic) : (a'.replaceExpr id root).Acyclic := by
  -- The fresh nodes first, then the nodes above them.
  have hfresh (n : ExprId) (hn : n ∈ xs) :
      Acc (fun m n => m ∈ ((a'.replaceExpr id root).expr n).kind.children) n := by
    induction h.forest.acc n hn with
    | intro n _ ih =>
      have hne : n ≠ id := by
        rintro rfl
        exact Nat.not_le.2 hid ((h.mem n).1 hn).1
      constructor
      intro m hm
      have hmem := h.children_replaceExpr hid (.inl hn) hm
      rw [replaceExpr, expr_modifyExpr_of_ne hne] at hm
      exact ih m hm hmem
  constructor
  intro n
  induction ha.apply n with
  | intro n _ ih =>
    constructor
    intro m hm
    rcases h.expr_replaceExpr id n with hn | hn | hn
    · exact hfresh m (h.children_replaceExpr hid (.inl hn) hm)
    · exact hfresh m (h.children_replaceExpr hid (.inr hn) hm)
    · rw [hn] at hm
      exact ih m hm

end Sprouts

end Arena

/-! ## Programs -/

namespace Compilation

variable {I : Insertion} {c c' k k' : Compilation} {n id b : ExprId} {d : DefId} {start : Nat}

/-- **A program that stands on its first nodes**: its definitions and statements lead to these only,
no node lies below itself, and none leads out of the table. -/
structure Grounded (c : Compilation) (start : Nat) : Prop where
  inBounds : ∀ n, ∀ m ∈ (c.arena.expr n).kind.children, m.index < c.arena.exprs.size
  acyclic : c.arena.Acyclic
  bodies : ∀ d b, (c.arena.definition d).body = .expression b → b.index < start
  shown : ∀ s e, (c.arena.stmt s).kind = .expression e ∨ (c.arena.stmt s).kind = .result e →
    e.index < start

/-- **Two programs**, without the nodes and with them. -/
structure Inserted (I : Insertion) (c k : Compilation) : Prop where
  program : c.SameProgram k
  arena : Arena.Inserted I c.arena k.arena
  grounded : c.Grounded I.start

/-- **The program stays**, and so does what lies below a node, unless it was nothing: then it is
new. -/
structure Branches (c c' : Compilation) : Prop extends SameProgram c c' where
  size : c.arena.exprs.size ≤ c'.arena.exprs.size
  children : ∀ n, (c'.arena.expr n).kind.children = (c.arena.expr n).kind.children ∨
    (c.arena.expr n).kind.children = [] ∧
      ∀ m ∈ (c'.arena.expr n).kind.children, c.arena.exprs.size ≤ m.index

theorem Branches.refl (c : Compilation) : c.Branches c := ⟨.refl c, le_rfl, fun _ => .inl rfl⟩

theorem Branches.trans {c'' : Compilation} (h : c.Branches c') (h' : c'.Branches c'') :
    c.Branches c'' where
  toSameProgram := h.toSameProgram.trans h'.toSameProgram
  size := h.size.trans h'.size
  children n := by
    rcases h.children n with hsame | ⟨hnil, hnew⟩
    · rcases h'.children n with hsame' | ⟨hnil', hnew'⟩
      · exact .inl (hsame'.trans hsame)
      · exact .inr ⟨hsame.symm.trans hnil', fun m hm => h.size.trans (hnew' m hm)⟩
    · rcases h'.children n with hsame' | ⟨-, hnew'⟩
      · exact .inr ⟨hnil, hsame' ▸ hnew⟩
      · exact .inr ⟨hnil, fun m hm => h.size.trans (hnew' m hm)⟩

/-- What lay below a node is still there. -/
theorem Branches.children_eq (h : c.Branches c') (hn : (c.arena.expr n).kind.children ≠ []) :
    (c'.arena.expr n).kind.children = (c.arena.expr n).kind.children :=
  (h.children n).resolve_right fun hnew => hn hnew.1

/-- An old node below another one has always been there. -/
theorem Branches.mem_children (h : c.Branches c') (hm : m ∈ (c'.arena.expr n).kind.children)
    (hlt : m.index < c.arena.exprs.size) : m ∈ (c.arena.expr n).kind.children := by
  rcases h.children n with hsame | ⟨-, hnew⟩
  · exact hsame ▸ hm
  · exact absurd (hnew m hm) (Nat.not_le.2 hlt)

theorem branches_of_children (h : c.SameProgram c')
    (hsize : c'.arena.exprs.size = c.arena.exprs.size)
    (hchildren : ∀ n, (c'.arena.expr n).kind.children = (c.arena.expr n).kind.children) :
    c.Branches c' := ⟨h, hsize.ge, fun n => .inl (hchildren n)⟩

/-- A change that keeps what lies below the node. -/
theorem children_modifyExpr {f : Expression → Expression}
    (h : (f (c.arena.expr id)).kind.children = (c.arena.expr id).kind.children) (n : ExprId) :
    ((c.modifyArena (·.modifyExpr id f)).arena.expr n).kind.children =
      (c.arena.expr n).kind.children := by
  simp only [modifyArena, Arena.expr_modifyExpr]
  split
  · rename_i hn
    rw [hn.1, h]
  · rfl

namespace Grounded

/-- The descents go as deep as the tree of any node. -/
theorem shallow (h : c.Grounded start) (hn : n.index < c.arena.exprs.size) :
    c.arena.Shallow (fun _ => True) c.arena.exprs.size n := by
  refine Arena.shallow_size (h.acyclic.apply n) fun m hm => ⟨?_, trivial⟩
  rcases hm.cases_tail with rfl | ⟨p, -, hm⟩
  · exact hn
  · exact h.inBounds p m hm

theorem of_children (h : c.Grounded start) (hsame : c.SameProgram c')
    (hsize : c'.arena.exprs.size = c.arena.exprs.size)
    (hchildren : ∀ n, (c'.arena.expr n).kind.children = (c.arena.expr n).kind.children) :
    c'.Grounded start where
  inBounds n m hm := by
    rw [hchildren] at hm
    rw [hsize]
    exact h.inBounds n m hm
  acyclic := by
    unfold Arena.Acyclic
    simp only [hchildren]
    exact h.acyclic
  bodies d b hb := h.bodies d b (by rwa [← hsame.definition])
  shown s e hs := h.shown s e (by rwa [← hsame.stmt])

/-- A tree can be copied: the copy is a forest of new nodes. -/
theorem exists_sprouts (h : c.Grounded start) (hb : b.index < c.arena.exprs.size) :
    ∃ xs, c.arena.Sprouts (fun _ => True) (c.arena.copy b).2 (c.arena.copy b).1.kind.children
      xs := by
  obtain ⟨-, xs, hsprouts⟩ := Arena.copyWithin_sprouts (P := fun _ => True)
    (fun _ _ _ _ _ => trivial) c.arena.exprs.size b c.arena (h.shallow hb)
  exact ⟨xs, hsprouts⟩

/-- A tree is put at the place of a node that had nothing below it. -/
theorem replace (h : c.Grounded start) (hb : b.index < c.arena.exprs.size)
    (hid : id.index < c.arena.exprs.size) :
    (c.modifyArena fun a => (a.copy b).2.replaceExpr id (a.copy b).1).Grounded start := by
  obtain ⟨xs, hsprouts⟩ := h.exists_sprouts hb
  have hsame : c.SameProgram
      (c.modifyArena fun a => (a.copy b).2.replaceExpr id (a.copy b).1) :=
    ⟨rfl, hsprouts.defs, hsprouts.stmts, hsprouts.roots⟩
  refine ⟨fun n m hm => ?_, hsprouts.acyclic hid h.acyclic, fun d b' hb' => ?_,
    fun s e hs => ?_⟩
  · have hsize : (c.arena.copy b).2.exprs.size =
        ((c.arena.copy b).2.replaceExpr id (c.arena.copy b).1).exprs.size :=
      (Arena.size_modifyExpr ..).symm
    have hin (hm : m ∈ xs) : m.index < ((c.arena.copy b).2.replaceExpr id _).exprs.size :=
      hsize ▸ ((hsprouts.mem m).1 hm).2
    rcases hsprouts.expr_replaceExpr id n with hn | hn | hn
    · exact hin (hsprouts.children_replaceExpr hid (.inl hn) hm)
    · exact hin (hsprouts.children_replaceExpr hid (.inr hn) hm)
    · have hm : m ∈ (c.arena.expr n).kind.children := hn ▸ hm
      exact (h.inBounds n m hm).trans_le (hsprouts.size.trans hsize.le)
  · rw [hsame.definition] at hb'
    exact h.bodies d b' hb'
  · rw [hsame.stmt] at hs
    exact h.shown s e hs

theorem branches_replace (h : c.Grounded start) (hb : b.index < c.arena.exprs.size)
    (hid : id.index < c.arena.exprs.size) (hleaf : (c.arena.expr id).kind.children = []) :
    c.Branches (c.modifyArena fun a => (a.copy b).2.replaceExpr id (a.copy b).1) := by
  obtain ⟨xs, hsprouts⟩ := h.exists_sprouts hb
  refine ⟨⟨rfl, hsprouts.defs, hsprouts.stmts, hsprouts.roots⟩, ?_, fun n => ?_⟩
  · exact hsprouts.size.trans (Arena.size_modifyExpr ..).ge
  · have hnew (hn : n ∈ xs ∨ n = id) (m : ExprId)
        (hm : m ∈ (((c.arena.copy b).2.replaceExpr id (c.arena.copy b).1).expr n).kind.children) :
        c.arena.exprs.size ≤ m.index :=
      ((hsprouts.mem m).1 (hsprouts.children_replaceExpr hid hn hm)).1
    rcases hsprouts.expr_replaceExpr id n with hn | rfl | hn
    · refine .inr ⟨?_, hnew (.inl hn)⟩
      rw [Arena.expr_of_size_le ((hsprouts.mem n).1 hn).1]
      rfl
    · exact .inr ⟨hleaf, hnew (.inr rfl)⟩
    · exact .inl (congrArg (·.kind.children) hn)

end Grounded

namespace Inserted

theorem index_body (h : Inserted I c k) (hb : (c.arena.definition d).body = .expression b) :
    I.move b = b := I.move_of_lt (h.grounded.bodies d b hb)

theorem definition (h : Inserted I c k) (d : DefId) : k.arena.definition d = c.arena.definition d :=
  h.program.definition d

/-- Definitions have the same types in both programs. -/
theorem definitionType (h : Inserted I c k) (d : DefId) :
    k.arena.definitionType d = c.arena.definitionType d := by
  simp only [Arena.definitionType, h.definition]
  split
  · rfl
  · rename_i b _ hb
    have hty := congrArg Expression.ty (h.arena.expr b)
    rwa [h.index_body hb] at hty
  · rfl

theorem isMissing (h : Inserted I c k) (n : ExprId) :
    k.arena.isMissing (I.move n) = c.arena.isMissing n := by
  simp only [Arena.isMissing, h.arena.expr, Expression.kind_relocate,
    ExprKind.isMissingArg_relocate]

theorem isPartialCall (h : Inserted I c k) (n : ExprId) :
    k.arena.isPartialCall (I.move n) = c.arena.isPartialCall n := by
  simp only [Arena.isPartialCall, h.arena.expr, Expression.kind_relocate]
  cases (c.arena.expr n).kind with
  | call d args =>
    simp only [ExprKind.relocate, List.length_map, List.any_map, h.definitionType]
    congr 2
    funext m
    exact h.isMissing m
  | _ => rfl

/-- The negation that suits an operand is the same in both programs. -/
theorem negationFor (h : Inserted I c k) (n : ExprId) :
    k.negationFor (I.move n) = c.negationFor n := by
  simp only [Compilation.negationFor, h.arena.expr, Expression.kind_relocate,
    Expression.ty_relocate, h.program.builtins]
  generalize (c.arena.expr n).ty = ty
  -- Only a value is looked at, and this stays as it is.
  cases (c.arena.expr n).kind <;> cases ty with
  | builtin b => cases b <;> rfl
  | _ => rfl

theorem floatCallee? (h : Inserted I c k) (d : DefId) : k.floatCallee? d = c.floatCallee? d := by
  simp only [Compilation.floatCallee?, h.program.builtins, h.definitionType]

theorem followers (h : Inserted I c k) (d : DefId) (args : List ExprId) :
    k.followers d (args.map I.move) = (c.followers d args).map I.move := by
  simp only [Compilation.followers, followsCall, h.program.builtins, h.definitionType,
    List.zip_map_left, List.filter_map, List.map_map]
  rfl

/-- **The same change** of a node and of its counterpart. -/
theorem modifyExpr (h : Inserted I c k) {f g : Expression → Expression}
    (hfg : g ((c.arena.expr id).relocate I.move) = (f (c.arena.expr id)).relocate I.move)
    (hchildren : (f (c.arena.expr id)).kind.children = (c.arena.expr id).kind.children) :
    Inserted I (c.modifyArena (·.modifyExpr id f)) (k.modifyArena (·.modifyExpr (I.move id) g)) where
  program := ⟨h.program.builtins, h.program.defs, h.program.stmts, h.program.roots⟩
  arena := h.arena.modifyExpr hfg
  grounded := h.grounded.of_children ⟨rfl, rfl, rfl, rfl⟩ (Arena.size_modifyExpr ..)
    (children_modifyExpr hchildren)

theorem of_arena_eq (h : Inserted I c k) (hc : c'.arena = c.arena)
    (hbuiltins : c'.builtins = c.builtins) (hk : k'.arena = k.arena)
    (hbuiltins' : k'.builtins = k.builtins) : Inserted I c' k' where
  program := ⟨hbuiltins'.trans (h.program.builtins.trans hbuiltins.symm),
    by rw [hc, hk, h.program.defs], by rw [hc, hk, h.program.stmts],
    by rw [hc, hk, h.program.roots]⟩
  arena := by rw [hc, hk]; exact h.arena
  grounded := h.grounded.of_children
    ⟨hbuiltins, by rw [hc], by rw [hc], by rw [hc]⟩ (by rw [hc]) fun n => by rw [hc]

/-- **A body has a copy** in both. -/
theorem copy_ne_none (h : Inserted I c k) (hb : (c.arena.definition d).body = .expression b) :
    c.arena.copy? b ≠ none ∧ k.arena.copy? b ≠ none := by
  have hlt := (h.grounded.bodies d b hb).trans_le h.arena.start
  have hshallow := h.arena.shallow (h.grounded.shallow hlt)
  rw [h.index_body hb] at hshallow
  exact ⟨(h.grounded.shallow hlt).copy_ne_none,
    (hshallow.mono (h.arena.size ▸ Nat.le_add_right _ _)).copy_ne_none⟩

/-- **The same copy** takes the place of a node and of its counterpart. -/
theorem replace (h : Inserted I c k) (hb : (c.arena.definition d).body = .expression b)
    (hid : id.index < c.arena.exprs.size) :
    Inserted I (c.modifyArena fun a => (a.copy b).2.replaceExpr id (a.copy b).1)
      (k.modifyArena fun a => (a.copy b).2.replaceExpr (I.move id) (a.copy b).1) := by
  have hlt := (h.grounded.bodies d b hb).trans_le h.arena.start
  obtain ⟨hroot, hcopied, happends⟩ := h.arena.copyWithin (h.grounded.shallow hlt)
    (h.arena.size ▸ Nat.le_add_right _ _ : c.arena.exprs.size ≤ k.arena.exprs.size)
  rw [h.index_body hb] at hroot hcopied
  have happends' := k.arena.appends_copy b
  refine ⟨⟨h.program.builtins, ?_, ?_, ?_⟩, ?_, h.grounded.replace hlt hid⟩
  · exact happends'.defs.trans (h.program.defs.trans happends.defs.symm)
  · exact happends'.stmts.trans (h.program.stmts.trans happends.stmts.symm)
  · exact happends'.roots.trans (h.program.roots.trans happends.roots.symm)
  · refine hcopied.modifyExpr ?_
    rw [show (k.arena.copy b).1 = _ from hroot]
    rfl

end Inserted

end Compilation

end Termwise
