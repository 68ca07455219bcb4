import Mathlib.Data.List.FinRange
import Mathlib.Data.Set.Card
import Mathlib.Order.WellFoundedSet
import Termwise.Proofs.Concretization.CopiedTrees
import Termwise.Proofs.Run.Queue

/-!
# Trees read from the root down

The walk over a tree keeps the open nodes on a stack. What it does is best said of a tree that lies
on top of the stack: whatever lies under it, the tree is read whole before the rest is touched, in
one step for every node that is read. So the stack holds the trees that are still to be read, and
without a cycle the walk ends from every stack.

Nodes may be shared, so a walk takes one step for every path and not one for every node. A path
names children by their positions; the walk follows all paths from a node in lexicographic order,
in which a path comes before those that go on from it.

## Main definitions

* `Arena.preorder`: a tree read from the root down, by recursion
* `Arena.ReadsAs`: what is read when a tree lies on top of the stack
* `Arena.follow`: the node that a path leads to
* `Arena.Charts`: all paths from a node, in order, and the nodes that they lead to

## Main results

* `Arena.reachable_eq_preorder`: the walk reads a tree as the recursion does
* `Arena.InBounds.walk_eq`: the walk ends from every stack, with the trees on it in turn
* `Arena.InBounds.exists_charts`: the walk follows the paths in lexicographic order
* `Arena.reachable_preorder`: a tree is read from the root down, each node once for every path
-/

namespace Termwise.Arena

variable {a : Arena} {id n : ExprId} {ids nodes nodes' : List ExprId} {paths : List (List Nat)}
  {depth : Nat} {read : ExprId → List ExprId} {below : ExprId → List (List Nat)}

/-! ## The stack -/

theorem walk_empty (steps : Nat) (seen : Array ExprId) : a.walk steps seen #[] = some seen := by
  rw [walk.eq_def, Array.back?_empty]

/-- One step: the top of the stack is seen, and its children take its place. -/
theorem walk_push (steps : Nat) (seen openNodes : Array ExprId) :
    a.walk (steps + 1) seen (openNodes.push id) =
      a.walk steps (seen.push id) (openNodes ++ (a.children id).reverse) := by
  rw [walk.eq_def, Array.back?_push, Array.pop_push]

/-- **On top of the stack, a tree is read as** a list of nodes, in one step for each of them, before
anything that lies under it is touched. -/
def ReadsAs (a : Arena) (id : ExprId) (nodes : List ExprId) : Prop :=
  ∀ steps seen openNodes, a.walk (nodes.length + steps) seen (openNodes.push id) =
    a.walk steps (seen ++ nodes) openNodes

/-- What is opened in reverse is read in order. -/
theorem walk_append_reverse (h : ∀ n ∈ ids, a.ReadsAs n (read n)) (steps : Nat)
    (seen openNodes : Array ExprId) :
    a.walk ((ids.flatMap read).length + steps) seen (openNodes ++ ids.reverse) =
      a.walk steps (seen ++ ids.flatMap read) openNodes := by
  induction ids generalizing seen with
  | nil => simp
  | cons n ids ih =>
    rw [List.forall_mem_cons] at h
    -- The first of the nodes was pushed last.
    have hopen : openNodes ++ (n :: ids).reverse = (openNodes ++ ids.reverse).push n :=
      Array.ext' (by simp)
    have hseen : seen ++ (n :: ids).flatMap read = seen ++ read n ++ ids.flatMap read :=
      Array.ext' (by simp)
    rw [hopen, hseen, List.flatMap_cons, List.length_append, Nat.add_assoc, h.1, ih h.2]

/-- A node is read before the trees of its children. -/
theorem ReadsAs.node (h : ∀ n ∈ a.children id, a.ReadsAs n (read n)) :
    a.ReadsAs id (id :: (a.children id).flatMap read) := by
  intro steps seen openNodes
  have hseen : seen ++ (id :: (a.children id).flatMap read) =
      seen.push id ++ (a.children id).flatMap read := Array.ext' (by simp)
  rw [List.length_cons, Nat.add_right_comm, walk_push, walk_append_reverse h, hseen]

/-- A tree that lies alone on the stack is all that is read. -/
theorem ReadsAs.walk_eq (h : a.ReadsAs id nodes) {steps : Nat} (hsteps : nodes.length ≤ steps) :
    a.walk steps #[] #[id] = some nodes.toArray := by
  obtain ⟨steps, rfl⟩ := Nat.exists_eq_add_of_le hsteps
  have hwalk : a.walk (nodes.length + steps) #[] #[id] = a.walk steps (#[] ++ nodes) #[] :=
    h steps #[] #[]
  rw [hwalk, walk_empty]
  exact congrArg some (Array.ext' (by simp))

theorem ReadsAs.unique (h : a.ReadsAs id nodes) (h' : a.ReadsAs id nodes') : nodes = nodes' := by
  have hwalk := h.walk_eq (Nat.le_add_right nodes.length nodes'.length)
  rw [h'.walk_eq (Nat.le_add_left ..)] at hwalk
  simpa using hwalk.symm

/-! ## The recursion -/

/-- A tree read from the root down, left to right, to a given depth. -/
def preorder (a : Arena) : (depth : Nat) → ExprId → List ExprId
  | 0, _ => []
  | depth + 1, id => id :: (a.children id).flatMap (a.preorder depth)

theorem length_preorder : (a.preorder depth id).length = a.pathCount depth id := by
  induction depth generalizing id with
  | zero => rfl
  | succ depth ih =>
    rw [preorder, pathCount, List.length_cons]
    congr 1
    generalize a.children id = ids
    induction ids with
    | nil => rfl
    | cons n ids ihids => rw [List.flatMap_cons, List.length_append, List.foldr_cons, ih, ihids]

theorem readsAs_preorder {P : Expression → Prop} (h : a.Shallow P depth id) :
    a.ReadsAs id (a.preorder depth id) := by
  induction depth generalizing id with
  | zero => exact h.elim
  | succ depth ih =>
    obtain ⟨-, -, hchildren⟩ := h
    apply ReadsAs.node
    intro n hn
    exact ih (hchildren n hn)

/-- **The walk reads a tree as the recursion does** if no path leaves the table or is longer than
the table. -/
theorem reachable_eq_preorder {P : Expression → Prop} (h : a.Shallow P a.exprs.size id) :
    a.reachable id = a.preorder a.exprs.size id := by
  rw [reachable, (readsAs_preorder h).walk_eq length_preorder.le, Option.getD_some]

/-! ## Handles in bounds -/

theorem InBounds.lt_of_mem_children (h : a.InBounds) (hn : n ∈ a.children id) :
    n.index < a.exprs.size :=
  forall_expr (p := fun e => ∀ m ∈ e.kind.children, m.index < a.exprs.size) h.children nofun id n hn

/-- In a table, only a cycle makes a descent endless: its nodes are finitely many. -/
theorem InBounds.acyclic (h : a.InBounds)
    (hcycle : ∀ n, ¬ Relation.TransGen (fun m n => m ∈ a.children n) n n) : a.Acyclic := by
  have : IsStrictOrder ExprId (Relation.TransGen fun m n => m ∈ a.children n) :=
    { irrefl := hcycle, trans := fun _ _ _ => .trans }
  have hfinite : {n : ExprId | n.index < a.exprs.size}.Finite :=
    (Set.finite_lt_nat _).preimage fun _ _ _ _ => ExprId.ext
  have hwf := Set.wellFoundedOn_iff.1 <|
    hfinite.wellFoundedOn (r := Relation.TransGen fun m n => m ∈ a.children n)
  refine Subrelation.wf (fun {m n} hm => ⟨.single hm, h.lt_of_mem_children hm, ?_⟩) hwf
  -- A node that has children stands in the table.
  refine lt_size_of_kind_ne fun hk => ?_
  rw [hk] at hm
  cases hm

theorem InBounds.shallow (h : a.InBounds) (ha : a.Acyclic) (hid : id.index < a.exprs.size) :
    a.Shallow (fun _ => True) a.exprs.size id := by
  apply shallow_size (ha.apply id)
  intro m hpath
  cases hpath.cases_tail with
  | inl hm => exact ⟨hm ▸ hid, trivial⟩
  | inr hm =>
    obtain ⟨n, -, hm⟩ := hm
    exact ⟨h.lt_of_mem_children hm, trivial⟩

/-- Without a cycle, a tree is read on every stack as it is read alone. -/
theorem InBounds.readsAs (h : a.InBounds) (ha : a.Acyclic) (hid : id.index < a.exprs.size) :
    a.ReadsAs id (a.reachable id) := by
  have hshallow := h.shallow ha hid
  rw [reachable_eq_preorder hshallow]
  exact readsAs_preorder hshallow

/-- Without a cycle, a tree is its root and then the trees of the children. -/
theorem InBounds.reachable_eq (h : a.InBounds) (ha : a.Acyclic) (hid : id.index < a.exprs.size) :
    a.reachable id = id :: (a.children id).flatMap a.reachable := by
  apply (h.readsAs ha hid).unique
  apply ReadsAs.node
  intro n hn
  exact h.readsAs ha (h.lt_of_mem_children hn)

/-- **Without a cycle, the walk ends from every stack**, and has read the trees on it from the top
down. -/
theorem InBounds.walk_eq (h : a.InBounds) (ha : a.Acyclic) {openNodes : Array ExprId}
    (hopen : ∀ n ∈ openNodes, n.index < a.exprs.size) (steps : Nat) (seen : Array ExprId) :
    a.walk ((openNodes.toList.reverse.flatMap a.reachable).length + steps) seen openNodes =
      some (seen ++ openNodes.toList.reverse.flatMap a.reachable) := by
  have hread : ∀ n ∈ openNodes.toList.reverse, a.ReadsAs n (a.reachable n) := by
    intro n hn
    exact h.readsAs ha (hopen n (by simpa using hn))
  -- The stack is what was opened, from its top down, in reverse.
  have hwalk := walk_append_reverse hread steps seen #[]
  rw [walk_empty, List.reverse_reverse] at hwalk
  simpa using hwalk

/-- The walk from a node of the table reads no handle that points out of it. -/
theorem InBounds.lt_of_mem_reachable (h : a.InBounds) (ha : a.Acyclic)
    (hid : id.index < a.exprs.size) (hn : n ∈ a.reachable id) : n.index < a.exprs.size := by
  induction id using ha.induction with
  | h id ih =>
    rw [h.reachable_eq ha hid, List.mem_cons, List.mem_flatMap] at hn
    obtain rfl | ⟨m, hm, hn⟩ := hn
    · exact hid
    · exact ih m hm (h.lt_of_mem_children hm) hn

/-! ## Paths -/

/-- The node that a path leads to. A path names a child by its position, so a child that a node has
twice lies on two paths. -/
def follow (a : Arena) : ExprId → (path : List Nat) → Option ExprId
  | id, [] => some id
  | id, i :: path => (a.children id)[i]?.bind (a.follow · path)

/-- All paths from a node in lexicographic order, and the nodes that they lead to. -/
structure Charts (a : Arena) (id : ExprId) (paths : List (List Nat)) (nodes : List ExprId) :
    Prop where
  ordered : paths.Pairwise (· < ·)
  mem_iff : ∀ path, path ∈ paths ↔ (a.follow id path).isSome
  leads : paths.map (a.follow id) = nodes.map some

/-- The empty path, and the paths through each child in turn. -/
def pathsThrough (a : Arena) (id : ExprId) (below : ExprId → List (List Nat)) : List (List Nat) :=
  [] :: (List.finRange (a.children id).length).flatMap fun i =>
    (below ((a.children id).get i)).map (i.val :: ·)

theorem pairwise_pathsThrough (h : ∀ n ∈ a.children id, (below n).Pairwise (· < ·)) :
    (a.pathsThrough id below).Pairwise (· < ·) := by
  refine List.pairwise_cons.2 ⟨fun path hpath => ?_, List.pairwise_flatMap.2 ⟨fun i _ => ?_, ?_⟩⟩
  · simp only [List.mem_flatMap, List.mem_map] at hpath
    obtain ⟨i, -, path, -, rfl⟩ := hpath
    exact List.nil_lt_cons ..
  -- Through one child, the paths are ordered as they are from there.
  · refine List.pairwise_map.2 ((h _ (List.get_mem ..)).imp ?_)
    intro path path' hlt
    exact List.cons_lt_cons_iff.2 (.inr ⟨rfl, hlt⟩)
  · refine (List.pairwise_lt_finRange _).imp ?_
    intro i j hlt
    simp only [List.forall_mem_map]
    intro path _ path' _
    exact List.cons_lt_cons_iff.2 (.inl hlt)

theorem mem_pathsThrough
    (h : ∀ n ∈ a.children id, ∀ path, path ∈ below n ↔ (a.follow n path).isSome)
    (path : List Nat) : path ∈ a.pathsThrough id below ↔ (a.follow id path).isSome := by
  cases path with
  | nil => simp [pathsThrough, follow]
  | cons i path =>
    by_cases hi : i < (a.children id).length
    · rw [follow, List.getElem?_eq_getElem hi, Option.bind_some, ← h _ (List.getElem_mem hi)]
      simp [pathsThrough, Fin.exists_iff, hi]
    · simp [pathsThrough, follow, Fin.exists_iff, hi]

theorem map_follow_pathsThrough
    (h : ∀ n ∈ a.children id, (below n).map (a.follow n) = (read n).map some) :
    (a.pathsThrough id below).map (a.follow id) =
      (id :: (a.children id).flatMap read).map some := by
  have hstep (i : Fin (a.children id).length) (path : List Nat) :
      a.follow id (i.val :: path) = a.follow ((a.children id).get i) path := by
    simp [follow]
  have hchild (i : Fin (a.children id).length) :
      ((below ((a.children id).get i)).map (i.val :: ·)).map (a.follow id) =
        (read ((a.children id).get i)).map some := by
    rw [List.map_map, ← h _ (List.get_mem ..)]
    exact List.map_congr_left fun path _ => hstep i path
  conv_rhs => rw [← List.map_get_finRange (a.children id)]
  rw [pathsThrough, List.map_cons, List.map_cons, List.map_flatMap, List.map_flatMap,
    List.flatMap_map]
  simp only [hchild, follow]

theorem Charts.node (h : ∀ n ∈ a.children id, a.Charts n (below n) (read n)) :
    a.Charts id (a.pathsThrough id below) (id :: (a.children id).flatMap read) where
  ordered := pairwise_pathsThrough fun n hn => (h n hn).ordered
  mem_iff := mem_pathsThrough fun n hn => (h n hn).mem_iff
  leads := map_follow_pathsThrough fun n hn => (h n hn).leads

/-- **Without a cycle, the walk follows the paths** from a node in lexicographic order, and each of
them once. -/
theorem InBounds.exists_charts (h : a.InBounds) (ha : a.Acyclic) (hid : id.index < a.exprs.size) :
    ∃ paths, a.Charts id paths (a.reachable id) := by
  induction id using ha.induction with
  | h id ih =>
    have hchildren : ∀ n ∈ a.children id, ∃ paths, a.Charts n paths (a.reachable n) := by
      intro n hn
      exact ih n hn (h.lt_of_mem_children hn)
    choose! below hbelow using hchildren
    rw [h.reachable_eq ha hid]
    exact ⟨_, Charts.node hbelow⟩

/-- A node is charted as often as paths lead to it. -/
theorem Charts.encard_eq (h : a.Charts id paths nodes) (n : ExprId) :
    {path | a.follow id path = some n}.encard = nodes.count n := by
  have hset : {path | a.follow id path = some n} =
      ((paths.filter (a.follow id · == some n)).toFinset : Set (List Nat)) := by
    ext path
    simp +contextual [h.mem_iff]
  have hnodup : (paths.filter (a.follow id · == some n)).Nodup :=
    (h.ordered.imp fun hlt => ne_of_lt hlt).filter _
  have hcount : (paths.filter (a.follow id · == some n)).length = nodes.count n := by
    rw [← List.count_map_of_injective _ some (Option.some_injective _), ← h.leads, List.count,
      List.countP_map, List.countP_eq_length_filter]
    rfl
  rw [hset, Set.encard_coe_eq_coe_finsetCard, List.toFinset_card_of_nodup hnodup, hcount]

/-! ## The walk of a tree -/

/-- **A tree is read from the root down.** If no expression lies below itself, the walk from an
expression ends, after one step for each node that it reads, and reads no handle that points out of
the table. It has read the expression and then, from left to right, what it reads from the children;
and each node as often as paths lead to it. -/
theorem reachable_preorder (hbounds : a.InBounds)
    (hcycle : ∀ n, ¬ Relation.TransGen (fun m n => m ∈ a.children n) n n)
    (id : ExprId) (hid : id.index < a.exprs.size) :
    (∀ steps ≥ (a.reachable id).length,
      a.walk steps #[] #[id] = some (a.reachable id).toArray) ∧
    (∀ n ∈ a.reachable id, n.index < a.exprs.size) ∧
    a.reachable id = id :: (a.children id).flatMap a.reachable ∧
    ∀ n, {path | a.follow id path = some n}.encard = (a.reachable id).count n := by
  have ha := hbounds.acyclic hcycle
  obtain ⟨paths, hcharts⟩ := hbounds.exists_charts ha hid
  refine ⟨?_, ?_, hbounds.reachable_eq ha hid, hcharts.encard_eq⟩
  · intro steps hsteps
    obtain ⟨steps, rfl⟩ := Nat.exists_eq_add_of_le hsteps
    have hopen : ∀ n ∈ #[id], n.index < a.exprs.size := by simpa using hid
    simpa using hbounds.walk_eq ha hopen steps #[]
  · intro n hn
    exact hbounds.lt_of_mem_reachable ha hid hn

/-- The run `f x x, -(f x x)`, in which both the call and its argument are shared. -/
def sharedCall : Arena where
  exprs := #[.new (.value (.int 5)) .int .origin, .new (.call ⟨0⟩ [⟨0⟩, ⟨0⟩]) .int .origin,
    .new (.negated ⟨1⟩) .int .origin, .new (.run [⟨1⟩, ⟨2⟩]) .hole .origin]
  defs := #[⟨"f", .builtin, some (.function [.int, .int] .int true), none, .origin⟩]
  stmts := #[]
  roots := []

/-- Four paths lead to the argument of a call that is shared. -/
theorem reachable_sharedCall :
    sharedCall.InBounds ∧
    (∀ n, ¬ Relation.TransGen (fun m n => m ∈ sharedCall.children n) n n) ∧
    (⟨3⟩ : ExprId).index < sharedCall.exprs.size ∧
    sharedCall.walk 8 #[] #[⟨3⟩] = some #[⟨3⟩, ⟨1⟩, ⟨0⟩, ⟨0⟩, ⟨2⟩, ⟨1⟩, ⟨0⟩, ⟨0⟩] ∧
    (∀ n ∈ sharedCall.reachable ⟨3⟩, n.index < 4) ∧
    sharedCall.reachable ⟨3⟩ = ⟨3⟩ :: [⟨1⟩, ⟨2⟩].flatMap sharedCall.reachable ∧
    {path | sharedCall.follow ⟨3⟩ path = some ⟨0⟩}.encard = 4 := by
  have hbounds : sharedCall.InBounds :=
    { children := by simp [sharedCall, Expression.new, ExprKind.children]
      uses := by simp [sharedCall, Expression.new, ExprKind.definition?]
      defs := by simp [sharedCall, Body.InBounds]
      stmts := by simp [sharedCall]
      roots := by simp [sharedCall] }
  have hacyclic : sharedCall.Acyclic := acyclic_of_lt (by decide)
  have hcycle : ∀ n, ¬ Relation.TransGen (fun m n => m ∈ sharedCall.children n) n n :=
    fun n => (WellFounded.transGen hacyclic).irrefl.irrefl n
  have hread : sharedCall.reachable ⟨3⟩ = [⟨3⟩, ⟨1⟩, ⟨0⟩, ⟨0⟩, ⟨2⟩, ⟨1⟩, ⟨0⟩, ⟨0⟩] := by decide
  have hid : (⟨3⟩ : ExprId).index < sharedCall.exprs.size := by decide
  obtain ⟨hwalk, hlt, hnode, hpaths⟩ := reachable_preorder hbounds hcycle ⟨3⟩ hid
  refine ⟨hbounds, hcycle, hid, ?_, hlt, hnode, ?_⟩
  · rw [hwalk 8 (by rw [hread]; decide), hread]
  · rw [hpaths, hread]
    rfl

end Termwise.Arena
