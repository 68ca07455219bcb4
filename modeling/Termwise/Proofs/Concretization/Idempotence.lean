import Termwise.Proofs.Concretization.SettledTrees
import Termwise.Proofs.Termination

/-!
# Trees that are concretized twice

After a tree was concretized, nothing is left to do: concretizing it once more ends without an error
and changes nothing. No node of the tree and of the bodies that it leads to may be shared, none may
declare a type, and the definitions may not be recursive.

There is one exception. A call takes the type of its definition, and a use is looked at before it is
replaced, as that type is before the body of the definition is walked. If the body takes another type
then, the second walk meets that one.

## Main definitions

* `Compilation.Unshared`: a tree and the bodies that it leads to share no node
* `Compilation.ReadEarly`: definitions whose type is read before their bodies are walked

## Main results

* `concretize_again`: a tree that was concretized is left as it is, unless a type changed that was
  read early
* `concretize_lateType`: such a type does change
-/

namespace Termwise

open Compilation

variable {settings : Settings} {c c' : Compilation} {id n : ExprId} {d e : DefId} {s : StmtId}
  {p q : Place} {depth : Nat}

namespace Compilation

/-- **No node is shared** between a tree and the bodies of the definitions that it leads to, between
two of these bodies, or within one of them. -/
structure Unshared (c : Compilation) (id : ExprId) : Prop where
  tree : ∃ xs, c.arena.Forest [id] xs ∧ xs.Nodup
  body : ∀ d, .definition d ∈ c.Ahead id →
    ∃ xs, c.arena.Forest (c.arena.bodyRoots d) xs ∧ xs.Nodup
  apart : ∀ d, .definition d ∈ c.Ahead id →
    Disjoint (c.trees [id]) (c.trees (c.arena.bodyRoots d))
  bodies : ∀ d e, .definition d ∈ c.Ahead id → .definition e ∈ c.Ahead id → d ≠ e →
    Disjoint (c.trees (c.arena.bodyRoots d)) (c.trees (c.arena.bodyRoots e))

/-- **A definition whose type is read before its body is walked**: it is called, or it stands for a
function, so that a use of it is looked at before it is replaced. -/
def ReadEarly (c : Compilation) (id : ExprId) (d : DefId) : Prop :=
  (c.arena.definitionType d).isFunction = true ∨
    ∃ n args, .expr n ∈ c.Ahead id ∧ (c.arena.expr n).kind = .call d args

/-! ## Where bodies lead to -/

/-- A statement leads to the expressions that it consists of. -/
theorem onward_stated (h : n ∈ c.arena.stated depth s) :
    Relation.ReflTransGen c.Onward (.statement s) (.expr n) := by
  induction depth generalizing s with
  | zero => cases h
  | succ depth ih =>
    cases hk : (c.arena.stmt s).kind with
    | expression e =>
      obtain rfl : n = e := by simpa [Arena.stated, hk] using h
      exact .single (.shown hk)
    | result e =>
      obtain rfl : n = e := by simpa [Arena.stated, hk] using h
      exact .single (.result hk)
    | block ss =>
      obtain ⟨t, ht, h⟩ : ∃ t ∈ ss, n ∈ c.arena.stated depth t := by
        simpa [Arena.stated, hk] using h
      exact .head (.block hk ht) (ih h)
    | bind | empty | deleted => simp [Arena.stated, hk] at h

/-- A statement leads to the definitions that it makes known. -/
theorem onward_bound (h : d ∈ c.arena.bound depth s) :
    Relation.ReflTransGen c.Onward (.statement s) (.definition d) := by
  induction depth generalizing s with
  | zero => cases h
  | succ depth ih =>
    cases hk : (c.arena.stmt s).kind with
    | bind e =>
      obtain rfl : d = e := by simpa [Arena.bound, hk] using h
      exact .single (.bind hk)
    | block ss =>
      obtain ⟨t, ht, h⟩ : ∃ t ∈ ss, d ∈ c.arena.bound depth t := by
        simpa [Arena.bound, hk] using h
      exact .head (.block hk ht) (ih h)
    | expression | result | empty | deleted => simp [Arena.bound, hk] at h

/-- **A definition leads to the nodes of its body.** -/
theorem onward_body (h : n ∈ c.trees (c.arena.bodyRoots d)) :
    Relation.TransGen c.Onward (.definition d) (.expr n) := by
  obtain ⟨r, hr, hn⟩ := h
  have hbelow : Relation.ReflTransGen c.Onward (.expr r) (.expr n) :=
    hn.lift Place.expr fun _ _ => onward_child
  refine Relation.TransGen.trans_left ?_ hbelow
  cases hb : (c.arena.definition d).body with
  | expression b =>
    obtain rfl : r = b := by simpa [Arena.bodyRoots, hb] using hr
    exact .single (.body hb)
  | statement s =>
    rw [Arena.bodyRoots, hb] at hr
    exact .head' (.program hb) (onward_stated hr)
  | builtin | undefined => simp [Arena.bodyRoots, hb] at hr

theorem onward_bodyBound (h : e ∈ c.arena.bodyBound d) :
    Relation.TransGen c.Onward (.definition d) (.definition e) := by
  cases hb : (c.arena.definition d).body with
  | statement s =>
    rw [Arena.bodyBound, hb] at h
    exact .head' (.program hb) (onward_bound h)
  | expression | builtin | undefined => simp [Arena.bodyBound, hb] at h

/-- A program leads to definitions of its table. -/
theorem Intact.lt_of_onward (hc : c.Intact) (h : c.Onward p (.definition d)) :
    d.index < c.arena.defs.size := by
  cases h with
  | @expr n _ hq =>
    have huses := hc.upright.uses n
    generalize (c.arena.expr n).kind = kind at hq huses
    cases hq with
    | use hd => exact huses d hd
    | negation _ hd =>
      rcases hd with rfl | rfl
      · exact hc.builtins "unary_minus" _ rfl
      · exact hc.builtins "unary_minus_float" _ rfl
    | widening => exact hc.builtins "unary_minus_float" _ rfl
  | @bind s _ hk =>
    have hs : (c.arena.stmt s).kind.InBounds c.arena := by
      by_cases hlt : s.index < c.arena.stmts.size
      · refine hc.arena.stmts _ ?_
        rw [Arena.stmt, Array.getD_eq_getD_getElem?, Array.getElem?_eq_getElem hlt]
        exact Array.getElem_mem hlt
      · rw [Arena.stmt, Array.getD_eq_getD_getElem?, Array.getElem?_eq_none (Nat.le_of_not_lt hlt)]
          at hk
        cases hk
    rwa [hk] at hs

/-- All that an expression leads to is in the tables. -/
theorem Intact.inBounds_ahead (hc : c.Intact) (hid : id.index < c.arena.exprs.size)
    (hp : p ∈ c.Ahead id) : p.InBounds c.arena := by
  induction hp with
  | refl => exact hid
  | tail _ ho ih => exact ho.inBounds hc.arena ih

/-! ## Ranks -/

open scoped Classical in
/-- How many definitions a definition leads to. -/
noncomputable def rankOf (c : Compilation) (d : DefId) : Nat :=
  ((Finset.range c.arena.defs.size).filter fun i =>
    Relation.TransGen c.Onward (.definition d) (.definition ⟨i⟩)).card

theorem rankOf_le (c : Compilation) (d : DefId) : c.rankOf d ≤ c.arena.defs.size := by
  classical exact (Finset.card_filter_le _ _).trans_eq (Finset.card_range _)

/-- **A definition is ranked above those that it leads to**, as long as these are not recursive. -/
theorem Intact.rankOf_lt (hc : c.Intact)
    (h : Relation.TransGen c.Onward (.definition d) (.definition e))
    (he : ¬ Relation.TransGen c.Onward (.definition e) (.definition e)) :
    c.rankOf e < c.rankOf d := by
  classical
  obtain ⟨p, -, ho⟩ := Relation.TransGen.tail'_iff.1 h
  have hlt := hc.lt_of_onward ho
  refine Finset.card_lt_card ⟨fun i hi => ?_, fun hsub => ?_⟩
  · rw [Finset.mem_filter] at hi ⊢
    exact ⟨hi.1, h.trans hi.2⟩
  · have hmem := hsub (Finset.mem_filter.2 ⟨Finset.mem_range.2 hlt, h⟩)
    exact he (Finset.mem_filter.1 hmem).2

open scoped Classical in
/-- **What a tree leads to**, with definitions that are ranked, and a fixed type for those whose type
is read early. -/
noncomputable def prospect (c : Compilation) (id : ExprId) : Prospect where
  rank d := if .definition d ∈ c.Ahead id then c.rankOf d else c.arena.defs.size + 1
  fixed d := if c.ReadEarly id d ∨ c.IsNegation d then some (c.arena.definitionType d) else none

theorem rank_prospect_lt :
    (c.prospect id).rank d < c.arena.defs.size + 1 ↔ .definition d ∈ c.Ahead id := by
  simp only [prospect]
  split_ifs with h
  · exact iff_of_true (Nat.lt_succ_of_le (c.rankOf_le d)) h
  · exact iff_of_false (lt_irrefl _) h

theorem mem_fixed_prospect {ty : Ty} (h : ty ∈ (c.prospect id).fixed d) :
    (c.ReadEarly id d ∨ c.IsNegation d) ∧ c.arena.definitionType d = ty := by
  simp only [prospect] at h
  split_ifs at h with hearly
  · exact ⟨hearly, Option.some.inj h⟩
  · cases h

theorem exists_fixed_prospect (h : c.ReadEarly id d ∨ c.IsNegation d) :
    ∃ ty, (c.prospect id).fixed d = some ty := by
  simp only [prospect, if_pos h]
  exact ⟨_, rfl⟩

/-- **A tree that shares nothing is ready to be walked.** -/
theorem ready_prospect (hc : c.Intact) (hregistered : c.Registered)
    (hnegation : ∀ d, c.IsNegation d → (c.arena.definition d).body = .builtin)
    (hid : id.index < c.arena.exprs.size) (hunshared : c.Unshared id)
    (hdeclared : ∀ n, .expr n ∈ c.Ahead id → (c.arena.expr n).declared = none)
    (hrecursive : ∀ d, .definition d ∈ c.Ahead id →
      ¬ Relation.TransGen c.Onward (.definition d) (.definition d)) :
    (c.prospect id).Ready (c.arena.defs.size + 1) [id] ⟨c, []⟩ := by
  -- What definitions and the tree lead to is of lower ranks.
  have hrank {d e : DefId} (hd : .definition d ∈ c.Ahead id)
      (h : Relation.TransGen c.Onward (.definition d) (.definition e)) :
      (c.prospect id).rank e < (c.prospect id).rank d := by
    have he : .definition e ∈ c.Ahead id := hd.trans h.to_reflTransGen
    simp only [prospect, if_pos hd, if_pos he]
    exact hc.rankOf_lt h (hrecursive e he)
  have hfits {n : ExprId} {k : Nat} (hn : .expr n ∈ c.Ahead id)
      (huses : ∀ d, c.Onward (.expr n) (.definition d) → (c.prospect id).rank d < k) :
      (c.prospect id).Fits c.builtins k (c.arena.expr n) :=
    ⟨hdeclared n hn, fun d hd => huses d (.expr hd),
      fun d args hk => exists_fixed_prospect (.inl (.inr ⟨n, args, hn, hk⟩))⟩
  have hnodes {n : ExprId} (hn : n ∈ c.trees [id]) : .expr n ∈ c.Ahead id :=
    (mem_trees_singleton.1 hn).lift Place.expr fun _ _ => onward_child
  have hbody {d : DefId} {n : ExprId} (hd : .definition d ∈ c.Ahead id)
      (hn : n ∈ c.trees (c.arena.bodyRoots d)) : .expr n ∈ c.Ahead id :=
    hd.trans (onward_body hn).to_reflTransGen
  have hroot {d : DefId} {b : ExprId} (hb : (c.arena.definition d).body = .expression b) :
      b ∈ c.trees (c.arena.bodyRoots d) := c.mem_trees_self (Arena.mem_bodyRoots hb)
  refine ⟨hc.upright, ?_, ⟨hunshared.tree, fun n hn => hc.inBounds_ahead hid (hnodes hn),
    fun n hn => hfits (hnodes hn) fun d ho => rank_prospect_lt.2 ((hnodes hn).tail ho),
    fun d hd b hb hn => ?_⟩, fun d hd => hunshared.apart d (rank_prospect_lt.1 hd)⟩
  · refine ⟨fun d hd => ?_, fun d e hd he => hunshared.bodies d e (rank_prospect_lt.1 hd)
      (rank_prospect_lt.1 he), fun d hd e he => hrank (rank_prospect_lt.1 hd) (onward_bodyBound he),
      fun d _ _ ty hty => (mem_fixed_prospect hty).2,
      fun d _ _ hfunction => exists_fixed_prospect (.inl (.inl hfunction)), hregistered,
      fun d hd => ⟨hnegation d hd, exists_fixed_prospect (.inr hd)⟩⟩
    have hd := rank_prospect_lt.1 hd
    refine ⟨hunshared.body d hd, fun n hn => hc.inBounds_ahead hid (hbody hd hn),
      fun n hn => hfits (hbody hd hn) fun e ho => hrank hd ((onward_body hn).tail ho),
      fun e he b hb hn => ?_⟩
    have hne : d ≠ e := by
      rintro rfl
      exact lt_irrefl _ he
    have he : .definition e ∈ c.Ahead id :=
      rank_prospect_lt.1 (he.trans (rank_prospect_lt.2 hd))
    exact Set.disjoint_left.1 (hunshared.bodies d e hd he hne) hn (hroot hb)
  · exact Set.disjoint_left.1 (hunshared.apart d (rank_prospect_lt.1 hd)) hn (hroot hb)

end Compilation

/-! ## Concretizing twice -/

/-- **A tree that was concretized is left as it is** when it is concretized once more, unless a type
that was read early has changed since. -/
theorem concretize_again (settings : Settings) (hc : c.Intact) (hblocks : c.arena.AcyclicBlocks)
    (hregistered : c.Registered)
    (hnegation : ∀ d, c.IsNegation d → (c.arena.definition d).body = .builtin)
    (hid : id.index < c.arena.exprs.size) (hunshared : c.Unshared id)
    (hdeclared : ∀ n, .expr n ∈ c.Ahead id → (c.arena.expr n).declared = none)
    (hrecursive : ∀ d, .definition d ∈ c.Ahead id →
      ¬ Relation.TransGen c.Onward (.definition d) (.definition d))
    (h : concretize settings id c = .ok () c')
    (htypes : ∀ d, .definition d ∈ c.Ahead id → c.ReadEarly id d →
      c'.arena.definitionType d = c.arena.definitionType d) :
    ∃ c'', concretize settings id c' = .ok () c'' ∧ c''.arena = c'.arena := by
  have hready := ready_prospect hc hregistered hnegation hid hunshared hdeclared hrecursive
  have hfirst : Outcome (concretize settings id) c (fun _ c' => ∃ w', w'.unit = c' ∧
      (c.prospect id).Succeeds settings (c.arena.defs.size + 1) [id] ⟨c, []⟩ w')
      fun _ _ => True := by
    simp only [concretize, outcome_bind, outcome_arena, outcome_runWalk]
    exact ((Prospect.leads_visitor _ settings _).expr _ [] (List.forall_mem_nil _) id _ hready).mono
      (fun _ w' h => ⟨w', rfl, h.2⟩) fun _ _ _ => trivial
  obtain ⟨w', rfl, hsucceeds⟩ := hfirst.of_ok h
  have hsame : c.SameProgram w'.unit := hsucceeds.passes.toBranches.toSameProgram
  have hs : (c.prospect id).Steadfast w'.unit (c.arena.defs.size + 1) := by
    intro d hd ty hty
    obtain ⟨hearly, rfl⟩ := mem_fixed_prospect hty
    rcases hearly with hearly | hneg
    · exact htypes d (rank_prospect_lt.1 hd) hearly
    · refine hsame.definitionType fun _ b hb => ?_
      cases (hnegation d hneg).symm.trans hb
  have hwalk := hsucceeds.settled hs _
    (fun n => .whole (List.forall_mem_nil _) w'.unit.arena.rounds n) w'.unit
    (hs.recalls hsucceeds.passes.rank) (fun _ _ => .same fun _ _ => rfl) [] (.inl fun _ => Iff.rfl)
  simp only [visitEach, outcome_bind, outcome_pure] at hwalk
  -- The second walk ends as the first one did.
  have hends : Walk.Ends ⟨w'.unit, []⟩ ((visitor settings w'.unit.arena.rounds).expr [] id) := by
    have hsober : w'.unit.Sober := ⟨hsucceeds.passes.ready.upright, fun s => by
      rw [hsame.stmts]
      exact hsame.nests ((hc.sober hblocks).nests s)⟩
    refine (visitor_suffices settings _).expr [] id _ hsober (.inl ?_)
    have hle := w'.unit.arena.remaining_le []
    have hscope : Walk.scope ⟨w'.unit, []⟩ [] =
      w'.unit.arena.remaining [] + w'.unit.arena.remaining [] := rfl
    have hrounds : w'.unit.arena.rounds = 12 * (w'.unit.arena.defs.size + 1) := rfl
    omega
  have hagain : Outcome (concretize settings id) w'.unit (fun _ c'' => c''.arena = w'.unit.arena)
      fun _ _ => False := by
    simp only [concretize, outcome_bind, outcome_arena, outcome_runWalk]
    refine (hwalk.and hends).mono ?_ fun _ _ h => h.2 h.1
    rintro - w'' ⟨⟨hrevisited, -⟩, -⟩
    have hstill := hrevisited.still fun _ _ => rfl
    exact hstill.toSameProgram.arena_eq hstill.size fun n => hstill.expr n (Set.notMem_empty n)
  obtain ⟨_, c'', hok, harena⟩ := hagain.exists_ok
  exact ⟨c'', hok, harena⟩

/-! ## A call of a negated constant -/

/-- The definition `y = -2.5`, which declares no type, and a call of it without arguments. -/
def negatedConstant : Compilation :=
  { Compilation.new with
    arena :=
      { exprs := #[.new (.value (.string "2.5")) .numberLiteral .origin,
          .new (.negated ⟨0⟩) .int .origin, .new (.call ⟨9⟩ []) .int .origin]
        defs := Builtins.definitions.toArray.push ⟨"y", .expression ⟨1⟩, none, none, .origin⟩
        stmts := #[]
        roots := [] } }

theorem intact_negatedConstant : negatedConstant.Intact where
  arena :=
    { children := by simp [negatedConstant, Expression.new, ExprKind.children]
      uses := by simp [negatedConstant, Expression.new, ExprKind.definition?, Builtins.definitions]
      defs := by simp [negatedConstant, Builtins.definitions, Builtins.entry, Body.InBounds]
      stmts := by simp [negatedConstant]
      roots := by simp [negatedConstant] }
  builtins name d hd := (Builtins.lt_of_mem_positions hd).trans_le (by decide)
  queue := nofun
  acyclic := Arena.acyclic_of_lt (by decide)

/-- All definitions but `y` have no body. -/
theorem body_negatedConstant (d : DefId) :
    d = ⟨9⟩ ∨ (negatedConstant.arena.definition d).body = .builtin ∨
      (negatedConstant.arena.definition d).body = .undefined := by
  obtain ⟨_ | _ | _ | _ | _ | _ | _ | _ | _ | _ | i⟩ := d
  case succ.succ.succ.succ.succ.succ.succ.succ.succ.zero => exact .inl rfl
  case succ.succ.succ.succ.succ.succ.succ.succ.succ.succ =>
    refine .inr (.inr ?_)
    rw [Arena.definition, Array.getD_eq_getD_getElem?,
      Array.getElem?_eq_none (Nat.le_add_left 10 i)]
    rfl
  all_goals exact .inr (.inl rfl)

/-- Where the call leads to: to `y`, to its body, and to what a minus sign may turn into. -/
theorem onward_negatedConstant (h : negatedConstant.Onward p q) :
    p = .expr ⟨2⟩ ∧ q = .definition ⟨9⟩ ∨ p = .definition ⟨9⟩ ∧ q = .expr ⟨1⟩ ∨
      p = .expr ⟨1⟩ ∧ q ∈ [.expr ⟨0⟩, .definition ⟨7⟩, .definition ⟨8⟩] ∨
      ∃ s, p = .statement s ∧ q = .expr ⟨0⟩ := by
  -- There are no statements, and what stands outside the table leads to the first expression.
  have hstmt (s : StmtId) : (negatedConstant.arena.stmt s).kind = .expression ⟨0⟩ := rfl
  cases h with
  | @expr n q hq =>
    obtain ⟨_ | _ | _ | i⟩ := n
    · cases hq with
      | child hm => cases hm
      | use hd => cases hd
    · refine .inr (.inr (.inl ⟨rfl, ?_⟩))
      cases hq with
      | child hm => simp_all [negatedConstant, Arena.expr, Expression.new, ExprKind.children]
      | use hd => cases hd
      | negation _ hd =>
        rcases hd with rfl | rfl
        · exact List.mem_cons_of_mem _ List.mem_cons_self
        · exact List.mem_cons_of_mem _ (List.mem_cons_of_mem _ List.mem_cons_self)
    · cases hq with
      | child hm => cases hm
      | use hd =>
        cases hd
        exact .inl ⟨rfl, rfl⟩
    · have hout : negatedConstant.arena.exprs.size ≤ i + 3 := Nat.le_add_left 3 i
      rw [Arena.expr_of_size_le hout] at hq
      cases hq with
      | child hm => cases hm
      | use hd => cases hd
  | @body d b h =>
    obtain rfl | hb | hb := body_negatedConstant d
    · cases h
      exact .inr (.inl ⟨rfl, rfl⟩)
    all_goals cases hb.symm.trans h
  | @program d s h =>
    obtain rfl | hb | hb := body_negatedConstant d
    · cases h
    all_goals cases hb.symm.trans h
  | @shown s e h =>
    cases (hstmt s).symm.trans h
    exact .inr (.inr (.inr ⟨s, rfl, rfl⟩))
  | result h | bind h | block h => cases (hstmt _).symm.trans h

/-- The places in the order in which the call leads to them. -/
def heightInNegatedConstant : Place → Nat
  | .expr n => [0, 2, 4].getD n.index 0
  | .definition d => if d = ⟨9⟩ then 3 else 1
  | .statement _ => 1

theorem height_lt_negatedConstant (h : Relation.TransGen negatedConstant.Onward p q) :
    heightInNegatedConstant q < heightInNegatedConstant p := by
  have hstep {p q : Place} (h : negatedConstant.Onward p q) :
      heightInNegatedConstant q < heightInNegatedConstant p := by
    rcases onward_negatedConstant h with ⟨rfl, rfl⟩ | ⟨rfl, rfl⟩ | ⟨rfl, hq⟩ | ⟨s, rfl, rfl⟩
    · decide
    · decide
    · simp only [List.mem_cons, List.not_mem_nil, or_false] at hq
      rcases hq with rfl | rfl | rfl <;> decide
    · exact Nat.one_pos
  induction h with
  | single h => exact hstep h
  | tail _ h ih => exact (hstep h).trans ih

theorem forest_negatedConstant : negatedConstant.arena.Forest [⟨2⟩] [⟨2⟩] ∧
    negatedConstant.arena.Forest [⟨1⟩] [⟨1⟩, ⟨0⟩] :=
  ⟨.leaf rfl, .tree (.leaf rfl)⟩

theorem bodyRoots_negatedConstant (d : DefId) :
    d = ⟨9⟩ ∨ negatedConstant.arena.bodyRoots d = [] := by
  rcases body_negatedConstant d with rfl | hb | hb
  · exact .inl rfl
  all_goals exact .inr (by rw [Arena.bodyRoots, hb])

/-- The call and the body of `y` share no node. -/
theorem unshared_negatedConstant : negatedConstant.Unshared ⟨2⟩ := by
  obtain ⟨hcall, hbody⟩ := forest_negatedConstant
  have hempty : negatedConstant.trees [] = ∅ := by simp [trees]
  refine ⟨⟨_, hcall, by decide⟩, fun d _ => ?_, fun d _ => ?_, fun d e _ _ hne => ?_⟩
  · rcases bodyRoots_negatedConstant d with rfl | hd
    · exact ⟨_, hbody, by decide⟩
    · exact ⟨[], by rw [hd]; exact .nil, List.nodup_nil⟩
  · rcases bodyRoots_negatedConstant d with rfl | hd
    · refine Set.disjoint_left.2 fun n hn hn' => ?_
      obtain rfl := List.mem_singleton.1 ((mem_trees_of_forest hcall).1 hn)
      exact absurd ((mem_trees_of_forest hbody).1 hn') (by decide)
    · simp [hd, hempty]
  · rcases bodyRoots_negatedConstant d with rfl | hd
    · rcases bodyRoots_negatedConstant e with rfl | he
      · exact absurd rfl hne
      · simp [he, hempty]
    · simp [hd, hempty]

theorem declared_negatedConstant (n : ExprId) :
    (negatedConstant.arena.expr n).declared = none :=
  Arena.forall_expr (p := fun e => e.declared = none)
    (by simp [negatedConstant, Expression.new]) rfl n

/-- A copy of the body stands in for the call, and is left as it is. -/
theorem concretize_again_negatedConstant :
    ∃ c' c'', concretize {} ⟨2⟩ negatedConstant = .ok () c' ∧ (c'.arena.expr ⟨2⟩).ty = .float ∧
      concretize {} ⟨2⟩ c' = .ok () c'' ∧ c''.arena = c'.arena := by
  obtain ⟨_, c', h, hcheck⟩ := exists_ok_of_check (concretize {} ⟨2⟩) negatedConstant
    (fun _ c' => decide ((c'.arena.expr ⟨2⟩).ty = .float ∧ (c'.arena.expr ⟨1⟩).ty = .int ∧
      c'.arena.defs = negatedConstant.arena.defs)) (by decide +kernel)
  obtain ⟨hfloat, hint, hdefs⟩ := of_decide_eq_true hcheck
  have hdefinition (d : DefId) : c'.arena.definition d = negatedConstant.arena.definition d := by
    rw [Arena.definition, hdefs]
    rfl
  have htype (d : DefId) :
      c'.arena.definitionType d = negatedConstant.arena.definitionType d := by
    rw [Arena.definitionType, Arena.definitionType, hdefinition]
    rcases body_negatedConstant d with rfl | hb | hb
    · exact hint
    all_goals
      simp only [hb]
      cases (negatedConstant.arena.definition d).declared <;> rfl
  obtain ⟨c'', hagain, hsame⟩ := concretize_again {} intact_negatedConstant
    (Arena.acyclicBlocks_of_lt (by decide)) ⟨rfl, rfl⟩ (by rintro d (rfl | rfl) <;> rfl) (by decide)
    unshared_negatedConstant (fun n _ => declared_negatedConstant n)
    (fun d _ hd => lt_irrefl _ (height_lt_negatedConstant hd)) h (fun d _ _ => htype d)
  exact ⟨c', c'', h, hfloat, hagain, hsame⟩

/-- A call that is not replaced takes the type that the body had before it was walked; when it is
concretized once more, the body is a float and the call becomes one, too. -/
theorem concretize_lateType :
    (negatedConstant.Intact ∧ negatedConstant.Unshared ⟨2⟩ ∧
      (∀ n, (negatedConstant.arena.expr n).declared = none) ∧
      ∀ d, ¬ Relation.TransGen negatedConstant.Onward (.definition d) (.definition d)) ∧
    ∃ c' c'', concretize { debugNoInline := true } ⟨2⟩ negatedConstant = .ok () c' ∧
      (c'.arena.expr ⟨2⟩).ty = .int ∧
      concretize { debugNoInline := true } ⟨2⟩ c' = .ok () c'' ∧
      (c''.arena.expr ⟨2⟩).ty = .float := by
  refine ⟨⟨intact_negatedConstant, unshared_negatedConstant, declared_negatedConstant,
    fun d hd => lt_irrefl _ (height_lt_negatedConstant hd)⟩, ?_⟩
  obtain ⟨_, c', h, hcheck⟩ := exists_ok_of_check
    (concretize { debugNoInline := true } ⟨2⟩) negatedConstant
    (fun _ c' => decide ((c'.arena.expr ⟨2⟩).ty = .int) &&
      match concretize { debugNoInline := true } ⟨2⟩ c' with
      | .ok _ c'' => decide ((c''.arena.expr ⟨2⟩).ty = .float)
      | .error .. => false) (by decide +kernel)
  obtain ⟨hint, hcheck⟩ := Bool.and_eq_true_iff.1 hcheck
  split at hcheck
  · rename_i c'' hagain
    exact ⟨c', c'', h, of_decide_eq_true hint, hagain, of_decide_eq_true hcheck⟩
  · cases hcheck

end Termwise
