import Termwise.Proofs.Registration
import Termwise.Proofs.Run.Apart
import Termwise.Proofs.Run.Custody
import Termwise.Proofs.Run.Enclosure
import Termwise.Proofs.Run.Queue

/-!
# Resolution is local

Resolving a node changes more than that node: groups are resolved where they stand, references are
typed anew, arguments are cast in place, and so are those that a partial call or a negation had
already. All of that lies below the node. What does not is left alone in every field, and so are
the definitions, the statements and the queue, whether the node is resolved or refused halfway.

The argument is an enclosure, as for the shape of the graph, but it asks nothing of the tables: the
nodes below the one that is resolved lead nowhere else, what is appended belongs to them, and every
step stays among them.

## Main definitions

* `Compilation.Sealed`: the expressions of a set lead nowhere else
* `Compilation.LocalTo`: nothing but some nodes is changed, the queue and the types included
* `confinement`: the custody of a run that stays among some nodes

## Main results

* `resolve_local`: resolving a node changes nothing but what lies at or below it
-/

namespace Termwise

open Compilation

namespace Compilation

/-- **The expressions of a set lead nowhere else**, and what will be appended belongs to it. -/
structure Sealed (c : Compilation) (Z : Set ExprId) : Prop where
  closed : ∀ n ∈ Z, ∀ m ∈ (c.arena.expr n).kind.children, m ∈ Z
  fresh : ∀ n : ExprId, c.arena.exprs.size ≤ n.index → n ∈ Z

/-- **Nothing but some nodes is changed**, and what was appended: expressions, definitions,
statements, roots and the queue are what they were, and every type keeps its number. -/
structure LocalTo (S : Set ExprId) (c c' : Compilation) : Prop extends KeepsTo S c c' where
  queue : c'.queue = c.queue
  types : ∀ number issued, c.types.get? number = some issued → c'.types.get? number = some issued

/-- What is done among the expressions of a set does not lead out of it. -/
structure Contained (Z : Set ExprId) (c c' : Compilation) : Prop extends LocalTo Z c c' where
  keepsSealed : c.Sealed Z → c'.Sealed Z

variable {c c' c'' : Compilation} {Z S : Set ExprId} {id n t : ExprId} {d : DefId}
  {e : Expression}

theorem LocalTo.mono (h : c.LocalTo S c')
    (hS : ∀ n ∈ S, n.index < c.arena.exprs.size → n ∈ Z) : c.LocalTo Z c' :=
  ⟨h.toKeepsTo.mono hS, h.queue, h.types⟩

theorem Contained.refl (Z : Set ExprId) (c : Compilation) : c.Contained Z c :=
  ⟨⟨.refl Z c, rfl, fun _ _ => id⟩, id⟩

theorem Contained.trans (h : c.Contained Z c') (h' : c'.Contained Z c'') : c.Contained Z c'' where
  toKeepsTo := h.toKeepsTo.trans h'.toKeepsTo fun _ hn _ => hn
  queue := h'.queue.trans h.queue
  types number issued hget := h'.types number issued (h.types number issued hget)
  keepsSealed := h'.keepsSealed ∘ h.keepsSealed

/-- What lies at or below a node leads nowhere else. -/
theorem sealed_below (c : Compilation) (id : ExprId) :
    c.Sealed {n | c.Below id n ∨ c.arena.exprs.size ≤ n.index} where
  closed n hn m hm := by
    rcases hn with hn | hn
    · exact .inl (hn.tail hm)
    · rw [Arena.expr_of_size_le hn] at hm
      cases hm
  fresh _ := .inr

/-! ## Steps -/

/-- What is not in the tables of expressions does not count. -/
theorem contained_of_arena_eq (harena : c'.arena = c.arena) (hbuiltins : c'.builtins = c.builtins)
    (hqueue : c'.queue = c.queue)
    (htypes : ∀ number issued, c.types.get? number = some issued →
      c'.types.get? number = some issued) : c.Contained Z c' where
  builtins := hbuiltins
  defs := by rw [harena]
  stmts := by rw [harena]
  roots := by rw [harena]
  size := by rw [harena]
  expr n _ _ := by rw [harena]
  queue := hqueue
  types := htypes
  keepsSealed h := ⟨harena ▸ h.closed, harena ▸ h.fresh⟩

theorem contained_modifyExpr {f : Expression → Expression} (hn : n ∈ Z)
    (hf : c.Sealed Z → ∀ m ∈ (f (c.arena.expr n)).kind.children, m ∈ Z) :
    c.Contained Z (c.modifyArena (·.modifyExpr n f)) := by
  refine ⟨⟨keepsTo_modifyExpr hn f, rfl, fun _ _ => id⟩, fun h => ⟨fun p hp m hm => ?_, ?_⟩⟩
  · simp only [modifyArena, Arena.expr_modifyExpr] at hm
    split at hm
    · rename_i heq
      rw [heq.1] at hm
      exact hf h m hm
    · exact h.closed p hp m hm
  · intro p hp
    exact h.fresh p (by simpa [modifyArena] using hp)

theorem contained_setType (hn : n ∈ Z) (ty : Ty) :
    c.Contained Z (c.modifyArena (·.modifyExpr n fun e => { e with ty })) :=
  contained_modifyExpr hn fun h => h.closed n hn

theorem contained_allocExpr (hc : c.Sealed Z) (he : ∀ m ∈ e.kind.children, m ∈ Z) :
    c.Contained Z (c.allocExpr e).2 := by
  refine ⟨⟨keepsTo_allocExpr Z c e, rfl, fun _ _ => id⟩, fun _ => ⟨fun p hp m hm => ?_, ?_⟩⟩
  · simp only [Compilation.allocExpr, Arena.expr_allocExpr] at hm
    split at hm
    · exact he m hm
    · exact hc.closed p hp m hm
  · intro p hp
    simp only [Compilation.allocExpr, Arena.size_allocExpr] at hp
    exact hc.fresh p (Nat.le_of_succ_le hp)

theorem contained_reportNew (Z : Set ExprId) (c : Compilation) (e : CompileError) :
    c.Contained Z (c.reportNew e) := by
  refine contained_of_arena_eq (arena_reportNew c e) (sameProgram_reportNew c e).builtins
    (queue_reportNew c e) ?_
  unfold reportNew
  split <;> exact fun _ _ => id

end Compilation

/-! ## Types -/

/-- **Every type keeps its number** when a function type is requested. -/
theorem TypeStore.get?_functionType {store : TypeStore} {number : UInt32} {issued : IssuedType}
    (params : List Ty) (result : Ty) (isPure : Bool) (h : store.get? number = some issued) :
    (store.functionType params result isPure).2.get? number = some issued := by
  rw [functionType]
  split
  · exact h
  · have hlt : number.toNat < store.issued.size := (Array.getElem?_eq_some_iff.1 h).1
    simp only [get?, TypeTables.addFunction, TypeTables.register]
    rw [Array.getElem?_push, if_neg (Nat.ne_of_lt hlt)]
    exact h

namespace Compilation

variable {c c' : Compilation} {Z : Set ExprId} {id n t : ExprId} {d : DefId}
  {terms : List ExprId} {resolveRun : ExprId → CheckM Unit}

/-! ## Calls -/

/-- What is done for a call is contained in a set of its arguments. -/
theorem callLaw_contained {args : List ExprId} (hargs : ∀ n ∈ args, n ∈ Z) :
    CallLaw args (Contained Z) where
  refl := Contained.refl Z
  trans := Contained.trans
  coerced {c arg _ _} harg hcoerced := by
    -- A coerced argument has the children it had, or it is a value and has none.
    refine contained_modifyExpr (hargs arg harg) fun h m hm => ?_
    rcases Expression.coerce_kind hcoerced with hk | ⟨-, hv⟩
    · exact h.closed arg (hargs arg harg) m (hk ▸ hm)
    · rw [ExprKind.children_of_isValue hv] at hm
      cases hm
  issued _ _ _ _ := contained_of_arena_eq rfl rfl rfl fun _ _ => TypeStore.get?_functionType _ _ _

theorem createCall_contained (d : DefId) (args : List ExprId) (place : Span)
    (hargs : ∀ n ∈ args, n ∈ Z) :
    Outcome (createCall d args place) c
      (fun e c' => c.Contained Z c' ∧ e.kind = .call d args) fun _ => c.Contained Z :=
  ((callLaw_contained hargs).outcome_createCall d place c).mono (fun _ _ h => ⟨h.1, h.2.1⟩)
    fun _ _ => And.right

/-- **A call is built** among the expressions of a set. -/
theorem allocCall_contained (hc : c.Sealed Z) (d : DefId) {args : List ExprId} (place : Span)
    (hargs : ∀ n ∈ args, n ∈ Z) :
    Outcome (allocCall d args place) c (fun n c' => c.Contained Z c' ∧ n ∈ Z)
      fun _ => c.Contained Z := by
  simp only [allocCall, outcome_bind, outcome_allocExpr]
  refine (createCall_contained d args place hargs).imp ?_
  rintro e c₁ ⟨h₁, hk⟩
  have hc₁ := h₁.keepsSealed hc
  refine ⟨h₁.trans (contained_allocExpr hc₁ fun m hm => ?_), hc₁.fresh _ le_rfl⟩
  rw [hk] at hm
  exact hargs m hm

theorem normalizeOperand_contained (hc : c.Sealed Z) (hn : n ∈ Z) :
    Outcome (Arrangement.normalizeOperand n) c (fun m c' => c.Contained Z c' ∧ m ∈ Z)
      fun _ => c.Contained Z := by
  simp only [Arrangement.normalizeOperand, outcome_bind, outcome_expr]
  split
  · rename_i x hk
    have hx : x ∈ Z := hc.closed n hn x (by rw [hk]; exact List.mem_singleton_self x)
    simp only [outcome_bind, outcome_get]
    exact allocCall_contained hc _ _ (by simpa using hx)
  · exact ⟨.refl Z c, hn⟩

theorem applyCollected_contained (hc : c.Sealed Z) (hn : n ∈ Z) {args : List ExprId}
    (hargs : ∀ m ∈ args, m ∈ Z) :
    Outcome (Arrangement.applyCollected n args) c (fun m c' => c.Contained Z c' ∧ m ∈ Z)
      fun _ => c.Contained Z := by
  unfold Arrangement.applyCollected
  split
  · exact ⟨.refl Z c, hn⟩
  · simp only [outcome_bind, outcome_arena]
    split
    · exact allocCall_contained hc _ _ hargs
    · rename_i d bound hk
      refine allocCall_contained hc _ _ fun m hm => ?_
      -- An argument is one that the call has already, or a new one.
      rcases mem_of_mem_fillOpen hm with hm | hm
      · exact hc.closed n hn m (by rw [hk]; exact hm)
      · exact hargs m hm
    · exact ⟨.refl Z c, hn⟩

/-! ## Terms -/

/-- What resolves the runs among the terms stays among the expressions of a set. -/
def ConfinesRuns (Z : Set ExprId) (resolveRun : ExprId → CheckM Unit) : Prop :=
  ∀ (c : Compilation) (t : ExprId), c.Sealed Z → t ∈ Z →
    Outcome (resolveRun t) c (fun _ => c.Contained Z) fun _ => c.Contained Z

theorem contained_refreshed (ht : t ∈ Z) : c.Contained Z (c.refreshed t) := by
  unfold refreshed
  split
  · exact contained_setType ht _
  · exact contained_setType ht _
  · exact .refl Z c

theorem classifyResolved_contained (ht : t ∈ Z) (place : Span) :
    Outcome (classifyResolved t place) c
      (fun term c' => c.Contained Z c' ∧ ∀ id, term = .operand id → id = t)
      fun _ => c.Contained Z := by
  have hstep := contained_refreshed (c := c) ht
  simp only [classifyResolved, outcome_bind, outcome_refreshReference, outcome_expr]
  split
  · exact hstep
  · exact hstep
  · exact hstep
  · exact ⟨hstep, by rintro _ ⟨⟩⟩
  · simp only [operatorTerm, outcome_bind, outcome_definition]
    split
    · exact ⟨hstep, by rintro _ ⟨⟩⟩
    · exact ⟨hstep, by rintro _ ⟨⟩⟩
    · exact ⟨hstep, by rintro _ ⟨⟩⟩
    · exact ⟨hstep, by rintro _ ⟨⟩; rfl⟩
  · exact ⟨hstep, by rintro _ ⟨⟩; rfl⟩

/-- **A term is classified** among the expressions of a set. -/
theorem classify_contained (hres : ConfinesRuns Z resolveRun) (hc : c.Sealed Z) (ht : t ∈ Z) :
    Outcome (classify resolveRun t) c
      (fun term c' => c.Contained Z c' ∧ ∀ id, term = .operand id → id ∈ Z)
      fun _ => c.Contained Z := by
  have hrest {c₁ : Compilation} (h₁ : c.Contained Z c₁) (place : Span) :
      Outcome (classifyResolved t place) c₁
        (fun term c' => c.Contained Z c' ∧ ∀ id, term = .operand id → id ∈ Z)
        fun _ => c.Contained Z :=
    (classifyResolved_contained ht place).mono
      (fun _ _ h => ⟨h₁.trans h.1, fun id hid => h.2 id hid ▸ ht⟩) fun _ _ => h₁.trans
  simp only [classify, outcome_bind, outcome_expr]
  split
  · simp only [outcome_bind, outcome_attempt]
    refine (hres c t hc ht).mono (fun _ c₁ h₁ => hrest h₁ _) ?_
    rintro (e | _) c₁ h₁ <;> exact h₁
  · exact hrest (.refl Z c) _

/-- **The custody of a run that stays among the expressions of a set.** -/
def confinement (hres : ConfinesRuns Z resolveRun) (hterms : ∀ t ∈ terms, t ∈ Z) (span : Span) :
    Custody resolveRun terms span where
  Valid c := c.Sealed Z
  Later c c' := c.Contained Z c'
  Stops c _ c' := c.Contained Z c'
  Takes _ term := ∀ id, term = .operand id → id ∈ Z
  Opens _ n := n ∈ Z
  Holds _ n := n ∈ Z
  Yields _ e := ∀ m ∈ e.kind.children, m ∈ Z
  refl := .refl Z
  trans h h' := h.trans h'
  later h h' := h.trans h'
  refuse c _ _ _ := .refl Z c
  valid hc h := h.keepsSealed hc
  takes hterm _ := hterm
  opens hn _ := hn
  holds hn _ := hn
  closes hn := hn
  classify hc ht := classify_contained hres hc (hterms _ ht)
  sign _ _ := nofun
  minus _ _ _ := nofun
  operand hc hterm := normalizeOperand_contained hc (hterm _ rfl)
  apply hc hf hargs := applyCollected_contained hc hf hargs
  lead hc _ hx := allocCall_contained hc _ _ (by simpa using hx)
  trail hc _ hx := allocCall_contained hc _ _ (by simpa using hx)
  missing hc _ := ⟨contained_allocExpr hc nofun, hc.fresh _ le_rfl⟩
  combine hc _ hx hy := allocCall_contained hc _ _ (by simpa using ⟨hx, hy⟩)
  empty _ := nofun
  only hc ht := hc.closed _ (hterms _ ht)
  negated _ hterm m hm := List.mem_singleton.1 hm ▸ hterm _ rfl
  whole hc hn := hc.closed _ hn

/-! ## Runs -/

/-- **A run** is resolved among the expressions of a set, if the runs among its terms are. -/
theorem resolveNode_contained (hres : ConfinesRuns Z resolveRun) :
    ConfinesRuns Z (resolveNode resolveRun) := by
  intro c id hc hid
  simp only [resolveNode, outcome_bind, outcome_expr]
  split
  · rename_i terms hk
    have hterms : ∀ t ∈ terms, t ∈ Z := fun t ht => hc.closed id hid t (by rwa [hk])
    simp only [outcome_bind, outcome_attempt]
    refine ((confinement hres hterms _).keeps_resolveTerms hc).mono ?_ ?_
    · rintro e c₁ ⟨h₁, he⟩
      simp only [outcome_modifyExpr, outcome_expr, outcome_emit]
      have h₁ : c.Contained Z c₁ := h₁
      exact (h₁.trans (contained_modifyExpr (f := (·.replaceBy e)) hid fun _ => he)).trans
        (contained_of_arena_eq rfl rfl rfl fun _ _ h => h)
    · rintro (error | _) c₁ h₁
      · simp only [markFailed, outcome_bind, outcome_modifyExpr, outcome_modify, outcome_throw]
        have h₁ : c.Contained Z c₁ := h₁
        have hfailed : c.Contained Z _ := h₁.trans <| contained_modifyExpr
          (f := fun e => { e with kind := .syntaxError, ty := .absurd }) hid
          fun _ _ hm => by cases hm
        refine hfailed.trans (.trans ?_ (contained_reportNew Z _ error))
        exact contained_of_arena_eq rfl rfl rfl fun _ _ h => h
      · exact h₁
  · exact .refl Z c

/-- **Resolving a run** stays among the expressions of a set, to whatever depth it goes. -/
theorem resolveWithin_contained (Z : Set ExprId) (depth : Nat) :
    ConfinesRuns Z (resolveWithin depth) := by
  -- On the depth of nesting: the set is the same for the runs among the terms.
  induction depth with
  | zero => exact fun c _ _ _ => .refl Z c
  | succ depth ih => exact resolveNode_contained ih

/-- A graph without cycles has no runs that nest in each other. -/
theorem acc_termOf_of_acyclic (hc : c.arena.Acyclic) (id : ExprId) : Acc c.TermOf id := by
  refine Subrelation.accessible ?_ (hc.apply id)
  rintro t n ⟨ts, hk, ht⟩
  rwa [hk]

/-- Without cycles a node is resolved, or the resolution stops with an error. -/
theorem resolve_ne_cyclic (hc : c.arena.Acyclic) (id : ExprId) :
    Outcome (resolve id) c (fun _ _ => True) fun stop _ => ∃ error, stop = .error error := by
  by_cases hk : ∃ ts, (c.arena.expr id).kind = .run ts
  · obtain ⟨ts, hk⟩ := hk
    exact (resolve_calm hk (acc_termOf_of_acyclic hc id)).mono (fun _ _ _ => trivial)
      fun _ _ ⟨error, hstop, _⟩ => ⟨error, hstop⟩
  · rw [outcome_of_eq_ok (resolve_of_ne_run fun ts hts => hk ⟨ts, hts⟩)]
    trivial

end Compilation

/-- **Resolution is local.** Whether a node is resolved or refused, no expression that was there
before is changed unless it lay at or below the node; the definitions, the statements, the roots
and the queue are what they were, and every type keeps its number. -/
theorem resolve_local {c : Compilation} (hc : c.arena.Acyclic) (id : ExprId) :
    Outcome (resolve id) c (fun _ c' => c.LocalTo {n | c.Below id n} c')
      fun stop c' => (∃ error, stop = .error error) ∧ c.LocalTo {n | c.Below id n} c' := by
  have hlocal : Outcome (resolve id) c (fun _ => c.LocalTo {n | c.Below id n})
      fun _ => c.LocalTo {n | c.Below id n} := by
    have hforget {c' : Compilation}
        (h : c.Contained {n | c.Below id n ∨ c.arena.exprs.size ≤ n.index} c') :
        c.LocalTo {n | c.Below id n} c' :=
      h.toLocalTo.mono fun n hn hlt => hn.resolve_right (Nat.not_le_of_lt hlt)
    simp only [resolve, outcome_bind, outcome_arena]
    exact (resolveWithin_contained _ _ c id (c.sealed_below id) (.inl .refl)).mono
      (fun _ _ => hforget) fun _ _ => hforget
  exact (hlocal.and (resolve_ne_cyclic hc id)).mono (fun _ _ => And.left) fun _ _ => And.symm

/-- The group of `3 + (1 2)` is refused, and the run around it is what it was. -/
theorem resolve_group_local :
    failingGroup.arena.Acyclic ∧ ∃ error c',
      resolve ⟨2⟩ failingGroup = .error (.error error) c' ∧
      failingGroup.LocalTo {n | failingGroup.Below ⟨2⟩ n} c' ∧
      c'.arena.expr ⟨5⟩ = failingGroup.arena.expr ⟨5⟩ := by
  have hacyclic : failingGroup.arena.Acyclic := Arena.acyclic_of_lt (by decide)
  obtain ⟨c', hc'⟩ : ∃ c', resolve ⟨2⟩ failingGroup =
      .error (.error ⟨.expectedOperator, .origin⟩) c' := exists_error_of_eq (by decide +kernel)
  have hlocal := resolve_local hacyclic ⟨2⟩
  rw [Outcome, hc'] at hlocal
  refine ⟨hacyclic, _, c', hc', hlocal.2, hlocal.2.expr ⟨5⟩ (by decide) fun hbelow => ?_⟩
  -- Nothing that lies below the group comes behind it in the table.
  have hlt : ∀ n, ∀ m ∈ (failingGroup.arena.expr n).kind.children, m.index < n.index :=
    Arena.forall_children (by decide)
  have hle : ∀ n, failingGroup.Below ⟨2⟩ n → n.index ≤ 2 := by
    intro n hn
    induction hn with
    | refl => exact le_rfl
    | tail _ hm ih => exact (hlt _ _ hm).le.trans ih
  exact absurd (hle _ hbelow) (by decide)

end Termwise
