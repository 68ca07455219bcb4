import Termwise.Proofs.Concretization.Parallel

/-!
# Walks of a program with some nodes and without

A walk does not depend on nodes that it does not reach. In a program with some more nodes it does
the same to the counterparts of the nodes that it walks in the smaller program. The descents of a
round are as deep as the tables are large, so they differ; but without a cycle none of them is too
deep, since what lay below a node when the round began still does, and what came to lie below it
since then is left to the next round.

## Main definitions

* `ParallelWalk`: walks of two programs

## Main results

* `visitor_parallel`: the walk of the smaller program, and that of the larger one
-/

namespace Termwise

open Compilation

variable {α β : Type} {I : Insertion} {n id x : ExprId} {d : DefId}

/-! ## Walks -/

variable {w v : Walk} {settings : Settings} {active : List DefId} {next : Visitor}
  {child child' : ExprId → WalkM Unit}

/-- Walks of two programs, without some nodes and with them, that dealt with the same definitions.
-/
structure Walk.Inserted (I : Insertion) (w v : Walk) : Prop where
  unit : Compilation.Inserted I w.unit v.unit
  finished : v.finished = w.finished

/-- **A part of two walks.** -/
def ParallelWalk (I : Insertion) (first second : WalkM α) (w v : Walk) : Prop :=
  Lockstep first second w v
    (fun a b w' v' => Walk.Inserted I w' v' ∧ w.unit.Branches w'.unit ∧ b = a)
    fun w' v' => Walk.Inserted I w' v' ∧ w.unit.Branches w'.unit

/-- What lies below an expression is walked in the same way in both programs, in every state that
goes on from the present one. -/
def ChildrenParallel (I : Insertion) (child child' : ExprId → WalkM Unit) (w : Walk) (id : ExprId) :
    Prop :=
  ∀ n ∈ (w.unit.arena.expr id).kind.children, ∀ w' v', Walk.Inserted I w' v' →
    w.unit.Branches w'.unit → ParallelWalk I (child n) (child' (I.move n)) w' v'

/-- A visitor does the same to an expression and to its counterpart, and to a statement. -/
structure Visitor.Parallel (I : Insertion) (next : Visitor) : Prop where
  expr : ∀ (active : List DefId) (id : ExprId) (w v : Walk), Walk.Inserted I w v →
    ParallelWalk I (next.expr active id) (next.expr active (I.move id)) w v
  statement : ∀ (active : List DefId) (s : StmtId) (w v : Walk), Walk.Inserted I w v →
    ParallelWalk I (next.statement active s) (next.statement active s) w v

section

variable {first second : WalkM α}

@[simp] theorem parallelWalk_get {rest rest' : Walk → WalkM α} :
    ParallelWalk I (get >>= rest) (get >>= rest') w v ↔
      ParallelWalk I (rest w) (rest' v) w v := Iff.rfl

@[simp] theorem parallelWalk_arena {rest rest' : Arena → WalkM α} :
    ParallelWalk I (liftM CheckM.arena >>= rest) (liftM CheckM.arena >>= rest') w v ↔
      ParallelWalk I (rest w.unit.arena) (rest' v.unit.arena) w v := Iff.rfl

@[simp] theorem parallelWalk_expr {rest rest' : Expression → WalkM α} (n m : ExprId) :
    ParallelWalk I (liftM (CheckM.expr n) >>= rest) (liftM (CheckM.expr m) >>= rest') w v ↔
      ParallelWalk I (rest (w.unit.arena.expr n)) (rest' (v.unit.arena.expr m)) w v := Iff.rfl

@[simp] theorem parallelWalk_definition {rest rest' : Definition → WalkM α} (d : DefId) :
    ParallelWalk I (liftM (CheckM.definition d) >>= rest) (liftM (CheckM.definition d) >>= rest')
        w v ↔
      ParallelWalk I (rest (w.unit.arena.definition d)) (rest' (v.unit.arena.definition d)) w v :=
  Iff.rfl

theorem parallelWalk_pure (h : Walk.Inserted I w v) (a : α) :
    ParallelWalk I (pure a) (pure a) w v := ⟨h, .refl w.unit, rfl⟩

/-- Both walks stop for the same reason. -/
theorem parallelWalk_fail (h : Walk.Inserted I w v) (cause : Cause) (span : Span) :
    ParallelWalk I (liftM (CheckM.fail cause span : CheckM α))
      (liftM (CheckM.fail cause span : CheckM α)) w v :=
  ⟨rfl, h, .refl w.unit⟩

theorem parallelWalk_fail_bind {rest rest' : β → WalkM α} (h : Walk.Inserted I w v)
    (cause : Cause) (span : Span) :
    ParallelWalk I (liftM (CheckM.fail cause span) >>= rest)
      (liftM (CheckM.fail cause span) >>= rest') w v :=
  ⟨rfl, h, .refl w.unit⟩

/-- Walks that have no round left. -/
theorem parallelWalk_cyclic (h : Walk.Inserted I w v) :
    ParallelWalk I (throw .cyclic : WalkM α) (throw .cyclic) w v :=
  ⟨rfl, h, .refl w.unit⟩

/-- **Parts in sequence.** -/
theorem ParallelWalk.bind {first second : WalkM β} {rest rest' : β → WalkM α}
    (h : ParallelWalk I first second w v)
    (hrest : ∀ b w' v', Walk.Inserted I w' v' → w.unit.Branches w'.unit →
      ParallelWalk I (rest b) (rest' b) w' v') :
    ParallelWalk I (first >>= rest) (second >>= rest') w v := by
  refine Lockstep.bind h ?_
  rintro b _ w' v' ⟨hinserted, hbranches, rfl⟩
  refine Lockstep.mono (hrest _ w' v' hinserted hbranches) ?_ ?_
  · exact fun _ _ _ _ h => ⟨h.1, hbranches.trans h.2.1, h.2.2⟩
  · exact fun _ _ h => ⟨h.1, hbranches.trans h.2⟩

/-- A step of both programs, as part of the walks. -/
theorem parallelWalk_lift {first second : CheckM α} (h : Walk.Inserted I w v)
    (hstep : Termwise.Parallel I first second w.unit v.unit fun a b _ => b = a) :
    ParallelWalk I (liftM first) (liftM second) w v := by
  unfold Termwise.Parallel Lockstep at hstep
  unfold ParallelWalk Lockstep
  simp only [liftM, monadLift, MonadLift.monadLift, CheckM.inWalk]
  rcases hfirst : first w.unit with ⟨a, c'⟩ | ⟨e, c'⟩ <;>
    rcases hsecond : second v.unit with ⟨b, k'⟩ | ⟨e', k'⟩ <;> rw [hfirst, hsecond] at hstep
  · exact ⟨⟨hstep.1, h.finished⟩, hstep.2⟩
  · exact hstep
  · exact hstep
  · exact ⟨hstep.1, ⟨hstep.2.1, h.finished⟩, hstep.2.2⟩

theorem parallelWalk_steps {first second : CheckM Unit} (h : Walk.Inserted I w v)
    (hstep : Steps I first second w.unit v.unit) :
    ParallelWalk I (liftM first) (liftM second) w v :=
  parallelWalk_lift h (hstep.imp fun _ _ _ _ => rfl)

/-- Attempts hand over the same error. -/
theorem ParallelWalk.attempt (h : ParallelWalk I first second w v) :
    ParallelWalk I (WalkM.attempt first) (WalkM.attempt second) w v := by
  unfold ParallelWalk Lockstep at h ⊢
  simp only [WalkM.attempt]
  rcases hfirst : first w with ⟨a, w'⟩ | ⟨e, w'⟩ <;>
    rcases hsecond : second v with ⟨b, v'⟩ | ⟨e', v'⟩ <;> rw [hfirst, hsecond] at h
  · exact ⟨h.1, h.2.1, congrArg _ h.2.2⟩
  · exact h.elim
  · exact h.elim
  · obtain ⟨rfl, hinserted, hbranches⟩ := h
    cases e' with
    | error e => exact ⟨hinserted, hbranches, rfl⟩
    | cyclic => exact ⟨rfl, hinserted, hbranches⟩

theorem parallelWalk_finish (h : Walk.Inserted I w v) (d : DefId) :
    ParallelWalk I (WalkM.finish d) (WalkM.finish d) w v :=
  ⟨⟨h.unit, congrArg (d :: ·) h.finished⟩, .refl w.unit, rfl⟩

theorem parallelWalk_reportOutcome (h : Walk.Inserted I w v)
    (outcome : Except CompileError Unit) :
    ParallelWalk I (WalkM.reportOutcome outcome) (WalkM.reportOutcome outcome) w v := by
  cases outcome with
  | ok => exact parallelWalk_pure h ()
  | error e =>
    have harena (c : Compilation) := c.arena_reportNew e
    have hsame (c : Compilation) := c.sameProgram_reportNew e
    refine ⟨⟨?_, h.finished⟩, ?_, rfl⟩
    · exact h.unit.of_arena_eq (harena _) (hsame _).builtins (harena _) (hsame _).builtins
    · exact branches_of_children (hsame _) (congrArg (·.exprs.size) (harena _)) fun n =>
        congrArg (fun a => (Arena.expr a n).kind.children) (harena _)

end

/-! ### Definitions and uses -/

/-- **A definition** is walked in both programs, or in none. -/
theorem parallel_visitDefinition (hnext : next.Parallel I) (h : Walk.Inserted I w v)
    (active : List DefId) (d : DefId) :
    ParallelWalk I (visitDefinition next active d) (visitDefinition next active d) w v := by
  simp only [visitDefinition, parallelWalk_definition, h.unit.definition]
  split
  · exact parallelWalk_pure h ()
  · exact parallelWalk_pure h ()
  · rename_i s _
    simp only [parallelWalk_get, h.finished]
    split
    · exact parallelWalk_pure h ()
    · refine (parallelWalk_finish h d).bind ?_
      exact fun _ w' v' h' _ => hnext.statement active s w' v' h'
  · rename_i b hb
    simp only [parallelWalk_get, h.finished]
    split
    · exact parallelWalk_pure h ()
    · have hbody := hnext.expr (d :: active) b w v h
      rw [h.unit.index_body hb] at hbody
      refine hbody.attempt.bind fun outcome w₁ v₁ h₁ _ => ?_
      refine (parallelWalk_finish h₁ d).bind fun _ w₂ v₂ h₂ _ => ?_
      cases outcome with
      | ok => exact parallelWalk_pure h₂ ()
      | error error =>
        refine (parallelWalk_reportOutcome h₂ _).bind fun _ w₃ v₃ h₃ _ => ?_
        exact parallelWalk_fail h₃ _ _

/-- **A use** is replaced and walked again in both programs, or in none. -/
theorem parallel_trySubstitute (hnext : next.Parallel I) (h : Walk.Inserted I w v)
    (active : List DefId) (hd : (w.unit.arena.expr id).kind.definition? = some d) :
    ParallelWalk I (trySubstitute settings next active id d)
      (trySubstitute settings next active (I.move id) d) w v := by
  unfold trySubstitute
  split
  · exact parallelWalk_pure h false
  · refine (parallelWalk_lift h (parallel_substitute settings h.unit id hd)).bind ?_
    intro replaced w₁ v₁ h₁ _
    cases replaced with
    | true =>
      refine (hnext.expr (d :: active) id w₁ v₁ h₁).bind fun _ w₂ v₂ h₂ _ => ?_
      exact parallelWalk_pure h₂ true
    | false => exact parallelWalk_pure h₁ false

theorem parallel_visitReference (hnext : next.Parallel I) (h : Walk.Inserted I w v)
    (active : List DefId) (hd : (w.unit.arena.expr id).kind.definition? = some d) :
    ParallelWalk I (visitReference settings next active id d)
      (visitReference settings next active (I.move id) d) w v := by
  unfold visitReference
  refine (parallel_trySubstitute hnext h active hd).bind fun replaced w₁ v₁ h₁ _ => ?_
  cases replaced with
  | true => exact parallelWalk_pure h₁ ()
  | false =>
    refine (parallel_visitDefinition hnext h₁ active d).bind fun _ w₂ v₂ h₂ _ => ?_
    exact parallelWalk_steps h₂ (parallel_typeReference h₂.unit id d)

/-! ### Calls -/

/-- Expressions are walked one after the other, each in states that go on from a known one. -/
theorem parallel_visitEach {c : Compilation} (ns : List ExprId)
    (hchild : ∀ n ∈ ns, ∀ w v, Walk.Inserted I w v → c.Branches w.unit →
      ParallelWalk I (child n) (child' (I.move n)) w v)
    (h : Walk.Inserted I w v) (hc : c.Branches w.unit) :
    ParallelWalk I (visitEach child ns) (visitEach child' (ns.map I.move)) w v := by
  induction ns generalizing w v with
  | nil => exact parallelWalk_pure h ()
  | cons n ns ih =>
    obtain ⟨hn, hns⟩ := List.forall_mem_cons.1 hchild
    refine (hn w v h hc).bind ?_
    exact fun _ w' v' h' hbranches => ih hns h' (hc.trans hbranches)

theorem parallel_visitCall (hnext : next.Parallel I)
    (hchild : ChildrenParallel I child child' w id) (h : Walk.Inserted I w v)
    (active : List DefId) {args : List ExprId}
    (hk : (w.unit.arena.expr id).kind = .call d args) :
    ParallelWalk I (visitCall settings next child active id d args)
      (visitCall settings next child' active (I.move id) d (args.map I.move)) w v := by
  have hbound : (args.map I.move).countP (fun arg => !v.unit.arena.isMissing arg) =
      args.countP fun arg => !w.unit.arena.isMissing arg := by
    simp only [List.countP_map, Function.comp_def, h.unit.isMissing]
  simp only [visitCall, parallelWalk_arena, h.unit.isPartialCall, h.unit.definitionType,
    h.unit.definition, h.unit.arena.expr, Expression.span_relocate, hbound]
  split
  · exact parallelWalk_fail_bind h _ _
  · simp only [List.isEmpty_map]
    have hrest {w' v' : Walk} (h' : Walk.Inserted I w' v')
        (hbranches : w.unit.Branches w'.unit) : ParallelWalk I
        (do
          visitDefinition next active d
          visitEach child args
          liftM (typeCall id (w.unit.arena.definitionType d) args))
        (do
          visitDefinition next active d
          visitEach child' (args.map I.move)
          liftM (typeCall (I.move id) (w.unit.arena.definitionType d) (args.map I.move)))
        w' v' := by
      refine (parallel_visitDefinition hnext h' active d).bind fun _ w₁ v₁ h₁ hbranches₁ => ?_
      have hargs := parallel_visitEach args (fun n hn => hchild n (by rwa [hk])) h₁
        (hbranches.trans hbranches₁)
      refine hargs.bind fun _ w₂ v₂ h₂ _ => ?_
      exact parallelWalk_steps h₂ (parallel_typeCall h₂.unit id _ args)
    split
    · refine (parallel_trySubstitute hnext h active (by rw [hk]; rfl)).bind ?_
      intro replaced w₁ v₁ h₁ hbranches
      cases replaced with
      | true => exact parallelWalk_pure h₁ ()
      | false => exact hrest h₁ hbranches
    · exact hrest h (.refl w.unit)

/-- **A minus sign** becomes a call in both programs once its operand was walked. -/
theorem parallel_visitNegation (hnext : next.Parallel I)
    (hchild : ChildrenParallel I child child' w id) (h : Walk.Inserted I w v)
    (active : List DefId) (hk : (w.unit.arena.expr id).kind = .negated x) :
    ParallelWalk I (visitNegation next child active id x)
      (visitNegation next child' active (I.move id) (I.move x)) w v := by
  unfold visitNegation
  have hmem : x ∈ (w.unit.arena.expr id).kind.children := by
    rw [hk]
    exact List.mem_singleton_self x
  refine (hchild x hmem w v h (.refl w.unit)).bind fun _ w₁ v₁ h₁ hbranches => ?_
  have hx : (w₁.unit.arena.expr id).kind.children = [x] := by
    rw [hbranches.children_eq (List.ne_nil_of_mem hmem), hk]
    rfl
  refine (parallelWalk_steps h₁ (parallel_callNegation h₁.unit hx)).bind ?_
  exact fun _ w₂ v₂ h₂ _ => hnext.expr active id w₂ v₂ h₂

/-! ### Expressions and statements -/

/-- **An expression** is walked in both programs. -/
theorem parallel_visitExpr (hnext : next.Parallel I)
    (hchild : ChildrenParallel I child child' w id) (h : Walk.Inserted I w v)
    (active : List DefId) :
    ParallelWalk I (visitExpr settings next child active id)
      (visitExpr settings next child' active (I.move id)) w v := by
  simp only [visitExpr, parallelWalk_expr, h.unit.arena.expr, Expression.kind_relocate,
    Expression.ty_relocate, Expression.span_relocate]
  have hend {w' v' : Walk} (h' : Walk.Inserted I w' v') : ParallelWalk I
      (do liftM (honourDeclared id); liftM (requireNative id))
      (do liftM (honourDeclared (I.move id)); liftM (requireNative (I.move id))) w' v' := by
    refine (parallelWalk_steps h' (parallel_honourDeclared h'.unit id)).bind ?_
    exact fun _ w₁ v₁ h₁ _ => parallelWalk_steps h₁ (parallel_requireNative h₁.unit id)
  cases hk : (w.unit.arena.expr id).kind with
  | value value =>
    refine (parallelWalk_steps h (parallel_concretizeValue h.unit id)).bind ?_
    exact fun _ w₁ v₁ h₁ _ => hend h₁
  | reference d =>
    refine (parallel_visitReference hnext h active (by rw [hk]; rfl)).bind ?_
    exact fun _ w₁ v₁ h₁ _ => hend h₁
  | operator d =>
    refine (parallel_visitReference hnext h active (by rw [hk]; rfl)).bind ?_
    exact fun _ w₁ v₁ h₁ _ => hend h₁
  | call d args =>
    refine (parallel_visitCall hnext hchild h active hk).bind ?_
    exact fun _ w₁ v₁ h₁ _ => hend h₁
  | negated x =>
    refine (parallel_visitNegation hnext hchild h active hk).bind ?_
    exact fun _ w₁ v₁ h₁ _ => hend h₁
  | _ => exact parallelWalk_fail_bind h _ _

/-- **Within a round** both walks descend deep enough, if the descent of the smaller program is deep
enough for what lay below the expression when the round began. -/
theorem parallel_visitWithin (hnext : next.Parallel I) (active : List DefId) {start : Compilation}
    (hstart : I.start ≤ start.arena.exprs.size) {depth depth' : Nat} (hpos : 0 < depth)
    (hle : depth ≤ depth')
    (hdepth : id.index < start.arena.exprs.size → start.arena.Shallow (fun _ => True) depth id)
    (h : Walk.Inserted I w v) (hbranches : start.Branches w.unit) :
    ParallelWalk I (visitWithin settings next active start.arena.exprs.size depth id)
      (visitWithin settings next active (start.arena.exprs.size + I.gap) depth' (I.move id)) w
      v := by
  induction depth generalizing depth' id w v with
  | zero => exact absurd hpos (Nat.lt_irrefl 0)
  | succ depth ih =>
    obtain ⟨depth', rfl⟩ := Nat.exists_eq_add_one.2 (Nat.zero_lt_of_lt hle)
    refine parallel_visitExpr hnext (fun n hn w' v' h' hbranches' => ?_) h active
    simp only [Insertion.index_move_lt_iff hstart]
    split
    · rename_i hlt
      -- An old node that lies below this one did so when the round began.
      have hmem := hbranches.mem_children hn hlt
      have hid : id.index < start.arena.exprs.size := by
        refine Arena.lt_size_of_kind_ne fun hk => ?_
        rw [hk] at hmem
        cases hmem
      have hshallow := (hdepth hid).2.2 n hmem
      refine ih ?_ (Nat.le_of_succ_le_succ hle) (fun _ => hshallow) h' (hbranches.trans hbranches')
      cases depth with
      | zero => exact hshallow.elim
      | succ depth => exact Nat.succ_pos depth
    · exact hnext.expr active n w' v' h'

theorem parallel_each {visit : StmtId → WalkM Unit}
    (hvisit : ∀ s w v, Walk.Inserted I w v → ParallelWalk I (visit s) (visit s) w v)
    (ss : List StmtId) (h : Walk.Inserted I w v) :
    ParallelWalk I (visitStatementWithin.each visit ss) (visitStatementWithin.each visit ss) w
      v := by
  induction ss generalizing w v with
  | nil => exact parallelWalk_pure h ()
  | cons s ss ih => exact (hvisit s w v h).bind fun _ w' v' h' _ => ih h'

theorem parallel_visitStatementWithin (hnext : next.Parallel I) (active : List DefId)
    (depth : Nat) (s : StmtId) (h : Walk.Inserted I w v) :
    ParallelWalk I (visitStatementWithin next active depth s)
      (visitStatementWithin next active depth s) w v := by
  induction depth generalizing s w v with
  | zero => exact parallelWalk_cyclic h
  | succ depth ih =>
    simp only [visitStatementWithin, parallelWalk_arena]
    have hstmt : v.unit.arena.stmt s = w.unit.arena.stmt s := h.unit.program.stmt s
    -- A statement shows expressions that stay where they are.
    have hshown {e : ExprId} (he : (w.unit.arena.stmt s).kind = .expression e ∨
        (w.unit.arena.stmt s).kind = .result e) : ParallelWalk I
        (do WalkM.reportOutcome (← WalkM.attempt (next.expr active e)))
        (do WalkM.reportOutcome (← WalkM.attempt (next.expr active e))) w v := by
      have hvisit := hnext.expr active e w v h
      rw [I.move_of_lt (h.unit.grounded.shown s e he)] at hvisit
      refine hvisit.attempt.bind ?_
      exact fun outcome _ _ h' _ => parallelWalk_reportOutcome h' outcome
    rw [hstmt]
    split
    · exact hshown (.inl ‹_›)
    · exact hshown (.inr ‹_›)
    · refine (parallel_visitDefinition hnext h active _).attempt.bind ?_
      exact fun outcome _ _ h' _ => parallelWalk_reportOutcome h' outcome
    · exact parallel_each (fun s w v h => ih s h) _ h
    · exact parallelWalk_pure h ()
    · exact parallelWalk_pure h ()

/-- **The walk** of a program, and that of the program with some nodes more. -/
theorem visitor_parallel (I : Insertion) (settings : Settings) (rounds : Nat) :
    (visitor settings rounds).Parallel I := by
  -- On the rounds: within one, the walks descend together; what leaves it begins the next one.
  induction rounds with
  | zero => exact ⟨fun _ _ _ _ h => parallelWalk_cyclic h, fun _ _ _ _ h => parallelWalk_cyclic h⟩
  | succ rounds ih =>
    constructor
    · intro active id w v h
      simp only [visitor, parallelWalk_arena, h.unit.arena.size]
      refine parallel_visitWithin ih active h.unit.arena.start (Nat.succ_pos _) ?_ ?_ h
        (.refl w.unit)
      · omega
      · exact fun hid => (h.unit.grounded.shallow hid).mono (Nat.le_succ _)
    · intro active s w v h
      simp only [visitor, parallelWalk_arena, h.unit.program.stmts]
      exact parallel_visitStatementWithin ih active _ s h

end Termwise
