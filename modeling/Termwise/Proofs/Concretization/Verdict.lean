import Termwise.Proofs.Concretization.Region

/-!
# The verdict of concretization

The walk of the root statements goes on past errors: the outcome of every expression and definition
in them is reported where it arises, and forgotten. Here the outcomes are recorded instead, so that
the verdict can be held against them.

An error makes the program invalid as it is reported. Only one that stems from another error is not
reported, on the assumption that the other one was. If a failed term was reported, if only
expressions without a value are typed `Ty.absurd`, and if no declared type mentions it, then the
assumption is right, and a verdict that the program is valid means that every root was walked to its
end. Without that the verdict may be wrong: a failed term that nobody reported is never heard of
again.

## Main definitions

* `rootOutcomes`: the walk of the root statements, with the outcomes recorded

## Main results

* `concretizeAll_eq`: the verdict is that on the recorded outcomes
* `concretizeAll_of_error`: a root that fails makes the program invalid
-/

namespace Termwise

open Compilation

/-! ## Recorded outcomes -/

/-- Runs a part of the walk, reports its outcome and records it. -/
def WalkM.record (visit : WalkM Unit) : WalkM (List (Except CompileError Unit)) := do
  let outcome ← WalkM.attempt visit
  WalkM.reportOutcome outcome
  return [outcome]

/-- Walks each statement in turn and records all outcomes. -/
def recordEach (visit : StmtId → WalkM (List (Except CompileError Unit))) :
    List StmtId → WalkM (List (Except CompileError Unit))
  | [] => return []
  | id :: rest => do
    let outcomes ← visit id
    return outcomes ++ (← recordEach visit rest)

/-- Walks one statement and records the outcome of every expression and definition in it. -/
def recordStatement (next : Visitor) (active : List DefId) :
    (depth : Nat) → StmtId → WalkM (List (Except CompileError Unit))
  | 0, _ => throw .cyclic
  | depth + 1, id => do
    match ((← CheckM.arena).stmt id).kind with
    | .expression e | .result e => WalkM.record (next.expr active e)
    | .bind d => WalkM.record (visitDefinition next active d)
    | .block statements => recordEach (recordStatement next active depth) statements
    | .empty | .deleted => return []

/-- Walks all root statements and records the outcome of every expression and definition in
them. -/
def rootOutcomes (settings : Settings) : CheckM (List (Except CompileError Unit)) := do
  let arena ← CheckM.arena
  runWalk (recordEach (fun id => do
    let depth := (← CheckM.arena).stmts.size
    recordStatement (visitor settings (arena.rounds - 1)) [] (depth + 1) id) arena.roots)

variable {next : Visitor} {active : List DefId} {settings : Settings}

/-! ## The verdict is that on the recorded outcomes -/

theorem each_eq_recordEach {visit : StmtId → WalkM Unit}
    {record : StmtId → WalkM (List (Except CompileError Unit))}
    (h : ∀ id, visit id = (do let _ ← record id; return)) (ss : List StmtId) :
    visitStatementWithin.each visit ss = (do let _ ← recordEach record ss; return) := by
  induction ss with
  | nil => rfl
  | cons s ss ih => simp only [visitStatementWithin.each, recordEach, h, ih, bind_assoc, pure_bind]

theorem visitStatementWithin_eq (next : Visitor) (active : List DefId) (depth : Nat) (id : StmtId) :
    visitStatementWithin next active depth id =
      (do let _ ← recordStatement next active depth id; return) := by
  have hrecord (visit : WalkM Unit) :
      (do WalkM.reportOutcome (← WalkM.attempt visit)) =
        (do let _ ← WalkM.record visit; return) := by
    simp only [WalkM.record, bind_assoc, pure_bind, bind_pure_unit]
  induction depth generalizing id with
  | zero => rfl
  | succ depth ih =>
    simp only [visitStatementWithin, recordStatement, bind_assoc]
    refine bind_congr fun a => ?_
    cases (a.stmt id).kind with
    | expression | result | bind => exact hrecord _
    | block ss => exact each_eq_recordEach ih ss
    | empty | deleted => rfl

/-- **The verdict** is that on the recorded outcomes. -/
theorem concretizeAll_eq (settings : Settings) :
    concretizeAll settings = (do let _ ← rootOutcomes settings; return (← get).isValid) := by
  have hrounds (a : Arena) : a.rounds = a.rounds - 1 + 1 := by
    simp only [Arena.rounds]
    omega
  have hwalk {α β : Type} (action : WalkM α) (f : α → β) :
      runWalk (do let a ← action; return f a) = (do let a ← runWalk action; return f a) := by
    funext c
    simp only [runWalk, bind, EStateM.bind]
    cases action ⟨c, []⟩ <;> rfl
  simp only [concretizeAll, rootOutcomes, bind_assoc]
  refine bind_congr fun a => ?_
  have hvisit (id : StmtId) : (visitor settings a.rounds).statement [] id = (do
      let _ ← (do
        let depth := (← CheckM.arena).stmts.size
        recordStatement (visitor settings (a.rounds - 1)) [] (depth + 1) id)
      return) := by
    rw [hrounds a]
    simp only [visitor, bind_assoc, visitStatementWithin_eq, Nat.add_sub_cancel]
  rw [each_eq_recordEach hvisit, hwalk]
  simp only [bind_assoc, pure_bind]

/-! ## Errors and the verdict -/

/-- The walk of the roots can go on, if the program is still valid. -/
def Walk.OnTrack (w : Walk) : Prop := ∃ A, w.unit.isValid = true → Ready w [] A ∅

/-- What recorded outcomes say of the program. If the walk is on track under some assumption, then
every error makes the program invalid under it; an error that is not taken to be reported does so
anyway. -/
structure Recorded (assumed : Prop) (w : Walk) (outcomes : List (Except CompileError Unit))
    (w' : Walk) : Prop where
  isValid : w'.unit.isValid = true → w.unit.isValid = true
  onTrack : assumed → w'.OnTrack
  error : ∀ e, .error e ∈ outcomes → e.isAlreadyReported = false ∨ assumed →
    w'.unit.isValid = false

variable {assumed : Prop} {w w' w'' : Walk} {outcomes outcomes' : List (Except CompileError Unit)}

theorem Recorded.nil (h : assumed → w.OnTrack) : Recorded assumed w [] w :=
  ⟨fun hvalid => hvalid, h, by simp⟩

theorem Recorded.append (h : Recorded assumed w outcomes w')
    (h' : Recorded assumed w' outcomes' w'') : Recorded assumed w (outcomes ++ outcomes') w'' where
  isValid hvalid := h.isValid (h'.isValid hvalid)
  onTrack := h'.onTrack
  error e he hassumed := by
    rcases List.mem_append.1 he with he | he
    · -- Once the program is invalid it stays so.
      by_contra hvalid
      rw [Bool.not_eq_false] at hvalid
      have := h'.isValid hvalid
      rw [h.error e he hassumed] at this
      cases this
    · exact h'.error e he hassumed

theorem closed_univ (c : Compilation) : c.Closed Set.univ :=
  ⟨fun _ _ _ _ => trivial, fun _ _ => trivial⟩

/-- **An outcome** that is recorded was reported. -/
theorem record_recorded {visit : WalkM Unit} (htrack : assumed → w.OnTrack)
    (hkeeps : ∀ A, (w.unit.isValid = true → Ready w [] A ∅) →
      Keeps visit w A ∅ fun _ _ _ => True)
    (hgoes : (roaming settings Set.univ).Goes [] visit w fun _ _ => True) :
    Outcome (WalkM.record visit) w (Recorded assumed w) fun _ _ => True := by
  simp only [WalkM.record, outcome_bind, outcome_walk_attempt]
  by_cases hs : assumed
  · obtain ⟨A, hready⟩ := htrack hs
    refine ((hkeeps A hready).and hgoes).mono ?_ ?_
    · rintro _ w₁ ⟨⟨A₁, hadvance⟩, hroams, -⟩
      refine ⟨hroams.isValid, fun _ => ⟨A₁, fun hvalid => ?_⟩, by simp⟩
      exact (hadvance hvalid).1.ready (hready (hadvance hvalid).1.isValid)
    · rintro (e | _) w₁ ⟨hstop, hroams⟩
      · -- Either the error is reported now, or the program is invalid already.
        have hinvalid : (w₁.unit.reportNew e).isValid = false := by
          by_contra hvalid
          obtain ⟨hvalid, hsilent⟩ := isValid_reportNew (by simpa using hvalid)
          rw [hstop hsilent] at hvalid
          cases hvalid
        refine ⟨fun hvalid => ?_, fun _ => ⟨∅, fun hvalid => ?_⟩, fun _ _ _ => hinvalid⟩
        · cases hinvalid.symm.trans hvalid
        · cases hinvalid.symm.trans hvalid
      · trivial
  · refine Outcome.mono hgoes ?_ ?_
    · rintro _ w₁ ⟨hroams, -⟩
      exact ⟨hroams.isValid, fun h => (hs h).elim, by simp⟩
    · rintro (e | _) w₁ hroams
      · refine ⟨fun hvalid => hroams.isValid (isValid_reportNew hvalid).1, fun h => (hs h).elim, ?_⟩
        intro e' he' hreported
        obtain rfl : e' = e := by simpa using he'
        by_contra hvalid
        have hsilent := (isValid_reportNew (by simpa using hvalid)).2
        rw [hreported.resolve_right hs] at hsilent
        cases hsilent
      · trivial

theorem recordEach_recorded {visit : StmtId → WalkM (List (Except CompileError Unit))}
    (hvisit : ∀ s w, (assumed → w.OnTrack) →
      Outcome (visit s) w (Recorded assumed w) fun _ _ => True)
    (ss : List StmtId) (htrack : assumed → w.OnTrack) :
    Outcome (recordEach visit ss) w (Recorded assumed w) fun _ _ => True := by
  induction ss generalizing w with
  | nil => exact .nil htrack
  | cons s ss ih =>
    simp only [recordEach, outcome_bind, outcome_pure]
    refine (hvisit s w htrack).imp fun outcomes w₁ h₁ => ?_
    exact (ih h₁.onTrack).imp fun outcomes' w₂ h₂ => h₁.append h₂

theorem recordStatement_recorded (rounds depth : Nat) (s : StmtId) (htrack : assumed → w.OnTrack) :
    Outcome (recordStatement (visitor settings rounds) [] depth s) w (Recorded assumed w)
      fun _ _ => True := by
  have hnext := visitor_sound settings rounds
  have hroaming := (roaming settings Set.univ).visitor_goes rounds
  induction depth generalizing s w with
  | zero => trivial
  | succ depth ih =>
    have hexpr (e : ExprId) : Outcome (WalkM.record ((visitor settings rounds).expr [] e)) w
        (Recorded assumed w) fun _ _ => True := by
      refine record_recorded htrack (fun A hready => ?_) ((hroaming.expr [] e w ?_ trivial).imp ?_)
      · exact ((hnext.expr []).of_ready hready).imp fun _ _ _ _ _ => trivial
      · exact closed_univ w.unit
      · exact fun _ _ _ _ => trivial
    simp only [recordStatement, outcome_bind, outcome_lift, outcome_arena]
    cases (w.unit.arena.stmt s).kind with
    | expression e | result e => exact hexpr e
    | bind d =>
      have hgoes : (roaming settings Set.univ).Goes [] (visitDefinition _ [] d) w _ :=
        Discipline.visitDefinition_goes hroaming d (closed_univ w.unit) trivial
      refine record_recorded htrack (fun A hready => ?_) (hgoes.imp fun _ _ _ _ => trivial)
      exact (visitDefinition_keeps hnext d hready).imp fun _ _ _ _ _ => trivial
    | block ss => exact recordEach_recorded (fun s w => ih s) ss htrack
    | empty | deleted => exact .nil htrack

/-- **A root that fails makes the program invalid**: always, if its error does not stem from another
one, and otherwise if errors that nobody reports do not arise, which is the case in a well-formed
program whose negations have a declared type. -/
theorem concretizeAll_of_error {c c' : Compilation} {e : CompileError}
    (h : rootOutcomes settings c = .ok outcomes c') (he : .error e ∈ outcomes)
    (hc : e.isAlreadyReported = false ∨
      c.WellFormed ∧ ∀ d, c.IsNegation d → (c.arena.definition d).declared ≠ none) :
    concretizeAll settings c = .ok false c' ∧ c'.isValid = false := by
  have hrecorded : Outcome (rootOutcomes settings) c
      (fun outcomes c' => ∀ e, .error e ∈ outcomes → e.isAlreadyReported = false ∨
        (c.WellFormed ∧ ∀ d, c.IsNegation d → (c.arena.definition d).declared ≠ none) →
        c'.isValid = false) fun _ _ => True := by
    simp only [rootOutcomes, outcome_bind, outcome_arena, outcome_runWalk]
    have hstart : (c.WellFormed ∧
        ∀ d, c.IsNegation d → (c.arena.definition d).declared ≠ none) → Walk.OnTrack ⟨c, []⟩ :=
      fun hc => ⟨∅, hc.1.ready hc.2⟩
    refine (recordEach_recorded (fun s w htrack => ?_) c.arena.roots hstart).imp
      fun _ w h => h.error
    exact recordStatement_recorded _ _ s htrack
  have hinvalid := hrecorded.of_ok h e he hc
  refine ⟨?_, hinvalid⟩
  rw [concretizeAll_eq]
  simp only [bind, EStateM.bind, h]
  exact congrArg (EStateM.Result.ok · c') hinvalid

/-- A program that binds a definition whose body is an empty expression. -/
def emptyBody : Compilation :=
  { Compilation.new with
    arena :=
      { exprs := #[.sentinel .empty .origin]
        defs := Builtins.definitions.toArray.push ⟨"d", .expression ⟨0⟩, none, none, .origin⟩
        stmts := #[⟨.bind ⟨9⟩, .origin⟩]
        roots := [⟨0⟩] } }

theorem emptyBody_wellFormed : emptyBody.WellFormed := by
  refine .of_tables (by simp [emptyBody, Expression.sentinel, Expression.new]) (fun x hx => ?_)
    (by simp [emptyBody, Expression.sentinel, ExprKind.isSentinel, Expression.new])
  rcases Array.mem_push.1 hx with hx | rfl
  · exact .inl (by simpa using hx)
  · exact .inr fun _ hty => by cases hty

/-- The body fails, which is reported there, and the definition that is bound fails with it. -/
theorem concretizeAll_emptyBody :
    ∃ c', rootOutcomes {} emptyBody = .ok [.error ⟨.containsError, .origin⟩] c' ∧
      emptyBody.WellFormed ∧ concretizeAll {} emptyBody = .ok false c' ∧ c'.isValid = false := by
  obtain ⟨outcomes, c', h, hcheck⟩ := exists_ok_of_check (rootOutcomes {}) emptyBody
    (fun outcomes _ => decide (outcomes = [.error ⟨.containsError, .origin⟩])) (by decide +kernel)
  obtain rfl := of_decide_eq_true hcheck
  have hneg : ∀ d, emptyBody.IsNegation d → (emptyBody.arena.definition d).declared ≠ none := by
    rintro d (rfl | rfl) <;>
      simp [emptyBody, Compilation.new, Builtins.positions, Arena.definition,
        Builtins.definitions, Builtins.entry]
  exact ⟨c', h, emptyBody_wellFormed,
    concretizeAll_of_error h List.mem_cons_self (.inr ⟨emptyBody_wellFormed, hneg⟩)⟩

/-- A program whose only root is a failed term that nobody reported. -/
def unreportedTerm : Compilation :=
  { Compilation.new with
    arena :=
      { exprs := #[.sentinel .syntaxError .origin]
        defs := Builtins.definitions.toArray
        stmts := #[⟨.expression ⟨0⟩, .origin⟩]
        roots := [⟨0⟩] } }

/-- **A failed term that nobody reported** is never heard of: its root fails, and the program is
said to be valid. -/
theorem concretizeAll_unreportedTerm :
    unreportedTerm.arena.Acyclic ∧
      ∃ c', rootOutcomes {} unreportedTerm = .ok [.error ⟨.containsError, .origin⟩] c' ∧
        concretizeAll {} unreportedTerm = .ok true c' ∧ c'.isValid = true := by
  refine ⟨⟨fun n => ⟨n, fun m hm => ?_⟩⟩, _, rfl, rfl, rfl⟩
  rcases n with ⟨_ | n⟩ <;>
    simp [unreportedTerm, Arena.expr, Expression.sentinel, Expression.new, ExprKind.children,
      Expression.tombstone] at hm

end Termwise
