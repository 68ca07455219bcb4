import Termwise.Proofs.Concretization.Visit

/-!
# Concretization is sound

If concretization says that the program is valid, then code can be generated for everything that
the root statements reach: it is a value, a reference or a call, and nothing in its type is open.
This asks for three things. A failed term must have been reported, or its silence is taken for
that of an error that was. No declared type may mention `Ty.absurd`, and no expression that has a
value may have it as its type, since nobody reports a use of what is typed so. And the negations
that a minus sign may become must declare their types. A negation that takes the type of a body
may take one that mentions `Ty.absurd`, and then its call is no better than an expression without
a value: whoever uses the call takes the error for one that was reported.

Neither handles that point nowhere nor cycles are excluded. What is outside the tables has no
value, which is an error, and so is a cycle that the walk cannot leave.

## Main definitions

* `Arena.Reaches`: the expressions that the root statements reach
* `Compilation.WellFormed`: what concretization expects of a program

## Main results

* `concretizeAll_sound`: concretization is sound
-/

namespace Termwise

open Compilation

/-! ## What is expected of a program -/

/-- The expressions that the root statements reach. -/
inductive Arena.Reaches (a : Arena) : ExprId → Prop where
  | root {s : StmtId} {e : ExprId} (hs : s ∈ a.roots) (h : a.Mentions s e) : Reaches a e
  | child {n m : ExprId} (h : Reaches a n) (hm : m ∈ (a.expr n).kind.children) : Reaches a m

/-- What concretization expects of a program. -/
structure Compilation.WellFormed (c : Compilation) : Prop where
  /-- A failed term was reported. -/
  reported : c.isValid = true → ∀ n, (c.arena.expr n).kind ≠ .syntaxError
  /-- No declared type mentions `Ty.absurd`. -/
  declared : ∀ d ty, (c.arena.definition d).declared = some ty → ¬ Ty.Occurs .absurd ty
  /-- Only an expression without a value has `Ty.absurd` as its type. -/
  absurd : ∀ n, (c.arena.expr n).ty = .absurd → (c.arena.expr n).kind.isSentinel = true

theorem Ty.of_native {s : Ty} (h : s.native = .yes) :
    s ≠ .hole ∧ s ≠ .number ∧ s ≠ .numberLiteral ∧ s ≠ .absurd ∧ s.isUserDefined = false := by
  refine ⟨?_, ?_, ?_, ?_, ?_⟩
  · rintro rfl
    cases h
  · rintro rfl
    cases h
  · rintro rfl
    cases h
  · rintro rfl
    cases h
  · cases s with
    | named => cases h
    | builtin | function => rfl

/-! ## Soundness -/

variable {c c' : Compilation} {settings : Settings} {n : ExprId}

theorem outcome_runWalk {α : Type} {action : WalkM α} {ended : α → Compilation → Prop}
    {stopped : Stop → Compilation → Prop} :
    Outcome (runWalk action) c ended stopped ↔
      Outcome action ⟨c, []⟩ (fun a w => ended a w.unit) fun stop w => stopped stop w.unit := by
  simp only [Outcome, runWalk]
  cases action ⟨c, []⟩ <;> rfl

theorem Compilation.WellFormed.ready (hc : c.WellFormed)
    (hneg : ∀ d, c.IsNegation d → (c.arena.definition d).declared ≠ none)
    (hvalid : c.isValid = true) : Ready ⟨c, []⟩ [] ∅ ∅ where
  gate :=
    { lawful := ⟨hc.declared, hneg⟩
      sound := fun n => ⟨hc.reported hvalid n, hc.absurd n⟩
      concrete := fun n hn => hn.elim
      finished := by simp
      pending := fun n hn => hn.elim }
  active := by simp

/-- What the walk of all root statements comes to: every expression that they reach was walked,
and all of these walks are over. -/
theorem concretizeAll_outcome (hc : c.WellFormed)
    (hneg : ∀ d, c.IsNegation d → (c.arena.definition d).declared ≠ none) :
    Outcome (concretizeAll settings) c
      (fun valid c' => valid = true → ∃ A, (∀ n ∈ A, c'.Concrete A n) ∧
        ∀ n, c'.arena.Reaches n → n ∈ A)
      fun _ _ => True := by
  simp only [concretizeAll, outcome_bind, outcome_arena, outcome_runWalk, outcome_get]
  have hkeeps : Keeps _ ⟨c, []⟩ ∅ ∅ _ :=
    each_keeps ((visitor_sound settings c.arena.rounds).statement []) c.arena.roots (hc.ready hneg)
  refine Outcome.mono hkeeps ?_ fun _ _ _ => trivial
  rintro _ w ⟨A, h⟩ hvalid
  obtain ⟨hadvance, hseen⟩ := h hvalid
  have hconcrete : ∀ n ∈ A, w.unit.Concrete A n := fun n hn =>
    hadvance.gate.concrete n hn id
  refine ⟨A, hconcrete, fun n hn => ?_⟩
  induction hn with
  | root hs hm =>
    rw [hadvance.evolves.roots] at hs
    rcases hseen _ hs _ hm with he | ⟨d, hd, -⟩
    · exact he
    · cases hd
  | child _ hm ih => exact (hconcrete _ ih).children _ hm

/-- **Concretization is sound.** If it says that the program is valid, then everything that the root
statements reach is a value, a reference or a call, and nothing open occurs in its type. -/
theorem concretizeAll_sound (hc : c.WellFormed)
    (hneg : ∀ d, c.IsNegation d → (c.arena.definition d).declared ≠ none)
    (h : concretizeAll settings c = .ok true c') (hn : c'.arena.Reaches n) :
    (c'.arena.expr n).kind.isConcrete = true ∧
      ∀ s, Ty.Occurs s (c'.arena.expr n).ty → s.native = .yes ∧
        s ≠ .hole ∧ s ≠ .number ∧ s ≠ .numberLiteral ∧ s ≠ .absurd ∧ s.isUserDefined = false := by
  obtain ⟨A, hconcrete, hreaches⟩ := (concretizeAll_outcome hc hneg).of_ok h rfl
  have hn' := hconcrete n (hreaches n hn)
  refine ⟨hn'.kind, fun s hs => ?_⟩
  have hnative := hs.native hn'.ty
  exact ⟨hnative, Ty.of_native hnative⟩

/-! ## A sound program, and one that is not -/

/-- The end of a run, if it passes a check. -/
theorem exists_of_check (settings : Settings) (c : Compilation) (p : Compilation → Bool)
    (h : (match concretizeAll settings c with
      | .ok true c' => p c'
      | _ => false) = true) :
    ∃ c', concretizeAll settings c = .ok true c' ∧ p c' = true := by
  split at h
  · exact ⟨_, ‹_›, h⟩
  · cases h

theorem Arena.forall_expr {a : Arena} {p : Expression → Prop} (h : ∀ e ∈ a.exprs, p e)
    (htombstone : p .tombstone) (n : ExprId) : p (a.expr n) := by
  rw [expr, Array.getD_eq_getD_getElem?]
  cases hn : a.exprs[n.index]? with
  | none => exact htombstone
  | some e => exact h e (Array.mem_of_getElem? hn)

theorem Arena.forall_definition {a : Arena} {p : Definition → Prop} (h : ∀ x ∈ a.defs, p x)
    (hdefault : p default) (d : DefId) : p (a.definition d) := by
  rw [definition, Array.getD_eq_getD_getElem?]
  cases hd : a.defs[d.index]? with
  | none => exact hdefault
  | some x => exact h x (Array.mem_of_getElem? hd)

/-- No builtin definition mentions `Ty.absurd`. -/
theorem Builtins.not_occurs_absurd {x : Definition} (hx : x ∈ definitions) {ty : Ty}
    (hty : x.declared = some ty) : ¬ Ty.Occurs .absurd ty := by
  simp only [definitions, entry, List.mem_cons, List.not_mem_nil, or_false] at hx
  rcases hx with rfl | rfl | rfl | rfl | rfl | rfl | rfl | rfl | rfl <;> cases hty <;>
    simp [printType, arithmeticType, comparisonType, notType, unaryMinusType, unaryMinusFloatType]

/-- A program is well-formed if whatever stands in its tables is: what is not there is a sentinel. -/
theorem Compilation.WellFormed.of_tables {c : Compilation}
    (hreported : ∀ e ∈ c.arena.exprs, e.kind ≠ .syntaxError)
    (hdeclared : ∀ x ∈ c.arena.defs, x ∈ Builtins.definitions ∨
      ∀ ty, x.declared = some ty → ¬ Ty.Occurs .absurd ty)
    (habsurd : ∀ e ∈ c.arena.exprs, e.ty = .absurd → e.kind.isSentinel = true) : c.WellFormed where
  reported _ := Arena.forall_expr (p := fun e => e.kind ≠ .syntaxError) hreported
    (by simp [Expression.tombstone, Expression.sentinel, Expression.new])
  declared d ty h :=
    Arena.forall_definition (p := fun x => x.declared = some ty → ¬ Ty.Occurs .absurd ty)
      (fun x hx hty => (hdeclared x hx).elim (fun hx => Builtins.not_occurs_absurd hx hty)
        fun h => h ty hty) (fun h => by cases h) d h
  absurd := Arena.forall_expr (p := fun e => e.ty = .absurd → e.kind.isSentinel = true) habsurd
    fun _ => rfl

/-- The program that adds two literals. -/
def literalSum : Compilation :=
  { Compilation.new with
    arena :=
      { exprs := #[.new (.value (.int 1)) .numberLiteral .origin,
          .new (.value (.int 2)) .numberLiteral .origin,
          .new (.call ⟨1⟩ [⟨0⟩, ⟨1⟩]) .number .origin]
        defs := Builtins.definitions.toArray
        stmts := #[⟨.expression ⟨2⟩, .origin⟩]
        roots := [⟨0⟩] } }

theorem literalSum_wellFormed : literalSum.WellFormed :=
  .of_tables (by simp [literalSum, Expression.new])
    (fun x hx => .inl (by simpa [literalSum] using hx)) (by simp [literalSum, Expression.new])

/-- Both literals, and their sum, become integers. -/
theorem concretizeAll_literalSum :
    ∃ c', concretizeAll {} literalSum = .ok true c' ∧ c'.arena.Reaches ⟨0⟩ ∧
      (c'.arena.expr ⟨0⟩).kind.isConcrete = true ∧
        ∀ s, Ty.Occurs s (c'.arena.expr ⟨0⟩).ty → s.native = .yes ∧
          s ≠ .hole ∧ s ≠ .number ∧ s ≠ .numberLiteral ∧ s ≠ .absurd ∧
            s.isUserDefined = false := by
  have hneg : ∀ d, literalSum.IsNegation d →
      (literalSum.arena.definition d).declared ≠ none := by
    rintro d (rfl | rfl) <;>
      simp [literalSum, Compilation.new, Builtins.positions, Arena.definition,
        Builtins.definitions, Builtins.entry]
  obtain ⟨c', h, hcheck⟩ := exists_of_check {} literalSum
    (fun c' => decide (⟨0⟩ ∈ c'.arena.roots ∧ (c'.arena.stmt ⟨0⟩).kind = .expression ⟨2⟩ ∧
      ⟨0⟩ ∈ (c'.arena.expr ⟨2⟩).kind.children)) (by decide +kernel)
  obtain ⟨hroot, hstmt, hchild⟩ := of_decide_eq_true hcheck
  have hn : c'.arena.Reaches ⟨0⟩ := .child (.root hroot (.expression hstmt)) hchild
  exact ⟨c', h, hn, concretizeAll_sound literalSum_wellFormed hneg h hn⟩

/-- The handle of a body points into the tables. -/
def Body.InBounds (a : Arena) : Body → Prop
  | .expression b => b.index < a.exprs.size
  | .statement s => s.index < a.stmts.size
  | .builtin | .undefined => True

/-- The handles in a statement point into the tables. -/
def StatementKind.InBounds (a : Arena) : StatementKind → Prop
  | .expression e | .result e => e.index < a.exprs.size
  | .bind d => d.index < a.defs.size
  | .block ss => ∀ s ∈ ss, s.index < a.stmts.size
  | .empty | .deleted => True

/-- Every handle in the tables points into them. -/
structure Arena.InBounds (a : Arena) : Prop where
  children : ∀ e ∈ a.exprs, ∀ n ∈ e.kind.children, n.index < a.exprs.size
  uses : ∀ e ∈ a.exprs, ∀ d ∈ e.kind.definition?, d.index < a.defs.size
  defs : ∀ d ∈ a.defs, d.body.InBounds a
  stmts : ∀ s ∈ a.stmts, s.kind.InBounds a
  roots : ∀ s ∈ a.roots, s.index < a.stmts.size

/-- No expression lies below itself. -/
def Arena.Acyclic (a : Arena) : Prop := WellFounded fun m n => m ∈ (a.expr n).kind.children

/-- A program whose negation has no declared type. Its body is a use of a definition whose body is
a negation in turn. -/
def undeclaredNegation : Compilation :=
  let negation : Definition := ⟨"unary_minus", .expression ⟨2⟩, none, none, .origin⟩
  { Compilation.new with
    arena :=
      { exprs := #[.new (.value (.int 5)) .int .origin, .new (.negated ⟨0⟩) .int .origin,
          .new (.reference ⟨9⟩) (.function [.int] .absurd true) .origin]
        defs := (Builtins.definitions.set 7 negation).toArray.push
          ⟨"d", .expression ⟨1⟩, none, none, .origin⟩
        stmts := #[⟨.bind ⟨9⟩, .origin⟩]
        roots := [⟨0⟩] } }

theorem undeclaredNegation_wellFormed : undeclaredNegation.WellFormed := by
  refine .of_tables (by simp [undeclaredNegation, Expression.new]) (fun x hx => ?_)
    (by simp [undeclaredNegation, Expression.new])
  simp only [undeclaredNegation, Array.mem_push, List.mem_toArray] at hx
  rcases hx with hx | rfl
  · rcases List.mem_or_eq_of_mem_set hx with hx | rfl
    · exact .inl hx
    · exact .inr fun _ hty => by cases hty
  · exact .inr fun _ hty => by cases hty

theorem undeclaredNegation_acyclic : undeclaredNegation.arena.Acyclic := by
  refine Subrelation.wf (r := InvImage (· < ·) ExprId.index) ?_ (InvImage.wf _ Nat.lt_wfRel.wf)
  rintro m ⟨_ | _ | _ | n⟩ h <;>
    simp_all [undeclaredNegation, Arena.expr, Expression.new, ExprKind.children, InvImage,
      Expression.tombstone, Expression.sentinel]

theorem undeclaredNegation_inBounds : undeclaredNegation.arena.InBounds where
  children := by simp [undeclaredNegation, Expression.new, ExprKind.children]
  uses := by simp [undeclaredNegation, Expression.new, ExprKind.definition?, Builtins.definitions]
  defs := by simp [undeclaredNegation, Builtins.definitions, Builtins.entry, Body.InBounds]
  stmts := by simp [undeclaredNegation, StatementKind.InBounds, Builtins.definitions]
  roots := by simp [undeclaredNegation]

/-- **A negation that takes the type of its body** may be typed `Ty.absurd`, which nobody reports. -/
theorem concretizeAll_undeclaredNegation :
    undeclaredNegation.arena.InBounds ∧ undeclaredNegation.arena.Acyclic ∧
      undeclaredNegation.WellFormed ∧
      ∃ c', concretizeAll {} undeclaredNegation = .ok true c' ∧ c'.arena.Reaches ⟨1⟩ ∧
        (c'.arena.expr ⟨1⟩).ty = .absurd := by
  obtain ⟨c', h, hcheck⟩ := exists_of_check {} undeclaredNegation
    (fun c' => decide (⟨0⟩ ∈ c'.arena.roots ∧ (c'.arena.stmt ⟨0⟩).kind = .bind ⟨9⟩ ∧
      (c'.arena.definition ⟨9⟩).body = .expression ⟨1⟩ ∧ (c'.arena.expr ⟨1⟩).ty = .absurd))
    (by decide +kernel)
  obtain ⟨hroot, hstmt, hbody, hty⟩ := of_decide_eq_true hcheck
  refine ⟨undeclaredNegation_inBounds, undeclaredNegation_acyclic,
    undeclaredNegation_wellFormed, c', h, ?_, hty⟩
  exact .root hroot (.bind hstmt hbody)

end Termwise
