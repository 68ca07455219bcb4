import Termwise.Proofs.Concretization.Insertion
import Termwise.Proofs.Concretization.Upkeep
import Termwise.Proofs.Run.Classification

/-!
# Runs with a minus sign

A minus sign in front of an operand is resolved in three places. Alone with its operand, it is
kept until the operand is concretized. In a longer run the negation is chosen at once, by the type
that the operand has so far, and the operand is brought into the type that the negation takes; and
a minus sign that was kept in a group becomes such a negation when the group is an operand of a
longer run.

What each of these runs comes to is worked out here, expression by expression: the tables of
before with a few expressions behind them.

## Main definitions

* `Compilation.signRun`, `Compilation.sumRun`, `Compilation.groupRun`: the three runs
* `Compilation.Appended`: a program with some expressions appended
* `Compilation.Equipped`: the builtin definitions of sums and negations
* `Compilation.Summed`: a sum of a constant and an operand behind minus signs

## Main results

* `resolve_signRun`: a minus sign alone with its operand
* `resolve_sumRun`, `resolve_groupRun`: a minus sign in a sum
-/

namespace Termwise

open Compilation

variable {α : Type} {c c' k : Compilation} {es : List Expression} {e : Expression} {d : DefId}
  {n x y : ExprId} {i : Nat} {ty : Ty} {f : Expression → Expression}

namespace Compilation

/-! ## Programs with expressions appended -/

/-- **A program with some expressions appended.** -/
structure Appended (c : Compilation) (es : List Expression) (k : Compilation) : Prop where
  builtins : k.builtins = c.builtins
  arena : k.arena = { c.arena with exprs := c.arena.exprs ++ es.toArray }

/-- The position of an expression that is appended. -/
def fresh (c : Compilation) (i : Nat) : ExprId := ⟨c.arena.exprs.size + i⟩

namespace Appended

theorem refl (c : Compilation) : c.Appended [] c := ⟨rfl, by simp⟩

theorem size (h : c.Appended es k) : k.arena.exprs.size = c.arena.exprs.size + es.length := by
  simp [h.arena]

theorem definition (h : c.Appended es k) (d : DefId) :
    k.arena.definition d = c.arena.definition d := by
  simp only [Arena.definition, h.arena]

theorem expr_old (h : c.Appended es k) (hn : n.index < c.arena.exprs.size) :
    k.arena.expr n = c.arena.expr n := by
  simp [Arena.expr, h.arena, Array.getD_eq_getD_getElem?, Array.getElem?_append, hn]

theorem expr_fresh (h : c.Appended es k) (hi : es[i]? = some e) :
    k.arena.expr (c.fresh i) = e := by
  have hge : ¬ c.arena.exprs.size + i < c.arena.exprs.size := by omega
  simp [Arena.expr, fresh, h.arena, Array.getD_eq_getD_getElem?, Array.getElem?_append, hge, hi]

theorem of_arena_eq (h : c.Appended es k) {k' : Compilation} (hbuiltins : k'.builtins = k.builtins)
    (harena : k'.arena = k.arena) : c.Appended es k' :=
  ⟨hbuiltins.trans h.builtins, harena.trans h.arena⟩

theorem allocExpr (h : c.Appended es k) (e : Expression) :
    (k.allocExpr e).1 = c.fresh es.length ∧ c.Appended (es ++ [e]) (k.allocExpr e).2 := by
  refine ⟨ExprId.ext ?_, h.builtins, ?_⟩
  · exact h.size
  · simp [Compilation.allocExpr, Arena.allocExpr, h.arena]

theorem modify_fresh (h : c.Appended es k) (i : Nat) (f : Expression → Expression) :
    c.Appended (es.modify i f) (k.modifyArena (·.modifyExpr (c.fresh i) f)) := by
  refine ⟨h.builtins, ?_⟩
  simp only [modifyArena, Arena.modifyExpr, h.arena, fresh]
  congr 1
  refine Array.ext_getElem? fun j => ?_
  simp only [Array.getElem?_modify, Array.getElem?_append, List.getElem?_toArray,
    List.getElem?_modify]
  grind

theorem modify_old (h : c.Appended es k) (hn : n.index < c.arena.exprs.size)
    (f : Expression → Expression) :
    (c.modifyArena (·.modifyExpr n f)).Appended es (k.modifyArena (·.modifyExpr n f)) := by
  refine ⟨h.builtins, ?_⟩
  simp only [modifyArena, Arena.modifyExpr, h.arena]
  congr 1
  refine Array.ext_getElem? fun j => ?_
  simp only [Array.getElem?_modify, Array.getElem?_append, List.getElem?_toArray,
    Array.size_modify]
  grind

/-- The expressions stand behind all that the program had, and nothing leads to them. -/
theorem inserted (h : c.Appended es k) (hc : c.Grounded c.arena.exprs.size) :
    Inserted ⟨c.arena.exprs.size, es.length, k.arena.expr⟩ c k where
  program := ⟨h.builtins, by simp [h.arena], by simp [h.arena], by simp [h.arena]⟩
  arena := by
    refine ⟨le_rfl, h.size, fun n => ?_, fun _ _ _ => rfl⟩
    have hself {n : ExprId} (hn : n.index < c.arena.exprs.size) :
        (Insertion.mk c.arena.exprs.size es.length k.arena.expr).move n = n :=
      Insertion.move_of_lt hn
    by_cases hn : n.index < c.arena.exprs.size
    · rw [hself hn, h.expr_old hn, Expression.relocate_eq_self]
      exact fun m hm => hself (hc.inBounds n m hm)
    · have hle := Nat.le_of_not_lt hn
      rw [Insertion.move_of_le hle, Arena.expr_of_size_le hle, Arena.expr_of_size_le]
      · rfl
      · rw [h.size]
        exact Nat.add_le_add_right hle _
  grounded := hc

end Appended

/-! ## The runs -/

/-- **How the runs are written**: the constant in front of the plus sign, and the places of the
terms and of the runs. -/
structure Wording where
  constant : Int64
  constantSpan : Span
  plusSpan : Span
  signSpan : Span
  groupSpan : Span
  runSpan : Span

/-- `- e`, the run of a minus sign and an operand. -/
def signRun (c : Compilation) (sign span : Span) (e : ExprId) : ExprId × Compilation :=
  let (sign, c) := c.allocExpr (.new .minusSign .hole sign)
  c.allocRun [sign, e] span

/-- `k + `, the terms in front of the sign. -/
def addend (c : Compilation) (w : Wording) : List ExprId × Compilation :=
  let (constant, c) := c.allocExpr (.new (.value (.int w.constant)) .int w.constantSpan)
  let (plus, c) := c.allocExpr (c.arena.referenceTo c.builtins.plus w.plusSpan)
  ([constant, plus], c)

/-- `k + - e`, a run of four terms. -/
def sumRun (c : Compilation) (w : Wording) (e : ExprId) : ExprId × Compilation :=
  let (terms, c) := c.addend w
  let (sign, c) := c.allocExpr (.new .minusSign .hole w.signSpan)
  c.allocRun (terms ++ [sign, e]) w.runSpan

/-- `k + (- e)`, a run of three terms, the last of which is a run itself. -/
def groupRun (c : Compilation) (w : Wording) (e : ExprId) : ExprId × Compilation :=
  let (terms, c) := c.addend w
  let (group, c) := c.signRun w.signSpan w.groupSpan e
  c.allocRun (terms ++ [group]) w.runSpan

/-- **The builtin definitions of sums and negations** are as they are registered. -/
structure Equipped (c : Compilation) : Prop extends Registered c where
  unaryMinusBody : (c.arena.definition c.builtins.unaryMinus).body = .builtin
  unaryMinusFloatBody : (c.arena.definition c.builtins.unaryMinusFloat).body = .builtin
  plus : (c.arena.definition c.builtins.plus).declared = some Builtins.arithmeticType
  plusBody : (c.arena.definition c.builtins.plus).body = .builtin
  plusOperator : ∃ precedence associativity,
    (c.arena.definition c.builtins.plus).operator = some (.binary precedence associativity)

/-- **A negation of numbers of one type**, as it is registered. -/
structure Negates (c : Compilation) (d : DefId) (ty : Ty) : Prop where
  body : (c.arena.definition d).body = .builtin
  declared : (c.arena.definition d).declared = some (.function [ty] ty true)
  ty : ty = .int ∨ ty = .float

/-! ## Calls -/

section

theorem Negates.definitionType (h : c.Negates d ty) :
    c.arena.definitionType d = .function [ty] ty true :=
  Arena.definitionType_of_declared h.declared

theorem Negates.sameProgram (h : c.Negates d ty) (hsame : c.SameProgram c') : c'.Negates d ty :=
  ⟨by rw [hsame.definition, h.body], by rw [hsame.definition, h.declared], h.ty⟩

/-- A number of one type is negated as one of that type. -/
theorem negates_negationFor_of_ty (h : c.Equipped) (hty : (c.arena.expr n).ty = ty)
    (hnum : ty = .int ∨ ty = .float) : c.Negates (c.negationFor n) ty := by
  rcases hnum with rfl | rfl
  · simp only [negationFor, hty]
    exact ⟨h.unaryMinusBody, h.unaryMinus, .inl rfl⟩
  · simp only [negationFor, hty]
    exact ⟨h.unaryMinusFloatBody, h.unaryMinusFloat, .inr rfl⟩

end

end Compilation

/-- A number is accepted as one of undecided kind. -/
theorem Expression.coerce_number (hmissing : e.kind.isMissingArg = false)
    (hty : e.ty.numeric = .yes) : e.coerce .number = .ok e := by
  rw [coerce_eq]
  rw [hmissing]
  have hhole : e.ty ≠ .hole := fun heq => by
    rw [heq] at hty
    cases hty
  by_cases heq : e.ty = .number
  · simp [heq]
  · by_cases habsurd : e.ty = .absurd
    · simp [habsurd]
    · simp [heq, habsurd, hhole, hty]

/-- **A negation is called**: the operand is brought into its type, and the call has that type. -/
theorem allocCall_negates (span : Span) (hd : k.Negates d ty) (hx : x.index < k.arena.exprs.size)
    (hcoerce : (k.arena.expr x).coerce ty = .ok e) (hmissing : e.kind.isMissingArg = false) :
    Outcome (allocCall d [x] span) k
      (fun n k' => (n, k') = (k.modifyArena (·.modifyExpr x fun _ => e)).allocExpr
        (.new (.call d [x]) ty span)) fun _ _ => False := by
  have hself := Arena.expr_modifyExpr_self hx fun _ => e
  simp [allocCall, createCall, hd.definitionType, coerceArgs, coerceArg_eq, hcoerce, unboundParams,
    Arena.isMissing, modifyArena, hself, hmissing]

/-- **Two numbers are added**, which says nothing about their types yet. -/
theorem allocCall_plus (span : Span) (hc : k.Equipped)
    (hx : (k.arena.expr x).ty.numeric = .yes ∧ (k.arena.expr x).kind.isMissingArg = false)
    (hy : (k.arena.expr y).ty.numeric = .yes ∧ (k.arena.expr y).kind.isMissingArg = false) :
    Outcome (allocCall k.builtins.plus [x, y] span) k
      (fun n k' => (n, k') = k.allocExpr (.new (.call k.builtins.plus [x, y]) .number span))
      fun _ _ => False := by
  have hkeep (n : ExprId) : k.modifyArena (·.modifyExpr n fun _ => k.arena.expr n) = k := by
    simp only [modifyArena, Arena.modifyExpr_eq_self]
  have htype := Arena.definitionType_of_declared hc.plus
  simp [allocCall, createCall, htype, Builtins.arithmeticType, coerceArgs, coerceArg_eq, hkeep,
    Expression.coerce_number hx.2 hx.1, Expression.coerce_number hy.2 hy.1, unboundParams,
    Arena.isMissing, hx.2, hy.2]

/-! ## Terms -/

section

variable {resolveRun : ExprId → CheckM Unit}

/-- An operand is typed anew, and taken as it is. -/
theorem classifyResolved_operand (span : Span) (hsettled : c.Settled n)
    (hrole : c.role n = .operand) :
    Outcome (classifyResolved n span) c (fun term c' => term = .operand n ∧ c' = c.refreshed n)
      fun _ _ => False := by
  have hrun : ∀ ts, (c.arena.expr n).kind ≠ .run ts := fun ts hk => by
    simp [Settled, hk, ExprKind.isSettled] at hsettled
  refine (classifyResolved_outcome span hrun).mono ?_ fun _ _ h => h.2 hsettled
  rintro term _ ⟨rfl, -, hterm⟩
  have hrole' : (c.refreshed n).role n = .operand := by
    rw [(steady_refreshed c n).extends.role hsettled, hrole]
  cases term with
  | operand id => exact ⟨congrArg _ hterm.1, rfl⟩
  | leading d => cases (role_of_refersTo hterm).symm.trans hrole'
  | trailing d => cases (role_of_refersTo hterm).symm.trans hrole'
  | binary op =>
    obtain ⟨_, -, hrefers⟩ := hterm
    cases (role_of_refersTo hrefers).symm.trans hrole'
  | minusSign =>
    have hk : ((c.refreshed n).arena.expr n).kind = .minusSign := hterm
    simp [role, hk] at hrole'

theorem classify_operand (hsettled : c.Settled n) (hrole : c.role n = .operand) :
    Outcome (classify resolveRun n) c (fun term c' => term = .operand n ∧ c' = c.refreshed n)
      fun _ _ => False := by
  have hrun : ∀ ts, (c.arena.expr n).kind ≠ .run ts := fun ts hk => by
    simp [Settled, hk, ExprKind.isSettled] at hsettled
  simp only [classify, outcome_bind, outcome_expr]
  exact classifyResolved_operand _ hsettled hrole

/-- A run that is a term is resolved first. -/
theorem classify_group {ended : Compilation → Prop} {ts : List ExprId}
    (hk : (c.arena.expr n).kind = .run ts)
    (hres : Outcome (resolveRun n) c (fun _ => ended) fun _ _ => False)
    (hended : ∀ c', ended c' → c'.Settled n ∧ c'.role n = .operand) :
    Outcome (classify resolveRun n) c
      (fun term c' => term = .operand n ∧ ∃ c₁, ended c₁ ∧ c' = c₁.refreshed n)
      fun _ _ => False := by
  simp only [classify, outcome_bind, outcome_expr, hk, outcome_attempt]
  refine hres.mono (fun _ c₁ h₁ => ?_) fun _ _ => False.elim
  obtain ⟨hsettled, hrole⟩ := hended c₁ h₁
  refine (classifyResolved_operand _ hsettled hrole).imp ?_
  rintro term _ ⟨rfl, rfl⟩
  exact ⟨rfl, c₁, h₁, rfl⟩

theorem classify_minusSign (hk : (c.arena.expr n).kind = .minusSign) :
    Outcome (classify resolveRun n) c (fun term c' => (∃ place, term = .minusSign place) ∧ c' = c)
      fun _ _ => False := by
  have hrefresh : c.refreshed n = c := refreshed_eq_self (by simp [hk]) (by simp [hk])
  simp only [classify, outcome_bind, outcome_expr, hk, classifyResolved, outcome_refreshReference,
    hrefresh]
  exact ⟨⟨_, rfl⟩, rfl⟩

theorem classify_binary {precedence : UInt32} {associativity : Associativity}
    (hk : (c.arena.expr n).kind = .operator d)
    (hop : (c.arena.definition d).operator = some (.binary precedence associativity)) :
    Outcome (classify resolveRun n) c
      (fun term c' => (∃ op, term = .binary op ∧ op.definition = d) ∧ c' = c.refreshed n)
      fun _ _ => False := by
  have hk' := (kind_refreshed c n n).trans hk
  have hop' : ((c.refreshed n).arena.definition d).operator =
      some (.binary precedence associativity) := by
    rw [(steady_refreshed c n).extends.definition, hop]
  simp only [classify, outcome_bind, outcome_expr, hk, classifyResolved, outcome_refreshReference,
    hk', operatorTerm, outcome_definition, hop']
  exact ⟨⟨_, rfl, rfl⟩, rfl⟩

end

/-! ## Arrangements -/

namespace Compilation

theorem Appended.sameProgram (h : c.Appended es k) : c.SameProgram k :=
  ⟨h.builtins, by simp [h.arena], by simp [h.arena], by simp [h.arena]⟩

theorem Equipped.sameProgram (h : c.Equipped) (hsame : c.SameProgram c') : c'.Equipped where
  toRegistered := hsame.registered h.toRegistered
  unaryMinusBody := by rw [hsame.builtins, hsame.definition, h.unaryMinusBody]
  unaryMinusFloatBody := by rw [hsame.builtins, hsame.definition, h.unaryMinusFloatBody]
  plus := by rw [hsame.builtins, hsame.definition, h.plus]
  plusBody := by rw [hsame.builtins, hsame.definition, h.plusBody]
  plusOperator := by
    obtain ⟨precedence, associativity, hop⟩ := h.plusOperator
    exact ⟨precedence, associativity, by rw [hsame.builtins, hsame.definition, hop]⟩

section

variable (hc : c.Grounded c.arena.exprs.size)
include hc

/-- What a program is asked about is answered alike with expressions appended. -/
theorem Appended.openSlots (h : c.Appended es k) (hn : n.index < c.arena.exprs.size) :
    k.arena.openSlots n = c.arena.openSlots n := by
  have hins := h.inserted hc
  have hmove {m : ExprId} (hm : m.index < c.arena.exprs.size) :
      (Insertion.mk c.arena.exprs.size es.length k.arena.expr).move m = m := Insertion.move_of_lt hm
  have hpartial := hins.isPartialCall n
  rw [hmove hn] at hpartial
  simp only [Arena.openSlots, hpartial, h.expr_old hn, hins.definitionType]
  cases hk : (c.arena.expr n).kind with
  | call d args =>
    have hmissing : args.countP k.arena.isMissing = args.countP c.arena.isMissing := by
      refine List.countP_congr fun m hm => ?_
      have hlt := hc.inBounds n m (by rwa [hk])
      have hmem := hins.isMissing m
      rw [hmove hlt] at hmem
      rw [hmem]
    simp only [hmissing]
  | _ => rfl

theorem Appended.negationFor (h : c.Appended es k) (hn : n.index < c.arena.exprs.size) :
    k.negationFor n = c.negationFor n := by
  have hins := (h.inserted hc).negationFor n
  rwa [Insertion.move_of_lt hn] at hins

theorem Appended.refreshed (h : c.Appended es k) (hn : n.index < c.arena.exprs.size) :
    (c.refreshed n).Appended es (k.refreshed n) := by
  simp only [Compilation.refreshed, h.expr_old hn, (h.inserted hc).definitionType]
  cases (c.arena.expr n).kind with
  | reference d => exact h.modify_old hn _
  | operator d => exact h.modify_old hn _
  | _ => exact h

end

end Compilation

section

variable {resolveRun : ExprId → CheckM Unit} {op : PendingOperator}

/-- **The terms in front**: a constant, and a plus sign that waits for its right side. -/
theorem foldlM_addend {constant plus : Expression} {span : Span} (hc : c.Equipped)
    (h : c.Appended (constant :: plus :: es) k) (hconstant : constant.kind.isValue = true)
    (hplus : plus.kind = .operator c.builtins.plus) :
    Outcome ([c.fresh 0, c.fresh 1].foldlM (Arrangement.advance resolveRun span) .start) k
      (fun s k' => ∃ plus' op, c.Appended (constant :: plus' :: es) k' ∧
        op.definition = c.builtins.plus ∧ s = ⟨[c.fresh 0], [op], [], .operandDue⟩)
      fun _ _ => False := by
  have hzero : k.arena.expr (c.fresh 0) = constant := h.expr_fresh rfl
  have hone : (k.arena.expr (c.fresh 1)).kind = .operator c.builtins.plus := by
    rw [h.expr_fresh rfl, hplus]
  obtain ⟨value, hvalue⟩ : ∃ value, constant.kind = .value value := by
    cases hk : constant.kind <;> rw [hk] at hconstant <;> first | exact ⟨_, rfl⟩ | cases hconstant
  have hkind : (k.arena.expr (c.fresh 0)).kind = .value value := by rw [hzero, hvalue]
  have hrefresh : k.refreshed (c.fresh 0) = k :=
    refreshed_eq_self (by simp [hkind]) (by simp [hkind])
  obtain ⟨precedence, associativity, hop⟩ := (hc.sameProgram h.sameProgram).plusOperator
  rw [h.builtins] at hop
  simp only [List.foldlM_cons, List.foldlM_nil, outcome_bind, Arrangement.advance]
  refine (classify_operand (by simp [Settled, hkind, ExprKind.isSettled])
    (by simp [role, hkind])).imp ?_
  rintro _ _ ⟨rfl, rfl⟩
  rw [hrefresh]
  simp only [Arrangement.start, Arrangement.placeOperandDue, Arrangement.normalizeOperand,
    outcome_bind, outcome_expr, hkind, outcome_pure, outcome_arena, Arena.openSlots, if_true,
    Arrangement.pushOperand, Arrangement.applyCollected, List.isEmpty_nil,
    Arrangement.applyLeading]
  refine (classify_binary hone hop).imp ?_
  rintro _ _ ⟨⟨op, rfl, hdefinition⟩, rfl⟩
  simp only [Arrangement.placeOperatorDue, Arrangement.pushBinary, Arrangement.reduceBefore,
    outcome_bind, outcome_pure]
  refine ⟨{ plus with ty := k.arena.definitionType c.builtins.plus }, op, ?_, hdefinition, rfl⟩
  simp only [refreshed, hone]
  exact h.modify_fresh 1 fun e => { e with ty := k.arena.definitionType c.builtins.plus }

/-- An operand is pushed once it was brought into shape, with the signs in front of it. -/
theorem placeOperandDue_outcome {shaped : ExprId → Compilation → Prop} (s : Arrangement)
    (span : Span) (ended : ExprId → Compilation → Prop)
    (hshape : Outcome (Arrangement.normalizeOperand n) k shaped fun _ _ => False)
    (hpush : ∀ m k', shaped m k' → k'.arena.openSlots m = 0 ∧
      Outcome (Arrangement.applyLeading m s.leading) k' ended fun _ _ => False) :
    Outcome (s.placeOperandDue span (.operand n)) k
      (fun s' k' => ∃ m, ended m k' ∧
        s' = { s with operands := m :: s.operands, leading := [], phase := .operatorDue })
      fun _ _ => False := by
  simp only [Arrangement.placeOperandDue, outcome_bind]
  refine hshape.imp fun m k' hm => ?_
  obtain ⟨hslots, happly⟩ := hpush m k' hm
  simp only [outcome_arena, hslots, if_true, Arrangement.pushOperand, Arrangement.applyCollected,
    List.isEmpty_nil, outcome_bind, outcome_pure]
  exact happly.imp fun m k' h => ⟨m, h, rfl⟩

/-- **The sum is closed**: the plus sign takes the constant and what was pushed behind it. -/
theorem finish_sum (span : Span) (hk : k.Equipped) (hop : op.definition = k.builtins.plus)
    (hx : (k.arena.expr x).ty.numeric = .yes ∧ (k.arena.expr x).kind.isMissingArg = false)
    (hy : (k.arena.expr y).ty.numeric = .yes ∧ (k.arena.expr y).kind.isMissingArg = false) :
    Outcome (Arrangement.finish ⟨[y, x], [op], [], .operatorDue⟩ span) k
      (fun e k' => e.kind = .call k.builtins.plus [x, y] ∧ k' = (k.allocExpr e).2)
      fun _ _ => False := by
  simp only [Arrangement.finish, outcome_bind, outcome_pure, Arrangement.reduceAll,
    Arrangement.reduce, Arrangement.popOperand, outcome_arena, hop]
  refine (allocCall_plus _ hk hx hy).imp fun n k' heq => ?_
  obtain ⟨rfl, rfl⟩ := Prod.ext_iff.1 heq
  have hself := Arena.expr_allocExpr_self k.arena
  simp only [outcome_expr]
  refine ⟨?_, ?_⟩
  · exact congrArg Expression.kind (hself _)
  · exact congrArg (fun e => (k.allocExpr e).2) (hself _).symm

end

/-! ## Operands -/

section

variable {place : Span}

/-- A negation takes no arguments more. -/
theorem openSlots_of_negates (hneg : k.Negates d ty) (hk : (k.arena.expr n).kind = .call d [x])
    (hmissing : (k.arena.expr x).kind.isMissingArg = false) : k.arena.openSlots n = 0 := by
  simp [Arena.openSlots, Arena.isPartialCall, hk, hneg.definitionType, Ty.arity, Ty.params,
    Arena.isMissing, hmissing]

/-- **A number is negated at once**: it is brought into the type of the negation that suits it so
far, and the call takes no arguments more. -/
theorem allocCall_negationFor (h : c.Appended es k) (hx : x.index < c.arena.exprs.size)
    (hneg : c.Negates (c.negationFor x) ty) (hcoerce : (c.arena.expr x).coerce ty = .ok e)
    (hmissing : e.kind.isMissingArg = false) :
    Outcome (allocCall (c.negationFor x) [x] place) k
      (fun n k' => n = c.fresh es.length ∧ k'.arena.openSlots n = 0 ∧
        (c.modifyArena (·.modifyExpr x fun _ => e)).Appended
          (es ++ [.new (.call (c.negationFor x) [x]) ty place]) k') fun _ _ => False := by
  have hlt : x.index < k.arena.exprs.size := by
    rw [h.size]
    omega
  refine (allocCall_negates place (hneg.sameProgram h.sameProgram) hlt
    (by rw [h.expr_old hx, hcoerce]) hmissing).imp fun n k' heq => ?_
  obtain ⟨rfl, rfl⟩ := Prod.ext_iff.1 heq
  have halloc := (h.modify_old hx fun _ => e).allocExpr
    (.new (.call (c.negationFor x) [x]) ty place)
  refine ⟨halloc.1.trans (by simp [fresh, modifyArena]), ?_, halloc.2⟩
  have hsame : c.SameProgram (c.modifyArena (·.modifyExpr x fun _ => e)) := ⟨rfl, rfl, rfl, rfl⟩
  have hnew := halloc.2.expr_fresh (i := es.length) (List.getElem?_concat_length ..)
  refine openSlots_of_negates (x := x) (hneg.sameProgram (hsame.trans halloc.2.sameProgram)) ?_ ?_
  · rw [halloc.1, hnew]
    rfl
  · rw [halloc.2.expr_old (by simpa [modifyArena] using hx)]
    simpa only [modifyArena, Arena.expr_modifyExpr_self hx] using hmissing

/-- A negation is negated in turn. -/
theorem applyLeading_fresh (place : Span) (hc : c.Equipped) (h : c.Appended es k)
    (hi : es[i]? = some e) (hty : e.ty = .int ∨ e.ty = .float)
    (hmissing : e.kind.isMissingArg = false) :
    Outcome (Arrangement.applyLeading (c.fresh i) [(k.builtins.unaryMinus, place)]) k
      (fun n k' => n = c.fresh es.length ∧ ∃ d span, c.Negates d e.ty ∧
        c.Appended (es ++ [.new (.call d [c.fresh i]) e.ty span]) k') fun _ _ => False := by
  have hself := h.expr_fresh hi
  have hlt : i < es.length := (List.getElem?_eq_some_iff.1 hi).1
  have hneg := negates_negationFor_of_ty (n := c.fresh i) (hc.sameProgram h.sameProgram)
    (congrArg Expression.ty hself) hty
  have hcoerce : (k.arena.expr (c.fresh i)).coerce e.ty = .ok e := by
    rw [hself]
    rw [Expression.coerce_eq]
    simp [hmissing]
  simp only [Arrangement.applyLeading, outcome_bind, outcome_get, if_true, outcome_pure]
  refine (allocCall_negates _ hneg ?_ hcoerce hmissing).imp fun n k' heq => ?_
  · rw [h.size]
    exact Nat.add_lt_add_left hlt _
  · obtain ⟨rfl, rfl⟩ := Prod.ext_iff.1 heq
    have hkeep : k.modifyArena (·.modifyExpr (c.fresh i) fun _ => e) = k := by
      simp only [modifyArena]
      rw [Arena.modifyExpr_eq_self hself.symm]
    rw [hkeep]
    have halloc := h.allocExpr (.new (.call (k.negationFor (c.fresh i)) [c.fresh i]) e.ty
      (place.merge (k.arena.expr (c.fresh i)).span))
    have hback : k.SameProgram c :=
      ⟨h.builtins.symm, by simp [h.arena], by simp [h.arena], by simp [h.arena]⟩
    exact ⟨halloc.1, _, _, hneg.sameProgram hback, halloc.2⟩

end

/-! ## Resolved runs -/

namespace Compilation

/-- **A number that a run takes as its operand.** -/
structure IsNumericOperand (c : Compilation) (n : ExprId) : Prop where
  settled : c.Settled n
  role : c.role n = .operand
  numeric : ((c.refreshed n).arena.expr n).ty.numeric = .yes

theorem IsNumericOperand.inTable (h : c.IsNumericOperand n) : n.index < c.arena.exprs.size := by
  refine Arena.lt_size_of_kind_ne fun hk => ?_
  have hsettled := h.settled
  simp [Settled, hk, ExprKind.isSettled] at hsettled

theorem Appended.settled (h : c.Appended es k) (hn : n.index < c.arena.exprs.size)
    (hsettled : c.Settled n) : k.Settled n := by
  unfold Settled at hsettled ⊢
  rwa [h.expr_old hn]

theorem Appended.role (h : c.Appended es k) (hn : n.index < c.arena.exprs.size) :
    k.role n = c.role n := by
  simp only [Compilation.role, h.expr_old hn, h.definition, h.builtins]

theorem Appended.signRun (h : c.Appended es k) (sign span : Span) (n : ExprId) :
    (k.signRun sign span n).1 = c.fresh (es.length + 1) ∧
      c.Appended (es ++ [.new .minusSign .hole sign,
        .new (.run [c.fresh es.length, n]) .hole span]) (k.signRun sign span n).2 := by
  have hsign := h.allocExpr (.new .minusSign .hole sign)
  have hrun := hsign.2.allocExpr (.new (.run [c.fresh es.length, n]) .hole span)
  simp only [Compilation.signRun, allocRun, hsign.1]
  refine ⟨?_, ?_⟩
  · simpa using hrun.1
  · have happended := hrun.2
    rw [List.append_assoc] at happended
    exact happended.of_arena_eq rfl rfl

end Compilation

section

variable {resolveRun : ExprId → CheckM Unit} {span : Span}

theorem classify_appended (hc : c.Grounded c.arena.exprs.size) (hn : c.IsNumericOperand n)
    (h : c.Appended es k) :
    Outcome (classify resolveRun n) k
      (fun term k' => term = .operand n ∧ (c.refreshed n).Appended es k') fun _ _ => False := by
  refine (classify_operand (h.settled hn.inTable hn.settled)
    ((h.role hn.inTable).trans hn.role)).imp ?_
  rintro _ _ ⟨rfl, rfl⟩
  exact ⟨rfl, h.refreshed hc hn.inTable⟩

/-- A minus sign and a number are kept as they are. -/
theorem resolveTerms_sign (hc : c.Grounded c.arena.exprs.size) (hn : c.IsNumericOperand n)
    (h : c.Appended es k) (hsign : (k.arena.expr x).kind = .minusSign) :
    Outcome (resolveTerms resolveRun [x, n] span) k
      (fun r k' => r.kind = .negated n ∧ (r.ty = .int ∨ r.ty = .float) ∧
        (c.refreshed n).Appended es k') fun _ _ => False := by
  simp only [resolveTerms, outcome_bind, outcome_expr, hsign, if_true]
  refine (classify_appended hc hn h).imp ?_
  rintro _ k' ⟨rfl, h'⟩
  have hlt : n.index < (c.refreshed n).arena.exprs.size :=
    hn.inTable.trans_le (steady_refreshed c n).size
  have hnumeric : (k'.arena.expr n).ty.numeric = .yes := by
    rw [h'.expr_old hlt]
    exact hn.numeric
  simp only [outcome_arena, hnumeric, if_true, outcome_pure]
  refine ⟨rfl, ?_, h'⟩
  simp only [negatedOperand, Expression.new]
  split
  · exact .inr rfl
  · exact .inl rfl

/-- A run whose terms come to an expression becomes that. -/
theorem resolveNode_run {ended : Expression → Compilation → Prop} {ts : List ExprId}
    (hk : (k.arena.expr n).kind = .run ts)
    (h : Outcome (resolveTerms resolveRun ts (k.arena.expr n).span) k ended fun _ _ => False) :
    Outcome (resolveNode resolveRun n) k
      (fun _ k' => ∃ r k₁, ended r k₁ ∧ k'.builtins = k₁.builtins ∧
        k'.arena = k₁.arena.modifyExpr n (·.replaceBy r)) fun _ _ => False := by
  simp only [resolveNode, outcome_bind, outcome_expr, hk, outcome_attempt]
  refine h.mono (fun r k₁ hr => ?_) fun _ _ => False.elim
  exact ⟨r, k₁, hr, rfl, rfl⟩

/-- A run that was appended becomes what its terms come to. -/
theorem resolveNode_appended (ended : Expression → Compilation → List Expression → Prop)
    {ts : List ExprId} (hk : (k.arena.expr (c.fresh i)).kind = .run ts)
    (h : Outcome (resolveTerms resolveRun ts (k.arena.expr (c.fresh i)).span) k
      (fun r k' => ∃ c' es', c'.arena.exprs.size = c.arena.exprs.size ∧ c'.Appended es' k' ∧
        ended r c' es') fun _ _ => False) :
    Outcome (resolveNode resolveRun (c.fresh i)) k
      (fun _ k' => ∃ r c' es', ended r c' es' ∧
        c'.Appended (es'.modify i (·.replaceBy r)) k') fun _ _ => False := by
  refine (resolveNode_run hk h).imp ?_
  rintro _ k' ⟨r, k₁, ⟨c', es', hsize, happended, hended⟩, hbuiltins, harena⟩
  have hfresh : c.fresh i = c'.fresh i := by simp only [fresh, hsize]
  refine ⟨r, c', es', hended, ?_⟩
  rw [hfresh] at harena
  exact (happended.modify_fresh i (·.replaceBy r)).of_arena_eq hbuiltins harena

end

/-! ## Sums -/

namespace Compilation

/-- **A call of the negation of numbers of a type.** -/
structure IsNegationOf (k : Compilation) (n x : ExprId) (ty : Ty) : Prop where
  kind : ∃ d, k.Negates d ty ∧ (k.arena.expr n).kind = .call d [x]
  ty : (k.arena.expr n).ty = ty
  declared : (k.arena.expr n).declared = none

/-- **A sum**, with an integer as its left side. -/
structure IsSumOf (k : Compilation) (n x y : ExprId) : Prop where
  kind : (k.arena.expr n).kind = .call k.builtins.plus [x, y]
  declared : (k.arena.expr n).declared = none
  constant : ∃ i place, k.arena.expr x = .new (.value (.int i)) .int place

/-- **An operand behind some minus signs**: each of them is a call of the negation of numbers of one
type, and was appended. -/
inductive Signed (k : Compilation) (start : Nat) (n : ExprId) (ty : Ty) : Nat → ExprId → Prop
  | operand : k.Signed start n ty 0 n
  | sign {m x : ExprId} {signs : Nat} (hm : start ≤ m.index) (hneg : k.IsNegationOf m x ty)
    (hx : k.Signed start n ty signs x) : k.Signed start n ty (signs + 1) m

/-- **A sum of a constant and an operand behind minus signs** was appended to a program. -/
structure Summed (k b : Compilation) (es : List Expression) (i signs : Nat) (n : ExprId) (ty : Ty)
    (root : ExprId) : Prop where
  appended : b.Appended es k
  sum : k.IsSumOf root (b.fresh 0) (b.fresh i)
  fresh : b.arena.exprs.size ≤ root.index
  signed : k.Signed b.arena.exprs.size n ty (signs + 1) (b.fresh i)
  room : signs + 4 ≤ es.length

/-- **An operand was pushed behind the constant**: a negation among the expressions that are
appended by now. -/
structure Pushed (constant : Expression) (c c' : Compilation) (es : List Expression) (i : Nat)
    (e : Expression) : Prop where
  size : c'.arena.exprs.size = c.arena.exprs.size
  program : c.SameProgram c'
  constant : es[0]? = some constant
  expr : es[i]? = some e
  ty : e.ty = .int ∨ e.ty = .float
  missing : e.kind.isMissingArg = false

end Compilation

section

variable {resolveRun : ExprId → CheckM Unit} {constant plus : Expression} {ts : List ExprId}
  {ended : Nat → Expression → Compilation → List Expression → Prop}

theorem Ty.numeric_of_native_number (h : ty = .int ∨ ty = .float) : ty.numeric = .yes := by
  rcases h with rfl | rfl <;> rfl

/-- **A constant and a plus sign, and behind them a negation** become a sum. -/
theorem arrange_addend (span : Span) (hc : c.Equipped)
    (h : c.Appended (constant :: plus :: es) k) (hconstant : constant.kind.isValue = true)
    (hnumeric : constant.ty.numeric = .yes) (hplus : plus.kind = .operator c.builtins.plus)
    (hrest : ∀ plus' op k', c.Appended (constant :: plus' :: es) k' →
      Outcome (ts.foldlM (Arrangement.advance resolveRun span)
          ⟨[c.fresh 0], [op], [], .operandDue⟩) k'
        (fun s k'' => ∃ i e c' es', Pushed constant c c' es' i e ∧ c'.Appended es' k'' ∧
          s = ⟨[c.fresh i, c.fresh 0], [op], [], .operatorDue⟩ ∧ ended i e c' es')
        fun _ _ => False) :
    Outcome (arrange resolveRun (c.fresh 0 :: c.fresh 1 :: ts) span) k
      (fun r k' => ∃ c' es', c'.arena.exprs.size = c.arena.exprs.size ∧ c'.Appended es' k' ∧
        ∃ i e es'', Pushed constant c c' es'' i e ∧ es' = es'' ++ [r] ∧
          r.kind = .call c.builtins.plus [c.fresh 0, c.fresh i] ∧ ended i e c' es'')
      fun _ _ => False := by
  have hts : c.fresh 0 :: c.fresh 1 :: ts = [c.fresh 0, c.fresh 1] ++ ts := rfl
  simp only [arrange, hts, List.foldlM_append, outcome_bind]
  refine (foldlM_addend hc h hconstant hplus).imp ?_
  rintro _ k₁ ⟨plus', op, h₁, hop, rfl⟩
  refine (hrest plus' op k₁ h₁).imp ?_
  rintro _ k₂ ⟨i, e, c', es', hpushed, h₂, rfl, hended⟩
  have hsame := hpushed.program.trans h₂.sameProgram
  have hfresh (j : Nat) : c.fresh j = c'.fresh j := by simp only [fresh, hpushed.size]
  have hzero : k₂.arena.expr (c.fresh 0) = constant := by
    rw [hfresh]
    exact h₂.expr_fresh hpushed.constant
  have hnew : k₂.arena.expr (c.fresh i) = e := by
    rw [hfresh]
    exact h₂.expr_fresh hpushed.expr
  have hvalue : constant.kind.isMissingArg = false := by
    cases hk : constant.kind <;> rw [hk] at hconstant <;> first | rfl | cases hconstant
  refine (finish_sum (x := c.fresh 0) (y := c.fresh i) span (hc.sameProgram hsame)
    (by rw [hop, hsame.builtins]) ?_ ?_).imp ?_
  · rw [hzero]
    exact ⟨hnumeric, hvalue⟩
  · rw [hnew]
    exact ⟨Ty.numeric_of_native_number hpushed.ty, hpushed.missing⟩
  · rintro r _ ⟨hkind, rfl⟩
    rw [hsame.builtins] at hkind
    exact ⟨c', _, hpushed.size, (h₂.allocExpr r).2, i, e, es', hpushed, rfl, hkind, hended⟩

end

/-! ## Operands behind the plus sign -/

namespace Compilation

theorem Grounded.refreshed {start : Nat} (hc : c.Grounded start) (n : ExprId) :
    (c.refreshed n).Grounded start := by
  unfold Compilation.refreshed
  split
  · exact hc.of_children ⟨rfl, rfl, rfl, rfl⟩ (Arena.size_modifyExpr ..) (children_modifyExpr rfl)
  · exact hc.of_children ⟨rfl, rfl, rfl, rfl⟩ (Arena.size_modifyExpr ..) (children_modifyExpr rfl)
  · exact hc

theorem size_refreshed (c : Compilation) (n : ExprId) :
    (c.refreshed n).arena.exprs.size = c.arena.exprs.size := by
  unfold refreshed
  split
  · exact Arena.size_modifyExpr ..
  · exact Arena.size_modifyExpr ..
  · rfl

theorem sameProgram_refreshed (c : Compilation) (n : ExprId) : c.SameProgram (c.refreshed n) := by
  unfold refreshed
  split
  · exact ⟨rfl, rfl, rfl, rfl⟩
  · exact ⟨rfl, rfl, rfl, rfl⟩
  · exact .refl c

/-- **An operand can be negated at once**: the negation that suits it so far takes it. -/
structure NegatedAtOnce (c : Compilation) (x : ExprId) (ty : Ty) (e : Expression) : Prop where
  inTable : x.index < c.arena.exprs.size
  negates : c.Negates (c.negationFor x) ty
  coerce : (c.arena.expr x).coerce ty = .ok e
  missing : e.kind.isMissingArg = false

/-- The program in which an operand was brought into the type of its negation. -/
def prepared (c : Compilation) (x : ExprId) (e : Expression) : Compilation :=
  c.modifyArena (·.modifyExpr x fun _ => e)

theorem sameProgram_prepared (c : Compilation) (x : ExprId) (e : Expression) :
    c.SameProgram (c.prepared x e) := ⟨rfl, rfl, rfl, rfl⟩

theorem size_prepared (c : Compilation) (x : ExprId) (e : Expression) :
    (c.prepared x e).arena.exprs.size = c.arena.exprs.size := by
  simp [prepared, modifyArena]

end Compilation

section

variable {resolveRun : ExprId → CheckM Unit} {constant : Expression} {op : PendingOperator}
  {span : Span}

/-- A negation that was appended behind the constant is pushed. -/
theorem pushed_negation {d : DefId} (place : Span)
    (hsize : c'.arena.exprs.size = c.arena.exprs.size) (hprogram : c.SameProgram c')
    (hconstant : es[0]? = some constant) (hneg : c'.Negates d ty) :
    Pushed constant c c' (es ++ [.new (.call d [x]) ty place]) es.length
      (.new (.call d [x]) ty place) where
  size := hsize
  program := hprogram
  constant := by
    rw [List.getElem?_append_left (List.getElem?_eq_some_iff.1 hconstant).1, hconstant]
  expr := List.getElem?_concat_length ..
  ty := hneg.ty
  missing := rfl

/-- What is kept as negated becomes the call that negates it. -/
theorem normalizeOperand_negated {e : Expression} (hc : c.Grounded c.arena.exprs.size)
    (h : c.Appended es k) (hk : (k.arena.expr n).kind = .negated y)
    (honce : c.NegatedAtOnce y ty e) :
    Outcome (Arrangement.normalizeOperand n) k
      (fun m k' => m = c.fresh es.length ∧ k'.arena.openSlots m = 0 ∧ ∃ place,
        (c.prepared y e).Appended (es ++ [.new (.call (c.negationFor y) [y]) ty place]) k')
      fun _ _ => False := by
  simp only [Arrangement.normalizeOperand, outcome_bind, outcome_expr, hk, outcome_get,
    h.negationFor hc honce.inTable]
  refine (allocCall_negationFor h honce.inTable honce.negates honce.coerce honce.missing).imp ?_
  exact fun m k' h' => ⟨h'.1, h'.2.1, _, h'.2.2⟩

/-- A minus sign waits for its operand. -/
theorem foldlM_sign {s : Arrangement} {ended : Arrangement → Compilation → Prop}
    (hc : c.Grounded c.arena.exprs.size) (hn : c.IsNumericOperand n) (h : c.Appended es k)
    (hx : (k.arena.expr x).kind = .minusSign) (hphase : s.phase = .operandDue)
    (hplace : ∀ place k', (c.refreshed n).Appended es k' →
      Outcome (Arrangement.placeOperandDue
        { s with leading := (k'.builtins.unaryMinus, place) :: s.leading } span (.operand n)) k'
        ended fun _ _ => False) :
    Outcome ([x, n].foldlM (Arrangement.advance resolveRun span) s) k ended
      fun _ _ => False := by
  simp only [List.foldlM_cons, List.foldlM_nil, outcome_bind, Arrangement.advance]
  refine (classify_minusSign hx).imp ?_
  rintro _ k₀ ⟨⟨place, rfl⟩, rfl⟩
  simp only [hphase, Arrangement.placeOperandDue, outcome_bind, outcome_get, outcome_pure]
  refine (classify_appended hc hn h).imp ?_
  rintro _ k' ⟨rfl, h'⟩
  have hbuiltins : k₀.builtins = k'.builtins := by
    rw [h'.builtins, h.builtins, (sameProgram_refreshed c n).builtins]
  rw [hbuiltins]
  exact (hplace place k' h').imp fun _ _ => id

/-- **Behind a sign**, a number that is no minus sign itself is negated at once. -/
theorem foldlM_sign_operand {e : Expression} (hc : c.Grounded c.arena.exprs.size)
    (hn : c.IsNumericOperand n) (h : c.Appended es k) (hconstant : es[0]? = some constant)
    (hx : (k.arena.expr x).kind = .minusSign) (hplain : ∀ y, (c.arena.expr n).kind ≠ .negated y)
    (hslots : (c.refreshed n).arena.openSlots n = 0)
    (honce : (c.refreshed n).NegatedAtOnce n ty e) :
    Outcome ([x, n].foldlM (Arrangement.advance resolveRun span)
        ⟨[c.fresh 0], [op], [], .operandDue⟩) k
      (fun s k' => ∃ i e' c' es', Pushed constant c c' es' i e' ∧ c'.Appended es' k' ∧
        s = ⟨[c.fresh i, c.fresh 0], [op], [], .operatorDue⟩ ∧
        c' = (c.refreshed n).prepared n e ∧ i = es.length ∧ ∃ d place, c.Negates d ty ∧
          e' = .new (.call d [n]) ty place ∧ es' = es ++ [e']) fun _ _ => False := by
  have hc₀ := hc.refreshed n
  rw [← size_refreshed c n] at hc₀
  refine foldlM_sign hc hn h hx rfl fun place k₁ h₁ => ?_
  have hshape : Outcome (Arrangement.normalizeOperand n) k₁ (fun m k' => m = n ∧ k' = k₁)
      fun _ _ => False := by
    have hk : (k₁.arena.expr n).kind = (c.arena.expr n).kind := by
      rw [h₁.expr_old honce.inTable, kind_refreshed]
    simp only [Arrangement.normalizeOperand, outcome_bind, outcome_expr, hk]
    exact ⟨rfl, rfl⟩
  -- The negation that is appended is the one for the operand as it was classified.
  refine (placeOperandDue_outcome _ span (fun m k' => m = c.fresh es.length ∧
    ∃ place, ((c.refreshed n).prepared n e).Appended
      (es ++ [.new (.call ((c.refreshed n).negationFor n) [n]) ty place]) k') hshape ?_).imp ?_
  · rintro m k' ⟨rfl, rfl⟩
    refine ⟨(h₁.openSlots hc₀ honce.inTable).trans hslots, ?_⟩
    simp only [Arrangement.applyLeading, outcome_bind, outcome_get, if_true,
      h₁.negationFor hc₀ honce.inTable, outcome_pure]
    refine (allocCall_negationFor h₁ honce.inTable honce.negates honce.coerce honce.missing).imp ?_
    rintro m k₂ ⟨rfl, -, h₂⟩
    exact ⟨by simp only [fresh, size_refreshed], _, h₂⟩
  · rintro s k₂ ⟨m, ⟨rfl, place, h₂⟩, rfl⟩
    have hsame := sameProgram_refreshed c n
    have hsize : ((c.refreshed n).prepared n e).arena.exprs.size = c.arena.exprs.size :=
      (size_prepared ..).trans (size_refreshed c n)
    have hneg : c.Negates ((c.refreshed n).negationFor n) ty :=
      honce.negates.sameProgram hsame.symm
    have hprepared : c.SameProgram ((c.refreshed n).prepared n e) :=
      hsame.trans (sameProgram_prepared ..)
    exact ⟨es.length, _, _, _,
      pushed_negation place hsize hprepared hconstant (hneg.sameProgram hprepared), h₂, rfl, rfl,
      rfl, _, place, hneg, rfl, rfl⟩

/-- **Behind a sign**, a minus sign that was kept is negated at once, and then what it became. -/
theorem foldlM_sign_negated {e : Expression} (hc : c.Grounded c.arena.exprs.size)
    (hequipped : c.Equipped) (hn : c.IsNumericOperand n) (h : c.Appended es k)
    (hconstant : es[0]? = some constant) (hx : (k.arena.expr x).kind = .minusSign)
    (hk : (c.arena.expr n).kind = .negated y) (honce : c.NegatedAtOnce y ty e) :
    Outcome ([x, n].foldlM (Arrangement.advance resolveRun span)
        ⟨[c.fresh 0], [op], [], .operandDue⟩) k
      (fun s k' => ∃ i e' c' es', Pushed constant c c' es' i e' ∧ c'.Appended es' k' ∧
        s = ⟨[c.fresh i, c.fresh 0], [op], [], .operatorDue⟩ ∧
        c' = c.prepared y e ∧ i = es.length + 1 ∧ ∃ d d' place place', c.Negates d ty ∧
          c.Negates d' ty ∧ e' = .new (.call d' [c.fresh es.length]) ty place' ∧
          es' = es ++ [.new (.call d [y]) ty place] ++ [e']) fun _ _ => False := by
  have hrefresh : c.refreshed n = c := refreshed_eq_self (by simp [hk]) (by simp [hk])
  refine foldlM_sign hc hn h hx rfl fun place k₁ h₁ => ?_
  rw [hrefresh] at h₁
  have hk₁ : (k₁.arena.expr n).kind = .negated y := by rw [h₁.expr_old hn.inTable, hk]
  have hsame := sameProgram_prepared c y e
  have hsize := size_prepared c y e
  have hfresh (j : Nat) : c.fresh j = (c.prepared y e).fresh j := by simp only [fresh, hsize]
  -- First what was kept is negated, then the call that it became.
  refine (placeOperandDue_outcome _ span (fun m k' => m = c.fresh (es.length + 1) ∧
    ∃ d place place', c.Negates d ty ∧ (c.prepared y e).Appended
      (es ++ [.new (.call (c.negationFor y) [y]) ty place] ++
        [.new (.call d [c.fresh es.length]) ty place']) k')
    (normalizeOperand_negated hc h₁ hk₁ honce) ?_).imp ?_
  · rintro m k₂ ⟨rfl, hslots, place', h₂⟩
    refine ⟨hslots, ?_⟩
    have hbuiltins : k₁.builtins = k₂.builtins := by
      rw [h₁.builtins, h₂.builtins, hsame.builtins]
    have happly := applyLeading_fresh place (hequipped.sameProgram hsame) h₂
      (i := es.length) (List.getElem?_concat_length ..) honce.negates.ty rfl
    rw [← hfresh] at happly
    rw [hbuiltins]
    refine happly.imp ?_
    rintro m k₃ ⟨rfl, d, place'', hneg, h₃⟩
    refine ⟨?_, d, place', place'', hneg.sameProgram hsame.symm, h₃⟩
    rw [← hfresh, List.length_append, List.length_singleton]
  · rintro s k₃ ⟨m, ⟨rfl, d, place', place'', hneg, h₃⟩, rfl⟩
    have hfirst : (es ++ [Expression.new (.call (c.negationFor y) [y]) ty place'])[0]? =
        some constant := by
      rw [List.getElem?_append_left (List.getElem?_eq_some_iff.1 hconstant).1, hconstant]
    have hpushed := pushed_negation (x := c.fresh es.length) place'' hsize hsame hfirst
      (hneg.sameProgram hsame)
    rw [List.length_append, List.length_singleton] at hpushed
    exact ⟨es.length + 1, _, _, _, hpushed, h₃, rfl, rfl, rfl, _, d, place', place'',
      honce.negates, hneg, rfl, rfl⟩

/-- **A group** of a minus sign and a number is resolved where it stands, and kept as negated. -/
theorem resolveNode_group {sign group : Expression} {tail : List Expression}
    (hc : c.Grounded c.arena.exprs.size) (hn : c.IsNumericOperand n)
    (h : c.Appended (es ++ sign :: group :: tail) k) (hsign : sign.kind = .minusSign)
    (hgroup : group.kind = .run [c.fresh es.length, n]) :
    Outcome (resolveNode resolveRun (c.fresh (es.length + 1))) k
      (fun _ k' => ∃ group', group'.kind = .negated n ∧
        (c.refreshed n).Appended (es ++ sign :: group' :: tail) k') fun _ _ => False := by
  have hsign' : (k.arena.expr (c.fresh es.length)).kind = .minusSign := by
    rw [h.expr_fresh (e := sign) (by simp), hsign]
  have hrun : (k.arena.expr (c.fresh (es.length + 1))).kind = .run [c.fresh es.length, n] := by
    rw [h.expr_fresh (e := group) (by simp), hgroup]
  refine (resolveNode_appended (fun r c' es' => r.kind = .negated n ∧ c' = c.refreshed n ∧
    es' = es ++ sign :: group :: tail) hrun ((resolveTerms_sign hc hn h hsign').imp ?_)).imp ?_
  · exact fun r k' h' => ⟨_, _, size_refreshed c n, h'.2.2, h'.1, rfl, rfl⟩
  · rintro _ k' ⟨r, c', es', ⟨hr, rfl, rfl⟩, h'⟩
    have hmodify : (es ++ sign :: group :: tail).modify (es.length + 1) (·.replaceBy r) =
        es ++ sign :: group.replaceBy r :: tail := by
      simp [List.modify_eq_set_getElem?]
    rw [hmodify] at h'
    exact ⟨group.replaceBy r, hr, h'⟩

/-- **A group** of a minus sign and a number is negated at once. -/
theorem foldlM_group {e sign group : Expression} {tail : List Expression}
    {resolveRun : ExprId → CheckM Unit}
    (hc : c.Grounded c.arena.exprs.size) (hn : c.IsNumericOperand n)
    (hconstant : es[0]? = some constant)
    (h : c.Appended (es ++ sign :: group :: tail) k) (hsign : sign.kind = .minusSign)
    (hgroup : group.kind = .run [c.fresh es.length, n])
    (honce : (c.refreshed n).NegatedAtOnce n ty e) :
    Outcome ([c.fresh (es.length + 1)].foldlM
        (Arrangement.advance (resolveNode resolveRun) span)
        ⟨[c.fresh 0], [op], [], .operandDue⟩) k
      (fun s k' => ∃ i e' c' es', Pushed constant c c' es' i e' ∧ c'.Appended es' k' ∧
        s = ⟨[c.fresh i, c.fresh 0], [op], [], .operatorDue⟩ ∧
        c' = (c.refreshed n).prepared n e ∧ i = es.length + tail.length + 2 ∧
          ∃ d place group', c.Negates d ty ∧ e' = .new (.call d [n]) ty place ∧
            es' = es ++ sign :: group' :: tail ++ [e'])
      fun _ _ => False := by
  have hlength (group : Expression) :
      (es ++ sign :: group :: tail).length = es.length + tail.length + 2 := by
    simp only [List.length_append, List.length_cons]
    omega
  have hrun : (k.arena.expr (c.fresh (es.length + 1))).kind = .run [c.fresh es.length, n] := by
    rw [h.expr_fresh (e := group) (by simp), hgroup]
  have hc₀ := hc.refreshed n
  rw [← size_refreshed c n] at hc₀
  have hfresh (j : Nat) : c.fresh j = (c.refreshed n).fresh j := by
    simp only [fresh, size_refreshed]
  have hnegated {k₁ : Compilation} {group' : Expression} (hgroup' : group'.kind = .negated n)
      (h₁ : (c.refreshed n).Appended (es ++ sign :: group' :: tail) k₁) :
      (k₁.arena.expr (c.fresh (es.length + 1))).kind = .negated n := by
    rw [hfresh, h₁.expr_fresh (e := group') (by simp), hgroup']
  simp only [List.foldlM_cons, List.foldlM_nil, outcome_bind, Arrangement.advance]
  refine (classify_group hrun (resolveNode_group hc hn h hsign hgroup) ?_).imp ?_
  · rintro k₁ ⟨group', hgroup', h₁⟩
    have hk₁ := hnegated hgroup' h₁
    exact ⟨by simp [Settled, hk₁, ExprKind.isSettled], by simp [role, hk₁]⟩
  · rintro _ _ ⟨rfl, k₁, ⟨group', hgroup', h₁⟩, rfl⟩
    have hk₁ := hnegated hgroup' h₁
    rw [refreshed_eq_self (by simp [hk₁]) (by simp [hk₁])]
    have hshape := normalizeOperand_negated hc₀ h₁ hk₁ honce
    rw [hlength, ← hfresh] at hshape
    -- No sign is left in front of what the group became.
    refine (placeOperandDue_outcome ⟨[c.fresh 0], [op], [], .operandDue⟩ span _ hshape
      fun m k' hm => ⟨hm.2.1, (outcome_pure m).2 hm⟩).imp ?_
    rintro s k₂ ⟨m, ⟨rfl, -, place, h₂⟩, rfl⟩
    have hsame := sameProgram_refreshed c n
    have hsize : ((c.refreshed n).prepared n e).arena.exprs.size = c.arena.exprs.size :=
      (size_prepared ..).trans (size_refreshed c n)
    have hprepared : c.SameProgram ((c.refreshed n).prepared n e) :=
      hsame.trans (sameProgram_prepared ..)
    have hneg := honce.negates.sameProgram hsame.symm
    have hfirst : (es ++ sign :: group' :: tail)[0]? = some constant := by
      rw [List.getElem?_append_left (List.getElem?_eq_some_iff.1 hconstant).1, hconstant]
    have hpushed := pushed_negation (x := n) place hsize hprepared hfirst
      (hneg.sameProgram hprepared)
    rw [hlength] at hpushed
    exact ⟨es.length + tail.length + 2, _, _, _, hpushed, h₂, rfl, rfl, rfl, _, place, group', hneg,
      rfl, rfl⟩

end

/-! ## Whole runs -/

section

variable {constant plus : Expression} {ts : List ExprId} {j : Nat} {span : Span} {w : Wording}

/-- What a sum consists of, once it is read off the expressions that were appended. -/
theorem isSumOf_of_pushed {r root : Expression} {place : Span} {v : Int64}
    (hpushed : Pushed (.new (.value (.int v)) .int place) c c' es i e)
    (h : c'.Appended ((es ++ [r]).modify j (·.replaceBy r)) k) (hroot : es[j]? = some root)
    (hdeclared : root.declared = none) (hj : j ≠ 0) (hk : r.kind = .call c.builtins.plus
      [c.fresh 0, c.fresh i]) :
    k.IsSumOf (c.fresh j) (c.fresh 0) (c.fresh i) := by
  have hfresh (j : Nat) : c.fresh j = c'.fresh j := by simp only [fresh, hpushed.size]
  have hlt (i : Nat) (e : Expression) (hi : es[i]? = some e) : (es ++ [r])[i]? = some e := by
    rw [List.getElem?_append_left (List.getElem?_eq_some_iff.1 hi).1, hi]
  have hself : k.arena.expr (c.fresh j) = root.replaceBy r := by
    rw [hfresh]
    refine h.expr_fresh ?_
    rw [List.getElem?_modify, hlt j root hroot]
    simp
  refine ⟨?_, ?_, v, place, ?_⟩
  · rw [hself, h.builtins, hpushed.program.builtins]
    exact hk
  · rw [hself]
    exact hdeclared
  · rw [hfresh]
    refine h.expr_fresh ?_
    rw [List.getElem?_modify, hlt 0 _ hpushed.constant]
    simp [hj]

theorem isNegationOf_of_appended {r : Expression} {place : Span} {n : ExprId}
    (h : c.Appended ((es ++ [r]).modify j (·.replaceBy r)) k) (hneg : c.Negates d ty)
    (hi : es[i]? = some (.new (.call d [n]) ty place)) (hij : j ≠ i) :
    k.IsNegationOf (c.fresh i) n ty := by
  have hself : k.arena.expr (c.fresh i) = .new (.call d [n]) ty place := by
    refine h.expr_fresh ?_
    rw [List.getElem?_modify, List.getElem?_append_left (List.getElem?_eq_some_iff.1 hi).1, hi]
    simp [hij]
  refine ⟨⟨d, hneg.sameProgram h.sameProgram, ?_⟩, ?_, ?_⟩ <;> rw [hself] <;> rfl

theorem signRun_appended (c : Compilation) (sign span : Span) (n : ExprId) :
    (c.signRun sign span n).1 = c.fresh 1 ∧
      c.Appended [.new .minusSign .hole sign, .new (.run [c.fresh 0, n]) .hole span]
        (c.signRun sign span n).2 :=
  (Appended.refl c).signRun sign span n

theorem addend_appended (hc : c.Equipped) (w : Wording) :
    (c.addend w).1 = [c.fresh 0, c.fresh 1] ∧ ∃ plus : Expression,
      plus.kind = .operator c.builtins.plus ∧
        c.Appended [.new (.value (.int w.constant)) .int w.constantSpan, plus] (c.addend w).2 := by
  have hzero := (Appended.refl c).allocExpr (.new (.value (.int w.constant)) .int w.constantSpan)
  have hone := hzero.2.allocExpr (Arena.referenceTo
    (c.allocExpr (.new (.value (.int w.constant)) .int w.constantSpan)).2.arena c.builtins.plus
    w.plusSpan)
  refine ⟨?_, _, ?_, hone.2⟩
  · simp only [addend]
    rw [show (c.allocExpr _).1 = c.fresh 0 from hzero.1]
    exact congrArg (fun m => [c.fresh 0, m]) hone.1
  · obtain ⟨precedence, associativity, hop⟩ := (hc.sameProgram hzero.2.sameProgram).plusOperator
    rw [hzero.2.builtins] at hop
    simp only [Arena.referenceTo, hop]
    rfl

theorem sumRun_appended (hc : c.Equipped) (w : Wording) (n : ExprId) :
    (c.sumRun w n).1 = c.fresh 3 ∧ ∃ plus : Expression, plus.kind = .operator c.builtins.plus ∧
      c.Appended [.new (.value (.int w.constant)) .int w.constantSpan, plus,
        .new .minusSign .hole w.signSpan,
        .new (.run [c.fresh 0, c.fresh 1, c.fresh 2, n]) .hole w.runSpan] (c.sumRun w n).2 := by
  obtain ⟨hterms, plus, hplus, haddend⟩ := addend_appended hc w
  have hsign := haddend.allocExpr (.new .minusSign .hole w.signSpan)
  have hrun := hsign.2.allocExpr
    (.new (.run [c.fresh 0, c.fresh 1, c.fresh 2, n]) .hole w.runSpan)
  simp only [sumRun, allocRun, hterms, hsign.1]
  exact ⟨hrun.1, plus, hplus, hrun.2.of_arena_eq rfl rfl⟩

theorem groupRun_appended (hc : c.Equipped) (w : Wording) (n : ExprId) :
    (c.groupRun w n).1 = c.fresh 4 ∧ ∃ plus : Expression, plus.kind = .operator c.builtins.plus ∧
      c.Appended [.new (.value (.int w.constant)) .int w.constantSpan, plus,
        .new .minusSign .hole w.signSpan, .new (.run [c.fresh 2, n]) .hole w.groupSpan,
        .new (.run [c.fresh 0, c.fresh 1, c.fresh 3]) .hole w.runSpan] (c.groupRun w n).2 := by
  obtain ⟨hterms, plus, hplus, haddend⟩ := addend_appended hc w
  have hgroup := haddend.signRun w.signSpan w.groupSpan n
  have hrun := hgroup.2.allocExpr
    (.new (.run [c.fresh 0, c.fresh 1, c.fresh 3]) .hole w.runSpan)
  simp only [groupRun, allocRun, hterms, hgroup.1]
  exact ⟨hrun.1, plus, hplus, hrun.2.of_arena_eq rfl rfl⟩

/-- **A minus sign alone** with a number is kept. -/
theorem resolve_signRun (hc : c.Grounded c.arena.exprs.size) (hn : c.IsNumericOperand n)
    (sign span : Span) :
    Outcome (resolve (c.signRun sign span n).1) (c.signRun sign span n).2
      (fun _ k => ∃ es, es.length = 2 ∧ (c.refreshed n).Appended es k ∧
        (k.arena.expr (c.fresh 1)).kind = .negated n ∧
        (k.arena.expr (c.fresh 1)).declared = none) fun _ _ => False := by
  obtain ⟨hid, h⟩ := signRun_appended c sign span n
  have hsign : ((c.signRun sign span n).2.arena.expr (c.fresh 0)).kind = .minusSign := by
    rw [h.expr_fresh rfl]
    rfl
  have hrun : ((c.signRun sign span n).2.arena.expr (c.fresh 1)).kind =
      .run [c.fresh 0, n] := by
    rw [h.expr_fresh rfl]
    rfl
  have hfresh : c.fresh 1 = (c.refreshed n).fresh 1 := by simp only [fresh, size_refreshed]
  rw [hid]
  simp only [resolve, outcome_bind, outcome_arena, resolveWithin]
  refine (resolveNode_appended (fun r c' es' => r.kind = .negated n ∧ c' = c.refreshed n ∧
    es' = [.new .minusSign .hole sign, .new (.run [c.fresh 0, n]) .hole span]) hrun
    ((resolveTerms_sign hc hn h hsign).imp ?_)).imp ?_
  · exact fun r k' h' => ⟨_, _, size_refreshed c n, h'.2.2, h'.1, rfl, rfl⟩
  · rintro _ k ⟨r, c', es', ⟨hr, rfl, rfl⟩, hk⟩
    have hself := hk.expr_fresh (i := 1) rfl
    refine ⟨_, rfl, hk, ?_, ?_⟩ <;> rw [hfresh, hself]
    · exact hr
    · rfl

/-- **A run of a constant, a plus sign and more** becomes a sum, if what is pushed behind the plus
sign is an operand behind minus signs. -/
theorem resolve_addend {b : Compilation} {root : Expression} {t : ExprId} (hc : c.Equipped)
    (h : c.Appended (.new (.value (.int w.constant)) .int w.constantSpan :: plus :: es) k)
    (hplus : plus.kind = .operator c.builtins.plus) (hj : es[j]? = some root)
    (hroot : root.kind = .run (c.fresh 0 :: c.fresh 1 :: t :: ts))
    (hdeclared : root.declared = none)
    (hrest : ∀ plus' op k',
      c.Appended (.new (.value (.int w.constant)) .int w.constantSpan :: plus' :: es) k' →
      Outcome ((t :: ts).foldlM (Arrangement.advance (resolveWithin k.arena.exprs.size) root.span)
          ⟨[c.fresh 0], [op], [], .operandDue⟩) k'
        (fun s k'' => ∃ i e c' es',
          Pushed (.new (.value (.int w.constant)) .int w.constantSpan) c c' es' i e ∧
            c'.Appended es' k'' ∧ s = ⟨[c.fresh i, c.fresh 0], [op], [], .operatorDue⟩ ∧ c' = b ∧
            es'[j + 2]? = some root ∧ ∃ signs, signs + 3 ≤ es'.length ∧ ∀ r k,
              b.Appended ((es' ++ [r]).modify (j + 2) (·.replaceBy r)) k →
                k.Signed b.arena.exprs.size n ty (signs + 1) (b.fresh i))
        fun _ _ => False) :
    Outcome (resolve (c.fresh (j + 2))) k
      (fun _ k' => ∃ es i signs, k'.Summed b es i signs n ty (c.fresh (j + 2)))
      fun _ _ => False := by
  have hexpr : k.arena.expr (c.fresh (j + 2)) = root := h.expr_fresh (by simpa using hj)
  have hrun : (k.arena.expr (c.fresh (j + 2))).kind = .run (c.fresh 0 :: c.fresh 1 :: t :: ts) := by
    rw [hexpr, hroot]
  simp only [resolve, outcome_bind, outcome_arena, resolveWithin]
  refine (resolveNode_appended (fun r c' es' => ∃ i e es'',
    Pushed (.new (.value (.int w.constant)) .int w.constantSpan) c c' es'' i e ∧
      es' = es'' ++ [r] ∧ r.kind = .call c.builtins.plus [c.fresh 0, c.fresh i] ∧ c' = b ∧
      es''[j + 2]? = some root ∧ ∃ signs, signs + 3 ≤ es''.length ∧ ∀ r k,
        b.Appended ((es'' ++ [r]).modify (j + 2) (·.replaceBy r)) k →
          k.Signed b.arena.exprs.size n ty (signs + 1) (b.fresh i)) hrun ?_).imp ?_
  · rw [hexpr]
    exact arrange_addend root.span hc h rfl rfl hplus hrest
  · rintro _ k' ⟨r, c', _, ⟨i, e, es', hpushed, rfl, hr, rfl, hroot', signs, hroom, hsigned⟩, h'⟩
    -- The nodes behind the table are found at the same places, as nothing in it was appended.
    have hfresh (j : Nat) : c.fresh j = c'.fresh j := by simp only [fresh, hpushed.size]
    have hsum := isSumOf_of_pushed hpushed h' hroot' hdeclared (Nat.succ_ne_zero _) hr
    refine ⟨_, i, signs, h', ?_, ?_, hsigned r k' h', ?_⟩
    · rwa [← hfresh 0, ← hfresh i]
    · rw [hpushed.size]
      exact Nat.le_add_right _ _
    · rw [List.length_modify, List.length_append, List.length_singleton]
      omega

/-- **A minus sign in a sum**: a number that is no minus sign itself is negated at once. -/
theorem resolve_sumRun {e : Expression} (hc : c.Grounded c.arena.exprs.size)
    (hequipped : c.Equipped) (hn : c.IsNumericOperand n)
    (hplain : ∀ y, (c.arena.expr n).kind ≠ .negated y)
    (hslots : (c.refreshed n).arena.openSlots n = 0)
    (honce : (c.refreshed n).NegatedAtOnce n ty e) (w : Wording) :
    Outcome (resolve (c.sumRun w n).1) (c.sumRun w n).2
      (fun _ k => ∃ es i signs,
        k.Summed ((c.refreshed n).prepared n e) es i signs n ty (c.sumRun w n).1)
      fun _ _ => False := by
  obtain ⟨hid, plus, hplus, h⟩ := sumRun_appended hequipped w n
  rw [hid]
  refine resolve_addend hequipped h hplus rfl rfl rfl fun plus' op k' h' => ?_
  have hsign : (k'.arena.expr (c.fresh 2)).kind = .minusSign := by
    rw [h'.expr_fresh rfl]
    rfl
  refine (foldlM_sign_operand hc hn h' rfl hsign hplain hslots honce).imp ?_
  rintro s k'' ⟨i, e', b, _, hpushed, happended, hs, rfl, rfl, d, place, hneg, rfl, rfl⟩
  refine ⟨_, _, _, _, hpushed, happended, hs, rfl, rfl, 0, by simp, fun r k₂ h₂ => ?_⟩
  have hsame : c.SameProgram ((c.refreshed n).prepared n e) :=
    (sameProgram_refreshed c n).trans (sameProgram_prepared ..)
  refine .sign (Nat.le_add_right _ _) ?_ .operand
  exact isNegationOf_of_appended h₂ (hneg.sameProgram hsame) rfl (by simp)

/-- A minus sign that was kept becomes a negation, which is negated in turn. -/
theorem resolve_sumRun_negated {e : Expression} (hc : c.Grounded c.arena.exprs.size)
    (hequipped : c.Equipped) (hn : c.IsNumericOperand n)
    (hk : (c.arena.expr n).kind = .negated y) (honce : c.NegatedAtOnce y ty e) (w : Wording) :
    Outcome (resolve (c.sumRun w n).1) (c.sumRun w n).2
      (fun _ k => ∃ es i signs, k.Summed (c.prepared y e) es i signs y ty (c.sumRun w n).1)
      fun _ _ => False := by
  obtain ⟨hid, plus, hplus, h⟩ := sumRun_appended hequipped w n
  rw [hid]
  refine resolve_addend hequipped h hplus rfl rfl rfl fun plus' op k' h' => ?_
  have hsign : (k'.arena.expr (c.fresh 2)).kind = .minusSign := by
    rw [h'.expr_fresh rfl]
    rfl
  refine (foldlM_sign_negated hc hequipped hn h' rfl hsign hk honce).imp ?_
  rintro s k'' ⟨i, e', b, _, hpushed, happended, hs, rfl, rfl, d, d', place, place', hneg, hneg',
    rfl, rfl⟩
  refine ⟨_, _, _, _, hpushed, happended, hs, rfl, rfl, 1, by simp, fun r k₂ h₂ => ?_⟩
  have hsame := sameProgram_prepared c y e
  have hfresh (j : Nat) : c.fresh j = (c.prepared y e).fresh j := by
    simp only [fresh, size_prepared]
  refine .sign (Nat.le_add_right _ _)
    (isNegationOf_of_appended h₂ (hneg'.sameProgram hsame) rfl (by simp)) ?_
  rw [hfresh]
  refine .sign (Nat.le_add_right _ _) ?_ .operand
  exact isNegationOf_of_appended h₂ (hneg.sameProgram hsame) rfl (by simp)

/-- **A minus sign in a group** is negated at once where the group is an operand of the sum. -/
theorem resolve_groupRun {e : Expression} (hc : c.Grounded c.arena.exprs.size)
    (hequipped : c.Equipped) (hn : c.IsNumericOperand n)
    (honce : (c.refreshed n).NegatedAtOnce n ty e) (w : Wording) :
    Outcome (resolve (c.groupRun w n).1) (c.groupRun w n).2
      (fun _ k => ∃ es i signs,
        k.Summed ((c.refreshed n).prepared n e) es i signs n ty (c.groupRun w n).1)
      fun _ _ => False := by
  obtain ⟨hid, plus, hplus, h⟩ := groupRun_appended hequipped w n
  rw [hid]
  refine resolve_addend hequipped h hplus rfl rfl rfl fun plus' op k' h' => ?_
  have hdepth : resolveWithin (c.groupRun w n).2.arena.exprs.size =
      resolveNode (resolveWithin (c.arena.exprs.size + 4)) := by
    rw [h.size]
    rfl
  have hterms : c.Appended ([.new (.value (.int w.constant)) .int w.constantSpan, plus'] ++
      .new .minusSign .hole w.signSpan :: .new (.run [c.fresh 2, n]) .hole w.groupSpan ::
        [.new (.run [c.fresh 0, c.fresh 1, c.fresh 3]) .hole w.runSpan]) k' := h'
  rw [hdepth]
  refine (foldlM_group hc hn rfl hterms rfl rfl honce).imp ?_
  rintro s k'' ⟨i, e', b, _, hpushed, happended, hs, rfl, rfl, d, place, group', hneg, rfl, rfl⟩
  refine ⟨_, _, _, _, hpushed, happended, hs, rfl, rfl, 0, by simp, fun r k₂ h₂ => ?_⟩
  have hsame : c.SameProgram ((c.refreshed n).prepared n e) :=
    (sameProgram_refreshed c n).trans (sameProgram_prepared ..)
  refine .sign (Nat.le_add_right _ _) ?_ .operand
  exact isNegationOf_of_appended h₂ (hneg.sameProgram hsame) rfl (by simp)

end

end Termwise
