import Termwise.Proofs.Concretization.Literals
import Termwise.Proofs.Concretization.ParallelWalks
import Termwise.Proofs.Run.Queue
import Termwise.Proofs.Run.Signs

/-!
# Sums with a minus sign

A minus sign alone with its operand becomes a negation once the type of the operand is known. In a
sum, the negation was chosen before. If it is the one that takes what the operand comes to, then
the two agree: whatever can be negated alone can be negated in a sum. The walk of the operand is
the same in both places, since it does not depend on what was appended for the run, and the calls
around it find it in the type that they take.

## Main definitions

* `Compilation.Foreseen`: the negation that suits a number so far takes what the number comes to
* `Compilation.Concretizes`: a run is resolved and concretized without an error

## Main results

* `Summed.concretize`: a sum is concretized if its operand is
* `concretizes_of_signRun`: a number that can be negated alone can be negated in a sum
-/

namespace Termwise

open Compilation

variable {c b k k' : Compilation} {settings : Settings} {next : Visitor}
  {child : ExprId → WalkM Unit} {m n x y root : ExprId} {d : DefId} {ty : Ty}
  {es : List Expression} {start i signs : Nat}

namespace Compilation

/-! ## What was appended stays -/

/-- **The program stays, and the expressions behind a position** of its table. -/
structure Seals (k : Compilation) (start : Nat) (k' : Compilation) : Prop extends
    SameProgram k k' where
  expr : ∀ m : ExprId, start ≤ m.index → m.index < k.arena.exprs.size →
    k'.arena.expr m = k.arena.expr m

theorem IsNegationOf.lt_size (h : k.IsNegationOf m x ty) : m.index < k.arena.exprs.size := by
  obtain ⟨d, -, hk⟩ := h.kind
  exact Arena.lt_size_of_kind_ne fun hdeleted => by cases hk.symm.trans hdeleted

/-- **What the walk of an expression comes to**: it ends, the expression has some type then, and all
expressions behind a position are as they were. -/
def ComesTo (k : Compilation) (start : Nat) (m : ExprId) (ty : Ty) (visit : WalkM Unit) : Prop :=
  Outcome visit ⟨k, []⟩ (fun _ w => (w.unit.arena.expr m).ty = ty ∧ k.Seals start w.unit)
    fun _ _ => False

end Compilation

/-! ## Steps -/

theorem Ty.native_of_number (h : ty = .int ∨ ty = .float) : ty.native = .yes := by
  rcases h with rfl | rfl <;> rfl

theorem coerceTo_of_ty {ended : Unit → Compilation → Prop} {stopped : Stop → Compilation → Prop}
    (hty : (k.arena.expr m).ty = ty) (hended : ended () k) :
    Outcome (coerceTo m ty) k ended stopped := by
  simp only [coerceTo_eq, outcome_bind, outcome_get, hty, if_true, outcome_pure]
  exact hended

/-- The walk of an expression ends with nothing more to do if it declares no type and has a native
one. -/
theorem finish_of_native {ended : Unit → Compilation → Prop} {stopped : Stop → Compilation → Prop}
    (hdeclared : (k.arena.expr m).declared = none) (hnative : (k.arena.expr m).ty.native = .yes)
    (hended : ended () k) :
    Outcome (honourDeclared m) k (fun _ k' => Outcome (requireNative m) k' ended stopped)
      stopped := by
  simp only [honourDeclared, outcome_bind, outcome_expr, hdeclared, outcome_pure, requireNative,
    hnative, if_true]
  exact hended

/-- **A call of a definition without a body**: its arguments are walked, and it is typed. -/
theorem visitExpr_call {w : Walk} {active : List DefId} {a : ExprId} {args : List ExprId}
    {ended : Unit → Walk → Prop} {stopped : Stop → Walk → Prop}
    (hk : (w.unit.arena.expr m).kind = .call d (a :: args)) (hd : w.unit.Bodiless d)
    (hpartial : w.unit.arena.isPartialCall m = false) :
    Outcome (visitExpr settings next child active m) w ended stopped ↔
      Outcome (do
        visitEach child (a :: args)
        liftM (typeCall m (w.unit.arena.definitionType d) (a :: args))
        liftM (honourDeclared m)
        liftM (requireNative m)) w ended stopped := by
  rw [visitExpr, outcome_bind, outcome_lift, outcome_expr, hk]
  simp only [visitCall, outcome_bind, outcome_lift, outcome_arena, hpartial, Bool.false_eq_true,
    if_false, List.isEmpty_cons, outcome_pure]
  rw [outcome_of_eq_ok (visitDefinition_of_bodiless hd)]

/-! ## Negations -/

/-- **A negation** comes to its type if its operand does, and nothing else is done. -/
theorem visitExpr_negation (hneg : k.IsNegationOf m x ty) (hm : start ≤ m.index)
    (hmissing : k.arena.isMissing x = false) (hx : k.ComesTo start x ty (child x)) :
    k.ComesTo start m ty (visitExpr settings next child [] m) := by
  obtain ⟨d, hnegates, hk⟩ := hneg.kind
  have htype := hnegates.definitionType
  have hpartial : k.arena.isPartialCall m = false := by
    simp [Arena.isPartialCall, hk, htype, Ty.arity, Ty.params, hmissing]
  have hne : ty ≠ .number := by
    rintro rfl
    rcases hnegates.ty with h | h <;> cases h
  rw [ComesTo, visitExpr_call hk (.inl hnegates.body) hpartial, htype]
  simp only [visitEach, outcome_bind, outcome_pure, outcome_lift]
  refine Outcome.imp hx ?_
  rintro ⟨⟩ w ⟨hty, hseals⟩
  have hself : w.unit.arena.expr m = k.arena.expr m := hseals.expr m hm hneg.lt_size
  -- The operand has the type that the negation takes.
  simp only [typeCall, coerceAll, outcome_bind, outcome_arena, hne, if_false]
  refine coerceTo_of_ty hty ?_
  simp only [outcome_pure]
  refine finish_of_native ?_ ?_ ⟨?_, hseals⟩
  · rw [hself, hneg.declared]
  · rw [hself, hneg.ty]
    exact Ty.native_of_number hnegates.ty
  · rw [hself, hneg.ty]

/-- **A number behind minus signs** comes to its type if it does without them. -/
theorem visitWithin_signed {depth : Nat} (h : k.Signed start n ty signs m)
    (hn : n.index < k.arena.exprs.size) (hmissing : k.arena.isMissing n = false)
    (hvisit : ∀ depth', depth ≤ depth' → k.ComesTo start n ty
      (visitWithin settings next [] k.arena.exprs.size depth' n)) :
    ∀ depth', depth + signs ≤ depth' → k.ComesTo start m ty
      (visitWithin settings next [] k.arena.exprs.size depth' m) := by
  induction h with
  | operand => exact hvisit
  | @sign m x signs hm hneg hx ih =>
    intro depth' hle
    obtain ⟨depth', rfl⟩ := Nat.exists_eq_add_one.2 (Nat.zero_lt_of_lt hle)
    have hinTable : x.index < k.arena.exprs.size ∧ k.arena.isMissing x = false := by
      cases hx with
      | operand => exact ⟨hn, hmissing⟩
      | sign _ hneg' _ =>
        obtain ⟨d, -, hk⟩ := hneg'.kind
        exact ⟨hneg'.lt_size, by rw [Arena.isMissing, hk]; rfl⟩
    rw [visitWithin]
    refine visitExpr_negation hneg hm hinTable.2 ?_
    rw [if_pos hinTable.1]
    exact ih depth' (by omega)

/-! ## Sums -/

/-- A constant has its type already. -/
theorem visitWithin_constant {v : Int64} {place : Span} {depth : Nat} (bound : Nat)
    (hk : k.arena.expr x = .new (.value (.int v)) .int place) (hpos : 0 < depth) :
    Outcome (visitWithin settings next [] bound depth x) ⟨k, []⟩ (fun _ w => w = ⟨k, []⟩)
      fun _ _ => False := by
  obtain ⟨depth, rfl⟩ := Nat.exists_eq_add_one.2 hpos
  have hkind : (k.arena.expr x).kind = .value (.int v) := by rw [hk]; rfl
  have hnative : (k.arena.expr x).ty.native = .yes := by rw [hk]; rfl
  rw [visitWithin, visitExpr, outcome_bind, outcome_lift, outcome_expr, hkind]
  simp only [concretizeValue_eq, outcome_bind, outcome_lift, outcome_expr, hnative, if_true,
    outcome_pure]
  exact finish_of_native (by rw [hk]; rfl) hnative rfl

/-- An integer is brought into a type of numbers. -/
theorem coerceTo_constant {v : Int64} {place : Span}
    (hx : k.arena.expr x = .new (.value (.int v)) .int place) (hty : ty = .int ∨ ty = .float) :
    Outcome (coerceTo x ty) k
      (fun _ k' => ∃ e, k' = k.modifyArena (·.modifyExpr x fun _ => e)) fun _ _ => False := by
  rcases hty with rfl | rfl
  · refine coerceTo_of_ty (by rw [hx]; rfl) ⟨k.arena.expr x, ?_⟩
    simp only [modifyArena, Arena.modifyExpr_eq_self]
  · have hint : (k.arena.expr x).ty = .int := by rw [hx]; rfl
    have hne : ¬ Ty.int = .float := by simp
    have hvalue : (k.arena.expr x).kind.isValue = true := by rw [hx]; rfl
    have hcast : (k.arena.expr x).cast? .int .float =
        some ((k.arena.expr x).withValue (.float (Value.floatOfInt v)) .float) := by rw [hx]; rfl
    simp only [coerceTo_eq, outcome_bind, outcome_get, hint, hne, if_false, hvalue, if_true, hcast]
    exact ⟨_, rfl⟩

/-- **A constant and a number of some type** are added: the constant is brought into the type of the
number. -/
theorem typeCall_sum {v : Int64} {place : Span}
    (hx : k.arena.expr x = .new (.value (.int v)) .int place) (hy : (k.arena.expr y).ty = ty)
    (hty : ty = .int ∨ ty = .float) (hxy : y ≠ x) (hxr : root ≠ x)
    (hlt : root.index < k.arena.exprs.size) (hdeclared : (k.arena.expr root).declared = none) :
    Outcome (typeCall root Builtins.arithmeticType [x, y]) k
      (fun _ k' => (k'.arena.expr root).declared = none ∧ (k'.arena.expr root).ty = ty)
      fun _ _ => False := by
  have hunified : unifiedNumber k.arena [x, y] [.number, .number] = ty := by
    rcases hty with rfl | rfl <;> simp [unifiedNumber, hx, hy, Expression.new]
  simp only [typeCall, Builtins.arithmeticType, outcome_bind, outcome_arena, hunified, coerceAll,
    if_true, outcome_pure]
  refine (coerceTo_constant hx hty).imp ?_
  rintro - _ ⟨e, rfl⟩
  refine coerceTo_of_ty ?_ ?_
  · simp only [modifyArena, Arena.expr_modifyExpr_of_ne hxy, hy]
  · have hlt' : root.index < (k.arena.modifyExpr x fun _ => e).exprs.size := by
      rwa [Arena.size_modifyExpr]
    simp only [outcome_setType, modifyArena, Arena.expr_modifyExpr_self hlt',
      Arena.expr_modifyExpr_of_ne hxr]
    exact ⟨hdeclared, trivial⟩

/-- **A sum** is concretized if what stands behind the plus sign is. -/
theorem visitExpr_sum (hsum : k.IsSumOf root x y) (hc : k.Equipped) (hroot : start ≤ root.index)
    (hx : start ≤ x.index) (hty : ty = .int ∨ ty = .float) (hxy : y ≠ x)
    (hmissing : k.arena.isMissing y = false)
    (hconstant : Outcome (child x) ⟨k, []⟩ (fun _ w => w = ⟨k, []⟩) fun _ _ => False)
    (hy : k.ComesTo start y ty (child y)) :
    Outcome (visitExpr settings next child [] root) ⟨k, []⟩ (fun _ _ => True)
      fun _ _ => False := by
  obtain ⟨v, place, hx₀⟩ := hsum.constant
  have htype := Arena.definitionType_of_declared hc.plus
  have hlt : root.index < k.arena.exprs.size :=
    Arena.lt_size_of_kind_ne fun hdeleted => by cases hsum.kind.symm.trans hdeleted
  have hltx : x.index < k.arena.exprs.size :=
    Arena.lt_size_of_kind_ne fun hdeleted => by rw [hx₀] at hdeleted; cases hdeleted
  have hxr : root ≠ x := by
    rintro rfl
    have hk := hsum.kind
    rw [hx₀] at hk
    cases hk
  have hmissing₀ : k.arena.isMissing x = false := by
    rw [Arena.isMissing, hx₀]
    rfl
  have hpartial : k.arena.isPartialCall root = false := by
    simp [Arena.isPartialCall, hsum.kind, htype, Builtins.arithmeticType, Ty.arity, Ty.params,
      hmissing₀, hmissing]
  rw [visitExpr_call hsum.kind (.inl hc.plusBody) hpartial, htype]
  simp only [visitEach, outcome_bind, outcome_pure, outcome_lift]
  refine hconstant.imp ?_
  rintro ⟨⟩ _ rfl
  refine Outcome.imp hy ?_
  -- The walk of the number left the constant and the sum as they were.
  rintro ⟨⟩ w ⟨hyty, hseals⟩
  refine (typeCall_sum (by rw [hseals.expr x hx hltx, hx₀]) hyty hty hxy hxr ?_ ?_).imp ?_
  · refine Arena.lt_size_of_kind_ne fun hdeleted => ?_
    rw [hseals.expr root hroot hlt] at hdeleted
    cases hsum.kind.symm.trans hdeleted
  · rw [hseals.expr root hroot hlt, hsum.declared]
  · rintro - k' ⟨hdeclared, hrootty⟩
    refine finish_of_native hdeclared ?_ trivial
    rw [hrootty]
    exact Ty.native_of_number hty

/-! ## Operands -/

/-- An expression that is concretized is walked from its root. -/
theorem outcome_concretize {ended : Unit → Compilation → Prop}
    {stopped : Stop → Compilation → Prop} :
    Outcome (concretize settings n) c ended stopped ↔
      Outcome (visitWithin settings (visitor settings (c.arena.rounds - 1)) []
          c.arena.exprs.size (c.arena.exprs.size + 1) n) ⟨c, []⟩
        (fun _ w => ended () w.unit) fun stop w => stopped stop w.unit := by
  have hrounds : c.arena.rounds = c.arena.rounds - 1 + 1 := rfl
  simp only [concretize, outcome_bind, outcome_arena, outcome_runWalk]
  rw [hrounds]
  simp only [visitor, outcome_bind, outcome_lift, outcome_arena, Nat.add_sub_cancel]

theorem Compilation.Appended.rounds (h : b.Appended es k) : k.arena.rounds = b.arena.rounds := by
  rw [Arena.rounds, h.sameProgram.defs, Arena.rounds]

/-- The expressions that were appended, as nodes put in behind all others. -/
def Compilation.Appended.insertion (_ : b.Appended es k) : Insertion :=
  ⟨b.arena.exprs.size, es.length, k.arena.expr⟩

/-- **The walk of an operand** does not depend on what was appended. -/
theorem parallel_operand (settings : Settings) (rounds : Nat) {depth depth' : Nat}
    (hb : b.Grounded b.arena.exprs.size) (h : b.Appended es k)
    (hn : n.index < b.arena.exprs.size) (hdepth : b.arena.exprs.size ≤ depth)
    (hle : depth ≤ depth') :
    ParallelWalk h.insertion
      (visitWithin settings (visitor settings rounds) [] b.arena.exprs.size depth n)
      (visitWithin settings (visitor settings rounds) [] k.arena.exprs.size depth' n)
      ⟨b, []⟩ ⟨k, []⟩ := by
  have hmove : h.insertion.move n = n := Insertion.move_of_lt hn
  have hparallel : ParallelWalk h.insertion
      (visitWithin settings (visitor settings rounds) [] b.arena.exprs.size depth n)
      (visitWithin settings (visitor settings rounds) [] (b.arena.exprs.size + h.insertion.gap)
        depth' (h.insertion.move n)) ⟨b, []⟩ ⟨k, []⟩ :=
    parallel_visitWithin (visitor_parallel h.insertion settings rounds) [] le_rfl
      (Nat.zero_lt_of_lt (hn.trans_le hdepth)) hle (fun _ => (hb.shallow hn).mono hdepth)
      ⟨h.inserted hb, rfl⟩ (.refl b)
  rw [hmove] at hparallel
  rw [h.size]
  exact hparallel

/-- **An operand** that is concretized on its own comes to the same type where it is walked, and
what was appended stays. -/
theorem comesTo_of_concretize (hb : b.Grounded b.arena.exprs.size) (h : b.Appended es k)
    (hn : n.index < b.arena.exprs.size)
    (hwalk : Outcome (concretize settings n) b (fun _ b' => (b'.arena.expr n).ty = ty)
      fun _ _ => False) (depth : Nat) (hdepth : b.arena.exprs.size + 1 ≤ depth) :
    k.ComesTo b.arena.exprs.size n ty
      (visitWithin settings (visitor settings (b.arena.rounds - 1)) [] k.arena.exprs.size depth
        n) := by
  obtain ⟨⟨⟩, w, hok, hty⟩ := (outcome_concretize.1 hwalk).exists_ok
  have hparallel := parallel_operand settings (b.arena.rounds - 1) hb h hn (Nat.le_succ _) hdepth
  obtain ⟨⟨⟩, v, hok', hinserted, hbranches, -⟩ := Lockstep.of_ok hparallel hok
  rw [ComesTo, outcome_of_eq_ok hok']
  have hmove : h.insertion.move n = n := Insertion.move_of_lt hn
  have hexpr := hinserted.unit.arena.expr n
  rw [hmove] at hexpr
  refine ⟨by rw [hexpr, Expression.ty_relocate, hty], ?_, fun m hm hlt => ?_⟩
  · exact (h.inserted hb).program.symm.trans (hbranches.toSameProgram.trans hinserted.unit.program)
  · refine hinserted.unit.arena.added m hm ?_
    rwa [h.size] at hlt

/-- What is concretized is no argument that is missing. -/
theorem not_missing_of_concretize {ended : Unit → Compilation → Prop}
    (hwalk : Outcome (concretize settings n) b ended fun _ _ => False) :
    b.arena.isMissing n = false := by
  rw [Arena.isMissing]
  cases hk : (b.arena.expr n).kind with
  | missingArg =>
    simp only [outcome_concretize, visitWithin, visitExpr, outcome_bind, outcome_lift,
      outcome_expr, hk, outcome_fail] at hwalk
  | _ => rfl

/-- **A sum is concretized** if its operand is, and comes to the type that the negation in front
of it takes. -/
theorem Compilation.Summed.concretize (h : k.Summed b es i signs n ty root) (hb : b.Equipped)
    (hgrounded : b.Grounded b.arena.exprs.size) (hn : n.index < b.arena.exprs.size)
    (hwalk : Outcome (concretize settings n) b (fun _ b' => (b'.arena.expr n).ty = ty)
      fun _ _ => False) :
    Outcome (concretize settings root) k (fun _ _ => True) fun _ _ => False := by
  have hsame := h.appended.sameProgram
  have hsize := h.appended.size
  have hroom := h.room
  have hmissing : k.arena.isMissing n = false := by
    rw [Arena.isMissing, h.appended.expr_old hn]
    exact not_missing_of_concretize hwalk
  have hsigned := visitWithin_signed h.signed (by omega) hmissing
    (comesTo_of_concretize hgrounded h.appended hn hwalk)
  obtain ⟨v, place, hconstant⟩ := h.sum.constant
  cases h.signed with
  | @sign m x signs hm hneg hx =>
  obtain ⟨d, hnegates, hk⟩ := hneg.kind
  have hzero : (b.fresh 0).index < k.arena.exprs.size := by
    refine Arena.lt_size_of_kind_ne fun hdeleted => ?_
    rw [hconstant] at hdeleted
    cases hdeleted
  rw [outcome_concretize, h.appended.rounds, visitWithin]
  refine visitExpr_sum h.sum (hb.sameProgram hsame) h.fresh (Nat.le_add_right _ _) hnegates.ty ?_
    ?_ ?_ ?_
  · intro heq
    rw [heq, hconstant] at hk
    cases hk
  · rw [Arena.isMissing, hk]
    rfl
  · rw [if_pos hzero]
    exact visitWithin_constant _ hconstant (by omega)
  · rw [if_pos hneg.lt_size]
    exact hsigned _ (by omega)

/-- **What a minus sign stands in front of** is concretized on its own if the minus sign is. -/
theorem concretize_of_negated (hb : b.Grounded b.arena.exprs.size) (h : b.Appended es k)
    (hn : n.index < b.arena.exprs.size) (hk : (k.arena.expr root).kind = .negated n)
    (hroot : Outcome (concretize settings root) k (fun _ _ => True) fun _ _ => False) :
    Outcome (concretize settings n) b (fun _ _ => True) fun _ _ => False := by
  have hlt : n.index < k.arena.exprs.size := by
    rw [h.size]
    omega
  simp only [outcome_concretize, h.rounds, visitWithin, visitExpr, outcome_bind, outcome_lift,
    outcome_expr, hk, visitNegation, hlt, if_true] at hroot
  obtain ⟨⟨⟩, v, hok, -⟩ := hroot.exists_ok
  have hsize : b.arena.exprs.size ≤ k.arena.exprs.size := by
    rw [h.size]
    omega
  -- The descent may be less deep by one in the larger program.
  obtain ⟨⟨⟩, w, hok', -⟩ := Lockstep.of_ok_right
    (parallel_operand settings _ hb h hn le_rfl hsize) hok
  obtain ⟨⟨⟩, w', hok'', -⟩ := Lockstep.of_ok
    (parallel_operand settings _ hb (.refl b) hn le_rfl (Nat.le_succ _)) hok'
  rw [outcome_concretize, outcome_of_eq_ok hok'']
  trivial

/-! ## Numbers that are foreseen -/

namespace Compilation

/-- **A run is resolved and concretized** without an error. -/
def Concretizes (settings : Settings) (run : ExprId × Compilation) : Prop :=
  ∃ c c', resolve run.1 run.2 = .ok () c ∧ concretize settings run.1 c = .ok () c'

instance (settings : Settings) (run : ExprId × Compilation) :
    Decidable (Concretizes settings run) :=
  match hresolve : resolve run.1 run.2 with
  | .error _ _ => isFalse fun ⟨c, _, h, _⟩ => by cases hresolve.symm.trans h
  | .ok () c =>
    match hconcretize : concretize settings run.1 c with
    | .ok () c' => isTrue ⟨c, c', hresolve, hconcretize⟩
    | .error _ _ => isFalse fun ⟨c', _, h, h'⟩ => by
      cases hresolve.symm.trans h
      cases hconcretize.symm.trans h'

/-- **What a number comes to is foreseen**: the negation that suits it so far accepts it, and takes
numbers of the type that it has once it is concretized. -/
structure Foreseen (settings : Settings) (c : Compilation) (x : ExprId) (ty : Ty) (e : Expression) :
    Prop where
  negates : c.Negates (c.negationFor x) ty
  coerce : (c.arena.expr x).coerce ty = .ok e
  comesTo : ∀ c', concretize settings x c = .ok () c' → (c'.arena.expr x).ty = ty

end Compilation

/-- A number is accepted as it is, or it is a known value that is cast. -/
theorem Expression.coerce_of_numeric {e e' : Expression} (hnumeric : e.ty.numeric = .yes)
    (h : e.coerce ty = .ok e') :
    e' = e ∨ e.kind.isValue = true ∧ ∃ v, e' = { e with kind := .value v, ty } := by
  obtain ⟨heq, -⟩ | ⟨-, hhole⟩ | ⟨hvalue, -, hne, hcast⟩ := coerce_cases h
  · exact .inl heq
  · rw [hhole] at hnumeric
    cases hnumeric
  · obtain ⟨heq, -⟩ | ⟨-, b, b', v, w, -, rfl, -, -, rfl⟩ := cast?_cases hcast
    · exact (hne heq).elim
    · exact .inr ⟨hvalue, w, rfl⟩

/-- **A number that was accepted** by the negation that suits it comes to the same type as before.
-/
theorem concretize_prepared {e : Expression} (hx : x.index < c.arena.exprs.size)
    (hnumeric : (c.arena.expr x).ty.numeric = .yes) (hdeclared : (c.arena.expr x).declared = none)
    (h : c.Foreseen settings x ty e)
    (hwalk : Outcome (concretize settings x) c (fun _ _ => True) fun _ _ => False) :
    Outcome (concretize settings x) (c.prepared x e) (fun _ c' => (c'.arena.expr x).ty = ty)
      fun _ _ => False := by
  rcases Expression.coerce_of_numeric hnumeric h.coerce with rfl | ⟨-, v, rfl⟩
  · have hself : c.prepared x (c.arena.expr x) = c := by
      simp only [prepared, modifyArena, Arena.modifyExpr_eq_self]
    rw [hself]
    obtain ⟨⟨⟩, c', hok, -⟩ := hwalk.exists_ok
    rw [outcome_of_eq_ok hok]
    exact h.comesTo c' hok
  · -- The value has its type by now.
    have hself : (c.prepared x { c.arena.expr x with kind := .value v, ty }).arena.expr x =
        { c.arena.expr x with kind := .value v, ty } := by
      simp only [prepared, modifyArena, Arena.expr_modifyExpr_self hx]
    have hnative := Ty.native_of_number h.negates.ty
    simp only [outcome_concretize, visitWithin, visitExpr, outcome_bind, outcome_lift,
      outcome_expr, hself, concretizeValue_eq, hnative, if_true, outcome_pure]
    refine finish_of_native ?_ ?_ ?_
    all_goals rw [hself]
    · exact hdeclared
    · exact hnative

theorem Compilation.Foreseen.negatedAtOnce {e : Expression} (h : c.Foreseen settings x ty e)
    (hx : x.index < c.arena.exprs.size)
    (hmissing : (c.arena.expr x).kind.isMissingArg = false) : c.NegatedAtOnce x ty e where
  inTable := hx
  negates := h.negates
  coerce := h.coerce
  missing := (ExprKind.isMissingArg_eq (Expression.coerce_kind h.coerce)).trans hmissing

/-- **A run that was resolved to a sum** is concretized. -/
theorem concretizes_of_summed {e : Expression} {run : ExprId × Compilation}
    (hc : c.Grounded c.arena.exprs.size) (hequipped : c.Equipped)
    (hx : x.index < c.arena.exprs.size) (hnumeric : (c.arena.expr x).ty.numeric = .yes)
    (hdeclared : (c.arena.expr x).declared = none) (h : c.Foreseen settings x ty e)
    (hwalk : Outcome (concretize settings x) c (fun _ _ => True) fun _ _ => False)
    (hrun : c.NegatedAtOnce x ty e → Outcome (resolve run.1) run.2
      (fun _ k => ∃ es i signs, k.Summed (c.prepared x e) es i signs x ty run.1)
      fun _ _ => False) :
    Concretizes settings run := by
  have hmissing : (c.arena.expr x).kind.isMissingArg = false := not_missing_of_concretize hwalk
  obtain ⟨⟨⟩, k, hresolve, es, i, signs, hsummed⟩ :=
    (hrun (h.negatedAtOnce hx hmissing)).exists_ok
  have hsame := sameProgram_prepared c x e
  have hsize := size_prepared c x e
  have hgrounded : (c.prepared x e).Grounded (c.prepared x e).arena.exprs.size := by
    rw [hsize]
    exact hc.of_children hsame hsize
      (children_modifyExpr (ExprKind.children_eq (Expression.coerce_kind h.coerce)))
  have hsum := hsummed.concretize (hequipped.sameProgram hsame) hgrounded (hsize ▸ hx)
    (concretize_prepared hx hnumeric hdeclared h hwalk)
  obtain ⟨⟨⟩, k', hconcretize, -⟩ := hsum.exists_ok
  exact ⟨k, k', hresolve, hconcretize⟩

theorem declared_refreshed (c : Compilation) (n m : ExprId) :
    ((c.refreshed n).arena.expr m).declared = (c.arena.expr m).declared := by
  unfold refreshed
  split
  · simp only [modifyArena, Arena.expr_modifyExpr]
    split <;> rfl
  · simp only [modifyArena, Arena.expr_modifyExpr]
    split <;> rfl
  · rfl

/-- A reference has the type of its definition once it was typed anew. -/
theorem definitionType_refreshed (hk : (c.arena.expr n).kind = .reference d) :
    (c.refreshed n).arena.definitionType d = ((c.refreshed n).arena.expr n).ty := by
  have hlt : n.index < c.arena.exprs.size :=
    Arena.lt_size_of_kind_ne fun hdeleted => by cases hk.symm.trans hdeleted
  have hself : ((c.refreshed n).arena.expr n).ty = c.arena.definitionType d := by
    simp only [refreshed, hk, modifyArena, Arena.expr_modifyExpr_self hlt]
  have hexpr (m : ExprId) (hm : (c.arena.expr m).ty = c.arena.definitionType d) :
      ((c.refreshed n).arena.expr m).ty = c.arena.definitionType d := by
    by_cases heq : m = n
    · rw [heq, hself]
    · simp only [refreshed, hk, modifyArena, Arena.expr_modifyExpr_of_ne heq, hm]
  rw [hself]
  have hdefinition := (sameProgram_refreshed c n).definition d
  simp only [Arena.definitionType, hdefinition] at hexpr ⊢
  -- The body of the definition may be the reference itself.
  split
  · rfl
  · rename_i hdeclared hbody
    simp only [hdeclared, hbody] at hexpr
    exact hexpr _ rfl
  · rfl

/-- A number that is concretized takes no arguments more. -/
theorem openSlots_of_concretize (hn : c.IsNumericOperand n)
    (hwalk : Outcome (concretize settings n) (c.refreshed n) (fun _ _ => True) fun _ _ => False) :
    (c.refreshed n).arena.openSlots n = 0 := by
  have hnumeric := hn.numeric
  have hlt := hn.inTable
  rw [Arena.openSlots]
  cases hk : ((c.refreshed n).arena.expr n).kind with
  | reference d =>
    rw [kind_refreshed] at hk
    show ((c.refreshed n).arena.definitionType d).arity = 0
    rw [definitionType_refreshed hk]
    cases hty : ((c.refreshed n).arena.expr n).ty with
    | function ps r p =>
      rw [hty] at hnumeric
      cases hnumeric
    | _ => rfl
  | call d args =>
    cases hpartial : (c.refreshed n).arena.isPartialCall n with
    | false => rfl
    | true =>
      simp only [outcome_concretize, visitWithin, visitExpr, outcome_bind, outcome_lift,
        outcome_arena, outcome_expr, hk, visitCall, hpartial, if_true, outcome_fail] at hwalk
  | _ => rfl

/-! ## Agreement -/

/-- **A number without a declared type** that a run takes as its operand. If it is a minus sign
that was kept, then it stands in front of such a number. -/
structure Compilation.IsPlainNumber (c : Compilation) (n : ExprId) : Prop extends
    IsNumericOperand c n where
  declared : (c.arena.expr n).declared = none
  negated : ∀ y, (c.arena.expr n).kind = .negated y →
    (c.arena.expr y).ty.numeric = .yes ∧ (c.arena.expr y).declared = none

/-- **A number that can be negated alone** can be negated in a sum, behind the plus sign or in a
group, if the negation that is chosen at once is one for what the number comes to. -/
theorem concretizes_of_signRun (hc : c.Grounded c.arena.exprs.size) (hequipped : c.Equipped)
    (hn : c.IsPlainNumber n) {sign span : Span}
    (halone : Concretizes settings (c.signRun sign span n))
    (hforeseen : ∃ ty e, (c.refreshed n).Foreseen settings n ty e)
    (hinner : ∀ y, (c.arena.expr n).kind = .negated y → ∃ ty e, c.Foreseen settings y ty e)
    (w : Wording) :
    Concretizes settings (c.sumRun w n) ∧ Concretizes settings (c.groupRun w n) := by
  obtain ⟨k, k', hresolve, hconcretize⟩ := halone
  obtain ⟨es, -, happended, hk, -⟩ :=
    (resolve_signRun hc hn.toIsNumericOperand sign span).of_ok hresolve
  have hb : (c.refreshed n).Grounded (c.refreshed n).arena.exprs.size := by
    rw [size_refreshed]
    exact hc.refreshed n
  have hlt : n.index < (c.refreshed n).arena.exprs.size := by
    rw [size_refreshed]
    exact hn.inTable
  have hdeclared : ((c.refreshed n).arena.expr n).declared = none := by
    rw [declared_refreshed, hn.declared]
  -- What can be negated alone is concretized on its own.
  have hroot : Outcome (concretize settings (c.fresh 1)) k (fun _ _ => True) fun _ _ => False := by
    rw [← (signRun_appended c sign span n).1]
    exact (outcome_of_eq_ok hconcretize).2 trivial
  have hwalk := concretize_of_negated hb happended hlt hk hroot
  have hequipped' := hequipped.sameProgram (sameProgram_refreshed c n)
  obtain ⟨ty, e, hforeseen⟩ := hforeseen
  -- Only behind the plus sign is a minus sign that was kept negated at once; a group keeps it.
  constructor
  · by_cases hkept : ∃ y, (c.arena.expr n).kind = .negated y
    · obtain ⟨y, hy⟩ := hkept
      obtain ⟨ty', e', hforeseen'⟩ := hinner y hy
      obtain ⟨hnumeric, hdeclared'⟩ := hn.negated y hy
      have hlt' : y.index < c.arena.exprs.size := by
        refine hc.inBounds n y ?_
        rw [hy]
        exact List.mem_singleton_self y
      have hself : c.refreshed n = c := refreshed_eq_self (by simp [hy]) (by simp [hy])
      rw [hself] at hwalk
      have hwalk' := concretize_of_negated hc (.refl c) hlt' hy hwalk
      exact concretizes_of_summed hc hequipped hlt' hnumeric hdeclared' hforeseen' hwalk'
        fun honce => resolve_sumRun_negated hc hequipped hn.toIsNumericOperand hy honce w
    · have hslots := openSlots_of_concretize hn.toIsNumericOperand hwalk
      exact concretizes_of_summed hb hequipped' hlt hn.numeric hdeclared hforeseen hwalk
        fun honce => resolve_sumRun hc hequipped hn.toIsNumericOperand (not_exists.1 hkept) hslots
          honce w
  · exact concretizes_of_summed hb hequipped' hlt hn.numeric hdeclared hforeseen hwalk
      fun honce => resolve_groupRun hc hequipped hn.toIsNumericOperand honce w

/-! ### Sums whose type is undecided -/

/-- The sum of one and another value, of which nothing says whether it is an integer or a float. -/
def undecidedSum (v : Value) (ty : Ty) : Compilation :=
  { Compilation.new with
    arena :=
      { exprs := #[.new (.value (.int 1)) .int .origin, .new (.value v) ty .origin,
          .new (.call ⟨1⟩ [⟨0⟩, ⟨1⟩]) .number .origin]
        defs := Builtins.definitions.toArray
        stmts := #[]
        roots := [] } }

/-- A sum with the constant 5, wherever it is written. -/
def plainWording : Wording := ⟨5, .origin, .origin, .origin, .origin, .origin⟩

section

variable {v : Value}

theorem undecidedSum_grounded : (undecidedSum v ty).Grounded 3 where
  inBounds := Arena.forall_expr (p := fun e => ∀ m ∈ e.kind.children, m.index < 3)
    (by simp [undecidedSum, Expression.new, ExprKind.children]) nofun
  acyclic := by
    refine Arena.acyclic_of_lt fun i hi => ?_
    have hi : i < 3 := hi
    obtain rfl | rfl | rfl : i = 0 ∨ i = 1 ∨ i = 2 := by omega
    all_goals simp [undecidedSum, Arena.expr, Expression.new, ExprKind.children]
  bodies d b hb := by
    have hbody : ((undecidedSum v ty).arena.definition d).body ≠ .expression b :=
      Arena.forall_definition (p := fun x => x.body ≠ .expression b)
        (by simp [undecidedSum, Builtins.definitions, Builtins.entry]) (fun h => by cases h) d
    exact absurd hb hbody
  shown s e hs := by
    have hstmt : ((undecidedSum v ty).arena.stmt s).kind = .expression ⟨0⟩ := rfl
    rw [hstmt] at hs
    rcases hs with hs | hs <;> cases hs
    decide

theorem undecidedSum_equipped : (undecidedSum v ty).Equipped where
  unaryMinus := rfl
  unaryMinusFloat := rfl
  unaryMinusBody := rfl
  unaryMinusFloatBody := rfl
  plus := rfl
  plusBody := rfl
  plusOperator := ⟨_, _, rfl⟩

theorem undecidedSum_isPlainNumber : (undecidedSum v ty).IsPlainNumber ⟨2⟩ where
  settled := rfl
  role := rfl
  numeric := rfl
  declared := rfl
  negated _ hy := by cases hy

/-- **The negation of `1 + 2`** is one of integers at once, and so it is in the end. -/
theorem concretizes_undecidedSum :
    (undecidedSum (.int 2) .int).Grounded (undecidedSum (.int 2) .int).arena.exprs.size ∧
      (undecidedSum (.int 2) .int).Equipped ∧ (undecidedSum (.int 2) .int).IsPlainNumber ⟨2⟩ ∧
      Concretizes {} ((undecidedSum (.int 2) .int).signRun .origin .origin ⟨2⟩) ∧
      (∃ ty e, ((undecidedSum (.int 2) .int).refreshed ⟨2⟩).Foreseen {} ⟨2⟩ ty e) ∧
      (∀ y, ((undecidedSum (.int 2) .int).arena.expr ⟨2⟩).kind = .negated y →
        ∃ ty e, (undecidedSum (.int 2) .int).Foreseen {} y ty e) ∧
      Concretizes {} ((undecidedSum (.int 2) .int).sumRun plainWording ⟨2⟩) ∧
      Concretizes {} ((undecidedSum (.int 2) .int).groupRun plainWording ⟨2⟩) := by
  have halone : Concretizes {} ((undecidedSum (.int 2) .int).signRun .origin .origin ⟨2⟩) := by
    decide +kernel
  have hforeseen : ((undecidedSum (.int 2) .int).refreshed ⟨2⟩).Foreseen {} ⟨2⟩ .int
      (.new (.call ⟨1⟩ [⟨0⟩, ⟨1⟩]) .number .origin) := by
    refine ⟨⟨rfl, rfl, .inl rfl⟩, rfl, fun c' h => ?_⟩
    obtain ⟨⟨⟩, c'', h', hty⟩ := exists_ok_of_check (concretize {} ⟨2⟩)
      ((undecidedSum (.int 2) .int).refreshed ⟨2⟩)
      (fun _ c => decide ((c.arena.expr ⟨2⟩).ty = .int)) (by decide +kernel)
    cases h.symm.trans h'
    exact of_decide_eq_true hty
  have hinner : ∀ y, ((undecidedSum (.int 2) .int).arena.expr ⟨2⟩).kind = .negated y →
      ∃ ty e, (undecidedSum (.int 2) .int).Foreseen {} y ty e := fun y hy => by cases hy
  have hboth := concretizes_of_signRun undecidedSum_grounded undecidedSum_equipped
    undecidedSum_isPlainNumber halone ⟨_, _, hforeseen⟩ hinner plainWording
  exact ⟨undecidedSum_grounded, undecidedSum_equipped, undecidedSum_isPlainNumber, halone,
    ⟨_, _, hforeseen⟩, hinner, hboth⟩

/-- **The negation of `1 + 2.5`** is one of integers at once, but one of floats alone: the sum
with it is refused, behind the plus sign and in a group. -/
theorem concretizes_mixedSum :
    (undecidedSum (.float 2.5) .float).Grounded
        (undecidedSum (.float 2.5) .float).arena.exprs.size ∧
      (undecidedSum (.float 2.5) .float).Equipped ∧
      (undecidedSum (.float 2.5) .float).IsPlainNumber ⟨2⟩ ∧
      Concretizes {} ((undecidedSum (.float 2.5) .float).signRun .origin .origin ⟨2⟩) ∧
      ¬ Concretizes {} ((undecidedSum (.float 2.5) .float).sumRun plainWording ⟨2⟩) ∧
      ¬ Concretizes {} ((undecidedSum (.float 2.5) .float).groupRun plainWording ⟨2⟩) :=
  ⟨undecidedSum_grounded, undecidedSum_equipped, undecidedSum_isPlainNumber, by decide +kernel,
    by decide +kernel, by decide +kernel⟩

end

end Termwise
