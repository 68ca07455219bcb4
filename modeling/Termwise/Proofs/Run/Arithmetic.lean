import Termwise.Proofs.Run.Account
import Termwise.Proofs.Run.Numbers

/-!
# Runs over numbers

In a run whose operands are numbers and whose operators are typed over numbers, nothing is ever
cast, and the only argument that is refused is a call that is still open. So such a run is
arranged if and only if it has a plan that is open only at the root.

## Main definitions

* `NumberTerm`: a term of a run over numbers
* `Realizes`: a node is built after a plan
* `arithmetic`: the account of a run over numbers

## Main results

* `allocCall_arithmetic`: an operator between two numbers is applied unless one is open below
* `arrange_arithmetic`: a run over numbers is arranged if and only if it has a plan
-/

namespace Termwise

open Compilation Grouping

/-! ## Terms of a run over numbers -/

namespace Compilation

/-- A reference whose type may be outdated, but not in a way that anything else depends on: the
type of a body belongs to the same class as that of the definition that it refers to. -/
def Current (c : Compilation) (Class : Ty → Prop) (t : ExprId) : Prop :=
  c.IsBody t → Class (c.arena.expr t).ty

/-- A call that binds all its parameters, with everything that decides so inside the tables. -/
structure IsComplete (c : Compilation) (n : ExprId) (d : DefId) (args : List ExprId) : Prop where
  kind : (c.arena.expr n).kind = .call d args
  bound : c.arena.isPartialCall n = false
  args : ∀ arg ∈ args, arg.index < c.arena.exprs.size
  body : ∀ b, (c.arena.definition d).body = .expression b → b.index < c.arena.exprs.size

end Compilation

/-- A program of one run has no definition that takes the type of a body. -/
theorem not_isBody_ofRun {defs : List Definition} (h : ∀ d ∈ defs, d.body = .builtin)
    (terms : List Expression) (n : ExprId) : ¬ (Compilation.ofRun defs terms).IsBody n := by
  rintro ⟨d, -, hbody⟩
  have hbuiltin : ∀ d ∈ Builtins.definitions ++ defs, d.body = .builtin :=
    List.forall_mem_append.2 ⟨by decide, h⟩
  simp only [Compilation.ofRun, Arena.definition, Array.getD_eq_getD_getElem?,
    List.getElem?_toArray] at hbody
  cases hget : (Builtins.definitions ++ defs)[d.index]? with
  | none =>
    rw [hget] at hbody
    cases hbody
  | some definition =>
    rw [hget, Option.getD_some, hbuiltin definition (List.mem_of_getElem? hget)] at hbody
    cases hbody

/-- An operand of a run over numbers. -/
inductive NumberOperand (Num : Ty → Prop) (c : Compilation) (t : ExprId) : Prop where
  | value {v : Value} (hk : (c.arena.expr t).kind = .value v) (hty : Num (c.arena.expr t).ty)
  | reference {d : DefId} (hk : (c.arena.expr t).kind = .reference d)
    (hty : Num (c.arena.definitionType d)) (hcurrent : c.Current Num t)
  | call {d : DefId} {args : List ExprId} (hcomplete : c.IsComplete t d args)
    (hty : Num (c.arena.expr t).ty)

/-- A binary operator of a run over numbers. -/
inductive NumberOperator (c : Compilation) (t : ExprId) : Prop where
  | binary {d : DefId} {precedence : UInt32} {associativity : Associativity}
    (hop : c.RefersTo t d (.binary precedence associativity))
    (hty : (c.arena.definitionType d).IsArithmetic) (hcurrent : c.Current Ty.IsArithmetic t)
  | minusSign {binding : Binding} (hk : (c.arena.expr t).kind = .minusSign)
    (hop : (c.arena.definition c.builtins.minus).binding? = some binding)
    (hty : (c.arena.definitionType c.builtins.minus).IsArithmetic)

/-- A term of a run over numbers. What a minus sign is in front of an operand only matters if terms
may lead one at all. -/
inductive NumberTerm (Num : Ty → Prop) (mayLead : Prop) (c : Compilation) (t : ExprId) : Prop where
  | operand (h : NumberOperand Num c t)
  | operator (h : NumberOperator c t)
    (hneg : mayLead → (c.arena.expr t).kind = .minusSign →
      (c.arena.definitionType c.builtins.unaryMinus).IsUnary Num)
  | unary {d : DefId} {f : Fixity} (hop : c.RefersTo t d f) (hf : f.isUnary = true)
    (hty : (c.arena.definitionType d).IsUnary Num) (hcurrent : c.Current (Ty.IsUnary Num) t)

section

variable {Num : Ty → Prop} {bound : Nat} {c c' c'' : Compilation} {n t : ExprId} {d : DefId}

/-! ## Nodes of a plan -/

/-- A node is built after a plan. A whole plan is a number, and a plan with a phrase missing is a
call that is still open, which is an operand of nothing else. -/
inductive Realizes (Num : Ty → Prop) (bound : Nat) (c : Compilation) : Plan → ExprId → Prop where
  | missing {n : ExprId} (h : c.IsGap bound n) : Realizes Num bound c (single none) n
  | atom {t : ExprId} (h : c.IsNumber Num t) : Realizes Num bound c (single (some (.atom t))) t
  | sign {p : Phrase} {d : DefId} {s x n : ExprId}
    (hk : (c.arena.expr n).kind = .call d [x]) (hty : Num (c.arena.expr n).ty)
    (hx : Realizes Num bound c (single (some p)) x) :
    Realizes Num bound c (single (some { p with signs := s :: p.signs })) n
  | trail {p : Phrase} {d : DefId} {s x n : ExprId}
    (hk : (c.arena.expr n).kind = .call d [x]) (hty : Num (c.arena.expr n).ty)
    (hx : Realizes Num bound c (single (some p)) x) :
    Realizes Num bound c (single (some { p with trails := p.trails ++ [s] })) n
  | join {left right : Plan} {o : Joint} {x y n : ExprId}
    (hk : (c.arena.expr n).kind = .call o.callee [x, y])
    (hleft : Realizes Num bound c left x) (hright : Realizes Num bound c right y)
    (hroot : Plan.OpenAtRoot (join left o right))
    (hnum : Plan.Whole (join left o right) → Num (c.arena.expr n).ty)
    (hopen : ¬ Plan.Whole (join left o right) →
      ∃ params result isPure, (c.arena.expr n).ty = .function params result isPure) :
    Realizes Num bound c (join left o right) n

theorem Realizes.quiet {plan : Plan} (h : Realizes Num bound c plan n)
    (hc : Quiet Num bound c c') : Realizes Num bound c' plan n := by
  have hcall : ∀ {d args m}, (c.arena.expr m).kind = .call d args →
      c'.arena.expr m = c.arena.expr m := fun hk => hc.expr_eq (.inr ⟨_, _, hk⟩)
  induction h with
  | missing h => exact .missing (h.quiet hc)
  | atom h => exact .atom (h.quiet hc)
  | sign hk hty _ ih => exact .sign (hcall hk ▸ hk) (hcall hk ▸ hty) ih
  | trail hk hty _ ih => exact .trail (hcall hk ▸ hk) (hcall hk ▸ hty) ih
  | join hk _ _ hroot hnum hopen ihl ihr =>
    exact .join (hcall hk ▸ hk) ihl ihr hroot (hcall hk ▸ hnum) (hcall hk ▸ hopen)

theorem Realizes.isNumber {plan : Plan} (h : Realizes Num bound c plan n)
    (hwhole : plan.Whole) : c.IsNumber Num n := by
  cases h with
  | missing => cases hwhole
  | atom h => exact h
  | sign hk hty => exact ⟨.inr (.inr ⟨_, _, hk⟩), hty⟩
  | trail hk hty => exact ⟨.inr (.inr ⟨_, _, hk⟩), hty⟩
  | join hk _ _ _ hnum => exact ⟨.inr (.inr ⟨_, _, hk⟩), hnum hwhole⟩

theorem Realizes.isGap (h : Realizes Num bound c (single none) n) : c.IsGap bound n := by
  cases h with
  | missing h => exact h

theorem Realizes.isOpenCall {plan : Plan} (h : Realizes Num bound c plan n)
    (hwhole : ¬ plan.Whole) (hnone : plan ≠ single none) : c.IsOpenCall n := by
  cases h with
  | missing => exact (hnone rfl).elim
  | atom | sign | trail => exact (hwhole rfl).elim
  | join hk _ _ _ _ hopen => exact ⟨⟨_, _, hk⟩, hopen hwhole⟩

theorem Realizes.openAtRoot {plan : Plan} (h : Realizes Num bound c plan n) :
    plan.OpenAtRoot := by
  cases h with
  | missing | atom | sign | trail => trivial
  | join _ _ _ hroot => exact hroot

/-! ## The account of a run over numbers -/

section

variable {mayLead : Prop} {c₀ : Compilation} (hNum : IsNumberClass Num)

theorem NumberOperand.role (h : NumberOperand Num c t) : c.role t = .operand := by
  cases h with
  | value hk => simp only [Compilation.role, hk]
  | reference hk => simp only [Compilation.role, hk]
  | call hcomplete => simp only [Compilation.role, hcomplete.kind]

theorem NumberTerm.settled (h : NumberTerm Num mayLead c t) : c.Settled t := by
  unfold Settled
  cases h with
  | operand h =>
    cases h with
    | value hk => rw [hk]; rfl
    | reference hk => rw [hk]; rfl
    | call hcomplete => rw [hcomplete.kind]; rfl
  | operator h =>
    cases h with
    | binary hop => rw [hop.1]; rfl
    | minusSign hk => rw [hk]; rfl
  | unary hop => rw [hop.1]; rfl

/-! ### Terms stay terms of a run over numbers -/

theorem Compilation.Quiet.isMissing (h : Quiet Num bound c c')
    (hn : n.index < c.arena.exprs.size) : c'.arena.isMissing n = c.arena.isMissing n := by
  unfold Arena.isMissing
  rcases h.expr n hn with heq | hloose
  · rw [heq]
  · rw [h.kind n hn hloose.isValue]

theorem Compilation.IsComplete.quiet {args : List ExprId} (hn : c₀.IsComplete n d args)
    (h : Quiet Num c₀.arena.exprs.size c₀ c) : c.IsComplete n d args where
  kind := h.kind_eq hn.kind (by simp)
  bound := by
    have hbound := hn.bound
    have harity := (h.definitionType fun b _ => hn.body b).arity
    have hmissing : args.any c.arena.isMissing = args.any c₀.arena.isMissing := by
      rw [Bool.eq_iff_iff, List.any_eq_true, List.any_eq_true]
      refine exists_congr fun arg => and_congr_right fun harg => ?_
      rw [h.isMissing (hn.args arg harg)]
    simp only [Arena.isPartialCall, hn.kind] at hbound
    simp only [Arena.isPartialCall, h.kind_eq hn.kind (by simp)]
    rwa [hmissing, ← harity]
  args arg harg := (hn.args arg harg).trans_le h.size
  body b hb := (hn.body b (h.extends.definition d ▸ hb)).trans_le h.size

/-- A reference that was current stays so. -/
theorem Compilation.Current.quiet {Class : Ty → Prop} (ht : c₀.Current Class t)
    (h : Quiet Num c₀.arena.exprs.size c₀ c) (hk : (c₀.arena.expr t).kind ≠ .deleted)
    (hClass : ∀ {s u : Ty}, Ty.Alike Num s u → Class s → Class u) : c.Current Class t := by
  intro hbody
  have hbody₀ := h.isBody.1 hbody
  exact hClass (h.alike t (Arena.lt_size_of_kind_ne hk) hbody₀) (ht hbody₀)

include hNum in
theorem NumberOperand.quiet (ht : NumberOperand Num c₀ t)
    (h : Quiet Num c₀.arena.exprs.size c₀ c) : NumberOperand Num c t := by
  cases ht with
  | value hk hty =>
    have heq := h.expr_eq (.inl ⟨_, hk⟩)
    exact .value (heq ▸ hk) (heq ▸ hty)
  | reference hk hty hcurrent =>
    have hne : c₀.arena.definitionType _ ≠ .absurd := fun h => by
      have := hNum.numeric (h ▸ hty)
      cases this
    exact .reference (h.kind_eq hk (by simp)) ((alike_definitionType h hne).num.1 hty)
      (hcurrent.quiet h (by simp [hk]) fun halike => halike.num.1)
  | call hcomplete hty =>
    have heq := h.expr_eq (.inr ⟨_, _, hcomplete.kind⟩)
    exact .call (hcomplete.quiet h) (heq ▸ hty)

theorem isArithmetic_quiet (h : Quiet Num c₀.arena.exprs.size c₀ c)
    (hty : (c₀.arena.definitionType d).IsArithmetic) :
    (c.arena.definitionType d).IsArithmetic := by
  have hne : c₀.arena.definitionType d ≠ .absurd := by
    obtain ⟨p, hp⟩ := hty
    simp [hp]
  exact (alike_definitionType h hne).arithmetic.1 hty

theorem isUnary_quiet (h : Quiet Num c₀.arena.exprs.size c₀ c)
    (hty : (c₀.arena.definitionType d).IsUnary Num) :
    (c.arena.definitionType d).IsUnary Num := by
  have hne : c₀.arena.definitionType d ≠ .absurd := by
    obtain ⟨q, r, p, hp, -⟩ := hty
    simp [hp]
  exact (alike_definitionType h hne).unary.1 hty

theorem NumberOperator.quiet (ht : NumberOperator c₀ t)
    (h : Quiet Num c₀.arena.exprs.size c₀ c) : NumberOperator c t := by
  cases ht with
  | binary hop hty hcurrent =>
    exact .binary (h.extends.refersTo hop) (isArithmetic_quiet h hty)
      (hcurrent.quiet h (by simp [hop.1]) fun halike => halike.arithmetic.1)
  | minusSign hk hop hty =>
    have hd := h.extends.definition c₀.builtins.minus
    exact .minusSign (h.kind_eq hk (by simp)) (by rw [h.builtins, hd]; exact hop)
      (h.builtins ▸ isArithmetic_quiet h hty)

include hNum in
/-- **A term of a run over numbers** stays one. -/
theorem NumberTerm.quiet (ht : NumberTerm Num mayLead c₀ t)
    (h : Quiet Num c₀.arena.exprs.size c₀ c) : NumberTerm Num mayLead c t := by
  cases ht with
  | operand ht => exact .operand (ht.quiet hNum h)
  | operator ht hneg =>
    refine .operator (ht.quiet h) fun hmay hk => h.builtins ▸ isUnary_quiet h (hneg hmay ?_)
    cases ht with
    | binary hop => simp [h.kind_eq hop.1 (by simp)] at hk
    | minusSign hk₀ => exact hk₀
  | unary hop hf hty hcurrent =>
    exact .unary (h.extends.refersTo hop) hf (isUnary_quiet h hty)
      (hcurrent.quiet h (by simp [hop.1]) fun halike => halike.unary.1)

/-! ### Building -/

/-- A term that refers to a definition is a number or an operator. -/
theorem NumberTerm.refers (ht : NumberTerm Num mayLead c t)
    (hk : (c.arena.expr t).kind = .reference d ∨ (c.arena.expr t).kind = .operator d) :
    (c.arena.expr t).kind = .reference d ∧ Num (c.arena.definitionType d) ∧ c.Current Num t ∨
      (c.arena.expr t).kind = .operator d ∧
        ((c.arena.definitionType d).IsArithmetic ∧ c.Current Ty.IsArithmetic t ∨
          (c.arena.definitionType d).IsUnary Num ∧ c.Current (Ty.IsUnary Num) t) := by
  cases ht with
  | operand ht =>
    cases ht with
    | value hv => simp [hv] at hk
    | reference hr hty hcurrent =>
      obtain rfl : _ = d := by simpa [hr] using hk
      exact .inl ⟨hr, hty, hcurrent⟩
    | call hcomplete => simp [hcomplete.kind] at hk
  | operator ht =>
    cases ht with
    | binary hop hty hcurrent =>
      obtain rfl : _ = d := by simpa [hop.1] using hk
      exact .inr ⟨hop.1, .inl ⟨hty, hcurrent⟩⟩
    | minusSign hm => simp [hm] at hk
  | unary hop _ hty hcurrent =>
    obtain rfl : _ = d := by simpa [hop.1] using hk
    exact .inr ⟨hop.1, .inr ⟨hty, hcurrent⟩⟩

theorem NumberTerm.num_definitionType (ht : NumberTerm Num mayLead c t)
    (hk : (c.arena.expr t).kind = .reference d) : Num (c.arena.definitionType d) := by
  rcases ht.refers (.inl hk) with ⟨-, hty, -⟩ | ⟨hop, -⟩
  · exact hty
  · cases hk.symm.trans hop

include hNum in
/-- The type that a reference takes is of the class that its own type was of. -/
theorem NumberTerm.alike_definitionType (ht : NumberTerm Num mayLead c t)
    (hk : (c.arena.expr t).kind = .reference d ∨ (c.arena.expr t).kind = .operator d)
    (hbody : c.IsBody t) : Ty.Alike Num (c.arena.expr t).ty (c.arena.definitionType d) := by
  rcases ht.refers hk with ⟨-, hty, hcurrent⟩ | ⟨-, ⟨hty, hcurrent⟩ | ⟨hty, hcurrent⟩⟩
  · exact Ty.alike_of_num hNum (hcurrent hbody) hty
  · exact Ty.alike_of_arithmetic hNum (hcurrent hbody) hty
  · exact Ty.alike_of_unary hNum (hcurrent hbody) hty

include hNum in
theorem NumberTerm.quiet_refreshed (ht : NumberTerm Num mayLead c t) :
    Quiet Num bound c (c.refreshed t) := by
  unfold refreshed
  split <;> rename_i hk
  · exact quiet_modifyExpr rfl (.inr (.inr ⟨_, hk⟩)) (fun _ _ => ht.num_definitionType hk)
      fun _ => ht.alike_definitionType hNum (.inl hk)
  · refine quiet_modifyExpr rfl (.inr (.inl ⟨_, hk⟩)) (fun _ h => ?_)
      fun _ => ht.alike_definitionType hNum (.inr hk)
    simp [hk] at h
  · exact .refl Num bound c

include hNum in
theorem classify_number (resolveRun : ExprId → CheckM Unit) (ht : NumberTerm Num mayLead c t) :
    Outcome (classify resolveRun t) c
      (fun term c' => Quiet Num bound c c' ∧ c'.Settled t ∧ term.Plays c' t ∧
        ∀ d, (c'.arena.expr t).kind = .reference d → Num (c'.arena.expr t).ty)
      fun _ _ => False := by
  have hrun : ∀ ts, (c.arena.expr t).kind ≠ .run ts := fun ts hk => by
    have := ht.settled
    simp [Settled, hk, ExprKind.isSettled] at this
  have hquiet : Quiet Num bound c (c.refreshed t) := ht.quiet_refreshed hNum
  simp only [classify, outcome_bind, outcome_expr]
  refine (classifyResolved_outcome _ hrun).mono ?_ fun _ _ h => h.2 ht.settled
  rintro term c' ⟨rfl, hsettled, hterm⟩
  refine ⟨hquiet, hquiet.extends.settled hsettled, hterm, fun d hd => ?_⟩
  have hk := (kind_refreshed c t t).symm.trans hd
  have hlt : t.index < c.arena.exprs.size := Arena.lt_size_of_kind_ne (by simp [hk])
  simp only [refreshed, hk, modifyArena, Arena.expr_modifyExpr_self hlt]
  exact ht.num_definitionType hk

include hNum in
theorem normalizeOperand_number (ht : NumberTerm Num mayLead c t)
    (hready : ∀ d, (c.arena.expr t).kind = .reference d → Num (c.arena.expr t).ty)
    (hrole : c.role t = .operand) :
    Outcome (Arrangement.normalizeOperand t) c
      (fun n c' => Quiet Num bound c c' ∧ Realizes Num bound c' (single (some (.atom t))) n ∧
        c'.arena.openSlots n = 0)
      fun _ _ => False := by
  obtain ⟨hnumber, hslots⟩ : c.IsNumber Num t ∧ c.arena.openSlots t = 0 := by
    cases ht with
    | operand ht =>
      cases ht with
      | @value v hk hty => exact ⟨⟨.inl ⟨v, hk⟩, hty⟩, by simp [Arena.openSlots, hk]⟩
      | @reference d hk hty =>
        have harity := Ty.arity_of_num hNum hty
        exact ⟨⟨.inr (.inl ⟨d, hk⟩), hready d hk⟩, by simp [Arena.openSlots, hk, harity]⟩
      | @call d args hcomplete hty =>
        exact ⟨⟨.inr (.inr ⟨d, args, hcomplete.kind⟩), hty⟩,
          by simp [Arena.openSlots, hcomplete.kind, hcomplete.bound]⟩
    | operator ht =>
      cases ht with
      | binary hop => simp [role_of_refersTo hop] at hrole
      | minusSign hk => simp [Compilation.role, hk] at hrole
    | @unary d f hop hf =>
      rw [role_of_refersTo hop] at hrole
      cases f with
      | binary => cases hf
      | leading | trailing => cases hrole
  simp only [Arrangement.normalizeOperand, outcome_bind, outcome_expr]
  split
  · rename_i operand hk
    rcases hnumber.kind with ⟨v, h⟩ | ⟨d, h⟩ | ⟨d, args, h⟩ <;> simp [hk] at h
  · exact ⟨.refl Num bound c, .atom hnumber, hslots⟩

include hNum in
theorem allocCall_unary {x : ExprId} (span : Span) (hbound : bound ≤ c.arena.exprs.size)
    (hty : (c.arena.definitionType d).IsUnary Num) (hx : c.IsNumber Num x) :
    Outcome (allocCall d [x] span) c
      (fun n c' => Quiet Num bound c c' ∧ (c'.arena.expr n).kind = .call d [x] ∧
        Num (c'.arena.expr n).ty)
      fun _ _ => False := by
  obtain ⟨param, result, isPure, hfun, hparam, hresult⟩ := hty
  refine (allocCall_number hNum span hbound hfun rfl (by simp [hx]) (by simpa using hparam)).imp ?_
  rintro n c' ⟨hquiet, hk, hnum, -⟩
  exact ⟨hquiet, hk, hnum (by simpa using hx) ▸ hresult⟩

/-! ### The types of operators -/

theorem NumberTerm.isUnary_of_leads (ht : NumberTerm Num mayLead c t) (hmay : mayLead)
    (h : c.Leads d t) : (c.arena.definitionType d).IsUnary Num := by
  have hsign := h.isSign
  cases ht with
  | operand ht => simp [ht.role, Role.isSign] at hsign
  | operator ht hneg =>
    rcases h with h | ⟨hk, rfl⟩
    · cases ht with
      | binary hop => simp [role_of_refersTo hop, Role.isSign] at hsign
      | minusSign hk => simp [RefersTo, hk] at h
    · exact hneg hmay hk
  | unary hop hf hty =>
    rcases h with h | ⟨hk, -⟩
    · obtain rfl : _ = d := by simpa [hop.1] using h.1
      exact hty
    · simp [hop.1] at hk

theorem NumberTerm.isUnary_of_trailing (ht : NumberTerm Num mayLead c t)
    (h : c.RefersTo t d .trailing) : (c.arena.definitionType d).IsUnary Num := by
  have hrole := role_of_refersTo h
  cases ht with
  | operand ht => simp [ht.role] at hrole
  | operator ht =>
    cases ht with
    | binary hop => simp [role_of_refersTo hop] at hrole
    | minusSign hk => simp [RefersTo, hk] at h
  | unary hop hf hty =>
    obtain rfl : _ = d := by simpa [hop.1] using h.1
    exact hty

theorem NumberTerm.isArithmetic_of_joins {o : Joint} (ht : NumberTerm Num mayLead c o.term)
    (h : c.Joins o) : (c.arena.definitionType o.callee).IsArithmetic := by
  have hjoint := h.2
  cases ht with
  | operand ht => simp [ht.role, Role.joint?] at hjoint
  | operator ht =>
    cases ht with
    | @binary d precedence associativity hop hty =>
      rw [role_of_refersTo hop] at hjoint
      have heq : (⟨o.term, d, ⟨precedence, associativity⟩⟩ : Joint) = o := Option.some.inj hjoint
      rwa [← heq]
    | @minusSign binding hk hop hty =>
      have heq : (⟨o.term, c.builtins.minus, binding⟩ : Joint) = o := by
        simpa [role, hk, hop, Role.joint?] using hjoint
      rwa [← heq]
  | @unary d f hop hf =>
    rw [role_of_refersTo hop] at hjoint
    cases f with
    | binary => cases hf
    | leading | trailing => cases hjoint

/-- The negation of what is no float is that of integers. -/
theorem negationFor_of_num {x : ExprId} (hfloat : ∀ ty, Num ty → ty ≠ .float ∧ ty ≠ .numberLiteral)
    (h : Num (c.arena.expr x).ty) : c.negationFor x = c.builtins.unaryMinus := by
  obtain ⟨hfloat, hliteral⟩ := hfloat _ h
  simp only [negationFor]
  split
  · exact (hfloat ‹_›).elim
  · exact (hliteral ‹_›).elim
  · rfl

/-- A side that is open at its root at most is a number or a gap. -/
theorem Realizes.isNumber_or_isGap {plan : Plan} (h : Realizes Num bound c plan n)
    (hplan : plan.Whole ∨ plan = single none) : c.IsNumber Num n ∨ c.IsGap bound n := by
  rcases hplan with hwhole | rfl
  · exact .inl (h.isNumber hwhole)
  · exact .inr h.isGap

/-- Any other is a call that is open. -/
theorem Realizes.isNumber_or_isGap_or_isOpenCall {plan : Plan} (h : Realizes Num bound c plan n) :
    c.IsNumber Num n ∨ c.IsGap bound n ∨ c.IsOpenCall n := by
  by_cases hplan : plan.Whole ∨ plan = single none
  · exact (h.isNumber_or_isGap hplan).imp_right .inl
  · rw [not_or] at hplan
    exact .inr (.inr (h.isOpenCall hplan.1 hplan.2))

include hNum in
/-- A binary operator between two numbers is applied unless an operand of it is open below its
own root. -/
theorem allocCall_arithmetic {o : Joint} {left right : Plan} {x y : ExprId} (span : Span)
    (hbound : bound ≤ c.arena.exprs.size)
    (hty : (c.arena.definitionType o.callee).IsArithmetic) (hleft : Realizes Num bound c left x)
    (hright : Realizes Num bound c right y) :
    Outcome (allocCall o.callee [x, y] span) c
      (fun n c' => Quiet Num bound c c' ∧ Realizes Num bound c' (join left o right) n)
      fun stop c' => (stop ≠ .cyclic ∧ bound ≤ c'.arena.exprs.size) ∧
        ¬ Plan.OpenAtRoot (join left o right) := by
  obtain ⟨isPure, hfun⟩ := hty
  by_cases hopen : Plan.OpenAtRoot (join left o right)
  · -- Each side is a number or a gap, so the call is built.
    have hx := hleft.isNumber_or_isGap hopen.1
    have hy := hright.isNumber_or_isGap hopen.2
    have hparams : ∀ param ∈ [Ty.number, .number], param.Takes Num := by
      simp [Ty.takes_number]
    refine (allocCall_number hNum span hbound hfun rfl (by simp [hx, hy]) hparams).mono ?_
      fun _ _ => False.elim
    rintro n c' ⟨hquiet, hk, hnum, hgap⟩
    refine ⟨hquiet, .join hk (hleft.quiet hquiet) (hright.quiet hquiet) hopen ?_ ?_⟩
    · intro hwhole
      rw [hnum (by simp [hleft.isNumber hwhole.1, hright.isNumber hwhole.2])]
      exact hNum.number
    · intro hwhole
      have hmissing : ∃ m ∈ [x, y], c.IsGap bound m := by
        rcases hopen with ⟨hl | rfl, hr | rfl⟩
        · exact (hwhole ⟨hl, hr⟩).elim
        · exact ⟨y, by simp, hright.isGap⟩
        · exact ⟨x, by simp, hleft.isGap⟩
        · exact ⟨x, by simp, hleft.isGap⟩
      obtain ⟨unbound, hty⟩ := hgap hmissing
      exact ⟨unbound, _, _, hty⟩
  · -- A side that is open below is a call that is refused.
    have hcall : ∃ m ∈ [x, y], c.IsOpenCall m := by
      simp only [Plan.OpenAtRoot, not_and_or, not_or] at hopen
      rcases hopen with ⟨hwhole, hnone⟩ | ⟨hwhole, hnone⟩
      · exact ⟨x, by simp, hleft.isOpenCall hwhole hnone⟩
      · exact ⟨y, by simp, hright.isOpenCall hwhole hnone⟩
    have hargs : ∀ m ∈ [x, y], c.IsNumber Num m ∨ c.IsGap bound m ∨ c.IsOpenCall m := by
      simp [hleft.isNumber_or_isGap_or_isOpenCall, hright.isNumber_or_isGap_or_isOpenCall]
    refine ((allocCall_openCall hNum span hfun rfl hargs hcall (by simp)).and
      (allocCall_steady o.callee [x, y] span)).mono (fun _ _ h => h.1.elim) ?_
    rintro stop c' ⟨-, hstop, hsteady⟩
    exact ⟨⟨hstop.ne_cyclic, hbound.trans hsteady.size⟩, hopen⟩

/-- **The account of a run over numbers.** If a term may lead an operand, then no number is a
float, so that every minus sign is the negation of integers. -/
def arithmetic {resolveRun : ExprId → CheckM Unit} {terms : List ExprId}
    (hterms : ∀ t ∈ terms, NumberTerm Num mayLead c₀ t)
    (hfloat : mayLead → ∀ ty, Num ty → ty ≠ .float ∧ ty ≠ .numberLiteral) :
    Account resolveRun terms where
  exact := True
  Valid c := Quiet Num c₀.arena.exprs.size c₀ c
  Later c c' := Quiet Num c₀.arena.exprs.size c c'
  Holds c plan n := Realizes Num c₀.arena.exprs.size c plan n
  Ready c t := ∀ d, (c.arena.expr t).kind = .reference d → Num (c.arena.expr t).ty
  MayLead _ := mayLead
  Halts stop c := stop ≠ .cyclic ∧ c₀.arena.exprs.size ≤ c.arena.exprs.size
  refl c := .refl _ _ c
  trans h h' := h.trans h'
  toExtends h := h.toSteady.extends
  valid hc h := hc.trans h
  halts hc error := ⟨by simp, hc.size⟩
  holds hn h := hn.quiet h
  settled _ hc ht := ((hterms _ ht).quiet hNum hc).settled
  classify hc ht :=
    (classify_number hNum resolveRun ((hterms _ ht).quiet hNum hc)).mono (fun _ _ => id)
      fun _ _ => False.elim
  operand hc ht _ hready hrole :=
    (normalizeOperand_number hNum ((hterms _ ht).quiet hNum hc) hready hrole).mono
      (fun _ _ h => ⟨h.1, h.2.1, fun _ => h.2.2⟩) fun _ _ => False.elim
  apply h := (h trivial).elim
  lead {c d t n p} span hc ht hmay hleads htrails hp := by
    -- No number is a float here, so a minus sign stays the negation of integers.
    have hcallee : (if d = c.builtins.unaryMinus then c.negationFor n else d) = d := by
      rw [negationFor_of_num (hfloat hmay) (hp.isNumber rfl).ty]
      split <;> simp_all
    have hty := ((hterms t ht).quiet hNum hc).isUnary_of_leads hmay hleads
    rw [hcallee]
    refine (allocCall_unary hNum span hc.size hty (hp.isNumber rfl)).mono ?_ fun _ _ => False.elim
    rintro m c' ⟨hquiet, hk, hnum⟩
    exact ⟨hquiet, .sign hk hnum (hp.quiet hquiet)⟩
  trail {c d t n p} span hc ht hrefers hp := by
    have hty := ((hterms t ht).quiet hNum hc).isUnary_of_trailing hrefers
    refine (allocCall_unary hNum span hc.size hty (hp.isNumber rfl)).mono ?_ fun _ _ => False.elim
    rintro m c' ⟨hquiet, hk, hnum⟩
    exact ⟨hquiet, .trail hk hnum (hp.quiet hquiet)⟩
  missing {c} span hc := by
    refine ⟨quiet_allocExpr hc.size (by simp [Expression.new]), .missing ⟨hc.size, ?_⟩⟩
    exact congrArg Expression.kind (Arena.expr_allocExpr_self ..)
  combine span hc ht hjoins hleft hright :=
    (allocCall_arithmetic hNum span hc.size
      (((hterms _ ht).quiet hNum hc).isArithmetic_of_joins hjoins) hleft hright).mono
      (fun _ _ => id) fun _ _ h _ => h

include hNum in
/-- **A run over numbers is arranged** if and only if it has a plan that is open only at the root,
and then into a node for that plan. -/
theorem arrange_arithmetic {terms : List ExprId} (resolveRun : ExprId → CheckM Unit) (span : Span)
    (hterms : ∀ t ∈ terms, NumberTerm Num mayLead c t)
    (hfloat : mayLead → ∀ ty, Num ty → ty ≠ .float ∧ ty ≠ .numberLiteral)
    (hsigns : mayLead ∨ Sketch.SignsAre (fun _ => False) False c.role .start terms) :
    Outcome (arrange resolveRun terms span) c
      (fun e c' => Quiet Num c.arena.exprs.size c c' ∧ ∃ plan n,
        Planned False c.role terms plan ∧ Realizes Num c.arena.exprs.size c' plan n ∧
          e = c'.arena.expr n)
      fun stop c' => (stop ≠ .cyclic ∧ c.arena.exprs.size ≤ c'.arena.exprs.size) ∧
        ¬ ∃ plan, Planned False c.role terms plan ∧ plan.OpenAtRoot := by
  let A : Account resolveRun terms := arithmetic hNum hterms hfloat
  have hled : A.Led c .start terms := by
    refine hsigns.imp (fun hmay _ => hmay) fun hsigns => ⟨trivial, ?_⟩
    intro us t vs s signs hts hsteps hs hsign
    exact (hsigns us t vs s signs hts (by simpa [A, arithmetic] using hsteps) hs hsign).elim
  have hplanned : ∀ {role plan}, Planned (¬ A.exact) role terms plan ↔
      Planned False role terms plan := by
    simp [A, arithmetic]
  refine (A.arrange_outcome span (.refl _ _ c) hled).mono ?_ ?_
  · rintro e c' ⟨hquiet, -, plan, n, hplan, hn, he⟩
    have hrole : ∀ t ∈ terms, c'.role t = c.role t := fun t ht =>
      hquiet.toSteady.extends.role (hterms t ht).settled
    exact ⟨hquiet, plan, n, hplanned.1 (hplan.congr hrole), hn, he⟩
  · intro stop c' hstop
    refine ⟨(hstop trivial).1, ?_⟩
    rintro ⟨plan, hplan, hopen⟩
    exact (hstop trivial).2 ⟨plan, hplanned.2 hplan, hopen⟩

end

end

end Termwise
