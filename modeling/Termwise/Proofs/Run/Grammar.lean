import Mathlib.Logic.Relation
import Termwise.Proofs.Run.Precedence

/-!
# The grammar of runs

A phrase is an operand with signs in front of it and operators behind it, and a sentence is a run
of phrases with binary operators between them. A run over integers in which nothing is applied to
anything else is resolved if and only if it is a sentence, or a section: a sentence with a binary
operator in front of it or behind it that comes to the root of the tree. A minus sign in front of
a sentence is a sign, so it makes a section only behind one.

An operator that does not come to the root is an operand of another one, as a call that is still
open, and is refused there. So the missing operand of an accepted section is an argument of the
root of the tree, and nothing else is open.

## Main definitions

* `Sentence`, `Grammatical`: the runs that are accepted, with their plans
* `GrammarTerm`: a term of such a run
* `Compilation.OnlyMissing`: the one open argument below a node

## Main results

* `grammatical_iff`: the grammar describes the plans that are open only at the root
* `resolve_iff_grammatical`: a run is resolved if and only if it is in the grammar
-/

namespace Termwise

open Compilation Grouping

/-! ## Sentences and sections -/

/-- A run of phrases with binary operators between them. -/
structure Sentence where
  first : Phrase
  rest : List (Joint × Phrase)

namespace Sentence

/-- The terms of a sentence, in their order. -/
def terms (w : Sentence) : List ExprId :=
  w.first.terms ++ w.rest.flatMap fun x => x.1.term :: x.2.terms

/-- The operators of a sentence, each with the phrase behind it. -/
def tail (w : Sentence) : List (Joint × Option Phrase) := w.rest.map fun x => (x.1, some x.2)

/-- The tree of a sentence. -/
def plan (w : Sentence) : Plan := Grouping.ofRun (some w.first) w.tail

/-- The terms of a sentence play the roles that they have in it. -/
structure Fits (role : ExprId → Role) (w : Sentence) : Prop where
  first : w.first.Fits role
  rest : ∀ x ∈ w.rest, (role x.1.term).joint? x.1.term = some x.1 ∧ x.2.Fits role

theorem whole_plan (w : Sentence) : w.plan.Whole := by
  have hmap : w.plan = (Grouping.ofRun w.first w.rest).map fun p => some p := by
    rw [Grouping.ofRun, map_appendAll]
    rfl
  rw [hmap]
  exact Plan.whole_map (fun p => p) _

end Sentence

/-- **A run of the grammar**, with its tree: a sentence, or a section of one. The tree of a section
is that of the whole run, with nothing where the operand is missing. -/
inductive Grammatical (role : ExprId → Role) : List ExprId → Plan → Prop where
  | sentence {w : Sentence} (hw : w.Fits role) : Grammatical role w.terms w.plan
  | leftSection {w : Sentence} {o : Joint} (hw : w.Fits role)
    (ho : role o.term = .binary o.callee o.binding)
    (hroot : Grouping.ofRun none ((o, some w.first) :: w.tail) = join (single none) o w.plan) :
    Grammatical role (o.term :: w.terms) (join (single none) o w.plan)
  | rightSection {w : Sentence} {o : Joint} (hw : w.Fits role)
    (ho : (role o.term).joint? o.term = some o)
    (hroot : Grouping.ofRun (some w.first) (w.tail ++ [(o, none)]) = join w.plan o (single none)) :
    Grammatical role (w.terms ++ [o.term]) (join w.plan o (single none))

variable {role : ExprId → Role} {terms : List ExprId} {plan : Plan}

theorem Grammatical.openAtRoot (h : Grammatical role terms plan) : plan.OpenAtRoot := by
  cases h with
  | @sentence w => exact w.whole_plan.openAtRoot
  | @leftSection w => exact ⟨.inr rfl, .inl w.whole_plan⟩
  | @rightSection w => exact ⟨.inl w.whole_plan, .inr rfl⟩

theorem Grammatical.whole_right {o : Joint} {right : Plan}
    (h : Grammatical role terms (join (single none) o right)) : right.Whole := by
  generalize hp : join (single none) o right = p at h
  cases h with
  | @sentence w => cases (hp ▸ w.whole_plan : Plan.Whole (join (single none) o right)).1
  | @leftSection w =>
    cases hp
    exact w.whole_plan
  | @rightSection w =>
    obtain ⟨hw, -, -⟩ := Grouping.join.inj hp
    cases (hw ▸ w.whole_plan : Plan.Whole (single none))

theorem Grammatical.whole_left {o : Joint} {left : Plan}
    (h : Grammatical role terms (join left o (single none))) : left.Whole := by
  generalize hp : join left o (single none) = p at h
  cases h with
  | @sentence w => cases (hp ▸ w.whole_plan : Plan.Whole (join left o (single none))).2
  | @leftSection w =>
    obtain ⟨-, -, hw⟩ := Grouping.join.inj hp
    cases (hw ▸ w.whole_plan : Plan.Whole (single none))
  | @rightSection w =>
    cases hp
    exact w.whole_plan

/-- A run of the grammar is read to its tree. -/
theorem Grammatical.planned {applies : Prop} (h : Grammatical role terms plan) :
    Planned applies role terms plan := by
  cases h with
  | sentence hw => exact planned_ofRun hw.first hw.rest
  | @leftSection w o hw ho hroot =>
    obtain ⟨fs, p, hsteps, hclose⟩ := Sketch.steps_rest [(single none, o)] w.first hw.rest
    have hstart : Sketch.Step applies .start o.term (role o.term)
        ⟨[(single none, o)], .due []⟩ := by
      rw [ho]
      exact .first o.term o.callee o.binding
    have hplan : closeAll fs (single (some p)) = join (single none) o w.plan := by
      rw [hclose, ← hroot]
      rfl
    refine ⟨⟨fs, .past p⟩, .cons hstart ((Sketch.steps_phrase _ hw.first).append hsteps), ?_⟩
    rw [← hplan]
    exact .past fs p
  | @rightSection w o hw ho hroot =>
    obtain ⟨fs, p, hsteps, hclose⟩ := Sketch.steps_rest [] w.first hw.rest
    have hlast : Sketch.Step applies ⟨fs, .past p⟩ o.term (role o.term)
        ⟨close fs (single (some p)) o, .due []⟩ := .joint fs p o.term ho
    have hplan : closeAll (close fs (single (some p)) o) (single none) =
        join w.plan o (single none) := by
      rw [closeAll_close fs (by simp [rightSpine]), hclose, ← hroot, Grouping.ofRun,
        appendAll_append]
      rfl
    have hread := ((Sketch.steps_phrase [] hw.first).append hsteps).append (.single hlast)
    obtain ⟨f, fs', hframes⟩ := List.exists_cons_of_ne_nil (close_ne_nil fs (single (some p)) o)
    refine ⟨_, hread, ?_⟩
    rw [← hplan, hframes]
    exact .due f fs'

/-! ## Everything else -/

/-- The phrases and operators of a plan play the roles that they have in it, and a minus sign is
no operator without a left side. -/
def Plan.Spelled (role : ExprId → Role) : Plan → Prop
  | single p => ∀ q, p = some q → q.Fits role
  | join left o right =>
    Spelled role left ∧ Spelled role right ∧ (role o.term).joint? o.term = some o ∧
      (left = single none → role o.term = .binary o.callee o.binding)

/-- The same of an operator that waits and of its left side. -/
def Frame.Spelled (role : ExprId → Role) (f : Frame) : Prop :=
  Plan.Spelled role f.1 ∧ (role f.2.term).joint? f.2.term = some f.2 ∧
    (f.1 = single none → role f.2.term = .binary f.2.callee f.2.binding)

/-- The same of a run read so far. -/
structure Sketch.Spelled (role : ExprId → Role) (s : Sketch) : Prop where
  frames : ∀ f ∈ s.frames, Frame.Spelled role f
  signs : ∀ signs, s.point = .due signs → ∀ t ∈ signs, (role t).isSign = true
  phrase : ∀ p, s.point = .past p → p.Fits role

theorem spelled_closeAll {fs : List Frame} {t : Plan} (hfs : ∀ f ∈ fs, Frame.Spelled role f)
    (ht : t.Spelled role) : (closeAll fs t).Spelled role := by
  induction fs generalizing t with
  | nil => exact ht
  | cons f fs ih =>
    obtain ⟨⟨hleft, hjoint, hbinary⟩, hfs⟩ := List.forall_mem_cons.1 hfs
    exact ih hfs ⟨hleft, ht, hjoint, hbinary⟩

theorem spelled_close {fs : List Frame} {t : Plan} {p : Joint}
    (hfs : ∀ f ∈ fs, Frame.Spelled role f) (hp : Frame.Spelled role (t, p)) :
    ∀ f ∈ close fs t p, Frame.Spelled role f := by
  induction fs generalizing t with
  | nil => exact List.forall_mem_singleton.2 hp
  | cons f fs ih =>
    obtain ⟨left, o⟩ := f
    obtain ⟨⟨hleft, hjoint, hbinary⟩, hrest⟩ := List.forall_mem_cons.1 hfs
    unfold close
    split
    · -- What was closed has a left side.
      exact ih hrest ⟨⟨hleft, hp.1, hjoint, hbinary⟩, hp.2.1, fun h => by cases h⟩
    · exact List.forall_mem_cons.2 ⟨hp, hfs⟩

theorem Sketch.Step.spelled {s s' : Sketch} {t : ExprId} (h : Sketch.Step False s t (role t) s')
    (hs : s.Spelled role) : s'.Spelled role := by
  obtain ⟨hframes, hsigns, hphrase⟩ := hs
  generalize hr : role t = r at h
  cases h with
  | operand fs signs =>
    refine ⟨hframes, by simp, ?_⟩
    rintro p ⟨⟩
    exact ⟨hsigns signs rfl, hr, rfl, by simp⟩
  | sign fs signs _ hsign =>
    refine ⟨hframes, ?_, by simp⟩
    rintro _ ⟨⟩ u hu
    rcases List.mem_append.1 hu with hu | hu
    · exact hsigns signs rfl u hu
    · rw [List.mem_singleton.1 hu, hr]
      exact hsign
  | first _ callee binding =>
    refine ⟨List.forall_mem_singleton.2 ⟨by simp [Plan.Spelled], ?_, fun _ => hr⟩, ?_, by simp⟩
    · rw [hr]
      rfl
    · rintro _ ⟨⟩
      simp
  | argument _ _ _ _ _ happlies => exact happlies.elim
  | trailing fs p =>
    refine ⟨hframes, by simp, ?_⟩
    rintro _ ⟨⟩
    obtain ⟨hsigns, hhead, hargs, htrails⟩ := hphrase p rfl
    refine ⟨hsigns, hhead, hargs, fun u hu => ?_⟩
    rcases List.mem_append.1 hu with hu | hu
    · exact htrails u hu
    · rw [List.mem_singleton.1 hu, hr]
  | @joint fs p _ _ o hjoint =>
    have hp : Frame.Spelled role (single (some p), o) := by
      refine ⟨?_, ?_, fun h => by cases h⟩
      · rintro q ⟨⟩
        exact hphrase p rfl
      · rw [Role.term_of_joint? hjoint, hr]
        exact hjoint
    -- The operator closes the frames that it binds less tightly than.
    refine ⟨spelled_close hframes hp, ?_, by simp⟩
    rintro _ ⟨⟩
    simp

theorem Sketch.Steps.spelled {s s' : Sketch} {ts : List ExprId}
    (h : Sketch.Steps False role s ts s') (hs : s.Spelled role) : s'.Spelled role := by
  induction h with
  | nil => exact hs
  | cons h _ ih => exact ih (h.spelled hs)

theorem Planned.spelled (h : Planned False role terms plan) : plan.Spelled role := by
  obtain ⟨s, hsteps, hends⟩ := h
  have hs := hsteps.spelled ⟨by simp [Sketch.start], by simp [Sketch.start], by simp [Sketch.start]⟩
  cases hends with
  | past fs p =>
    refine spelled_closeAll hs.frames ?_
    rintro q ⟨⟩
    exact hs.phrase p rfl
  | due f fs => exact spelled_closeAll hs.frames (by simp [Plan.Spelled])

/-- A whole plan has the terms of a sentence. -/
theorem Plan.Spelled.exists_terms (h : plan.Spelled role) (hwhole : plan.Whole) :
    ∃ w : Sentence, w.Fits role ∧ plan.first = some w.first ∧ plan.rest = w.tail ∧
      plan.terms = w.terms := by
  induction plan with
  | single p =>
    obtain ⟨p, rfl⟩ := Option.isSome_iff_exists.1 hwhole
    refine ⟨⟨p, []⟩, ⟨h p rfl, by simp⟩, rfl, rfl, ?_⟩
    simp [Sentence.terms]
  | join left o right ihl ihr =>
    obtain ⟨hleft, hright, hjoint, -⟩ := h
    obtain ⟨wl, hwl, hfl, hrl, htl⟩ := ihl hleft hwhole.1
    obtain ⟨wr, hwr, hfr, hrr, htr⟩ := ihr hright hwhole.2
    refine ⟨⟨wl.first, wl.rest ++ (o, wr.first) :: wr.rest⟩, ⟨hwl.first, ?_⟩, hfl, ?_, ?_⟩
    · intro x hx
      rcases List.mem_append.1 hx with hx | hx
      · exact hwl.rest x hx
      · rcases List.mem_cons.1 hx with rfl | hx
        · exact ⟨hjoint, hwr.first⟩
        · exact hwr.rest x hx
    · simp [Grouping.rest, hrl, hfr, hrr, Sentence.tail]
    · simp [htl, htr, Sentence.terms]

/-- A whole plan that is well bound is the tree of a sentence. -/
theorem Plan.Spelled.exists_sentence (h : plan.Spelled role) (hwhole : plan.Whole)
    (hbound : plan.WellBound) :
    ∃ w : Sentence, w.Fits role ∧ plan.first = some w.first ∧ plan.rest = w.tail ∧
      plan.terms = w.terms ∧ plan = w.plan := by
  obtain ⟨w, hw, hfirst, hrest, hterms⟩ := h.exists_terms hwhole
  refine ⟨w, hw, hfirst, hrest, hterms, ?_⟩
  rw [Sentence.plan, ← hfirst, ← hrest, ofRun_eq_of_wellBound hbound]

/-- **The grammar** describes the runs that have a plan, and one that is open only at the root. -/
theorem grammatical_iff (hlength : 2 ≤ terms.length) :
    Grammatical role terms plan ↔ Planned False role terms plan ∧ plan.OpenAtRoot := by
  refine ⟨fun h => ⟨h.planned, h.openAtRoot⟩, ?_⟩
  rintro ⟨hplan, hopen⟩
  have hspelled := hplan.spelled
  have hbound := hplan.wellBound
  obtain rfl := hplan.terms_eq
  by_cases hwhole : plan.Whole
  · obtain ⟨w, hw, -, -, hterms, rfl⟩ := hspelled.exists_sentence hwhole hbound
    rw [hterms]
    exact .sentence hw
  · cases plan with
    | single p =>
      cases p with
      | none => simp at hlength
      | some p => exact (hwhole rfl).elim
    | join left o right =>
      obtain ⟨hleft, hright, hjoint, hbinary⟩ := hspelled
      have hroot := ofRun_eq_of_wellBound hbound
      rcases hopen with ⟨hl | rfl, hr | rfl⟩
      · exact (hwhole ⟨hl, hr⟩).elim
      · obtain ⟨w, hw, hfirst, hrest, hterms, rfl⟩ := hleft.exists_sentence hl hbound.1
        rw [Plan.terms_join, hterms]
        refine .rightSection hw hjoint ?_
        rwa [Grouping.first, Grouping.rest, hfirst, hrest] at hroot
      · obtain ⟨w, hw, hfirst, hrest, hterms, rfl⟩ := hright.exists_sentence hr hbound.2.1
        rw [Plan.terms_join, hterms]
        refine .leftSection hw (hbinary rfl) ?_
        rwa [Grouping.first, Grouping.rest, hfirst, hrest] at hroot
      · simp at hlength

/-! ## Open arguments -/

namespace Compilation

/-- An argument of a call. -/
def ArgOf (c : Compilation) (m n : ExprId) : Prop :=
  ∃ d args, (c.arena.expr n).kind = .call d args ∧ m ∈ args

/-- Nothing is open at or below a node. -/
def IsFilled (c : Compilation) (n : ExprId) : Prop :=
  ∀ m, Relation.ReflTransGen c.ArgOf m n → (c.arena.expr m).kind ≠ .missingArg

/-- One argument is open at or below a node, and no other one is. -/
def OnlyMissing (c : Compilation) (n m : ExprId) : Prop :=
  ∀ k, Relation.ReflTransGen c.ArgOf k n → ((c.arena.expr k).kind = .missingArg ↔ k = m)

variable {c c' : Compilation} {n m t : ExprId} {d : DefId} {args : List ExprId}

theorem isFilled_of_ne_call (hcall : ∀ d args, (c.arena.expr n).kind ≠ .call d args)
    (hmissing : (c.arena.expr n).kind ≠ .missingArg) : c.IsFilled n := by
  intro m hm
  rcases hm.cases_tail with rfl | ⟨b, -, d, args, hk, -⟩
  · exact hmissing
  · exact (hcall d args hk).elim

theorem isFilled_of_call (hk : (c.arena.expr n).kind = .call d args)
    (hargs : ∀ a ∈ args, c.IsFilled a) : c.IsFilled n := by
  intro m hm
  rcases hm.cases_tail with rfl | ⟨a, hma, d', args', hk', ha⟩
  · simp [hk]
  · obtain ⟨-, rfl⟩ : d = d' ∧ args = args' := by simpa [hk] using hk'
    exact hargs a ha m hma

theorem onlyMissing_of_call (hk : (c.arena.expr n).kind = .call d args) (hm : m ∈ args)
    (hmissing : (c.arena.expr m).kind = .missingArg) (hargs : ∀ a ∈ args, a = m ∨ c.IsFilled a) :
    c.OnlyMissing n m := by
  refine fun k hkn => ⟨fun hkind => ?_, fun h => h ▸ hmissing⟩
  rcases hkn.cases_tail with rfl | ⟨a, hka, d', args', hk', ha⟩
  · simp [hk] at hkind
  · obtain ⟨-, rfl⟩ : d = d' ∧ args = args' := by simpa [hk] using hk'
    rcases hargs a ha with rfl | hfilled
    · -- What is open has no arguments.
      rcases hka.cases_tail with rfl | ⟨b, -, d'', args'', hk'', -⟩
      · rfl
      · simp [hmissing] at hk''
    · exact (hfilled k hka hkind).elim

end Compilation

variable {c c' : Compilation} {id n t : ExprId} {bound : Nat} {Num : Ty → Prop}

/-- The node of a whole plan of terms that are no calls has nothing open below it, whatever is
resolved later. -/
theorem Realizes.isFilled (h : Realizes Num bound c plan n) (hwhole : plan.Whole)
    (hterms : ∀ t ∈ plan.terms, ∀ d args, (c.arena.expr t).kind ≠ .call d args)
    (hc : c.Extends c') : c'.IsFilled n := by
  have hcall : ∀ {m d args}, (c.arena.expr m).kind = .call d args →
      (c'.arena.expr m).kind = .call d args := by
    intro m d args hk
    rw [hc.kind m (by rw [hk]; rfl), hk]
  induction h with
  | missing => cases hwhole
  | @atom t ht =>
    have hne := hterms t (by simp)
    rcases ht.kind with ⟨v, hk⟩ | ⟨d, hk⟩ | ⟨d, args, hk⟩
    · have hvalue := hc.value t (by rw [hk]; rfl)
      refine isFilled_of_ne_call ?_ ?_
      · intro d args hk'
        simp [hk', ExprKind.isValue] at hvalue
      · intro hk'
        simp [hk', ExprKind.isValue] at hvalue
    · have hk' := (hc.kind t (by rw [hk]; rfl)).trans hk
      exact isFilled_of_ne_call (by simp [hk']) (by simp [hk'])
    · exact (hne d args hk).elim
  | @sign p d s x n hk _ _ ih =>
    refine isFilled_of_call (hcall hk) (List.forall_mem_singleton.2 (ih rfl fun t ht => ?_))
    refine hterms t ?_
    simp only [Plan.terms_single, Option.elim_some, Phrase.terms, List.cons_append] at ht ⊢
    exact List.mem_cons_of_mem s ht
  | @trail p d s x n hk _ _ ih =>
    refine isFilled_of_call (hcall hk) (List.forall_mem_singleton.2 (ih rfl fun t ht => ?_))
    refine hterms t ?_
    simp only [Plan.terms_single, Option.elim_some, Phrase.terms] at ht ⊢
    simp only [← List.append_assoc, List.mem_append] at ht ⊢
    exact .inl ht
  | @join left right o x y n hk _ _ _ _ _ ihl ihr =>
    have hx := ihl hwhole.1 fun t ht => hterms t (by simp [ht])
    have hy := ihr hwhole.2 fun t ht => hterms t (by simp [ht])
    exact isFilled_of_call (hcall hk) (by simp [hx, hy])

/-- A node that becomes of the kind of the root of a section has nothing open below it but the
argument that is missing there. -/
theorem Realizes.exists_call {left right : Plan} {o : Joint}
    (h : Realizes Num bound c (Grouping.join left o right) n)
    (hterms : ∀ t ∈ Plan.terms (Grouping.join left o right),
      ∀ d args, (c.arena.expr t).kind ≠ .call d args)
    (hc : c.Extends c') (hk : (c'.arena.expr id).kind = (c.arena.expr n).kind) :
    (left = single none → right.Whole →
      ∃ m x, (c'.arena.expr id).kind = .call o.callee [m, x] ∧ c'.OnlyMissing id m) ∧
      (left.Whole → right = single none →
        ∃ x m, (c'.arena.expr id).kind = .call o.callee [x, m] ∧ c'.OnlyMissing id m) := by
  have hmissing : ∀ {m}, Realizes Num bound c (single none) m →
      (c'.arena.expr m).kind = .missingArg := by
    intro m hm
    rw [hc.kind m (by rw [hm.isGap.kind]; rfl), hm.isGap.kind]
  cases h with
  | @join _ _ _ x y _ hkn hleft hright =>
    rw [hkn] at hk
    refine ⟨?_, ?_⟩
    · rintro rfl hwhole
      have hy := hright.isFilled hwhole (fun t ht => hterms t (by simp [ht])) hc
      exact ⟨x, y, hk, onlyMissing_of_call hk (by simp) (hmissing hleft) (by simp [hy])⟩
    · rintro hwhole rfl
      have hx := hleft.isFilled hwhole (fun t ht => hterms t (by simp [ht])) hc
      exact ⟨x, y, hk, onlyMissing_of_call hk (by simp) (hmissing hright) (by simp [hx])⟩

/-! ## Runs over integers -/

/-- The type of an integer, or of a number that may become one. -/
def Ty.IsInteger (ty : Ty) : Prop := ty = .int ∨ ty = .number

theorem isNumberClass_isInteger : IsNumberClass Ty.IsInteger := by
  refine ⟨?_, .inr rfl⟩
  rintro ty (rfl | rfl) <;> rfl

/-- A term of a run over integers that applies nothing to anything else: a constant, an operator
with one operand, or one with two, which may be a minus sign. -/
inductive GrammarTerm (c : Compilation) (t : ExprId) : Prop where
  | constant {value : Int64} (hk : (c.arena.expr t).kind = .value (.int value))
    (hty : (c.arena.expr t).ty = .int)
  | unary {d : DefId} {f : Fixity} {isPure : Bool} (hop : c.RefersTo t d f)
    (hf : f.isUnary = true) (hty : c.arena.definitionType d = .function [.number] .number isPure)
    (hcurrent : c.Current (Ty.IsUnary Ty.IsInteger) t)
  | operator (h : NumberOperator c t)
    (hneg : (c.arena.expr t).kind = .minusSign →
      ∃ isPure, c.arena.definitionType c.builtins.unaryMinus = .function [.int] .int isPure)

theorem GrammarTerm.numberTerm (h : GrammarTerm c t) : NumberTerm Ty.IsInteger True c t := by
  cases h with
  | constant hk hty => exact .operand (.value hk (.inl hty))
  | unary hop hf hty hcurrent =>
    exact .unary hop hf ⟨_, _, _, hty, Ty.takes_number, .inr rfl⟩ hcurrent
  | operator h hneg =>
    refine .operator h fun _ hk => ?_
    obtain ⟨isPure, hty⟩ := hneg hk
    refine ⟨_, _, _, hty, ?_, .inl rfl⟩
    rintro ty (rfl | rfl)
    · exact .inl rfl
    · exact .inr (.inr ⟨rfl, rfl⟩)

theorem GrammarTerm.ne_call (h : GrammarTerm c t) (hc : c.Extends c') (d : DefId)
    (args : List ExprId) : (c'.arena.expr t).kind ≠ .call d args := by
  intro hk'
  have hfixed : ∀ {k}, (c.arena.expr t).kind = k → k.isFixed = true → k = .call d args := by
    intro k hk hk₁
    rw [← hk', hc.kind t (hk ▸ hk₁), hk]
  cases h with
  | constant hk =>
    have hvalue := hc.value t (by rw [hk]; rfl)
    simp [hk', ExprKind.isValue] at hvalue
  | unary hop => cases hfixed hop.1 rfl
  | operator h =>
    cases h with
    | binary hop => cases hfixed hop.1 rfl
    | minusSign hk => cases hfixed hk rfl

/-- **What the terms of a run over integers come to**: a node for the plan of the grammar, unless
that is a single phrase, and nothing comes of them if there is none. -/
def Decides (c : Compilation) (terms : List ExprId) (action : CheckM Expression) (c₁ : Compilation) :
    Prop :=
  Outcome action c₁
    (fun e c' => c.Steady c' ∧ ∃ plan, Grammatical c.role terms plan ∧
      (¬ plan.Whole → ∃ bound n, Realizes Ty.IsInteger bound c' plan n ∧ e = c'.arena.expr n))
    fun stop c' => (stop ≠ .cyclic ∧ c.arena.exprs.size ≤ c'.arena.exprs.size) ∧
      ∀ plan, ¬ Grammatical c.role terms plan

/-- From wherever the arrangement starts, it comes to the tree of the grammar. -/
theorem arrange_grammatical {terms : List ExprId} (resolveRun : ExprId → CheckM Unit) (span : Span)
    (hlength : 2 ≤ terms.length) (hterms : ∀ t ∈ terms, GrammarTerm c t) {c₁ : Compilation}
    (hquiet : Quiet Ty.IsInteger c.arena.exprs.size c c₁) :
    Decides c terms (arrange resolveRun terms span) c₁ := by
  have hfloat : True → ∀ ty, Ty.IsInteger ty → ty ≠ .float ∧ ty ≠ .numberLiteral := by
    rintro - ty (rfl | rfl) <;> simp
  have hrole : ∀ t ∈ terms, c₁.role t = c.role t := fun t ht =>
    hquiet.toSteady.extends.role (hterms t ht).numberTerm.settled
  have hnumber : ∀ t ∈ terms, NumberTerm Ty.IsInteger True c₁ t := fun t ht =>
    (hterms t ht).numberTerm.quiet isNumberClass_isInteger hquiet
  refine (arrange_arithmetic isNumberClass_isInteger resolveRun span hnumber hfloat
    (.inl trivial)).mono ?_ ?_
  · rintro e c' ⟨hquiet', plan, n, hplan, hn, he⟩
    have hgrammar := (grammatical_iff hlength).2 ⟨hplan.congr hrole, hn.openAtRoot⟩
    exact ⟨hquiet.toSteady.trans hquiet'.toSteady, plan, hgrammar, fun _ => ⟨_, n, hn, he⟩⟩
  · rintro stop c' ⟨⟨hcyclic, hsize⟩, hnone⟩
    refine ⟨⟨hcyclic, hquiet.size.trans hsize⟩, fun plan hgrammar => hnone ⟨plan, ?_⟩⟩
    exact ⟨hgrammar.planned.congr fun t ht => (hrole t ht).symm, hgrammar.openAtRoot⟩

/-- A sign with a constant stays what it is, and anything else is arranged. -/
theorem resolveTerms_grammatical {terms : List ExprId} (resolveRun : ExprId → CheckM Unit)
    (span : Span) (hlength : 2 ≤ terms.length) (hterms : ∀ t ∈ terms, GrammarTerm c t) :
    Decides c terms (resolveTerms resolveRun terms span) c := by
  have harrange {c₁ : Compilation} (hquiet : Quiet Ty.IsInteger c.arena.exprs.size c c₁) :=
    arrange_grammatical resolveRun span hlength hterms hquiet
  match terms, hlength with
  | _ :: _ :: _ :: _, _ => exact harrange (.refl _ _ c)
  | [first, second], _ =>
    simp only [Decides, resolveTerms, outcome_bind, outcome_expr]
    split
    · rename_i hminus
      have hnumber : NumberTerm Ty.IsInteger True c second := (hterms second (by simp)).numberTerm
      have hclassify : Outcome (classify resolveRun second) c
          (fun term c₁ => Quiet Ty.IsInteger c.arena.exprs.size c c₁ ∧ term.Plays c₁ second)
          fun _ _ => False :=
        (classify_number isNumberClass_isInteger resolveRun hnumber).imp fun _ _ h => ⟨h.1, h.2.2.1⟩
      simp only [outcome_bind]
      refine hclassify.mono ?_ fun _ _ => False.elim
      rintro term c₁ ⟨hquiet, hterm⟩
      simp only [outcome_arena]
      split
      · rename_i operand
        obtain ⟨rfl, hrole⟩ := hterm
        split
        · -- A sign with a constant is a sentence of one phrase.
          have hhead : c.role operand = .operand := by
            rw [← hrole, hquiet.toSteady.extends.role hnumber.settled]
          have hsign : (c.role first).isSign = true := by
            simp only [role, hminus, Role.isSign]
          have hw : Sentence.Fits c.role ⟨⟨[first], operand, [], []⟩, []⟩ :=
            ⟨⟨by simpa using hsign, hhead, rfl, by simp⟩, by simp⟩
          refine ⟨hquiet.toSteady, _, .sentence hw, fun hwhole => ?_⟩
          exact (hwhole (Sentence.whole_plan _)).elim
        · exact harrange hquiet
      · exact harrange hquiet
    · exact harrange (.refl _ _ c)

/-- What a run over integers becomes: what its plan says, or a failed term. -/
theorem resolve_grammatical {terms : List ExprId}
    (hk : (c.arena.expr id).kind = .run terms) (hlength : 2 ≤ terms.length)
    (hterms : ∀ t ∈ terms, GrammarTerm c t) :
    Outcome (resolve id) c
      (fun _ c' => ∃ plan, Grammatical c.role terms plan ∧
        (∀ o right, plan = join (single none) o right →
          ∃ m x, (c'.arena.expr id).kind = .call o.callee [m, x] ∧ c'.OnlyMissing id m) ∧
        ∀ left o, plan = join left o (single none) →
          ∃ x m, (c'.arena.expr id).kind = .call o.callee [x, m] ∧ c'.OnlyMissing id m)
      fun stop c' => (∃ error, stop = .error error) ∧
        (c'.arena.expr id).kind = .syntaxError ∧ ∀ plan, ¬ Grammatical c.role terms plan := by
  have hlt : id.index < c.arena.exprs.size := Arena.lt_size_of_kind_ne (by simp [hk])
  refine resolve_outcome hk (Outcome.mono (resolveTerms_grammatical _ _ hlength hterms) ?_ ?_)
  · rintro e c₁ ⟨hsteady, plan, hgrammar, hnode⟩ event
    have hrun : (c₁.arena.expr id).kind = .run terms := by
      rw [hsteady.kind id hlt (by rw [hk]; rfl), hk]
    have hne : ∀ t ∈ plan.terms, ∀ d args, (c₁.arena.expr t).kind ≠ .call d args := by
      intro t ht
      rw [(hgrammar.planned : Planned False _ _ _).terms_eq] at ht
      exact (hterms t ht).ne_call hsteady.extends
    -- Nothing but the run itself changes in the last step.
    let c₂ := (c₁.modifyArena (·.modifyExpr id (·.replaceBy e))).emit event
    have hext : c₁.Extends c₂ := (extends_modifyExpr_run hrun).trans (steady_emit _ event).extends
    have hkind : (c₂.arena.expr id).kind = e.kind := by
      simp only [c₂, emit, modifyArena, Arena.expr_modifyExpr_self (hlt.trans_le hsteady.size)]
      rfl
    refine ⟨plan, hgrammar, ?_, ?_⟩
    · rintro o right rfl
      obtain ⟨bound, n, hn, rfl⟩ := hnode fun h => by cases h.1
      exact (hn.exists_call hne hext hkind).1 rfl hgrammar.whole_right
    · rintro left o rfl
      obtain ⟨bound, n, hn, rfl⟩ := hnode fun h => by cases h.2
      exact (hn.exists_call hne hext hkind).2 hgrammar.whole_left rfl
  · rintro stop c₁ ⟨⟨hcyclic, hsize⟩, hnone⟩
    refine ⟨hcyclic, fun c₂ harena => ⟨?_, ?_, hnone⟩⟩
    · cases stop with
      | error error => exact ⟨error, rfl⟩
      | cyclic => exact (hcyclic rfl).elim
    · rw [harena, Arena.expr_modifyExpr_self (hlt.trans_le hsize)]

/-- **A run over integers** is resolved if and only if it is in the grammar. In an accepted section
nothing is open but the argument of the root that is missing; every other run becomes a failed
term. -/
theorem resolve_iff_grammatical {terms : List ExprId}
    (hk : (c.arena.expr id).kind = .run terms) (hlength : 2 ≤ terms.length)
    (hterms : ∀ t ∈ terms, GrammarTerm c t) :
    ((∃ c', resolve id c = .ok () c') ↔ ∃ plan, Grammatical c.role terms plan) ∧
      (∀ c', resolve id c = .ok () c' →
        (∀ o right, Grammatical c.role terms (join (single none) o right) →
          ∃ m x, (c'.arena.expr id).kind = .call o.callee [m, x] ∧ c'.OnlyMissing id m) ∧
        ∀ left o, Grammatical c.role terms (join left o (single none)) →
          ∃ x m, (c'.arena.expr id).kind = .call o.callee [x, m] ∧ c'.OnlyMissing id m) ∧
      ((∀ plan, ¬ Grammatical c.role terms plan) →
        ∃ error c', resolve id c = .error (.error error) c' ∧
          (c'.arena.expr id).kind = .syntaxError) := by
  have houtcome := resolve_grammatical hk hlength hterms
  unfold Outcome at houtcome
  split at houtcome <;> rename_i hresolve
  · obtain ⟨plan, hgrammar, hleft, hright⟩ := houtcome
    refine ⟨iff_of_true ⟨_, hresolve⟩ ⟨plan, hgrammar⟩, ?_, fun hnone => (hnone plan hgrammar).elim⟩
    intro c' hok
    obtain rfl : _ = c' := by simpa using hresolve.symm.trans hok
    -- A run has one tree only.
    have hunique : ∀ {plan'}, Grammatical c.role terms plan' → plan = plan' := fun h =>
      (hgrammar.planned : Planned False _ _ _).unique h.planned
    exact ⟨fun o right h => hleft o right (hunique h), fun left o h => hright left o (hunique h)⟩
  · obtain ⟨⟨error, rfl⟩, hkind, hnone⟩ := houtcome
    refine ⟨iff_of_false ?_ (not_exists.2 hnone), ?_, fun _ => ⟨error, _, hresolve, hkind⟩⟩
    · rintro ⟨c', hok⟩
      cases hresolve.symm.trans hok
    · intro c' hok
      cases hresolve.symm.trans hok

/-- The run `+ - 1 * 2`, a section of a product. -/
def productSection : Compilation :=
  .ofRun [] [.new (.operator ⟨1⟩) .hole .origin, .new .minusSign .hole .origin,
    .new (.value (.int 1)) .int .origin, .new (.operator ⟨3⟩) .hole .origin,
    .new (.value (.int 2)) .int .origin]

theorem resolve_productSection :
    ∃ c' m x, resolve ⟨5⟩ productSection = .ok () c' ∧
      (c'.arena.expr ⟨5⟩).kind = .call ⟨1⟩ [m, x] ∧ c'.OnlyMissing ⟨5⟩ m := by
  have hbody : ∀ n, ¬ productSection.IsBody n := not_isBody_ofRun (by simp) _
  have hbinding : (productSection.arena.definition productSection.builtins.minus).binding? =
      some ⟨1, .left⟩ := rfl
  have hoperator : ∀ {t d precedence},
      productSection.RefersTo t d (.binary precedence .left) →
      (productSection.arena.definitionType d).IsArithmetic → GrammarTerm productSection t :=
    fun hop hty => .operator (.binary hop hty fun h => (hbody _ h).elim) fun hk => by
      simp [hop.1] at hk
  have hplus : GrammarTerm productSection ⟨0⟩ := hoperator ⟨rfl, rfl⟩ ⟨true, rfl⟩
  have htimes : GrammarTerm productSection ⟨3⟩ := hoperator ⟨rfl, rfl⟩ ⟨true, rfl⟩
  have hminus : GrammarTerm productSection ⟨1⟩ :=
    .operator (.minusSign rfl hbinding ⟨true, rfl⟩) fun _ => ⟨true, rfl⟩
  have hone : GrammarTerm productSection ⟨2⟩ := .constant rfl rfl
  have htwo : GrammarTerm productSection ⟨4⟩ := .constant rfl rfl
  have hterms : ∀ t ∈ [(⟨0⟩ : ExprId), ⟨1⟩, ⟨2⟩, ⟨3⟩, ⟨4⟩], GrammarTerm productSection t := by
    simp [hplus, hminus, hone, htimes, htwo]
  have hrun : (productSection.arena.expr ⟨5⟩).kind = .run [⟨0⟩, ⟨1⟩, ⟨2⟩, ⟨3⟩, ⟨4⟩] := rfl
  obtain ⟨hiff, hsections, -⟩ := resolve_iff_grammatical hrun (by simp) hterms
  -- The sentence behind the operator is a product, and it does not take the sum apart.
  let w : Sentence := ⟨⟨[⟨1⟩], ⟨2⟩, [], []⟩, [(⟨⟨3⟩, ⟨3⟩, ⟨2, .left⟩⟩, .atom ⟨4⟩)]⟩
  have hw : w.Fits productSection.role := by
    refine ⟨⟨by simp [w]; rfl, rfl, rfl, by simp [w]⟩, ?_⟩
    simp only [w, List.forall_mem_singleton]
    exact ⟨rfl, by simp [Phrase.atom], rfl, rfl, by simp [Phrase.atom]⟩
  have hgrammar : Grammatical productSection.role [⟨0⟩, ⟨1⟩, ⟨2⟩, ⟨3⟩, ⟨4⟩] _ :=
    .leftSection (w := w) (o := ⟨⟨0⟩, ⟨1⟩, ⟨1, .left⟩⟩) hw rfl (by decide)
  obtain ⟨c', hok⟩ := hiff.2 ⟨_, hgrammar⟩
  obtain ⟨m, x, hk, honly⟩ := (hsections c' hok).1 _ _ hgrammar
  exact ⟨c', m, x, hok, hk, honly⟩

end Termwise
