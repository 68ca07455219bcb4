import Termwise.Proofs.Concretization.Copies
import Termwise.Proofs.Concretization.Reports
import Termwise.Proofs.Concretization.Rounds

/-!
# The failure of a body

A body that fails is reported where that happens, and from then on its definition counts as dealt
with. What is asked of it later goes by its type alone: a use of a definition without a value hands
on that there was an error, one with a native type is typed by that. So roots that make the
definition known or use it, in any number and order, report the failure once between them. The type
is the weak point: a body that failed may have been left with a type that is open, such as that of
a literal that is no number, and a use that takes that type is reported once more. So is a use that
is replaced by a copy of the body, which fails again.

## Main definitions

* `BodyFails`: the body of a definition fails, for a reason of its own
* `Tells`: nothing is reported, or the failure of the body for the first time
* `Mention`: a root that makes a definition known or uses it as it is
* `Mentioned`: the roots, of which a number mention the definition

## Main results

* `mention_tells`: a mention reports the failure if nothing before it did
* `concretizeAll_reports_failure_once`: the failure of a body is reported exactly once
-/

namespace Termwise

open Compilation

variable {settings : Settings} {rounds k : Nat} {d : DefId} {s : StmtId} {w w' w'' : Walk}

/-! ## Failures and reports -/

/-- **The body of a definition fails** for a reason of its own: an error that nobody reported, and
nothing else in it is reported. -/
def BodyFails (settings : Settings) (rounds : Nat) (d : DefId) (w : Walk) : Prop :=
  ∃ b e w', (w.unit.arena.definition d).body = .expression b ∧
    (visitor settings rounds).expr [d] b w = .error (.error e) w' ∧
    e.isAlreadyReported = false ∧ w'.unit.diagnostics = w.unit.diagnostics

/-- With more rounds a body fails as well. -/
theorem BodyFails.mono (h : BodyFails settings rounds d w) {more : Nat} (hle : rounds ≤ more) :
    BodyFails settings more d w := by
  obtain ⟨b, e, w', hb, hfails, hnew, hd⟩ := h
  refine ⟨b, e, w', hb, ?_, hnew, hd⟩
  rw [((visitor_prolongs settings hle).expr [d] b).eq (fun w'' => by simp [hfails]), hfails]

/-- **What a part of the walk tells of a body**: nothing, and it does not come to the body first
either; or it is the first to come to it, and that the body fails is all that it reports. -/
inductive Tells (d : DefId) (w w' : Walk) : Prop where
  | silent (hd : w'.unit.diagnostics = w.unit.diagnostics)
    (hfinished : d ∈ w'.finished ↔ d ∈ w.finished)
  | first (e : CompileError) (hnew : e.isAlreadyReported = false)
    (hd : w'.unit.diagnostics = w.unit.diagnostics ++ [⟨.error, e⟩]) (hbefore : d ∉ w.finished)
    (hafter : d ∈ w'.finished)

theorem Tells.refl (d : DefId) (w : Walk) : Tells d w w := .silent rfl Iff.rfl

/-- The failure is told once: what comes after the first to tell it is silent. -/
theorem Tells.trans (h : Tells d w w') (h' : Tells d w' w'') : Tells d w w'' := by
  cases h with
  | silent hd hfinished =>
    cases h' with
    | silent hd' hfinished' => exact .silent (hd'.trans hd) (hfinished'.trans hfinished)
    | first e hnew hd' hbefore hafter =>
      exact .first e hnew (by rw [hd', hd]) (fun h => hbefore (hfinished.2 h)) hafter
  | first e hnew hd hbefore hafter =>
    cases h' with
    | silent hd' hfinished' => exact .first e hnew (hd'.trans hd) hbefore (hfinished'.2 hafter)
    | first _ _ _ hbefore' _ => exact (hbefore' hafter).elim

theorem Tells.finished (h : Tells d w w') (hd : d ∈ w.finished) : d ∈ w'.finished := by
  cases h with
  | silent _ hfinished => exact hfinished.2 hd
  | first _ _ _ _ hafter => exact hafter

/-! ## Mentions -/

/-- **A root mentions a definition.** It makes it known, or it is a use that is kept as it is. If
nothing came to the body before, then that fails now; a use that comes later finds a definition
without a value, or one with a native type that the use does not declare otherwise. -/
inductive Mention (settings : Settings) (rounds : Nat) (d : DefId) (s : StmtId) (w : Walk) :
    Prop where
  | bind (hs : (w.unit.arena.stmt s).kind = .bind d)
    (hbody : d ∉ w.finished → BodyFails settings rounds d w)
  | use {x : ExprId} {u : Compilation}
    (hs : (w.unit.arena.stmt s).kind = .expression x ∨ (w.unit.arena.stmt s).kind = .result x)
    (hx : (w.unit.arena.expr x).kind = .reference d ∨ (w.unit.arena.expr x).kind = .operator d)
    (hkept : substitute settings x w.unit = .ok false u)
    (hbody : d ∉ w.finished → BodyFails settings rounds d ⟨u, w.finished⟩)
    (htype : d ∈ w.finished → w.unit.arena.definitionType d = .absurd ∨
      (w.unit.arena.definitionType d).native = .yes ∧
        ∀ ty, (w.unit.arena.expr x).declared = some ty → ty = w.unit.arena.definitionType d)

/-- **The roots, of which `k` mention a definition.** When its turn comes, each of the others
reports nothing, unless it is the first to come to the body of the definition. -/
inductive Mentioned (settings : Settings) (rounds : Nat) (d : DefId) :
    (k : Nat) → List StmtId → Walk → Prop where
  | nil (w : Walk) : Mentioned settings rounds d 0 [] w
  | mention {k : Nat} {s : StmtId} {rest : List StmtId} {w : Walk}
    (h : Mention settings rounds d s w)
    (hrest : ∀ w', (visitor settings (rounds + 2)).statement [] s w = .ok () w' →
      Mentioned settings rounds d k rest w') :
    Mentioned settings rounds d (k + 1) (s :: rest) w
  | other {k : Nat} {s : StmtId} {rest : List StmtId} {w : Walk}
    (h : Outcome ((visitor settings (rounds + 2)).statement [] s) w (fun _ => Tells d w)
      fun _ _ => False)
    (hrest : ∀ w', (visitor settings (rounds + 2)).statement [] s w = .ok () w' →
      Mentioned settings rounds d k rest w') :
    Mentioned settings rounds d k (s :: rest) w

/-! ## What a mention tells -/

/-- That there was an error, and the failure of a body told, as a way to stop. -/
def Hushed (d : DefId) (w : Walk) (stop : Stop) (w' : Walk) : Prop :=
  (∃ span, stop = .error ⟨.containsError, span⟩) ∧ Tells d w w' ∧ d ∈ w'.finished

theorem Hushed.later {stop : Stop} (h : Tells d w w') (h' : Hushed d w' stop w'') :
    Hushed d w stop w'' :=
  ⟨h'.1, h.trans h'.2.1, h'.2.2⟩

/-- A failing body that is come to for the first time is reported; the caller only learns that it
was. -/
theorem visitDefinition_of_bodyFails (hbefore : d ∉ w.finished)
    (h : BodyFails settings rounds d w) :
    Outcome (visitDefinition (visitor settings rounds) [] d) w (fun _ _ => False)
      (Hushed d w) := by
  obtain ⟨b, e, w₁, hb, hfails, hnew, hd⟩ := h
  have hvisit : WalkM.attempt ((visitor settings rounds).expr [d] b) w = .ok (.error e) w₁ := by
    simp only [WalkM.attempt, hfails]
  have hopen : (w.finished.contains d || ([] : List DefId).contains d) = false := by
    simpa using hbefore
  simp only [visitDefinition, outcome_bind, outcome_lift, outcome_definition, hb, outcome_get,
    hopen, Bool.false_eq_true, if_false]
  rw [outcome_of_eq_ok hvisit]
  simp only [outcome_bind, outcome_finish, WalkM.reportOutcome, outcome_modify, outcome_lift,
    outcome_fail]
  refine ⟨⟨e.span, rfl⟩, .first e hnew ?_ hbefore List.mem_cons_self, List.mem_cons_self⟩
  simp only [Compilation.reportNew, hnew, Bool.false_eq_true, if_false]
  exact congrArg (· ++ _) hd

/-- A definition that was dealt with is left alone. -/
theorem visitDefinition_of_finished (next : Visitor) (hd : d ∈ w.finished) :
    Outcome (visitDefinition next [] d) w (fun _ w' => w' = w) fun _ _ => False := by
  have hdone : w.finished.contains d = true := by simpa using hd
  simp only [visitDefinition, outcome_bind, outcome_lift, outcome_definition]
  split
  · rfl
  · rfl
  · simp only [outcome_bind, outcome_get, hdone, if_true]
    rfl
  · simp only [outcome_bind, outcome_get, hdone, Bool.true_or, if_true]
    rfl

/-- **A use of a definition that was dealt with** hands on that there was an error if the
definition has no value, and takes its type if that is native. -/
theorem typeReference_of_type {x : ExprId} (hlt : x.index < w.unit.arena.exprs.size)
    (hd : d ∈ w.finished)
    (htype : w.unit.arena.definitionType d = .absurd ∨
      (w.unit.arena.definitionType d).native = .yes ∧
        ∀ ty, (w.unit.arena.expr x).declared = some ty → ty = w.unit.arena.definitionType d) :
    Outcome (do
        liftM (typeReference x d)
        liftM (honourDeclared x)
        liftM (requireNative x) : WalkM Unit) w
      (fun _ w' => Tells d w w' ∧ d ∈ w'.finished) (Hushed d w) := by
  simp only [outcome_bind, outcome_lift, typeReference, outcome_definitionType, outcome_definition,
    outcome_expr]
  rcases htype with habsurd | ⟨hnative, hdeclared⟩
  · simp only [habsurd, if_true, outcome_bind, outcome_fail]
    exact ⟨⟨_, rfl⟩, .refl d w, hd⟩
  · have hne : ∀ b : Builtin, b.native ≠ .yes → w.unit.arena.definitionType d ≠ .builtin b :=
      fun b hb heq => hb (by rw [heq] at hnative; exact hnative)
    simp only [hne .absurd (by decide), hne .hole (by decide), if_false, and_false, outcome_setType]
    let ty := w.unit.arena.definitionType d
    let c := w.unit.modifyArena (·.modifyExpr x fun e => { e with ty })
    have hx : c.arena.expr x = { w.unit.arena.expr x with ty } := Arena.expr_modifyExpr_self hlt _
    have hquiet : Tells d w { w with unit := c } := .silent rfl Iff.rfl
    have hhonour : Outcome (honourDeclared x) c (fun _ c' => c' = c) fun _ _ => False := by
      simp only [honourDeclared, outcome_bind, outcome_expr, hx]
      split
      · rename_i declared hsome
        have heq : ty = declared := (hdeclared declared hsome).symm
        simp only [coerceTo_eq, outcome_bind, outcome_get, hx, heq, if_true]
        rfl
      · rfl
    refine hhonour.mono ?_ fun _ _ h => h.elim
    rintro _ _ rfl
    simp only [requireNative, outcome_bind, outcome_expr, hx, ty, hnative, if_true]
    exact ⟨hquiet, hd⟩

/-- **A use that is kept** tells of the body if nothing before it did. -/
theorem keptUse_tells {x : ExprId} {u : Compilation}
    (hx : (w.unit.arena.expr x).kind = .reference d ∨ (w.unit.arena.expr x).kind = .operator d)
    (hkept : substitute settings x w.unit = .ok false u)
    (hbody : d ∉ w.finished → BodyFails settings rounds d ⟨u, w.finished⟩)
    (htype : d ∈ w.finished → w.unit.arena.definitionType d = .absurd ∨
      (w.unit.arena.definitionType d).native = .yes ∧
        ∀ ty, (w.unit.arena.expr x).declared = some ty → ty = w.unit.arena.definitionType d) :
    Outcome ((visitor settings (rounds + 1)).expr [] x) w
      (fun _ w' => Tells d w w' ∧ d ∈ w'.finished) (Hushed d w) := by
  have hlt : x.index < w.unit.arena.exprs.size :=
    Arena.lt_size_of_kind_ne (by rcases hx with hk | hk <;> rw [hk] <;> simp)
  -- The attempt to replace the use notes down at most why it is kept.
  have huse : (w.unit.arena.expr x).kind.definition? = some d := by
    rcases hx with hk | hk <;> rw [hk] <;> rfl
  have hsame : w.unit.Unchanged u := ((substitute_outcome settings huse).of_ok hkept).kept rfl
  have hreports : w.unit.SameReports u :=
    (StepLaw.obeys_substitute (L := tacitly) settings x w.unit).of_ok hkept
  have hquiet : Tells d w ⟨u, w.finished⟩ := .silent hreports.diagnostics Iff.rfl
  -- Either the body is come to now, and fails, or it is not come to at all.
  have hvisit : Outcome (do
        visitReference settings (visitor settings rounds) [] x d
        liftM (honourDeclared x)
        liftM (requireNative x) : WalkM Unit) w
      (fun _ w' => Tells d w w' ∧ d ∈ w'.finished) (Hushed d w) := by
    simp only [visitReference, trySubstitute, List.contains_nil, Bool.false_eq_true, if_false,
      outcome_bind, outcome_lift]
    rw [outcome_of_eq_ok hkept]
    simp only [Bool.false_eq_true, if_false, outcome_pure]
    rw [outcome_bind]
    by_cases hd : d ∈ w.finished
    · have htyped : Outcome (do
            liftM (typeReference x d)
            liftM (honourDeclared x)
            liftM (requireNative x) : WalkM Unit) ⟨u, w.finished⟩
          (fun _ w' => Tells d w w' ∧ d ∈ w'.finished) (Hushed d w) := by
        have hlt' : x.index < u.arena.exprs.size := hlt.trans_eq hsame.size.symm
        refine (typeReference_of_type (w := (⟨u, w.finished⟩ : Walk)) hlt' hd ?_).mono ?_ ?_
        · rw [hsame.definitionType, hsame.expr]
          exact htype hd
        · exact fun _ _ h => ⟨hquiet.trans h.1, h.2⟩
        · exact fun _ _ => Hushed.later hquiet
      simp only [outcome_bind, outcome_lift] at htyped
      refine (visitDefinition_of_finished _ (w := (⟨u, w.finished⟩ : Walk)) hd).mono ?_ ?_
      · rintro _ _ rfl
        rw [outcome_lift]
        exact htyped
      · exact fun _ _ h => h.elim
    · exact (visitDefinition_of_bodyFails (w := (⟨u, w.finished⟩ : Walk)) hd (hbody hd)).mono
        (fun _ _ h => h.elim) fun _ _ => Hushed.later hquiet
  simp only [visitor, outcome_bind, outcome_lift, outcome_arena, visitWithin, visitExpr,
    outcome_expr]
  rcases hx with hk | hk <;> simpa only [hk, outcome_bind] using hvisit

/-- What a visit comes to is reported, unless it was. -/
theorem report_tells {visit : WalkM Unit}
    (h : Outcome visit w (fun _ w' => Tells d w w' ∧ d ∈ w'.finished) (Hushed d w)) :
    Outcome (do WalkM.reportOutcome (← WalkM.attempt visit)) w
      (fun _ w' => Tells d w w' ∧ d ∈ w'.finished) fun _ _ => False := by
  rw [outcome_bind, outcome_walk_attempt]
  refine h.mono (fun _ _ h => h) ?_
  rintro _ w' ⟨⟨span, rfl⟩, htells⟩
  exact htells

/-- **A mention** tells of the body if nothing before it did, and of nothing else. -/
theorem mention_tells (h : Mention settings rounds d s w) :
    Outcome ((visitor settings (rounds + 2)).statement [] s) w
      (fun _ w' => Tells d w w' ∧ d ∈ w'.finished) fun _ _ => False := by
  change Outcome (do
    let depth := (← CheckM.arena).stmts.size
    visitStatementWithin (visitor settings (rounds + 1)) [] (depth + 1) s : WalkM Unit) w _ _
  simp only [outcome_bind, outcome_lift, outcome_arena, visitStatementWithin]
  cases h with
  | bind hs hbody =>
    simp only [hs]
    refine report_tells ?_
    by_cases hd : d ∈ w.finished
    · refine (visitDefinition_of_finished _ hd).mono ?_ fun _ _ h => h.elim
      rintro _ _ rfl
      exact ⟨.refl d _, hd⟩
    · exact (visitDefinition_of_bodyFails hd ((hbody hd).mono (Nat.le_succ rounds))).mono
        (fun _ _ h => h.elim) fun _ _ h => h
  | use hs hx hkept hbody htype =>
    have huse := report_tells (keptUse_tells hx hkept hbody htype)
    rcases hs with hs | hs <;> simpa only [hs] using huse

/-! ## The roots -/

/-- **The roots** tell of the body between them, and they do if one of them mentions it. -/
theorem Mentioned.tells {ss : List StmtId} (h : Mentioned settings rounds d k ss w) :
    Outcome (visitStatementWithin.each ((visitor settings (rounds + 2)).statement []) ss) w
      (fun _ w' => Tells d w w' ∧ (0 < k → d ∈ w'.finished)) fun _ _ => False := by
  -- On the roots: once one of them has told of the failure, the others are silent.
  induction h with
  | nil w => exact ⟨.refl d w, fun h => absurd h (lt_irrefl 0)⟩
  | mention h _ ih =>
    rw [visitStatementWithin.each, outcome_bind]
    refine (outcome_self.and (mention_tells h)).mono ?_ fun _ _ h => h.2
    rintro _ w₁ ⟨hok, htells, hd⟩
    refine (ih w₁ hok).imp fun _ w₂ hrest => ⟨htells.trans hrest.1, fun _ => ?_⟩
    exact hrest.1.finished hd
  | other h _ ih =>
    rw [visitStatementWithin.each, outcome_bind]
    refine (outcome_self.and h).mono ?_ fun _ _ h => h.2
    rintro _ w₁ ⟨hok, htells⟩
    exact (ih w₁ hok).imp fun _ w₂ hrest => ⟨htells.trans hrest.1, hrest.2⟩

/-- **The failure of a body is reported exactly once.** Let the roots mention a definition any
number of times, each time making it known or using it as it is, and in any order, let its body
fail the first time that something comes to it, and let the other roots report nothing beyond that.
If the definition has no value then, or has a native type, then concretization ends, and the
failure of the body is the one error that it adds to the reports. -/
theorem concretizeAll_reports_failure_once {c : Compilation}
    (h : Mentioned settings (c.arena.rounds - 2) d k c.arena.roots ⟨c, []⟩) (hk : 0 < k) :
    ∃ c' e, concretizeAll settings c = .ok c'.isValid c' ∧ e.isAlreadyReported = false ∧
      c'.diagnostics = c.diagnostics ++ [⟨.error, e⟩] := by
  have hrounds : c.arena.rounds - 2 + 2 = c.arena.rounds := by
    simp only [Arena.rounds]
    omega
  have hroots := h.tells
  rw [hrounds] at hroots
  have hall : Outcome (concretizeAll settings) c (fun valid c' => valid = c'.isValid ∧
      ∃ e, e.isAlreadyReported = false ∧ c'.diagnostics = c.diagnostics ++ [⟨.error, e⟩])
      fun _ _ => False := by
    simp only [concretizeAll, outcome_bind, outcome_arena, outcome_runWalk, outcome_get]
    refine hroots.imp fun _ w hw => ?_
    obtain ⟨htells, hfinished⟩ := hw
    -- Some root came to the body, and none had before the first one.
    cases htells with
    | silent _ hiff => exact absurd (hiff.1 (hfinished hk)) List.not_mem_nil
    | first e hnew hd _ _ => exact ⟨rfl, e, hnew, hd⟩
  obtain ⟨_, c', hok, rfl, e, hnew, hd⟩ := hall.exists_ok
  exact ⟨c', e, hok, hnew, hd⟩

/-- A reference to a definition whose body cannot stand at its place is kept as it is. -/
theorem substitute_of_unsubstitutable {c : Compilation} {x b : ExprId}
    (hx : (c.arena.expr x).kind = .reference d) (hdeclared : (c.arena.expr x).declared = none)
    (hb : (c.arena.definition d).body = .expression b)
    (hkind : (c.arena.expr b).kind.isSubstitutable = false)
    (hty : (c.arena.definitionType d).isFunction = false) :
    substitute settings x c = .ok false c := by
  have houtcome : Outcome (substitute settings x) c (fun replaced c' => replaced = false ∧ c' = c)
      fun _ _ => False := by
    simp only [substitute]
    split
    · exact ⟨rfl, rfl⟩
    · have hdiffer : declarationsDiffer none (c.arena.definition d).declared = none := rfl
      simp only [outcome_bind, outcome_expr, hx, substituteReference, outcome_arena, hb, hdeclared,
        hdiffer, hty, hkind]
      exact ⟨rfl, rfl⟩
  obtain ⟨_, _, hok, rfl, rfl⟩ := houtcome.exists_ok
  exact hok

/-- A definition whose body is an empty expression, used, made known and used again. -/
def emptyUses : Compilation :=
  { Compilation.new with
    arena :=
      { exprs := #[.sentinel .empty .origin, .new (.reference ⟨9⟩) .absurd .origin,
          .new (.reference ⟨9⟩) .absurd .origin]
        defs := Builtins.definitions.toArray.push ⟨"d", .expression ⟨0⟩, none, none, .origin⟩
        stmts := #[⟨.expression ⟨1⟩, .origin⟩, ⟨.bind ⟨9⟩, .origin⟩, ⟨.result ⟨2⟩, .origin⟩]
        roots := [⟨0⟩, ⟨1⟩, ⟨2⟩] } }

/-- The body is reported as it is first come to, and the three roots report nothing else. -/
theorem concretizeAll_emptyUses :
    ∃ c' e, concretizeAll {} emptyUses = .ok c'.isValid c' ∧ e.isAlreadyReported = false ∧
      c'.diagnostics = [⟨.error, e⟩] := by
  let visit := (visitor {} 132).statement []
  -- No root changes the tables, and the body counts as dealt with after the first one.
  have hleft (done : List StmtId)
      (hcheck : (match visitStatementWithin.each visit done ⟨emptyUses, []⟩ with
        | .ok _ w => decide (w.finished = [⟨9⟩] ∧ w.unit.arena = emptyUses.arena)
        | .error .. => false) = true) {w : Walk}
      (hw : visitStatementWithin.each visit done ⟨emptyUses, []⟩ = .ok () w) :
      ⟨9⟩ ∈ w.finished ∧ w.unit.arena = emptyUses.arena := by
    rw [hw] at hcheck
    obtain ⟨hfinished, harena⟩ := of_decide_eq_true hcheck
    exact ⟨hfinished ▸ List.mem_cons_self, harena⟩
  have hkept {c : Compilation} {x : ExprId} (hc : c.arena = emptyUses.arena)
      (hx : x = ⟨1⟩ ∨ x = ⟨2⟩) : substitute {} x c = .ok false c := by
    rcases hx with rfl | rfl <;>
      exact substitute_of_unsubstitutable (d := ⟨9⟩) (b := ⟨0⟩) (by rw [hc]; rfl) (by rw [hc]; rfl)
        (by rw [hc]; rfl) (by rw [hc]; rfl) (by rw [hc]; rfl)
  have hfails : BodyFails {} 130 ⟨9⟩ ⟨emptyUses, []⟩ :=
    ⟨⟨0⟩, ⟨.emptyExpression, .origin⟩, ⟨emptyUses, []⟩, rfl, rfl, rfl, rfl⟩
  have hmentioned : Mentioned {} 130 ⟨9⟩ 3 emptyUses.arena.roots ⟨emptyUses, []⟩ := by
    refine .mention ?_ fun w₁ hw₁ => .mention ?_ fun w₂ hw₂ => .mention ?_ fun w₃ _ => .nil w₃
    · exact .use (.inl rfl) (.inl rfl) (hkept rfl (.inl rfl)) (fun _ => hfails) nofun
    · have hdone : visitStatementWithin.each visit [⟨0⟩] ⟨emptyUses, []⟩ = .ok () w₁ := by
        simp only [visitStatementWithin.each, bind, EStateM.bind, visit, hw₁]
        rfl
      obtain ⟨hd, harena⟩ := hleft [⟨0⟩] (by decide +kernel) hdone
      exact .bind (by rw [harena]; rfl) fun hnot => (hnot hd).elim
    · have hdone : visitStatementWithin.each visit [⟨0⟩, ⟨1⟩] ⟨emptyUses, []⟩ = .ok () w₂ := by
        simp only [visitStatementWithin.each, bind, EStateM.bind, visit, hw₁, hw₂]
        rfl
      obtain ⟨hd, harena⟩ := hleft [⟨0⟩, ⟨1⟩] (by decide +kernel) hdone
      refine .use (.inr (by rw [harena]; rfl)) (.inl (by rw [harena]; rfl))
        (hkept harena (.inr rfl)) (fun hnot => (hnot hd).elim) fun _ => .inl ?_
      rw [harena]
      rfl
  exact concretizeAll_reports_failure_once hmentioned (by decide)

/-- A definition whose body is a literal that is no number, made known and used. -/
def badLiteral : Compilation :=
  { Compilation.new with
    arena :=
      { exprs := #[.new (.value (.string "abc")) .numberLiteral .origin,
          .new (.reference ⟨9⟩) .numberLiteral .origin]
        defs := Builtins.definitions.toArray.push ⟨"v", .expression ⟨0⟩, none, none, .origin⟩
        stmts := #[⟨.bind ⟨9⟩, .origin⟩, ⟨.expression ⟨1⟩, .origin⟩]
        roots := [⟨0⟩, ⟨1⟩] } }

/-- **A body that failed with an open type** is reported twice: a use that is replaced fails as the
body did, and one that is kept has no native type. -/
theorem concretizeAll_badLiteral :
    (∃ c', concretizeAll {} badLiteral = .ok false c' ∧
      c'.diagnostics.map (fun d => d.error.cause) = [.invalidNumber "abc", .invalidNumber "abc"]) ∧
    ∃ c', concretizeAll { debugNoInline := true } badLiteral = .ok false c' ∧
      c'.diagnostics.map (fun d => d.error.cause) =
        [.invalidNumber "abc", .notConcretizable .numberLiteral] := by
  constructor
  · obtain ⟨valid, c', hok, hcheck⟩ := exists_ok_of_check (concretizeAll {}) badLiteral
      (fun valid c' => decide (valid = false ∧ c'.diagnostics.map (fun d => d.error.cause) =
        [.invalidNumber "abc", .invalidNumber "abc"])) (by decide +kernel)
    obtain ⟨rfl, hcauses⟩ := of_decide_eq_true hcheck
    exact ⟨c', hok, hcauses⟩
  · obtain ⟨valid, c', hok, hcheck⟩ := exists_ok_of_check
      (concretizeAll { debugNoInline := true }) badLiteral
      (fun valid c' => decide (valid = false ∧ c'.diagnostics.map (fun d => d.error.cause) =
        [.invalidNumber "abc", .notConcretizable .numberLiteral])) (by decide +kernel)
    obtain ⟨rfl, hcauses⟩ := of_decide_eq_true hcheck
    exact ⟨c', hok, hcauses⟩

end Termwise
