import Termwise.Proofs.Concretization.Soundness

/-!
# Disciplines of the walk

Whatever a walk does to the tables it does by a few actions: it settles a value, brings an
expression into a type, gives a use the type of its definition, replaces a use by a body, turns a
minus sign into a call, and reports. A discipline is a relation between the states before and after
that each of these actions keeps, at any expression of a region that the walk cannot leave. Then
the whole walk keeps it, however deep it goes and whether it ends or stops.

The relation may know which bodies are being walked. A use that is not replaced while some bodies
are being walked is not replaced while more of them are, so it may be typed after all that was
walked since it was read.

## Main definitions

* `Place`, `Compilation.Onward`: where a walk may go on from an expression, definition or
  statement
* `Compilation.Lasting`: a use that is not replaced while some bodies are being walked
* `Discipline`: a relation that every action of the walk keeps

## Main results

* `Discipline.visitor_goes`: the walk keeps every discipline
-/

namespace Termwise

open Compilation

/-- An expression, a definition or a statement. -/
inductive Place where
  | expr (id : ExprId)
  | definition (d : DefId)
  | statement (s : StmtId)

/-- Where a walk may go on from an expression: to what lies directly below it, to the definition
in use, and to the definitions that a minus sign may turn into. -/
inductive ExprKind.LeadsTo (b : Builtins) : ExprKind → Place → Prop where
  | child {k : ExprKind} {m : ExprId} (h : m ∈ k.children) : LeadsTo b k (.expr m)
  | use {k : ExprKind} {d : DefId} (h : k.definition? = some d) : LeadsTo b k (.definition d)
  | negation {d : DefId} (x : ExprId) (h : d = b.unaryMinus ∨ d = b.unaryMinusFloat) :
    LeadsTo b (.negated x) (.definition d)
  | widening (args : List ExprId) :
    LeadsTo b (.call b.unaryMinus args) (.definition b.unaryMinusFloat)

/-- The expressions that an expression leads to lie directly below it. -/
theorem ExprKind.LeadsTo.mem_children {b : Builtins} {k : ExprKind} {m : ExprId}
    (h : k.LeadsTo b (.expr m)) : m ∈ k.children := by
  cases h
  assumption

namespace Compilation

/-- Where a walk may go on from a place. -/
inductive Onward (c : Compilation) : Place → Place → Prop where
  | expr {n : ExprId} {q : Place} (h : (c.arena.expr n).kind.LeadsTo c.builtins q) :
    Onward c (.expr n) q
  | body {d : DefId} {b : ExprId} (h : (c.arena.definition d).body = .expression b) :
    Onward c (.definition d) (.expr b)
  | program {d : DefId} {s : StmtId} (h : (c.arena.definition d).body = .statement s) :
    Onward c (.definition d) (.statement s)
  | shown {s : StmtId} {e : ExprId} (h : (c.arena.stmt s).kind = .expression e) :
    Onward c (.statement s) (.expr e)
  | result {s : StmtId} {e : ExprId} (h : (c.arena.stmt s).kind = .result e) :
    Onward c (.statement s) (.expr e)
  | bind {s : StmtId} {d : DefId} (h : (c.arena.stmt s).kind = .bind d) :
    Onward c (.statement s) (.definition d)
  | block {s t : StmtId} {ss : List StmtId} (h : (c.arena.stmt s).kind = .block ss)
    (ht : t ∈ ss) : Onward c (.statement s) (.statement t)

theorem onward_child {c : Compilation} {n m : ExprId}
    (h : m ∈ (c.arena.expr n).kind.children) : c.Onward (.expr n) (.expr m) :=
  .expr (.child h)

theorem onward_use {c : Compilation} {n : ExprId} {d : DefId}
    (h : (c.arena.expr n).kind.definition? = some d) : c.Onward (.expr n) (.definition d) :=
  .expr (.use h)

theorem Unchanged.isPartialCall {c c' : Compilation} (h : c.Unchanged c') (id : ExprId) :
    c'.arena.isPartialCall id = c.arena.isPartialCall id := by
  have hmissing : c'.arena.isMissing = c.arena.isMissing := by
    funext n
    simp only [Arena.isMissing, h.expr]
  simp only [Arena.isPartialCall, h.expr, h.definitionType, hmissing]

/-- Uses of a definition are not replaced while the bodies `active` are being walked. -/
def Kept (c : Compilation) (active : List DefId) (d : DefId) : Prop :=
  d ∈ active ∨ ∀ b, (c.arena.definition d).body ≠ .expression b

/-- An expression uses a definition, and is not replaced while the bodies `active` are being
walked. -/
inductive Lasting (c : Compilation) (active : List DefId) (n : ExprId) : Prop where
  | operator {d : DefId} (hk : (c.arena.expr n).kind = .operator d)
  | reference {d : DefId} (hk : (c.arena.expr n).kind = .reference d) (h : c.Kept active d)
  | call {d : DefId} {args : List ExprId} (hk : (c.arena.expr n).kind = .call d args)
    (hfull : c.arena.isPartialCall n = false) (h : args ≠ [] ∨ c.Kept active d)

end Compilation

/-- **A relation that every action of the walk keeps**, at any expression of a region. -/
structure Discipline (settings : Settings) where
  region : Set Place
  Valid : Compilation → Prop
  /-- What may happen while some bodies are being walked. -/
  Rel : List DefId → Compilation → Compilation → Prop
  refl (active : List DefId) (c : Compilation) : Rel active c c
  trans {active : List DefId} {c c' c'' : Compilation} :
    Rel active c c' → Rel active c' c'' → Rel active c c''
  inner {active : List DefId} {d : DefId} {c c' : Compilation} :
    Rel (d :: active) c c' → Rel active c c'
  valid {active : List DefId} {c c' : Compilation} : Valid c → Rel active c c' → Valid c'
  onward {c : Compilation} {p q : Place} : Valid c → p ∈ region → c.Onward p q → q ∈ region
  report {c : Compilation} (active : List DefId) (e : CompileError) : Valid c →
    Rel active c (c.reportNew e)
  value {c : Compilation} {id : ExprId} (active : List DefId) : Valid c → .expr id ∈ region →
    (c.arena.expr id).kind.isValue = true →
    Outcome (concretizeValue id) c (fun _ => Rel active c) fun _ => Rel active c
  /-- An expression is brought into the type that is declared for it, or as an operand. -/
  coerce {c : Compilation} {id : ExprId} (active : List DefId) (target : Ty) : Valid c →
    .expr id ∈ region →
    ((c.arena.expr id).declared = some target ∨ ∃ c₀, Valid c₀ ∧ c₀.Operand id) →
    Outcome (coerceTo id target) c (fun _ => Rel active c) fun _ => Rel active c
  /-- A reference takes the type of its definition. -/
  retype {c c' : Compilation} {active' : List DefId} {id : ExprId} (active : List DefId)
    (ty : Ty) : Valid c → .expr id ∈ region → c.Lasting active' id → Rel active' c c' →
    (∀ d, (c.arena.expr id).kind = .reference d → ty = c'.arena.definitionType d) →
    Rel active c' (c'.modifyArena (·.modifyExpr id fun e => { e with ty }))
  replace {c : Compilation} {active : List DefId} {id : ExprId} {d : DefId} : Valid c →
    .expr id ∈ region → (c.arena.expr id).kind.definition? = some d → d ∉ active →
    Outcome (substitute settings id) c (fun _ => Rel active c) fun _ => Rel active c
  negate {c c' : Compilation} {active : List DefId} {id x : ExprId} : Valid c →
    .expr id ∈ region → (c.arena.expr id).kind = .negated x → Rel active c c' →
    (c'.arena.expr x).ty.native = .yes →
    Outcome (callNegation id x) c' (fun _ => Rel active c') fun _ => Rel active c'

namespace Discipline

variable {settings : Settings} {α β : Type}

/-- An action of the walk keeps a discipline, whether it ends or stops. -/
def Goes (D : Discipline settings) (active : List DefId) (action : WalkM α) (w : Walk)
    (ended : α → Walk → Prop) : Prop :=
  Outcome action w (fun a w' => D.Rel active w.unit w'.unit ∧ ended a w')
    fun _ w' => D.Rel active w.unit w'.unit

/-- A way to walk expressions of the region. One that was walked has a native type. -/
def Visits (D : Discipline settings) (active : List DefId) (visit : ExprId → WalkM Unit) : Prop :=
  ∀ (id : ExprId) (w : Walk), D.Valid w.unit → .expr id ∈ D.region →
    D.Goes active (visit id) w fun _ w' => (w'.unit.arena.expr id).ty.native = .yes

/-- A way to walk statements of the region. -/
def VisitsStatements (D : Discipline settings) (active : List DefId)
    (visit : StmtId → WalkM Unit) : Prop :=
  ∀ (s : StmtId) (w : Walk), D.Valid w.unit → .statement s ∈ D.region →
    D.Goes active (visit s) w fun _ _ => True

/-- A walk of expressions and statements keeps a discipline. -/
structure Governs (D : Discipline settings) (v : Visitor) : Prop where
  expr : ∀ active, D.Visits active (v.expr active)
  statement : ∀ active, D.VisitsStatements active (v.statement active)

variable {D : Discipline settings} {active : List DefId} {w : Walk} {id : ExprId} {d : DefId}
  {next : Visitor} {child : ExprId → WalkM Unit}

section

variable {action : WalkM α} {first : WalkM β} {rest : β → WalkM α} {mid : β → Walk → Prop}
  {ended ended' : α → Walk → Prop}

theorem goes_pure (a : α) (h : ended a w) : D.Goes active (pure a) w ended :=
  ⟨D.refl active w.unit, h⟩

theorem Goes.imp (h : D.Goes active action w ended)
    (himp : ∀ a w', D.Rel active w.unit w'.unit → ended a w' → ended' a w') :
    D.Goes active action w ended' :=
  Outcome.imp h fun a w' h' => ⟨h'.1, himp a w' h'.1 h'.2⟩

/-- **Actions in sequence** keep a discipline if each does. -/
theorem Goes.bind (h : D.Goes active first w mid)
    (hrest : ∀ b w', D.Rel active w.unit w'.unit → mid b w' →
      D.Goes active (rest b) w' ended) : D.Goes active (first >>= rest) w ended := by
  rw [Goes, outcome_bind]
  refine Outcome.imp h ?_
  rintro b w' ⟨hrel, hmid⟩
  refine Outcome.mono (hrest b w' hrel hmid) ?_ ?_
  · exact fun a w'' h' => ⟨D.trans hrel h'.1, h'.2⟩
  · exact fun _ w'' h' => D.trans hrel h'

/-- What keeps a discipline while one body more is being walked keeps it anyway. -/
theorem Goes.inner (h : D.Goes (d :: active) action w ended) : D.Goes active action w ended :=
  Outcome.mono h (fun _ _ h' => ⟨D.inner h'.1, h'.2⟩) fun _ _ => D.inner

/-- An action on the compilation, as part of the walk. -/
theorem goes_lift {step : CheckM α} (ended : α → Compilation → Prop)
    (h : Outcome step w.unit (fun a c => D.Rel active w.unit c ∧ ended a c)
      fun _ c => D.Rel active w.unit c) :
    D.Goes active (liftM step) w fun a w' => ended a w'.unit := by
  rw [Goes, outcome_lift]
  exact h

theorem goes_step {step : CheckM α}
    (h : Outcome step w.unit (fun _ => D.Rel active w.unit) fun _ => D.Rel active w.unit) :
    D.Goes active (liftM step) w fun _ _ => True :=
  goes_lift (fun _ _ => True) (h.imp fun _ _ hrel => ⟨hrel, trivial⟩)

theorem goes_fail (cause : Cause) (span : Span) :
    D.Goes active (liftM (CheckM.fail cause span : CheckM α)) w ended := by
  rw [Goes, outcome_lift]
  exact D.refl active w.unit

/-! ## Reading the state -/

theorem goes_get {rest : Walk → WalkM α} :
    D.Goes active (get >>= rest) w ended ↔ D.Goes active (rest w) w ended := Iff.rfl

theorem goes_arena {rest : Arena → WalkM α} :
    D.Goes active (liftM CheckM.arena >>= rest) w ended ↔
      D.Goes active (rest w.unit.arena) w ended := Iff.rfl

theorem goes_expr {rest : Expression → WalkM α} :
    D.Goes active (liftM (CheckM.expr id) >>= rest) w ended ↔
      D.Goes active (rest (w.unit.arena.expr id)) w ended := Iff.rfl

theorem goes_definition {rest : Definition → WalkM α} :
    D.Goes active (liftM (CheckM.definition d) >>= rest) w ended ↔
      D.Goes active (rest (w.unit.arena.definition d)) w ended := Iff.rfl

end

/-! ## Definitions -/

/-- **A definition** is walked, unless that was done or is being done. Meanwhile its uses are not
replaced. -/
theorem visitDefinition_goes (hnext : D.Governs next) (d : DefId) (hw : D.Valid w.unit)
    (hd : .definition d ∈ D.region) :
    D.Goes active (visitDefinition next active d) w fun _ w' =>
      ∃ active', w.unit.Kept active' d ∧ D.Rel active' w.unit w'.unit := by
  rw [visitDefinition, goes_definition]
  split <;> rename_i hbody
  · exact goes_pure () ⟨active, .inr (by simp [hbody]), D.refl active w.unit⟩
  · exact goes_pure () ⟨active, .inr (by simp [hbody]), D.refl active w.unit⟩
  · rename_i s
    have hkept : w.unit.Kept active d := .inr (by simp [hbody])
    rw [goes_get]
    split
    · exact goes_pure () ⟨active, hkept, D.refl active w.unit⟩
    · have hs := D.onward hw hd (.program hbody)
      exact Goes.imp (hnext.statement active s _ hw hs) fun _ _ hrel _ => ⟨active, hkept, hrel⟩
  · rename_i b
    have hkept : w.unit.Kept (d :: active) d := .inl List.mem_cons_self
    rw [goes_get]
    split
    · exact goes_pure () ⟨d :: active, hkept, D.refl _ w.unit⟩
    · have hvisit := hnext.expr (d :: active) b w hw (D.onward hw hd (.body hbody))
      rw [Goes, outcome_bind, outcome_walk_attempt]
      refine Outcome.mono hvisit ?_ ?_
      · exact fun _ w' h => ⟨D.inner h.1, d :: active, hkept, h.1⟩
      · -- The error of a body is reported here, and then the walk stops.
        rintro (e | _) w' hrel
        · exact D.trans (D.inner hrel) (D.report active e (D.valid hw hrel))
        · exact D.inner hrel

/-! ## Uses -/

/-- **A use** is replaced and walked again, or nothing changes. -/
theorem trySubstitute_goes (hnext : D.Governs next) (hw : D.Valid w.unit)
    (hid : .expr id ∈ D.region) (hd : (w.unit.arena.expr id).kind.definition? = some d) :
    D.Goes active (trySubstitute settings next active id d) w fun replaced w' =>
      replaced = false → w.unit.Unchanged w'.unit := by
  rw [trySubstitute]
  split
  · exact goes_pure false fun _ => Unchanged.refl _
  · rename_i hactive
    have hsubstitute := (D.replace hw hid hd (by simpa using hactive)).and
      (substitute_outcome settings hd)
    have hgoes : D.Goes active (liftM (substitute settings id)) w fun replaced w' =>
        replaced = false → w.unit.Unchanged w'.unit :=
      goes_lift (fun replaced c => replaced = false → w.unit.Unchanged c)
        (hsubstitute.mono (fun replaced c h => ⟨h.1, h.2.kept⟩) fun _ _ h => h.1)
    refine hgoes.bind fun replaced w₁ hrel hkept => ?_
    cases replaced with
    | true =>
      have hvisit := (hnext.expr (d :: active) id w₁ (D.valid hw hrel) hid).inner
      exact hvisit.bind fun _ w₂ _ _ => goes_pure true fun h => by cases h
    | false => exact goes_pure false hkept

/-- **A reference** is replaced or takes the type of its definition, once that was walked. -/
theorem visitReference_goes (hnext : D.Governs next) (hw : D.Valid w.unit)
    (hid : .expr id ∈ D.region)
    (hk : (w.unit.arena.expr id).kind = .reference d ∨ (w.unit.arena.expr id).kind = .operator d) :
    D.Goes active (visitReference settings next active id d) w fun _ _ => True := by
  have hd : (w.unit.arena.expr id).kind.definition? = some d := by
    rcases hk with hk | hk <;> rw [hk] <;> rfl
  rw [visitReference]
  refine (trySubstitute_goes hnext hw hid hd).bind fun replaced w₁ hrel₁ hkept => ?_
  cases replaced with
  | true => exact goes_pure () trivial
  | false =>
    have hw₁ := D.valid hw hrel₁
    have hk₁ : (w₁.unit.arena.expr id).kind = .reference d ∨
        (w₁.unit.arena.expr id).kind = .operator d := by
      rwa [(hkept rfl).expr]
    have hd₁ := D.onward hw hid (onward_use hd)
    refine (visitDefinition_goes hnext d hw₁ hd₁).bind fun _ w₂ hrel₂ hlast => ?_
    obtain ⟨active', hkept', hrel'⟩ := hlast
    have hlasting : w₁.unit.Lasting active' id := hk₁.elim (.reference · hkept') .operator
    refine goes_step ?_
    simp only [typeReference, outcome_bind, outcome_definitionType, outcome_definition,
      outcome_expr]
    split
    · exact D.refl active w₂.unit
    · split
      · exact D.refl active w₂.unit
      · refine D.retype active _ hw₁ hid hlasting hrel' fun d' hd' => ?_
        rcases hk₁ with hk₁ | hk₁ <;> cases hk₁.symm.trans hd'
        rfl

/-! ## Calls -/

theorem visitEach_goes (hchild : D.Visits active child) (ids : List ExprId) (hw : D.Valid w.unit)
    (hids : ∀ n ∈ ids, .expr n ∈ D.region) :
    D.Goes active (visitEach child ids) w fun _ _ => True := by
  induction ids generalizing w with
  | nil => exact goes_pure () trivial
  | cons id ids ih =>
    obtain ⟨hid, hids⟩ := List.forall_mem_cons.1 hids
    rw [visitEach]
    exact (hchild id w hw hid).bind fun _ w₁ hrel _ => ih (D.valid hw hrel) hids

theorem coerceAll_goes {c c₀ : Compilation} (unified : Ty) (args : List ExprId) (params : List Ty)
    (hc : D.Valid c) (hargs : ∀ n ∈ args, .expr n ∈ D.region) (hc₀ : D.Valid c₀)
    (hoperands : ∀ n ∈ args, c₀.Operand n) :
    Outcome (coerceAll unified args params) c (fun _ => D.Rel active c)
      fun _ => D.Rel active c := by
  induction args generalizing params c with
  | nil => exact D.refl active c
  | cons arg args ih =>
    cases params with
    | nil => exact D.refl active c
    | cons param params =>
      obtain ⟨harg, hargs⟩ := List.forall_mem_cons.1 hargs
      obtain ⟨hoperand, hoperands⟩ := List.forall_mem_cons.1 hoperands
      simp only [coerceAll, outcome_bind]
      refine (D.coerce active _ hc harg (.inr ⟨c₀, hc₀, hoperand⟩)).imp fun _ c₁ hrel => ?_
      exact (ih params (D.valid hc hrel) hargs hoperands).mono (fun _ _ => D.trans hrel)
        fun _ _ => D.trans hrel

/-- A call takes its type after its arguments took theirs. -/
theorem typeCall_goes {c c₁ : Compilation} {active' : List DefId} {calleeType : Ty}
    {args : List ExprId} (hc : D.Valid c) (hid : .expr id ∈ D.region)
    (hlasting : c.Lasting active' id) (hargs : ∀ n ∈ args, .expr n ∈ D.region)
    (hk : (c.arena.expr id).kind = .call d args) (hrel : D.Rel active' c c₁) :
    Outcome (typeCall id calleeType args) c₁ (fun _ => D.Rel active c₁)
      fun _ => D.Rel active c₁ := by
  have hc₁ := D.valid hc hrel
  have hoperands : ∀ n ∈ args, c.Operand n := fun n hn => ⟨id, by rwa [hk]⟩
  -- A call is no reference.
  have hcall {ty : Ty} {c' : Compilation} (d' : DefId)
      (hd' : (c.arena.expr id).kind = .reference d') : ty = c'.arena.definitionType d' := by
    cases hk.symm.trans hd'
  unfold typeCall
  split
  · rename_i params result isPure
    simp only [outcome_bind, outcome_arena]
    -- The arguments are brought into their types whatever is being walked.
    have hcoerce (active : List DefId) :
        Outcome (coerceAll (unifiedNumber c₁.arena args params) args params) c₁
          (fun _ => D.Rel active c₁) fun _ => D.Rel active c₁ :=
      coerceAll_goes _ args params hc₁ hargs hc hoperands
    refine ((hcoerce active).and (hcoerce active')).mono ?_ fun _ _ h => h.1
    rintro _ c₂ ⟨hrel₂, hrel₂'⟩
    split
    · exact D.trans hrel₂ (D.retype active _ hc hid hlasting (D.trans hrel hrel₂') hcall)
    · exact hrel₂
  · exact D.retype active _ hc hid hlasting hrel hcall

/-- **A call** is replaced, or typed over its arguments. -/
theorem visitCall_goes {args : List ExprId} (hnext : D.Governs next)
    (hchild : D.Visits active child) (hw : D.Valid w.unit) (hid : .expr id ∈ D.region)
    (hk : (w.unit.arena.expr id).kind = .call d args) :
    D.Goes active (visitCall settings next child active id d args) w fun _ _ => True := by
  have hd : (w.unit.arena.expr id).kind.definition? = some d := by
    rw [hk]
    rfl
  have hargs : ∀ n ∈ args, .expr n ∈ D.region := fun n hn =>
    D.onward hw hid (onward_child (by rw [hk]; exact hn))
  simp only [visitCall, goes_arena]
  split
  · exact goes_fail _ _
  · rename_i hfull
    rw [Bool.not_eq_true] at hfull
    -- What follows an attempt to replace the call that changed nothing.
    have htype {w₁ : Walk} {calleeType : Ty} (hunchanged : w.unit.Unchanged w₁.unit)
        (hw₁ : D.Valid w₁.unit) : D.Goes active (do
          visitDefinition next active d
          visitEach child args
          liftM (typeCall id calleeType args)) w₁ fun _ _ => True := by
      have hk₁ : (w₁.unit.arena.expr id).kind = .call d args := by rwa [hunchanged.expr]
      have hfull₁ := (hunchanged.isPartialCall id).trans hfull
      refine (visitDefinition_goes hnext d hw₁ (D.onward hw hid (onward_use hd))).bind
        fun _ w₂ hrel₂ hlast => ?_
      have hw₂ := D.valid hw₁ hrel₂
      cases args with
      | nil =>
        -- Without arguments the call is not replaced while its definition is being walked.
        obtain ⟨active', hkept, hrel'⟩ := hlast
        have hlasting : w₁.unit.Lasting active' id := .call hk₁ hfull₁ (.inr hkept)
        exact goes_step (typeCall_goes hw₁ hid hlasting hargs hk₁ hrel')
      | cons arg args =>
        refine (visitEach_goes hchild _ hw₂ hargs).bind fun _ w₃ hrel₃ _ => ?_
        have hlasting : w₁.unit.Lasting active id := .call hk₁ hfull₁ (.inl (by simp))
        exact goes_step (typeCall_goes hw₁ hid hlasting hargs hk₁ (D.trans hrel₂ hrel₃))
    split
    · refine (trySubstitute_goes hnext hw hid hd).bind fun replaced w₁ hrel₁ hkept => ?_
      cases replaced with
      | true => exact goes_pure () trivial
      | false => exact htype (hkept rfl) (D.valid hw hrel₁)
    · exact htype (.refl _) hw

/-! ## Negation -/

/-- **A minus sign** becomes a call, which is walked in turn. -/
theorem visitNegation_goes {x : ExprId} (hnext : D.Governs next) (hchild : D.Visits active child)
    (hw : D.Valid w.unit) (hid : .expr id ∈ D.region)
    (hk : (w.unit.arena.expr id).kind = .negated x) :
    D.Goes active (visitNegation next child active id x) w fun _ _ => True := by
  have hx : .expr x ∈ D.region :=
    D.onward hw hid (onward_child (by rw [hk]; exact List.mem_singleton_self x))
  rw [visitNegation]
  refine (hchild x w hw hx).bind fun _ w₁ hrel₁ hnative => ?_
  refine (goes_step (D.negate hw hid hk hrel₁ hnative)).bind fun _ w₂ hrel₂ _ => ?_
  have hw₂ := D.valid (D.valid hw hrel₁) hrel₂
  exact (hnext.expr active id w₂ hw₂ hid).imp fun _ _ _ _ => trivial

/-! ## Expressions -/

/-- **An expression** that was walked has a native type. -/
theorem visitExpr_goes (hnext : D.Governs next) (hchild : D.Visits active child) :
    D.Visits active (visitExpr settings next child active) := by
  intro id w hw hid
  rw [visitExpr, goes_expr]
  have hfinish {visit : WalkM Unit} (hvisit : D.Goes active visit w fun _ _ => True) :
      D.Goes active (do
        visit
        liftM (honourDeclared id)
        liftM (requireNative id)) w fun _ w' => (w'.unit.arena.expr id).ty.native = .yes := by
    refine hvisit.bind fun _ w₁ hrel₁ _ => ?_
    have hw₁ := D.valid hw hrel₁
    have hhonour : Outcome (honourDeclared id) w₁.unit (fun _ => D.Rel active w₁.unit)
        fun _ => D.Rel active w₁.unit := by
      simp only [honourDeclared, outcome_bind, outcome_expr]
      split
      · exact D.coerce active _ hw₁ hid (.inl ‹_›)
      · exact D.refl active w₁.unit
    refine (goes_step hhonour).bind fun _ w₂ _ _ => ?_
    refine goes_lift (fun _ c => (c.arena.expr id).ty.native = .yes) ?_
    simp only [requireNative, outcome_bind, outcome_expr]
    split
    · exact ⟨D.refl active w₂.unit, ‹_›⟩
    · exact D.refl active w₂.unit
  split <;> rename_i hk
  · exact hfinish (goes_step (D.value active hw hid (by rw [hk]; rfl)))
  · exact hfinish (visitReference_goes hnext hw hid (.inl hk))
  · exact hfinish (visitReference_goes hnext hw hid (.inr hk))
  · exact hfinish (visitCall_goes hnext hchild hw hid hk)
  · exact hfinish (visitNegation_goes hnext hchild hw hid hk)
  all_goals exact goes_fail _ _

theorem visitWithin_goes (hnext : D.Governs next) (active : List DefId) (bound depth : Nat) :
    D.Visits active (visitWithin settings next active bound depth) := by
  induction depth with
  | zero => exact fun id w _ _ => D.refl active w.unit
  | succ depth ih =>
    refine fun id => visitExpr_goes hnext (fun child => ?_) id
    split
    · exact ih child
    · exact hnext.expr active child

/-! ## Statements -/

/-- An error is reported where it ends up. -/
theorem goes_report {visit : WalkM Unit} {ended : Unit → Walk → Prop} (hw : D.Valid w.unit)
    (h : D.Goes active visit w ended) :
    D.Goes active (do WalkM.reportOutcome (← WalkM.attempt visit)) w fun _ _ => True := by
  rw [Goes, outcome_bind, outcome_walk_attempt]
  refine Outcome.mono h (fun _ _ h' => ⟨h'.1, trivial⟩) ?_
  rintro (e | _) w' hrel
  · exact ⟨D.trans hrel (D.report active e (D.valid hw hrel)), trivial⟩
  · exact hrel

theorem each_goes {visit : StmtId → WalkM Unit} (hvisit : D.VisitsStatements active visit)
    (ss : List StmtId) (hw : D.Valid w.unit) (hss : ∀ s ∈ ss, .statement s ∈ D.region) :
    D.Goes active (visitStatementWithin.each visit ss) w fun _ _ => True := by
  induction ss generalizing w with
  | nil => exact goes_pure () trivial
  | cons s ss ih =>
    obtain ⟨hs, hss⟩ := List.forall_mem_cons.1 hss
    rw [visitStatementWithin.each]
    exact (hvisit s w hw hs).bind fun _ w₁ hrel _ => ih (D.valid hw hrel) hss

/-- **A statement** is walked past its errors. -/
theorem visitStatementWithin_goes (hnext : D.Governs next) (active : List DefId) (depth : Nat) :
    D.VisitsStatements active (visitStatementWithin next active depth) := by
  induction depth with
  | zero => exact fun s w _ _ => D.refl active w.unit
  | succ depth ih =>
    intro s w hw hs
    rw [visitStatementWithin, goes_arena]
    split <;> rename_i hk
    · exact goes_report hw (hnext.expr active _ w hw (D.onward hw hs (.shown hk)))
    · exact goes_report hw (hnext.expr active _ w hw (D.onward hw hs (.result hk)))
    · exact goes_report hw (visitDefinition_goes hnext _ hw (D.onward hw hs (.bind hk)))
    · exact each_goes ih _ hw fun t ht => D.onward hw hs (.block hk ht)
    all_goals exact goes_pure () trivial

/-! ## Rounds -/

/-- **The walk** keeps every discipline, with any number of rounds. -/
theorem visitor_goes (D : Discipline settings) (rounds : Nat) :
    D.Governs (visitor settings rounds) := by
  induction rounds with
  | zero => exact ⟨fun active id w _ _ => D.refl active w.unit, fun active s w _ _ =>
      D.refl active w.unit⟩
  | succ rounds ih =>
    refine ⟨fun active id w hw hid => ?_, fun active s w hw hs => ?_⟩
    · simp only [visitor, goes_arena]
      exact visitWithin_goes ih active w.unit.arena.exprs.size _ id w hw hid
    · simp only [visitor, goes_arena]
      exact visitStatementWithin_goes ih active _ s w hw hs

/-- **The walk of the root statements** keeps every discipline whose region has all statements. -/
theorem concretizeAll_rel (D : Discipline settings) {c : Compilation} (hc : D.Valid c)
    (hregion : ∀ s, .statement s ∈ D.region) :
    Outcome (concretizeAll settings) c (fun _ => D.Rel [] c) fun _ => D.Rel [] c := by
  simp only [concretizeAll, outcome_bind, outcome_arena, outcome_runWalk, outcome_get]
  have hgoes := D.each_goes ((D.visitor_goes c.arena.rounds).statement []) (w := ⟨c, []⟩)
    c.arena.roots hc fun s _ => hregion s
  exact Outcome.mono hgoes (fun _ _ h => h.1) fun _ _ h => h

end Discipline

end Termwise
