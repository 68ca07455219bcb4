import Termwise.Proofs.Concretization.Region
import Termwise.Proofs.Run.Wholeness

/-!
# Substitution and effects

To replace a use by a body is to evaluate the body once more. Whether a definition may be substituted
is decided by its own type, and anything but a function type counts as pure; so a definition whose
body is the call of a function that has an effect is substituted like any constant, and then the
effect happens twice.

This is the only way in which effects are multiplied. If the bodies that may be substituted contain
no call that has an effect, then no copy contains one, and a walk leads to no such call that did not
stand there before: not by a copy, and not by a cast, by widening or by what becomes of a minus sign.

## Main definitions

* `Compilation.MayAct`: a definition whose calls may have an effect
* `Compilation.Idle`: a tree without such calls
* `Compilation.ConstantBodies`: what substitution relies on
* `sparing`: to multiply no effect, as a discipline

## Main results

* `calls_of_concretizeAll`: no effect is multiplied
-/

namespace Termwise

open Compilation

namespace Compilation

/-! ## Effects -/

/-- An expression is a call of `d`. -/
def Calls (c : Compilation) (n : ExprId) (d : DefId) : Prop :=
  ∃ args, (c.arena.expr n).kind = .call d args

/-- The calls of a definition may have an effect: it is declared to be a function that has one, or
it has the type of its body, which is not known yet. -/
def MayAct (c : Compilation) (d : DefId) : Prop :=
  match (c.arena.definition d).declared with
  | some ty => ty.isPure = false
  | none => ∃ b, (c.arena.definition d).body = .expression b

/-- No call at or below an expression may have an effect. -/
def Idle (c : Compilation) (n : ExprId) : Prop :=
  ∀ m d, c.Below n m → c.Calls m d → ¬ c.MayAct d

/-- What substitution relies on: a body is idle unless its definition is declared to be a function
that has an effect, and the negations have none. -/
structure ConstantBodies (c : Compilation) : Prop where
  bodies : ∀ d b, (c.arena.definition d).body = .expression b →
    (∀ ty, (c.arena.definition d).declared = some ty → ty.isPure = true) → c.Idle b
  negations : ∀ d, c.IsNegation d → ¬ c.MayAct d

variable {c c' c'' c₁ : Compilation} {id n m x : ExprId} {d : DefId} {settings : Settings}

/-- A definition that is of a function type with an effect may act. -/
theorem mayAct_of_isPure (h : (c.arena.definitionType d).isPure = false) : c.MayAct d := by
  unfold MayAct
  cases hdeclared : (c.arena.definition d).declared with
  | some ty => rwa [Arena.definitionType_of_declared hdeclared] at h
  | none =>
    by_contra hbody
    rw [Arena.definitionType_of_no_body hdeclared fun b hb => hbody ⟨b, hb⟩] at h
    cases h

theorem SameProgram.mayAct (h : c.SameProgram c') : c'.MayAct d ↔ c.MayAct d := by
  unfold MayAct
  rw [h.definition]

theorem SameProgram.isNegation (h : c.SameProgram c') : c'.IsNegation d ↔ c.IsNegation d := by
  unfold IsNegation
  rw [h.builtins]

/-- A set that nothing directly below its expressions leaves is left by nothing at all. -/
theorem Below.mem_set {Z : Set ExprId} (h : c.Below n m)
    (hZ : ∀ z ∈ Z, ∀ k ∈ (c.arena.expr z).kind.children, k ∈ Z) (hn : n ∈ Z) : m ∈ Z := by
  induction h with
  | refl => exact hn
  | tail _ hk ih => exact hZ _ ih _ hk

/-- What is reached lies at or below an expression of a root statement. -/
theorem reaches_iff_below :
    c.arena.Reaches m ↔ ∃ s ∈ c.arena.roots, ∃ n, c.arena.Mentions s n ∧ c.Below n m := by
  constructor
  · intro h
    induction h with
    | root hs hm => exact ⟨_, hs, _, hm, .refl⟩
    | child _ hk ih =>
      obtain ⟨s, hs, n, hn, hpath⟩ := ih
      exact ⟨s, hs, n, hn, hpath.tail hk⟩
  · rintro ⟨s, hs, n, hn, hpath⟩
    induction hpath with
    | refl => exact .root hs hn
    | tail _ hk ih => exact .child ih hk

/-! ## Nothing but types, values and callees -/

/-- Everything stands where it stood, and no call came about that may have an effect. -/
structure Tame (c c' : Compilation) : Prop extends SameProgram c c' where
  size : c'.arena.exprs.size = c.arena.exprs.size
  children : ∀ n, (c'.arena.expr n).kind.children = (c.arena.expr n).kind.children
  calls : ∀ n d, c.MayAct d → c'.Calls n d → c.Calls n d

theorem Tame.refl (c : Compilation) : c.Tame c := ⟨.refl c, rfl, fun _ => rfl, fun _ _ _ h => h⟩

theorem Tame.trans (h : c.Tame c') (h' : c'.Tame c'') : c.Tame c'' where
  toSameProgram := h.toSameProgram.trans h'.toSameProgram
  size := h'.size.trans h.size
  children n := (h'.children n).trans (h.children n)
  calls n d hd hn := h.calls n d hd (h'.calls n d (h.toSameProgram.mayAct.2 hd) hn)

theorem Tame.of_arena_eq (h : c.Tame c') (harena : c''.arena = c'.arena)
    (hbuiltins : c''.builtins = c'.builtins) : c.Tame c'' where
  builtins := hbuiltins.trans h.builtins
  defs := by rw [harena, h.defs]
  stmts := by rw [harena, h.stmts]
  roots := by rw [harena, h.roots]
  size := by rw [harena, h.size]
  children n := by rw [harena, h.children]
  calls n d hd hn := h.calls n d hd (by rwa [Calls, harena] at hn)

/-- One expression more is changed. -/
theorem Tame.modifyExpr (h : c.Tame c₁) {f : Expression → Expression}
    (hchildren : (f (c₁.arena.expr id)).kind.children = (c.arena.expr id).kind.children)
    (hcalls : ∀ d args, (f (c₁.arena.expr id)).kind = .call d args → c.MayAct d → c.Calls id d) :
    c.Tame (c₁.modifyArena (·.modifyExpr id f)) where
  toSameProgram := h.toSameProgram.trans ⟨rfl, rfl, rfl, rfl⟩
  size := by simpa [modifyArena] using h.size
  children n := by
    simp only [modifyArena, Arena.expr_modifyExpr]
    split <;> rename_i hn
    · rw [hn.1, hchildren]
    · exact h.children n
  calls n d hd hn := by
    simp only [Calls, modifyArena, Arena.expr_modifyExpr] at hn
    split at hn <;> rename_i heq
    · obtain ⟨args, hk⟩ := hn
      rw [heq.1] at hk ⊢
      exact hcalls d args hk hd
    · exact h.calls n d hd hn

/-- An expression takes another type, or a value another value. -/
theorem tame_retouch {f : Expression → Expression}
    (h : (f (c.arena.expr id)).kind = (c.arena.expr id).kind ∨
      (c.arena.expr id).kind.isValue = true ∧ (f (c.arena.expr id)).kind.isValue = true) :
    c.Tame (c.modifyArena (·.modifyExpr id f)) := by
  refine (Tame.refl c).modifyExpr (ExprKind.children_eq h) fun d args hk _ => ?_
  rcases h with heq | ⟨-, hvalue'⟩
  · exact ⟨args, heq ▸ hk⟩
  · rw [hk] at hvalue'
    cases hvalue'

end Compilation

variable {c c' c'' c₁ : Compilation} {id n m x b : ExprId} {d : DefId} {settings : Settings}

/-- To read a use as a reference has no effect: nothing lies below either. -/
theorem Compilation.tame_readAs
    (huse : (c.arena.expr id).kind = .reference d ∨ (c.arena.expr id).kind = .call d []) :
    c.Tame (c.readAs id d) := by
  refine (Tame.refl c).modifyExpr ?_ fun _ _ hk _ => by cases hk
  rcases huse with hk | hk
  · rw [hk]
  · rw [hk]
    rfl

/-- A callee that may have an effect stays the callee of a widened call. -/
theorem Compilation.floatCallee?_of_mayAct (hneg : ∀ d, c.IsNegation d → ¬ c.MayAct d)
    {callee floatCallee : DefId} (h : c.floatCallee? callee = some floatCallee)
    (hact : c.MayAct floatCallee) : floatCallee = callee := by
  unfold floatCallee? at h
  split at h
  · cases h
    exact (hneg _ (.inr rfl) hact).elim
  · split at h <;> cases h
    rfl

/-- Expressions get into other types without effects, if the negations have none. -/
theorem retypingLaw_tame :
    RetypingLaw (fun c _ => ∀ d, c.IsNegation d → ¬ c.MayAct d) Tame where
  refl := .refl
  trans := .trans
  stays h hneg d hd := by
    rw [h.toSameProgram.mayAct]
    exact hneg d (h.toSameProgram.isNegation.1 hd)
  operand hneg _ _ := hneg
  value _ h := tame_retouch (f := fun _ => _) (.inr h.isValue)
  call {c c₁ n d d' args} hneg hk hcallee h₁ := by
    refine h₁.modifyExpr (f := fun e => { e with kind := .call d' args, ty := .float }) ?_
      fun d₁ _ hk' hd => ?_
    · rw [hk]
      rfl
    · cases hk'
      exact ⟨args, by rw [hk, floatCallee?_of_mayAct hneg hcallee hd]⟩
  emit c _ := (Tame.refl c).of_arena_eq rfl rfl

/-- What is done for a call has no effect. -/
theorem callLaw_tame (args : List ExprId) : CallLaw args Tame where
  refl := .refl
  trans := .trans
  coerced _ h := tame_retouch (Expression.coerce_kind h)
  issued c _ _ _ := (Tame.refl c).of_arena_eq rfl rfl

theorem createCall_tame (d : DefId) (args : List ExprId) (span : Span) :
    Outcome (createCall d args span) c (fun e c' => c.Tame c' ∧ e.kind = .call d args)
      fun _ => c.Tame :=
  ((callLaw_tame args).outcome_createCall d span c).mono (fun _ _ h => ⟨h.1, h.2.1⟩)
    fun _ _ => And.right

/-- **A minus sign** over its operand becomes a call that has no effect. -/
theorem callNegation_tame (hneg : ∀ d, c.IsNegation d → ¬ c.MayAct d)
    (hk : (c.arena.expr id).kind.children = [x]) :
    Outcome (callNegation id x) c (fun _ => c.Tame) fun _ => c.Tame := by
  simp only [callNegation, outcome_bind, outcome_get, outcome_expr]
  refine (createCall_tame _ [x] _).imp ?_
  rintro call c₁ ⟨h₁, hcall⟩
  refine h₁.modifyExpr (f := (·.replaceBy call)) ?_ fun d args hk' hd => ?_
  · rw [hk, show ((c₁.arena.expr id).replaceBy call).kind = _ from hcall]
    rfl
  · cases hcall.symm.trans hk'
    exact (hneg _ (c.isNegation_negationFor x) hd).elim

/-! ## Copies without effects -/

namespace Compilation

/-- No call came about that may have an effect: where one lies now it lay before. -/
structure Spares (c c' : Compilation) : Prop extends SameProgram c c' where
  size : c.arena.exprs.size ≤ c'.arena.exprs.size
  children : ∀ n, (c.arena.expr n).kind.children = [] ∨
    (c'.arena.expr n).kind.children = (c.arena.expr n).kind.children
  calls : ∀ n m d, c.MayAct d → c'.Below n m → c'.Calls m d → c.Below n m ∧ c.Calls m d

theorem Tame.spares (h : c.Tame c') : c.Spares c' where
  toSameProgram := h.toSameProgram
  size := h.size.ge
  children n := .inr (h.children n)
  calls n m d hd hpath hm := by
    refine ⟨Relation.ReflTransGen.mono (fun p k hk => ?_) _ _ hpath, h.calls m d hd hm⟩
    rwa [h.children p] at hk

theorem Spares.refl (c : Compilation) : c.Spares c := (Tame.refl c).spares

theorem Spares.trans (h : c.Spares c') (h' : c'.Spares c'') : c.Spares c'' where
  toSameProgram := h.toSameProgram.trans h'.toSameProgram
  size := h.size.trans h'.size
  children n := by
    rcases h.children n with hnil | heq
    · exact .inl hnil
    · rcases h'.children n with hnil | heq'
      · exact .inl (heq.symm.trans hnil)
      · exact .inr (heq'.trans heq)
  calls n m d hd hpath hm := by
    obtain ⟨hpath', hm'⟩ := h'.calls n m d (h.toSameProgram.mayAct.2 hd) hpath hm
    exact h.calls n m d hd hpath' hm'

theorem Spares.idle (h : c.Spares c') (hn : c.Idle n) : c'.Idle n := by
  intro m d hpath hm hd
  have hd' := h.toSameProgram.mayAct.1 hd
  obtain ⟨hpath', hm'⟩ := h.calls n m d hd' hpath hm
  exact hn m d hpath' hm' hd'

theorem Spares.constantBodies (h : c.Spares c') (hc : c.ConstantBodies) : c'.ConstantBodies where
  bodies d b := by
    rw [h.definition]
    exact fun hb hpure => h.idle (hc.bodies d b hb hpure)
  negations d hd := by
    rw [h.toSameProgram.mayAct]
    exact hc.negations d (h.toSameProgram.isNegation.1 hd)

/-- The idle trees of a program, as a set that nothing below leaves. -/
theorem encloses_idle (c : Compilation) :
    c.arena.Encloses { n | c.Idle n } fun k => ∀ d args, k = .call d args → ¬ c.MayAct d where
  children n hn m hm k d hpath := hn k d (.head hm hpath)
  kind n hn d args hk := hn n d .refl ⟨args, hk⟩
  fresh n hsize m d hpath hm := by
    have hm' : m ∈ ({n} : Set ExprId) := hpath.mem_set (fun z hz k hk => by
      obtain rfl := Set.mem_singleton_iff.1 hz
      rw [Arena.expr_of_size_le hsize] at hk
      cases hk) rfl
    obtain rfl := Set.mem_singleton_iff.1 hm'
    obtain ⟨args, hk⟩ := hm
    rw [Arena.expr_of_size_le hsize] at hk
    cases hk

/-- **Changes within a set that nothing leaves** and that holds no call with an effect: no such call
came about, and what is in the set is idle. -/
theorem SameProgram.spares (hsame : c.SameProgram c')
    (hsize : c.arena.exprs.size ≤ c'.arena.exprs.size)
    (hchildren : ∀ n, (c.arena.expr n).kind.children = [] ∨
      (c'.arena.expr n).kind.children = (c.arena.expr n).kind.children) {Z : Set ExprId}
    (hclosed : ∀ z ∈ Z, ∀ k ∈ (c'.arena.expr z).kind.children, k ∈ Z)
    (hcalls : ∀ z ∈ Z, ∀ d args, (c'.arena.expr z).kind = .call d args → ¬ c.MayAct d)
    (houtside : ∀ z ∉ Z, c'.arena.expr z = c.arena.expr z) :
    c.Spares c' ∧ ∀ z ∈ Z, c'.Idle z := by
  refine ⟨⟨hsame, hsize, hchildren, fun n m d hd hpath hm => ?_⟩, fun z hz m d hpath hm hd => ?_⟩
  · have hmZ : m ∉ Z := fun hmem => by
      obtain ⟨args, hk⟩ := hm
      exact hcalls m hmem d args hk hd
    -- So the way to the call never enters the set, and was there before.
    have hpath' : c.Below n m := by
      induction hpath using Relation.ReflTransGen.head_induction_on with
      | refl => exact .refl
      | @head p q hk hrest ih =>
        have hp : p ∉ Z := fun hp => hmZ (Below.mem_set (.head hk hrest) hclosed hp)
        rw [houtside p hp] at hk
        exact .head hk ih
    exact ⟨hpath', by rwa [Calls, ← houtside m hmZ]⟩
  · obtain ⟨args, hk⟩ := hm
    exact hcalls m (hpath.mem_set hclosed hz) d args hk (hsame.mayAct.1 hd)

/-- An expression with nothing below it is replaced by a copy of an idle tree. -/
theorem spares_copy (hid : (c.arena.expr id).kind.children = []) (hb : c.Idle b)
    (harena : c'.arena = (c.arena.copy b).2.replaceExpr id (c.arena.copy b).1)
    (hbuiltins : c'.builtins = c.builtins) : c.Spares c' ∧ c'.Idle id := by
  have hcopied := Arena.copyWithin_encloses (fun k k' hk h d args hk' => by
    subst hk'
    cases hk with
    | refl => exact h d args rfl
    | call => exact h d _ rfl) c.arena.exprs.size b c.arena c.encloses_idle hb
  let copied := c.arena.copy b
  have hsame : c.SameProgram c' := by
    refine ⟨hbuiltins, ?_, ?_, ?_⟩ <;> rw [harena]
    · exact hcopied.appends.defs
    · exact hcopied.appends.stmts
    · exact hcopied.appends.roots
  have hexpr (z : ExprId) : c'.arena.expr z =
      if z = id ∧ z.index < copied.2.exprs.size then (copied.2.expr z).replaceBy copied.1
      else copied.2.expr z := by
    rw [harena, Arena.replaceExpr, Arena.expr_modifyExpr]
  have hkept {z : ExprId} (hne : z ≠ id) (hlt : z.index < c.arena.exprs.size) :
      c'.arena.expr z = c.arena.expr z := by
    rw [hexpr, if_neg fun h => hne h.1]
    exact hcopied.appends.expr z hlt
  -- From the place of the copy a way leads through idle expressions only.
  have hidle : ∀ z ∈ insert id { n | c.Idle n },
      (∀ k ∈ (c'.arena.expr z).kind.children, c.Idle k) ∧
        ∀ d args, (c'.arena.expr z).kind = .call d args → ¬ c.MayAct d := by
    intro z hz
    rw [hexpr]
    split <;> rename_i h
    · exact ⟨hcopied.children, hcopied.kind⟩
    · by_cases hz' : c.Idle z
      · exact ⟨hcopied.encloses.children z hz', hcopied.encloses.kind z hz'⟩
      · obtain rfl : z = id := hz.resolve_right hz'
        have hsize : copied.2.exprs.size ≤ z.index := by simpa using h
        rw [Arena.expr_of_size_le hsize]
        exact ⟨by simp [Expression.tombstone, Expression.sentinel, Expression.new,
          ExprKind.children], fun d args hk => by cases hk⟩
  have hsize : c.arena.exprs.size ≤ c'.arena.exprs.size := by
    rw [harena, Arena.replaceExpr, Arena.size_modifyExpr]
    exact hcopied.appends.size
  have hchildren (n : ExprId) : (c.arena.expr n).kind.children = [] ∨
      (c'.arena.expr n).kind.children = (c.arena.expr n).kind.children := by
    by_cases hne : n = id
    · exact .inl (hne ▸ hid)
    · rcases Nat.lt_or_ge n.index c.arena.exprs.size with hlt | hge
      · exact .inr (by rw [hkept hne hlt])
      · rw [Arena.expr_of_size_le hge]
        exact .inl rfl
  have houtside : ∀ z ∉ insert id { n | c.Idle n }, c'.arena.expr z = c.arena.expr z := by
    intro z hz
    refine hkept (fun heq => hz (.inl heq)) ?_
    -- What is outside the table is idle.
    by_contra hge
    exact hz (.inr (c.encloses_idle.fresh z (Nat.le_of_not_lt hge)))
  obtain ⟨hspares, hmem⟩ := hsame.spares hsize hchildren
    (fun z hz k hk => .inr ((hidle z hz).1 k hk)) (fun z hz => (hidle z hz).2) houtside
  exact ⟨hspares, hmem id (Set.mem_insert id _)⟩

/-- **A use that is replaced** by an idle body is idle. -/
theorem Replaced.spares (h : c.Replaced id d b c') (hb : c.Idle b) : c.Spares c' ∧ c'.Idle id := by
  obtain ⟨_, rfl, -, harena⟩ := h.arena
  have hnone : (c.arena.expr id).kind.children = [] := by
    rcases h.use with hk | hk <;> rw [hk] <;> rfl
  have hread := c.tame_readAs h.use
  have hcopy : _ ∧ c'.Idle id :=
    spares_copy ((hread.children id).trans hnone) (hread.spares.idle hb) harena h.builtins
  exact ⟨hread.spares.trans hcopy.1, hcopy.2⟩

end Compilation

/-- A use is replaced only if its definition is not declared to have an effect. -/
theorem substituteReference_isPure (id : ExprId) (d : DefId) :
    Outcome (substituteReference id d) c
      (fun replaced _ => replaced = true →
        ∀ ty, (c.arena.definition d).declared = some ty → ty.isPure = true)
      fun _ _ => True := by
  simp only [substituteReference, outcome_bind, outcome_arena]
  split
  · exact fun h => by cases h
  · exact fun h => by cases h
  · exact fun h => by cases h
  · split
    · exact fun h => by cases h
    · -- A function is asked whether it is pure; a type of any other form is pure by definition.
      split_ifs with hfunction himpure _ _ _
      · exact fun h => by cases h
      · exact fun h => by cases h
      · exact fun h => by cases h
      · simp only [outcome_bind, outcome_putCopy]
        refine ⟨fun _ => trivial, fun _ _ ty hty => ?_⟩
        rw [Arena.definitionType_of_declared hty] at himpure
        simpa using himpure
      · exact fun h => by cases h
      · simp only [outcome_bind, outcome_putCopy]
        refine ⟨fun _ => trivial, fun _ _ ty hty => ?_⟩
        rw [Arena.definitionType_of_declared hty] at hfunction
        cases ty <;> first | rfl | exact (hfunction rfl).elim

theorem substitute_isPure (settings : Settings)
    (hd : (c.arena.expr id).kind.definition? = some d) :
    Outcome (substitute settings id) c
      (fun replaced _ => replaced = true →
        ∀ ty, (c.arena.definition d).declared = some ty → ty.isPure = true)
      fun _ _ => True := by
  simp only [substitute]
  split
  · exact fun h => by cases h
  · simp only [outcome_bind, outcome_expr]
    split <;> rename_i hk <;> try rw [hk] at hd; cases hd
    · exact substituteReference_isPure id d
    · simp only [substituteCall, outcome_bind, outcome_definitionType]
      split
      · exact fun h => by cases h
      · simp only [outcome_bind, outcome_expr, outcome_modifyExpr]
        refine (substituteReference_isPure id d).imp fun replaced c₂ h => ?_
        cases replaced with
        | true => exact h
        | false => exact fun h => by cases h
    · exact fun h => by cases h

/-- **A use is replaced by an idle tree**, or nothing changes. -/
theorem substitute_spares (hc : c.ConstantBodies)
    (hd : (c.arena.expr id).kind.definition? = some d) :
    Outcome (substitute settings id) c
      (fun replaced c' => c.Spares c' ∧ (replaced = true → c'.Idle id)) fun _ => c.Spares := by
  refine ((substitute_outcome settings hd).and ((substitute_copies settings hd).and
    (substitute_isPure settings hd))).mono ?_ fun _ _ h => h.1.read ▸ (c.tame_readAs h.1.use).spares
  rintro (_ | _) c' ⟨hkept, hcopied, hpure⟩
  · have hunchanged := hkept.kept rfl
    refine ⟨Tame.spares ⟨hunchanged.toSameProgram, hunchanged.size, fun n => ?_, fun n d _ hn => ?_⟩,
      fun h => by cases h⟩
    · rw [hunchanged.expr]
    · rwa [Calls, hunchanged.expr] at hn
  · obtain ⟨b, hreplaced⟩ := hcopied rfl
    have hidle := hc.bodies d b hreplaced.body (hpure rfl)
    exact (hreplaced.spares hidle).imp_right fun h _ => h

/-- **To multiply no effect** is a discipline. -/
def sparing (settings : Settings) : Discipline settings where
  region := Set.univ
  Valid c := c.ConstantBodies
  Rel _ c c' := c.Spares c'
  refl _ c := .refl c
  trans := Spares.trans
  inner h := h
  valid hc h := h.constantBodies hc
  onward _ _ _ := trivial
  report {c} _ e _ := ((Tame.refl c).of_arena_eq (c.arena_reportNew e)
    (c.sameProgram_reportNew e).builtins).spares
  value _ hc _ _ := (retypingLaw_tame.outcome_concretizeValue hc.negations).mono
    (fun _ _ h => h.spares) fun _ _ h => (retypingLaw_tame.rel_of_refuses h).spares
  coerce _ target hc _ _ := (retypingLaw_tame.outcome_coerceTo target hc.negations).mono
    (fun _ _ h => h.spares) fun _ _ h => (retypingLaw_tame.rel_of_refuses h).spares
  retype _ _ _ _ _ _ _ := (tame_retouch (.inl rfl)).spares
  replace hc _ hd _ := (substitute_spares hc hd).mono (fun _ _ h => h.1) fun _ _ h => h
  negate {c c' active id x} hc _ hk h _ := by
    have hchildren := h.children id
    rw [hk] at hchildren
    exact (callNegation_tame (h.constantBodies hc).negations
      (hchildren.resolve_left (by simp [ExprKind.children]))).mono
      (fun _ _ h => h.spares) fun _ _ h => h.spares

/-! ## No effect is multiplied -/

/-- The walk of all root statements multiplies no effect. -/
theorem concretizeAll_spares (hc : c.ConstantBodies) :
    Outcome (concretizeAll settings) c (fun _ => c.Spares) fun _ => c.Spares :=
  (sparing settings).concretizeAll_rel hc fun _ => trivial

/-- **No effect is multiplied**, if the bodies that may be substituted have none. The tree that takes
the place of a use contains no call with an effect, and every such call that the root statements
reach in the end is one that they reached before. -/
theorem calls_of_concretizeAll (hc : c.ConstantBodies) :
    (∀ id c', substitute settings id c = .ok true c' → ∀ m d, c'.Below id m → c'.Calls m d →
      (c'.arena.definitionType d).isPure = true) ∧
    ∀ valid c', concretizeAll settings c = .ok valid c' → ∀ m d, c'.arena.Reaches m →
      c'.Calls m d → (c'.arena.definitionType d).isPure = false →
      c.arena.Reaches m ∧ c.Calls m d := by
  constructor
  · intro id c' h m d hpath hm
    by_contra heffect
    have hact := mayAct_of_isPure (by simpa using heffect)
    cases hd : (c.arena.expr id).kind.definition? with
    | some d' => exact ((substitute_spares hc hd).of_ok h).2 rfl m d hpath hm hact
    | none =>
      have hkept : Outcome (substitute settings id) c (fun replaced _ => replaced = false)
          fun _ _ => False := by
        simp only [substitute]
        split
        · rfl
        · simp only [outcome_bind, outcome_expr]
          split <;> rename_i hk <;> first | rfl | (rw [hk] at hd; cases hd)
      cases hkept.of_ok h
  · intro valid c' h m d hreach hm heffect
    have hspares : c.Spares c' := (concretizeAll_spares hc).of_ok h
    obtain ⟨s, hs, n, hn, hpath⟩ := reaches_iff_below.1 hreach
    have hact := hspares.toSameProgram.mayAct.1 (mayAct_of_isPure heffect)
    obtain ⟨hpath', hm'⟩ := hspares.calls n m d hact hpath hm
    refine ⟨reaches_iff_below.2 ⟨s, hspares.roots ▸ hs, n, ?_, hpath'⟩, hm'⟩
    exact hspares.toSameProgram.symm.mentions hn

/-- A program that prints a constant. -/
def printedConstant : Compilation :=
  { Compilation.new with
    arena :=
      { exprs := #[.new (.value (.string "a")) .string .origin, .new (.reference ⟨9⟩) .string .origin,
          .new (.call ⟨0⟩ [⟨1⟩]) .void .origin]
        defs := Builtins.definitions.toArray.push ⟨"v", .expression ⟨0⟩, none, none, .origin⟩
        stmts := #[⟨.bind ⟨9⟩, .origin⟩, ⟨.expression ⟨2⟩, .origin⟩]
        roots := [⟨0⟩, ⟨1⟩] } }

theorem printedConstant_constantBodies : printedConstant.ConstantBodies where
  bodies d b hb _ m e hpath hm _ := by
    have hb' : b = ⟨0⟩ := by
      revert hb
      refine Arena.forall_definition (p := fun x => x.body = .expression b → b = ⟨0⟩) ?_ ?_ d
      · simp [printedConstant, Builtins.definitions, Builtins.entry, eq_comm]
      · intro h
        cases h
    subst hb'
    have hm' : m ∈ ({⟨0⟩} : Set ExprId) := hpath.mem_set (by
      rintro z rfl k hk
      cases hk) rfl
    obtain rfl := Set.mem_singleton_iff.1 hm'
    obtain ⟨args, hk⟩ := hm
    cases hk
  negations d hd hact := by
    rcases hd with rfl | rfl <;> cases hact

/-- The constant is substituted, and the text is printed once. -/
theorem calls_printedConstant :
    printedConstant.ConstantBodies ∧
      ∃ c', concretizeAll {} printedConstant = .ok true c' ∧ c'.arena.Reaches ⟨2⟩ ∧
        c'.Calls ⟨2⟩ ⟨0⟩ ∧ (c'.arena.definitionType ⟨0⟩).isPure = false ∧
        printedConstant.arena.Reaches ⟨2⟩ ∧ printedConstant.Calls ⟨2⟩ ⟨0⟩ := by
  obtain ⟨c', h, hcheck⟩ := exists_of_check {} printedConstant
    (fun c' => decide (⟨1⟩ ∈ c'.arena.roots ∧ (c'.arena.stmt ⟨1⟩).kind = .expression ⟨2⟩ ∧
      (c'.arena.expr ⟨2⟩).kind = .call ⟨0⟩ [⟨1⟩] ∧
      (c'.arena.definitionType ⟨0⟩).isPure = false)) (by decide +kernel)
  obtain ⟨hroot, hstmt, hk, heffect⟩ := of_decide_eq_true hcheck
  have hreach : c'.arena.Reaches ⟨2⟩ := .root hroot (.expression hstmt)
  exact ⟨printedConstant_constantBodies, c', h, hreach, ⟨_, hk⟩, heffect,
    (calls_of_concretizeAll printedConstant_constantBodies).2 true c' h _ _ hreach ⟨_, hk⟩ heffect⟩

/-- A program with a definition whose body prints a text, and a use of it. -/
def printingBody : Compilation :=
  { Compilation.new with
    arena :=
      { exprs := #[.new (.value (.string "a")) .string .origin, .new (.call ⟨0⟩ [⟨0⟩]) .void .origin,
          .new (.reference ⟨9⟩) .void .origin]
        defs := Builtins.definitions.toArray.push ⟨"v", .expression ⟨1⟩, none, none, .origin⟩
        stmts := #[⟨.bind ⟨9⟩, .origin⟩, ⟨.expression ⟨2⟩, .origin⟩]
        roots := [⟨0⟩, ⟨1⟩] } }

/-- **A body that prints is substituted**, and then the text is printed twice. -/
theorem calls_printingBody :
    (∃ c', substitute {} ⟨2⟩ printingBody = .ok true c' ∧ c'.Calls ⟨2⟩ ⟨0⟩ ∧
      (c'.arena.definitionType ⟨0⟩).isPure = false) ∧
    ∃ c', concretizeAll {} printingBody = .ok true c' ∧ c'.arena.Reaches ⟨1⟩ ∧
      c'.Calls ⟨1⟩ ⟨0⟩ ∧ c'.arena.Reaches ⟨2⟩ ∧ c'.Calls ⟨2⟩ ⟨0⟩ ∧ ¬ printingBody.Calls ⟨2⟩ ⟨0⟩ := by
  constructor
  · obtain ⟨_, c', h, hcheck⟩ := exists_ok_of_check (substitute {} ⟨2⟩) printingBody
      (fun replaced c' => decide (replaced = true ∧ (c'.arena.expr ⟨2⟩).kind = .call ⟨0⟩ [⟨3⟩] ∧
        (c'.arena.definitionType ⟨0⟩).isPure = false)) (by decide +kernel)
    obtain ⟨rfl, hk, heffect⟩ := of_decide_eq_true hcheck
    exact ⟨c', h, ⟨_, hk⟩, heffect⟩
  · obtain ⟨c', h, hcheck⟩ := exists_of_check {} printingBody
      (fun c' => decide (⟨0⟩ ∈ c'.arena.roots ∧ (c'.arena.stmt ⟨0⟩).kind = .bind ⟨9⟩ ∧
        (c'.arena.definition ⟨9⟩).body = .expression ⟨1⟩ ∧
        (c'.arena.expr ⟨1⟩).kind = .call ⟨0⟩ [⟨0⟩] ∧ ⟨1⟩ ∈ c'.arena.roots ∧
        (c'.arena.stmt ⟨1⟩).kind = .expression ⟨2⟩ ∧
        (c'.arena.expr ⟨2⟩).kind = .call ⟨0⟩ [⟨3⟩])) (by decide +kernel)
    obtain ⟨hroot, hstmt, hbody, hk, hroot', hstmt', hk'⟩ := of_decide_eq_true hcheck
    refine ⟨c', h, .root hroot (.bind hstmt hbody), ⟨_, hk⟩, .root hroot' (.expression hstmt'),
      ⟨_, hk'⟩, ?_⟩
    rintro ⟨args, hcall⟩
    cases hcall

end Termwise
