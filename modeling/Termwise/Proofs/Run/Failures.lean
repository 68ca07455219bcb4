import Mathlib.Data.Finset.Card
import Mathlib.Data.Finset.Image
import Mathlib.Tactic.FinCases
import Termwise.Proofs.Run.Custody
import Termwise.Proofs.Run.Reading

/-!
# Failures of resolution

A run that fails becomes a failed term, and that is reported once: where it failed first. The
runs around it fail in turn and hand on that there was an error, without a word about it. So a
step of resolution that succeeds is calm, a step that fails for a reason of its own has reported
nothing yet, and a term that failed before makes its run fail without a new report. Which of these
it was is told by the error that a run stops with: it is the run's own, or it names the place of
the term that failed, and the terms before that one were read.

Runs that are nested without a cycle are nested no deeper than the table is large, which is why
resolution never stops for its depth there.

## Main definitions

* `Compilation.Calm`: what a successful step of resolution does
* `Compilation.FailsBy`: how a run fails, and which error is recorded for that
* `Compilation.NestsWithin`: runs nest no deeper than a number of levels
* `Watch`: what is kept track of while a run is resolved, whether it succeeds or not

## Main results

* `Watch.goes_resolveTerms`: resolving a list of terms keeps a watch
* `resolveTerms_calm`: a list of terms is resolved calmly, or stops at one of them
* `resolve_reports_once`: a run is resolved, or its failure is reported exactly once
-/

namespace Termwise

open Compilation

/-! ## Places -/

/-- What is in the table stays at its place, with its declared type. -/
structure Compilation.Placed (c c' : Compilation) : Prop where
  size : c.arena.exprs.size ≤ c'.arena.exprs.size
  span : ∀ n : ExprId, n.index < c.arena.exprs.size → (c'.arena.expr n).span = (c.arena.expr n).span
  declared : ∀ n : ExprId, n.index < c.arena.exprs.size →
    (c'.arena.expr n).declared = (c.arena.expr n).declared

/-- **A step of resolution that succeeds**: runs are resolved, terms and all, and nothing fails or
is reported. -/
structure Compilation.Calm (c c' : Compilation) : Prop extends Placed c c', Extends c c' where
  diagnostics : c'.diagnostics = c.diagnostics
  isValid : c'.isValid = c.isValid
  failed : ∀ n, (c'.arena.expr n).kind = .syntaxError → (c.arena.expr n).kind = .syntaxError
  run : ∀ (n : ExprId) (ts : List ExprId), (c'.arena.expr n).kind = .run ts →
    (c.arena.expr n).kind = .run ts
  resolved : ∀ (n : ExprId) (ts : List ExprId), (c.arena.expr n).kind = .run ts →
    (c'.arena.expr n).kind = .run ts ∨ ∀ t ∈ ts, c'.Settled t

namespace Compilation

variable {c c' c'' : Compilation} {id t n : ExprId} {e : Expression}

theorem Placed.refl (c : Compilation) : c.Placed c := ⟨le_rfl, fun _ _ => rfl, fun _ _ => rfl⟩

theorem Placed.trans (h : c.Placed c') (h' : c'.Placed c'') : c.Placed c'' where
  size := h.size.trans h'.size
  span n hn := (h'.span n (hn.trans_le h.size)).trans (h.span n hn)
  declared n hn := (h'.declared n (hn.trans_le h.size)).trans (h.declared n hn)

theorem placed_modifyExpr {f : Expression → Expression}
    (hspan : (f (c.arena.expr id)).span = (c.arena.expr id).span)
    (hdeclared : (f (c.arena.expr id)).declared = (c.arena.expr id).declared) :
    c.Placed (c.modifyArena (·.modifyExpr id f)) := by
  refine ⟨by simp [modifyArena], fun n _ => ?_, fun n _ => ?_⟩ <;>
    simp only [modifyArena, Arena.expr_modifyExpr] <;> split <;> rename_i hn
  · rw [hn.1, hspan]
  · rfl
  · rw [hn.1, hdeclared]
  · rfl

theorem Calm.refl (c : Compilation) : c.Calm c :=
  { Placed.refl c, (Steady.refl c).extends with
    diagnostics := rfl, isValid := rfl, failed := fun _ => id, run := fun _ _ => id
    resolved := fun _ _ => .inl }

theorem Calm.trans (h : c.Calm c') (h' : c'.Calm c'') : c.Calm c'' :=
  { h.toPlaced.trans h'.toPlaced, h.toExtends.trans h'.toExtends with
    diagnostics := h'.diagnostics.trans h.diagnostics
    isValid := h'.isValid.trans h.isValid
    failed := fun n hn => h.failed n (h'.failed n hn)
    run := fun n ts hn => h.run n ts (h'.run n ts hn)
    resolved := fun n ts hn => by
      rcases h.resolved n ts hn with hn' | hsettled
      · exact h'.resolved n ts hn'
      · exact .inr fun t ht => h'.toExtends.settled (hsettled t ht) }

/-- A steady step that adds no failed term is calm. -/
theorem Steady.calm (h : c.Steady c') (hplaced : c.Placed c')
    (hnew : ∀ n : ExprId, c.arena.exprs.size ≤ n.index → (c'.arena.expr n).kind ≠ .syntaxError) :
    c.Calm c' :=
  { hplaced, h.extends with
    diagnostics := h.diagnostics
    isValid := h.isValid
    run := h.run
    failed := fun n hn => by
      have hlt : n.index < c.arena.exprs.size := Nat.lt_of_not_le fun hle => hnew n hle hn
      cases hv : (c.arena.expr n).kind.isValue with
      | false => rwa [← h.kind n hlt hv]
      | true => simpa [hn, ExprKind.isValue] using h.value n hv
    resolved := fun n ts hn => by
      have hlt : n.index < c.arena.exprs.size := Arena.lt_size_of_kind_ne (by simp [hn])
      exact .inl ((h.kind n hlt (by simp [hn, ExprKind.isValue])).trans hn) }

/-! ## Steps -/

theorem calm_modifyExpr {f : Expression → Expression}
    (hkind : (f (c.arena.expr id)).kind = (c.arena.expr id).kind ∨
      (c.arena.expr id).kind.isValue = true ∧ (f (c.arena.expr id)).kind.isValue = true)
    (hspan : (f (c.arena.expr id)).span = (c.arena.expr id).span)
    (hdeclared : (f (c.arena.expr id)).declared = (c.arena.expr id).declared) :
    c.Calm (c.modifyArena (·.modifyExpr id f)) := by
  refine (steady_modifyExpr hkind).calm (placed_modifyExpr hspan hdeclared) fun n hn => ?_
  rw [Arena.expr_of_size_le (by simpa [modifyArena] using hn)]
  intro hdeleted
  cases hdeleted

theorem calm_allocExpr (c : Compilation) (hrun : ∀ ts, e.kind ≠ .run ts)
    (hfailed : e.kind ≠ .syntaxError) : c.Calm (c.allocExpr e).2 := by
  refine (steady_allocExpr c hrun).calm ⟨by simp [allocExpr], ?_, ?_⟩ fun n hn => ?_
  · exact fun n hn => by simp [allocExpr, Arena.expr_allocExpr, hn.ne]
  · exact fun n hn => by simp [allocExpr, Arena.expr_allocExpr, hn.ne]
  · simp only [allocExpr, Arena.expr_allocExpr]
    split
    · exact hfailed
    · rw [Arena.expr_of_size_le hn]
      intro hdeleted
      cases hdeleted

theorem calm_emit (c : Compilation) (event : Event) : c.Calm (c.emit event) :=
  (steady_emit c event).calm ⟨le_rfl, fun _ _ => rfl, fun _ _ => rfl⟩ fun n hn => by
    rw [show (c.emit event).arena = c.arena from rfl, Arena.expr_of_size_le hn]
    exact nofun

theorem calm_types (c : Compilation) (types : TypeStore) : c.Calm { c with types } :=
  (steady_types c types).calm ⟨le_rfl, fun _ _ => rfl, fun _ _ => rfl⟩ fun n hn => by
    rw [show ({ c with types } : Compilation).arena = c.arena from rfl, Arena.expr_of_size_le hn]
    exact nofun

/-- A run whose terms are settled is resolved calmly. -/
theorem Calm.replaced {ts : List ExprId} (h : c.Calm c')
    (hk : (c'.arena.expr n).kind = .run ts) (hsettled : ∀ t ∈ ts, c'.Settled t)
    (he : e.kind.isSettled = true) :
    c.Calm (c'.modifyArena (·.modifyExpr n (·.replaceBy e))) := by
  have hext : c'.Extends (c'.modifyArena (·.modifyExpr n (·.replaceBy e))) :=
    extends_modifyExpr_run hk
  refine h.trans { placed_modifyExpr rfl rfl, hext with
    diagnostics := rfl, isValid := rfl, failed := fun m hm => ?_, run := fun m us hm => ?_,
    resolved := fun m us hm => ?_ }
  · simp only [modifyArena, Arena.expr_modifyExpr] at hm
    split at hm
    · simp [show e.kind = .syntaxError from hm, ExprKind.isSettled] at he
    · exact hm
  · simp only [modifyArena, Arena.expr_modifyExpr] at hm
    split at hm
    · simp [show e.kind = .run us from hm, ExprKind.isSettled] at he
    · exact hm
  · by_cases hmn : m = n
    · subst hmn
      cases hk.symm.trans hm
      exact .inr fun t ht => hext.settled (hsettled t ht)
    · exact .inl (by simpa only [modifyArena, Arena.expr_modifyExpr_of_ne hmn] using hm)

/-- A step stops with an error of its own, which was not reported. -/
def Mishap (c : Compilation) (stop : Stop) (c' : Compilation) : Prop :=
  ∃ e, stop = .error e ∧ e.isAlreadyReported = false ∧ c.Calm c'

end Compilation

/-! ## Calls -/

variable {c c' : Compilation} {id : ExprId} {d : DefId} {args : List ExprId}

/-- What is done for a call is calm. -/
theorem callLaw_calm (args : List ExprId) : CallLaw args Calm where
  refl := Calm.refl
  trans := Calm.trans
  coerced _ h :=
    have hplace := Expression.coerce_place h
    calm_modifyExpr (Expression.coerce_kind h) hplace.1 hplace.2
  issued c _ _ _ := calm_types c _

theorem createCall_calm (d : DefId) (args : List ExprId) (span : Span) :
    Outcome (createCall d args span) c (fun e c' => c.Calm c' ∧ e.kind = .call d args)
      c.Mishap := by
  refine ((callLaw_calm args).outcome_createCall d span c).mono (fun _ _ h => ⟨h.1, h.2.1⟩) ?_
  rintro _ c' ⟨⟨e, rfl, hrefused⟩, hcalm⟩
  exact ⟨e, rfl, by simpa [CompileError.isAlreadyReported] using hrefused.ne_containsError, hcalm⟩

/-- **Building a call** is calm, or fails for a reason of its own. -/
theorem allocCall_calm (d : DefId) (args : List ExprId) (span : Span) :
    Outcome (allocCall d args span) c (fun _ => c.Calm) c.Mishap := by
  simp only [allocCall, outcome_bind, outcome_allocExpr]
  refine (createCall_calm d args span).imp ?_
  rintro e c' ⟨hcalm, hk⟩
  exact hcalm.trans (calm_allocExpr c' (by simp [hk]) (by simp [hk]))

/-! ## Watches -/

/-- **What is kept track of while a run is resolved.** A watch says what a step may do that
succeeds, and how a step may stop; it owes a clause for each way in which the resolver changes a
compilation. -/
structure Watch (resolveRun : ExprId → CheckM Unit) (terms : List ExprId) where
  Rel : Compilation → Compilation → Prop
  Stops : Compilation → Stop → Compilation → Prop
  refl (c : Compilation) : Rel c c
  trans {c c' c'' : Compilation} : Rel c c' → Rel c' c'' → Rel c c''
  later {c c' c'' : Compilation} {stop : Stop} : Rel c c' → Stops c' stop c'' → Stops c stop c''
  /-- A term is refused where it stands. -/
  refuse (c : Compilation) {cause : Cause} (span : Span) : cause ≠ .containsError →
    Stops c (.error ⟨cause, span⟩) c
  call (c : Compilation) (d : DefId) (args : List ExprId) (span : Span) :
    Outcome (allocCall d args span) c (fun _ => Rel c) (Stops c)
  missing (c : Compilation) (span : Span) :
    Outcome (Arrangement.allocMissing span) c (fun _ => Rel c) (Stops c)
  classify (c : Compilation) {t : ExprId} : t ∈ terms →
    Outcome (classify resolveRun t) c (fun _ => Rel c) (Stops c)

namespace Watch

variable {resolveRun : ExprId → CheckM Unit} {terms : List ExprId} (W : Watch resolveRun terms)
  {α β : Type}

/-- An action keeps a watch. -/
def Goes (action : CheckM α) : Prop :=
  ∀ c, Outcome action c (fun _ => W.Rel c) (W.Stops c)

variable {W}

theorem Goes.bind {first : CheckM β} {rest : β → CheckM α} (h : W.Goes first)
    (hrest : ∀ b, W.Goes (rest b)) : W.Goes (first >>= rest) := by
  intro c
  rw [outcome_bind]
  refine (h c).imp fun b c₁ h₁ => ?_
  exact (hrest b c₁).mono (fun _ _ => W.trans h₁) fun _ _ => W.later h₁

theorem goes_pure (a : α) : W.Goes (pure a) := W.refl

theorem goes_get : W.Goes get := W.refl

theorem goes_arena : W.Goes CheckM.arena := W.refl

theorem goes_expr (id : ExprId) : W.Goes (CheckM.expr id) := W.refl

theorem goes_allocCall (d : DefId) (args : List ExprId) (span : Span) :
    W.Goes (allocCall d args span) := fun c => W.call c d args span

/-! ### Resolving terms -/

theorem goes_normalizeOperand (id : ExprId) : W.Goes (Arrangement.normalizeOperand id) := by
  unfold Arrangement.normalizeOperand
  refine (goes_expr id).bind fun e => ?_
  split
  · exact goes_get.bind fun _ => goes_allocCall _ _ _
  · exact goes_pure id

theorem goes_applyCollected (callee : ExprId) (args : List ExprId) :
    W.Goes (Arrangement.applyCollected callee args) := by
  unfold Arrangement.applyCollected
  split
  · exact goes_pure callee
  · refine goes_arena.bind fun a => ?_
    dsimp only
    split
    · exact goes_allocCall _ _ _
    · exact goes_allocCall _ _ _
    · exact goes_pure callee

/-- **A watch as a custody** that lets everything be taken and built. -/
def custody (W : Watch resolveRun terms) (span : Span) : Custody resolveRun terms span where
  Valid _ := True
  Later := W.Rel
  Stops := W.Stops
  Takes _ _ := True
  Opens _ _ := True
  Holds _ _ := True
  Yields _ _ := True
  refl := W.refl
  trans := W.trans
  later := W.later
  refuse := W.refuse
  valid _ _ := trivial
  takes _ _ := trivial
  opens _ _ := trivial
  holds _ _ := trivial
  closes _ := trivial
  classify _ ht := (W.classify _ ht).imp fun _ _ h => ⟨h, trivial⟩
  sign _ _ := trivial
  minus _ _ _ := trivial
  operand _ _ := (goes_normalizeOperand _ _).imp fun _ _ h => ⟨h, trivial⟩
  apply _ _ _ := (goes_applyCollected _ _ _).imp fun _ _ h => ⟨h, trivial⟩
  lead _ _ _ := (W.call ..).imp fun _ _ h => ⟨h, trivial⟩
  trail _ _ _ := (W.call ..).imp fun _ _ h => ⟨h, trivial⟩
  missing _ _ := (W.missing ..).imp fun _ _ h => ⟨h, trivial⟩
  combine _ _ _ _ := (W.call ..).imp fun _ _ h => ⟨h, trivial⟩
  empty _ := trivial
  only _ _ := trivial
  negated _ _ := trivial
  whole _ _ := trivial

theorem stocks (W : Watch resolveRun terms) (span : Span) (c : Compilation) (s : Arrangement) :
    (W.custody span).Stocks c s where
  operands _ _ := trivial
  operators _ _ := trivial
  leading _ _ := trivial
  phase _ _ _ _ := ⟨trivial, fun _ _ => trivial⟩

theorem goes_pushOperand (s : Arrangement) (callee : ExprId) (args : List ExprId) :
    W.Goes (s.pushOperand callee args) := fun c =>
  (Custody.keeps_pushOperand trivial (W.stocks .origin c s) trivial fun _ _ => trivial).imp
    fun _ _ h => h.1

theorem goes_placeOperandDue (s : Arrangement) (span : Span) (term : Term) :
    W.Goes (s.placeOperandDue span term) := fun c =>
  (Custody.keeps_placeOperandDue span trivial (W.stocks span c s) trivial).imp fun _ _ h => h.1

theorem goes_placeOperatorDue (s : Arrangement) (span : Span) (term : Term) :
    W.Goes (s.placeOperatorDue span term) := fun c =>
  (Custody.keeps_placeOperatorDue span trivial (W.stocks span c s) trivial).imp fun _ _ h => h.1

theorem goes_finish (s : Arrangement) (span : Span) : W.Goes (s.finish span) := fun c =>
  (Custody.keeps_finish span trivial (W.stocks span c s)).imp fun _ _ h => h.1

/-- Reading one term keeps a watch. -/
theorem goes_advance (span : Span) (s : Arrangement) {t : ExprId} (ht : t ∈ terms) :
    W.Goes (Arrangement.advance resolveRun span s t) := fun c =>
  (Custody.keeps_advance span trivial (W.stocks span c s) ht).imp fun _ _ h => h.1

/-- **Resolving a list of terms** keeps a watch. -/
theorem goes_resolveTerms (W : Watch resolveRun terms) (span : Span) :
    W.Goes (resolveTerms resolveRun terms span) := fun _ =>
  ((W.custody span).keeps_resolveTerms trivial).imp fun _ _ h => h.1

end Watch

/-! ## Nesting -/

namespace Compilation

variable {c c' c'' : Compilation} {n t id : ExprId} {depth : Nat}

/-- Runs nest no deeper than a number of levels. -/
def NestsWithin (c : Compilation) : (depth : Nat) → ExprId → Prop
  | 0, n => ∀ ts, (c.arena.expr n).kind ≠ .run ts
  | depth + 1, n => ∀ t, c.TermOf t n → c.NestsWithin depth t

theorem NestsWithin.mono (h : c.NestsWithin depth n) {depth' : Nat} (hle : depth ≤ depth') :
    c.NestsWithin depth' n := by
  induction depth' generalizing depth n with
  | zero => rwa [Nat.le_zero.1 hle] at h
  | succ depth' ih =>
    cases depth with
    | zero => exact fun t ⟨ts, hk, _⟩ => (h ts hk).elim
    | succ depth => exact fun t ht => ih (h t ht) (Nat.le_of_succ_le_succ hle)

theorem Calm.termOf (h : c.Calm c') (ht : c'.TermOf t n) : c.TermOf t n := by
  obtain ⟨ts, hk, hmem⟩ := ht
  exact ⟨ts, h.run n ts hk, hmem⟩

/-- Resolution makes no nesting deeper. -/
theorem Calm.nestsWithin (h : c.Calm c') (hn : c.NestsWithin depth n) :
    c'.NestsWithin depth n := by
  induction depth generalizing n with
  | zero => exact fun ts hk => hn ts (h.run n ts hk)
  | succ depth ih => exact fun t ht => ih (hn t (h.termOf ht))

/-- Runs nest no deeper than those at and below a run are many. -/
theorem nestsWithin_card (hacc : Acc c.TermOf n) (S : Finset ExprId)
    (hS : ∀ m, Relation.ReflTransGen c.TermOf m n → m.index < c.arena.exprs.size → m ∈ S) :
    c.NestsWithin S.card n := by
  induction hacc generalizing S with
  | intro n hacc ih =>
    by_cases hrun : ∃ ts, (c.arena.expr n).kind = .run ts
    · obtain ⟨ts, hk⟩ := hrun
      have hn := hS n .refl (Arena.lt_size_of_kind_ne (by simp [hk]))
      rw [← Finset.card_erase_add_one hn]
      refine fun t ht => ih t ht (S.erase n) fun m hm hlt => Finset.mem_erase.2 ⟨?_, ?_⟩
      -- A run that nests itself would not be accessible.
      · rintro rfl
        exact not_transGen_termOf ⟨m, hacc⟩ (.tail' hm ht)
      · exact hS m (hm.tail ht) hlt
    · exact (show c.NestsWithin 0 n from fun ts hk => hrun ⟨ts, hk⟩).mono (Nat.zero_le _)

/-- **Without cycles**, runs nest no deeper than the table is large. -/
theorem nestsWithin_size (hacc : Acc c.TermOf n) : c.NestsWithin c.arena.exprs.size n := by
  classical
  let S := (Finset.range c.arena.exprs.size).image ExprId.mk
  have hcard : S.card ≤ c.arena.exprs.size := Finset.card_image_le.trans_eq (Finset.card_range _)
  refine (nestsWithin_card hacc S fun m _ hm => ?_).mono hcard
  exact Finset.mem_image.2 ⟨m.index, Finset.mem_range.2 hm, rfl⟩

/-! ## Failures -/

/-- The first terms of a run are read, which leads to another compilation. -/
def ReadsTo (c : Compilation) (terms : List ExprId) (span : Span) (c' : Compilation) : Prop :=
  ∃ depth s, terms.foldlM (Arrangement.advance (resolveWithin depth) span) Arrangement.start c =
    .ok s c'

/-- **How a run fails**: the error that it stops with, and the error that is recorded for that, if
one is. An error of the run's own is recorded. Otherwise the error names the place of a term, in
front of which all were read; that term had failed, and nothing is recorded, or it is a run that
fails in turn. -/
inductive FailsBy : Compilation → ExprId → CompileError → Option CompileError → Prop where
  | own {c : Compilation} {id : ExprId} {terms : List ExprId} {e : CompileError}
    (hk : (c.arena.expr id).kind = .run terms) (hnew : e.isAlreadyReported = false) :
    FailsBy c id e (some e)
  | failed {c c₁ : Compilation} {id t : ExprId} {before after : List ExprId}
    (hk : (c.arena.expr id).kind = .run (before ++ t :: after))
    (hread : c.ReadsTo before (c.arena.expr id).span c₁)
    (ht : (c₁.arena.expr t).kind = .syntaxError) :
    FailsBy c id ⟨.containsError, (c₁.arena.expr t).span⟩ none
  | nested {c c₁ : Compilation} {id t : ExprId} {before after : List ExprId} {e : CompileError}
    {origin : Option CompileError} (hk : (c.arena.expr id).kind = .run (before ++ t :: after))
    (hread : c.ReadsTo before (c.arena.expr id).span c₁) (ht : FailsBy c₁ t e origin) :
    FailsBy c id ⟨.containsError, (c₁.arena.expr t).span⟩ origin

/-- What is recorded for a failure is added to the diagnostics, and nothing else. -/
def RecordsOnly (c : Compilation) (origin : Option CompileError) (c' : Compilation) : Prop :=
  c'.diagnostics = c.diagnostics ++ origin.toList.map (Diagnostic.mk .error)

/-- **A term makes its run fail**, since it failed before or fails now. -/
structure TermFails (c : Compilation) (t : ExprId) (e : CompileError)
    (origin : Option CompileError) (c' : Compilation) : Prop extends Placed c c' where
  error : e = ⟨.containsError, (c.arena.expr t).span⟩
  records : c.RecordsOnly origin c'
  cause : (c.arena.expr t).kind = .syntaxError ∧ origin = none ∨ ∃ e', c.FailsBy t e' origin

/-- A term that can be classified does not make its run fail. -/
theorem TermFails.not_settled {e : CompileError} {origin : Option CompileError}
    (h : c.TermFails t e origin c') : ¬ c.Settled t := by
  rw [Settled]
  rcases h.cause with ⟨hk, -⟩ | ⟨e', hfails⟩
  · simp [hk, ExprKind.isSettled]
  · cases hfails with
    | own hk | failed hk | nested hk => simp [hk, ExprKind.isSettled]

/-- How reading a term stops: the term nests too deeply, a step fails for a reason of its own, or
the term makes its run fail. -/
def StopsAt (c : Compilation) (depth : Nat) (t : ExprId) (stop : Stop) (c' : Compilation) : Prop :=
  match stop with
  | .cyclic => c.Calm c' ∧ ¬ c.NestsWithin depth t
  | .error e => c.Mishap (.error e) c' ∨ ∃ origin, c.TermFails t e origin c'

/-- How reading a list of terms stops: at one of them, or for a reason of its own. -/
def StopsAmong (c : Compilation) (depth : Nat) (terms : List ExprId) (span : Span) (stop : Stop)
    (c' : Compilation) : Prop :=
  match stop with
  | .cyclic => c.Calm c' ∧ ¬ ∀ t ∈ terms, c.NestsWithin depth t
  | .error e => c.Mishap (.error e) c' ∨ ∃ before t after c₁ origin,
      terms = before ++ t :: after ∧ c.ReadsTo before span c₁ ∧ c.Calm c₁ ∧
        c₁.TermFails t e origin c'

variable {terms before after : List ExprId} {span : Span} {stop : Stop}

theorem Mishap.later (h : c.Calm c') (h' : c'.Mishap stop c'') : c.Mishap stop c'' := by
  obtain ⟨e, rfl, hnew, hcalm⟩ := h'
  exact ⟨e, rfl, hnew, h.trans hcalm⟩

theorem Mishap.stopsAt (h : c.Mishap stop c') : c.StopsAt depth t stop c' := by
  obtain ⟨e, rfl, hnew, hcalm⟩ := h
  exact .inl ⟨e, rfl, hnew, hcalm⟩

theorem Mishap.stopsAmong (h : c.Mishap stop c') : c.StopsAmong depth terms span stop c' := by
  obtain ⟨e, rfl, hnew, hcalm⟩ := h
  exact .inl ⟨e, rfl, hnew, hcalm⟩

/-- What stops at a term stops among the terms around it, if those before it were read. -/
theorem StopsAt.among (h : c'.StopsAt depth t stop c'') (before : List ExprId)
    (hread : c.ReadsTo before span c') (hcalm : c.Calm c') :
    c.StopsAmong depth (before ++ t :: after) span stop c'' := by
  cases stop with
  | cyclic =>
    exact ⟨hcalm.trans h.1, fun hn => h.2 (hcalm.nestsWithin (hn t (by simp)))⟩
  | error e =>
    rcases h with hmishap | ⟨origin, hfails⟩
    · exact .inl (Mishap.later hcalm hmishap)
    · exact .inr ⟨before, t, after, c', origin, rfl, hread, hcalm, hfails⟩

/-- Terms that can be classified as they are make no run fail. -/
theorem StopsAmong.of_settled (hcalm : c.Calm c') (hsettled : ∀ t ∈ terms, c'.Settled t)
    (h : c'.StopsAmong depth terms span stop c'') : c.StopsAmong depth terms span stop c'' := by
  cases stop with
  | cyclic =>
    exact ⟨hcalm.trans h.1, fun hn => h.2 fun t ht => hcalm.nestsWithin (hn t ht)⟩
  | error e =>
    rcases h with hmishap | ⟨before, t, after, c₁, origin, rfl, -, hcalm₁, hfails⟩
    · exact .inl (Mishap.later hcalm hmishap)
    · exact (hfails.not_settled (hcalm₁.toExtends.settled (hsettled t (by simp)))).elim

/-- **A run failed.** Its place and its declared type are what is left of it. -/
structure Failed (c : Compilation) (id : ExprId) (error : CompileError) (c' : Compilation) : Prop
    extends Placed c c' where
  node : c'.arena.expr id = { c.arena.expr id with kind := .syntaxError, ty := .absurd }
  isValid : c'.isValid = false
  recorded : ∃ origin, c.FailsBy id error origin ∧ c.RecordsOnly origin c'

/-- How the resolution of a run stops. -/
def ResolutionStops (c : Compilation) (depth : Nat) (id : ExprId) (stop : Stop)
    (c' : Compilation) : Prop :=
  match stop with
  | .cyclic => c.Calm c' ∧ ¬ c.NestsWithin depth id
  | .error e => c.Failed id e c'

end Compilation

variable {depth : Nat}

/-- Resolving a run is calm, or fails and reports that. -/
def Reports (depth : Nat) (resolveRun : ExprId → CheckM Unit) : Prop :=
  ∀ (c : Compilation) (id : ExprId) (ts : List ExprId), (c.arena.expr id).kind = .run ts →
    Outcome (resolveRun id) c (fun _ c' => c.Calm c' ∧ c'.Settled id) (c.ResolutionStops depth id)

theorem calm_refreshed (c : Compilation) (id : ExprId) : c.Calm (c.refreshed id) := by
  unfold refreshed
  split
  · exact calm_modifyExpr (.inl rfl) rfl rfl
  · exact calm_modifyExpr (.inl rfl) rfl rfl
  · exact Calm.refl c

/-- A settled term is classified calmly, whatever it is. -/
theorem classifyResolved_settled {t : ExprId} (hsettled : c.Settled t) (span : Span) :
    Outcome (classifyResolved t span) c (fun _ c' => c.Calm c' ∧ c'.Settled t) fun _ _ => False := by
  have hrun : ∀ ts, (c.arena.expr t).kind ≠ .run ts := fun ts hk => by
    simp [Settled, hk, ExprKind.isSettled] at hsettled
  refine (classifyResolved_outcome span hrun).mono ?_ fun _ _ h => h.2 hsettled
  rintro term _ ⟨rfl, -, -⟩
  exact ⟨calm_refreshed c t, (calm_refreshed c t).toExtends.settled hsettled⟩

/-- A settled term is no run, so no run is resolved for it. -/
theorem classify_settled {resolveRun : ExprId → CheckM Unit} {t : ExprId}
    (hsettled : c.Settled t) :
    Outcome (classify resolveRun t) c (fun _ c' => c.Calm c' ∧ c'.Settled t) fun _ _ => False := by
  simp only [classify, outcome_bind, outcome_expr]
  split
  · rename_i ts hk
    simp [Settled, hk, ExprKind.isSettled] at hsettled
  · exact classifyResolved_settled hsettled _

/-- **A term is classified** calmly. A run that fails is a failed term from then on. -/
theorem classify_calm {resolveRun : ExprId → CheckM Unit} (hres : Reports depth resolveRun)
    (t : ExprId) :
    Outcome (classify resolveRun t) c (fun _ c' => c.Calm c' ∧ c'.Settled t)
      (c.StopsAt depth t) := by
  by_cases hsettled : c.Settled t
  · exact (classify_settled hsettled).mono (fun _ _ h => h) fun _ _ => False.elim
  simp only [classify, outcome_bind, outcome_expr]
  split
  · rename_i ts hk
    simp only [outcome_bind, outcome_attempt]
    refine (hres c t ts hk).mono ?_ ?_
    · rintro _ c₁ ⟨hcalm, hset⟩
      refine (classifyResolved_settled hset _).mono ?_ fun _ _ => False.elim
      exact fun _ _ h => ⟨hcalm.trans h.1, h.2⟩
    · rintro (e | _) c₁ h
      · obtain ⟨origin, hfails, hrecords⟩ := Failed.recorded h
        exact .inr ⟨origin, h.toPlaced, rfl, hrecords, .inr ⟨e, hfails⟩⟩
      · exact h
  -- What is neither settled nor a run is refused where it stands.
  · rename_i hrun
    have hcalm := calm_refreshed c t
    simp only [classifyResolved, outcome_bind, outcome_refreshReference, outcome_expr,
      kind_refreshed]
    split <;> rename_i hk
    · refine .inr ⟨none, hcalm.toPlaced, rfl, ?_, .inl ⟨hk, rfl⟩⟩
      exact hcalm.diagnostics.trans (List.append_nil _).symm
    · exact .inl ⟨_, rfl, rfl, hcalm⟩
    · exact .inl ⟨_, rfl, rfl, hcalm⟩
    · simp [Settled, hk, ExprKind.isSettled] at hsettled
    · simp [Settled, hk, ExprKind.isSettled] at hsettled
    · rw [Settled] at hsettled
      cases hkind : (c.arena.expr t).kind <;> simp_all [ExprKind.isSettled]

/-- What is done for terms that were classified is calm, or fails for a reason of its own. -/
def mishaps (resolveRun : ExprId → CheckM Unit) : Watch resolveRun [] where
  Rel := Calm
  Stops := Mishap
  refl := Calm.refl
  trans := Calm.trans
  later := Mishap.later
  refuse c cause span hcause :=
    ⟨_, rfl, by simpa [CompileError.isAlreadyReported] using hcause, Calm.refl c⟩
  call _ d args span := allocCall_calm d args span
  missing c _ := calm_allocExpr c nofun nofun
  classify _ _ ht := (List.not_mem_nil ht).elim

/-- **Reading one term** is calm, or stops at it. -/
theorem advance_calm {resolveRun : ExprId → CheckM Unit} (hres : Reports depth resolveRun)
    (span : Span) (s : Arrangement) (t : ExprId) :
    Outcome (Arrangement.advance resolveRun span s t) c (fun _ c' => c.Calm c' ∧ c'.Settled t)
      (c.StopsAt depth t) := by
  rw [Arrangement.advance, outcome_bind]
  refine (classify_calm hres t).imp fun term c₁ h₁ => ?_
  have hrest {c₂ : Compilation} {action : CheckM Arrangement} (h : c.Calm c₂ ∧ c₂.Settled t)
      (hgoes : (mishaps resolveRun).Goes action) :
      Outcome action c₂ (fun _ c' => c.Calm c' ∧ c'.Settled t) (c.StopsAt depth t) :=
    (hgoes c₂).mono
      (fun _ c₃ (h' : c₂.Calm c₃) => ⟨h.1.trans h', h'.toExtends.settled h.2⟩)
      fun _ c₃ (h' : c₂.Mishap _ c₃) => (Mishap.later h.1 h').stopsAt
  split
  · exact hrest h₁ (Watch.goes_placeOperandDue s span _)
  · exact hrest h₁ (Watch.goes_placeOperatorDue s span _)
  · refine hrest h₁ ((Watch.goes_normalizeOperand _).bind fun arg => ?_)
    dsimp only
    split
    · exact Watch.goes_pushOperand s _ _
    · exact Watch.goes_pure _
  -- The term is settled by now, so reading it again does not stop.
  · rw [outcome_bind]
    refine (hrest h₁ (Watch.goes_pushOperand s _ _)).imp fun s₂ c₂ h₂ => ?_
    rw [outcome_bind]
    refine (classify_settled h₂.2).mono (fun term c₃ h₃ => ?_) fun _ _ => False.elim
    exact hrest ⟨h₂.1.trans h₃.1, h₃.2⟩ (Watch.goes_placeOperatorDue s₂ span term)

/-- Reading the terms of a run in turn is calm, or stops at the first that makes it fail. -/
theorem foldlM_advance_calm (hres : Reports depth (resolveWithin depth)) {span : Span}
    (before : List ExprId) {s : Arrangement} {c₁ : Compilation}
    (hread : before.foldlM (Arrangement.advance (resolveWithin depth) span) .start c = .ok s c₁)
    (hcalm : c.Calm c₁) (terms : List ExprId) :
    Outcome (terms.foldlM (Arrangement.advance (resolveWithin depth) span) s) c₁
      (fun _ c' => c.Calm c') (c.StopsAmong depth (before ++ terms) span) := by
  -- On the terms ahead: each one read moves over to those behind.
  induction terms generalizing before s c₁ with
  | nil => exact hcalm
  | cons t terms ih =>
    rw [List.foldlM_cons, outcome_bind]
    refine ((advance_calm hres span s t).and outcome_self).mono ?_ ?_
    · rintro s₂ c₂ ⟨⟨hcalm₂, -⟩, hok⟩
      have hread₂ : (before ++ [t]).foldlM (Arrangement.advance (resolveWithin depth) span)
          .start c = .ok s₂ c₂ := by
        simp only [List.foldlM_append, bind, EStateM.bind, hread, List.foldlM_cons, hok]
        rfl
      simpa using ih (before ++ [t]) hread₂ (hcalm.trans hcalm₂)
    · rintro stop c₂ ⟨hstop, -⟩
      exact hstop.among before ⟨depth, s, hread⟩ hcalm

/-- **A run is arranged** calmly, or stops at one of its terms. -/
theorem arrange_calm (hres : Reports depth (resolveWithin depth)) (terms : List ExprId)
    (span : Span) :
    Outcome (arrange (resolveWithin depth) terms span) c (fun _ => c.Calm)
      (c.StopsAmong depth terms span) := by
  rw [arrange, outcome_bind]
  refine (foldlM_advance_calm hres [] rfl (Calm.refl c) terms).imp fun s c₁ h₁ => ?_
  have hfinish : (mishaps (resolveWithin depth)).Goes (s.finish span) := Watch.goes_finish s span
  exact (hfinish c₁).mono (fun _ c₂ (h : c₁.Calm c₂) => h₁.trans h)
    fun _ c₂ (h : c₁.Mishap _ c₂) => (Mishap.later h₁ h).stopsAmong

/-- A minus sign at the start of a run is read, and nothing changes. -/
theorem readsTo_minusSign {first : ExprId} (hk : (c.arena.expr first).kind = .minusSign)
    (span : Span) : c.ReadsTo [first] span c := by
  have hrefresh : c.refreshed first = c := refreshed_eq_self (by simp [hk]) (by simp [hk])
  have hread : Outcome ([first].foldlM (Arrangement.advance (resolveWithin 0) span)
      Arrangement.start) c (fun _ c' => c' = c) fun _ _ => False := by
    simp only [List.foldlM_cons, List.foldlM_nil, Arrangement.advance, Arrangement.start, classify,
      classifyResolved, outcome_bind, outcome_expr, outcome_refreshReference, hk, hrefresh,
      outcome_pure, Arrangement.placeOperandDue, outcome_get]
  obtain ⟨s, _, hs, rfl⟩ := hread.exists_ok
  exact ⟨0, s, hs⟩

/-- **A list of terms is resolved** calmly, or stops at one of them. -/
theorem resolveTerms_calm (hres : Reports depth (resolveWithin depth)) (terms : List ExprId)
    (span : Span) :
    Outcome (resolveTerms (resolveWithin depth) terms span) c (fun _ => c.Calm)
      (c.StopsAmong depth terms span) := by
  unfold resolveTerms
  split
  · exact Calm.refl c
  · rename_i only
    rw [outcome_bind]
    refine (classify_calm hres only).mono ?_ fun _ _ h =>
      h.among [] ⟨0, _, rfl⟩ (Calm.refl c)
    rintro term c₁ ⟨hcalm, -⟩
    split
    · exact .inl ⟨_, rfl, rfl, hcalm⟩
    · exact hcalm
  · rename_i first second
    simp only [outcome_bind, outcome_expr]
    split
    -- The second term is classified before the run is arranged, and is settled from then on.
    · rename_i hminus
      rw [outcome_bind]
      refine (classify_calm hres second).mono ?_ fun _ _ h =>
        h.among [first] (readsTo_minusSign hminus span) (Calm.refl c)
      rintro term c₁ ⟨hcalm, hsettled⟩
      have hfirst : c₁.Settled first :=
        hcalm.toExtends.settled (by simp [Settled, hminus, ExprKind.isSettled])
      have hall : ∀ t ∈ [first, second], c₁.Settled t := by simp [hfirst, hsettled]
      have harrange := (arrange_calm hres [first, second] span (c := c₁)).mono
        (fun _ _ => hcalm.trans) fun _ _ => StopsAmong.of_settled hcalm hall
      simp only [outcome_bind, outcome_arena]
      split
      · split
        · exact hcalm
        · exact harrange
      · exact harrange
    · exact arrange_calm hres _ span
  · exact arrange_calm hres _ span

/-! ## Runs -/

/-- **What a list of terms comes to**: a single term to itself, and several to a call or to a minus
sign with its operand. -/
inductive Becomes (c : Compilation) : (terms : List ExprId) → (e : Expression) → Prop where
  | empty {e : Expression} (hk : e.kind = .empty) : Becomes c [] e
  | single {t : ExprId} (ht : (c.arena.expr t).kind ≠ .minusSign) : Becomes c [t] (c.arena.expr t)
  | call {terms args : List ExprId} {e : Expression} {d : DefId} (hlength : 2 ≤ terms.length)
    (hk : e.kind = .call d args) : Becomes c terms e
  | negated {terms : List ExprId} {e : Expression} {x : ExprId} (hlength : 2 ≤ terms.length)
    (hk : e.kind = .negated x) : Becomes c terms e

theorem Becomes.isSettled {terms : List ExprId} {e : Expression} (h : Becomes c terms e)
    (hsettled : ∀ t ∈ terms, c.Settled t) : e.kind.isSettled = true := by
  cases h with
  | empty hk | call _ hk | negated _ hk => simp [hk, ExprKind.isSettled]
  | single => exact hsettled _ (List.mem_singleton_self _)

/-- Terms never come to a minus sign: a lone one is refused. -/
theorem Becomes.ne_minusSign {terms : List ExprId} {e : Expression} (h : Becomes c terms e) :
    e.kind ≠ .minusSign := by
  cases h with
  | empty hk | call _ hk | negated _ hk => simp [hk]
  | single ht => exact ht

/-- What reads as more than one term is a call, or a minus sign with its operand. -/
theorem Reads.becomes {Built : ExprId → Prop} {terms read : List ExprId} {n : ExprId}
    {e : Expression} (h : Reads c Built terms n read) (hlength : 2 ≤ read.length)
    (hk : e.kind = (c.arena.expr n).kind) : Becomes c' read e := by
  cases h with
  | term | missing => simp at hlength
  | binary _ hn | leading _ hn | trailing _ hn | juxtaposed _ hn =>
    exact .call hlength (hk.trans hn)
  | negated _ hn => exact .negated hlength (hk.trans hn)

/-- **Terms that are accepted** are settled, and so is what they come to. -/
theorem resolveTerms_becomes {resolveRun : ExprId → CheckM Unit} (hres : ResolvesRuns resolveRun)
    (terms : List ExprId) (span : Span) :
    Outcome (resolveTerms resolveRun terms span) c
      (fun e c' => c.Unfolds c' terms ∧ (∀ t ∈ terms, c'.Settled t) ∧ Becomes c' terms e)
      fun _ _ => True := by
  have hbuilt : ∀ n : ExprId, 0 ≤ n.index → (fun _ => True) n := fun _ _ => trivial
  have haccepted := resolveTerms_accepted hres hbuilt terms span (Nat.zero_le c.arena.exprs.size)
  have hfew : terms.length < 2 → Outcome (resolveTerms resolveRun terms span) c
      (fun e c' => Becomes c' terms e) fun _ _ => True := by
    intro hlength
    match terms with
    | [] => exact .empty rfl
    | [only] =>
      simp only [resolveTerms, outcome_bind]
      refine (classify_unfolds hres c (List.mem_singleton_self only)).imp ?_
      rintro term c₁ ⟨-, -, hterm⟩
      split
      · trivial
      · exact .single (hterm.ne_minusSign ‹_›)
  by_cases hlength : terms.length < 2
  · exact (haccepted.and (hfew hlength)).mono
      (fun _ _ h => ⟨h.1.unfolds, h.1.settled, h.2⟩) fun _ _ _ => trivial
  · refine haccepted.imp fun e c' h => ⟨h.unfolds, h.settled, ?_⟩
    -- A node that becomes the result reads as the terms.
    have hlast := h.reads (by omega) (c'.allocExpr e).2 (c'.allocExpr e).1
      (steady_allocExpr c' h.kind).extends trivial
      (congrArg Expression.kind (Arena.expr_allocExpr_self ..))
    exact hlast.becomes (by omega) (congrArg Expression.kind (Arena.expr_allocExpr_self ..)).symm

/-- What a list of terms comes to is settled, and so are the terms. -/
theorem resolveTerms_settled {resolveRun : ExprId → CheckM Unit} (hres : ResolvesRuns resolveRun)
    (terms : List ExprId) (span : Span) :
    Outcome (resolveTerms resolveRun terms span) c
      (fun e c' => c.Unfolds c' terms ∧ (∀ t ∈ terms, c'.Settled t) ∧ e.kind.isSettled = true)
      fun _ _ => True := by
  refine (resolveTerms_becomes hres terms span).imp ?_
  rintro e c' ⟨hunfolds, hsettled, he⟩
  exact ⟨hunfolds, hsettled, he.isSettled hsettled⟩

/-- **An accepted run** has become what its terms come to, and they are settled. -/
theorem resolveNode_becomes {resolveRun : ExprId → CheckM Unit} (hres : ResolvesRuns resolveRun)
    {id : ExprId} {terms : List ExprId} (hk : (c.arena.expr id).kind = .run terms) :
    Outcome (resolveNode resolveRun id) c
      (fun _ c' => (∀ t ∈ terms, c'.Settled t) ∧
        ∃ e, Becomes c' terms e ∧ (c'.arena.expr id).kind = e.kind) fun _ _ => True := by
  simp only [resolveNode, outcome_bind, outcome_expr, hk, outcome_attempt]
  refine (resolveTerms_becomes hres terms (c.arena.expr id).span).mono ?_ ?_
  · rintro e c₁ ⟨hunfolds, hsettled, he⟩
    simp only [outcome_modifyExpr, outcome_emit]
    have hrun := hunfolds.run_self hk
    have hlt : id.index < c₁.arena.exprs.size := Arena.lt_size_of_kind_ne (by simp [hrun])
    -- The run is none of its terms, since they are settled.
    have hterm (t : ExprId) (ht : t ∈ terms) :
        (c₁.arena.modifyExpr id (·.replaceBy e)).expr t = c₁.arena.expr t := by
      refine Arena.expr_modifyExpr_of_ne (fun heq => ?_) _
      have hset := hsettled t ht
      simp [Settled, heq, hrun, ExprKind.isSettled] at hset
    have hself : ((c₁.arena.modifyExpr id (·.replaceBy e)).expr id).kind = e.kind := by
      rw [Arena.expr_modifyExpr_self hlt]
      rfl
    refine ⟨fun t ht => ?_, ?_⟩
    · show ((c₁.arena.modifyExpr id (·.replaceBy e)).expr t).kind.isSettled = true
      rw [hterm t ht]
      exact hsettled t ht
    · cases he with
      | empty he => exact ⟨e, .empty he, hself⟩
      | call hlength he => exact ⟨e, .call hlength he, hself⟩
      | negated hlength he => exact ⟨e, .negated hlength he, hself⟩
      | @single t hminus =>
        have ht := hterm t (List.mem_singleton_self t)
        exact ⟨_, .single (ht.symm ▸ hminus), hself.trans (congrArg Expression.kind ht).symm⟩
  · rintro (error | _) c₁ -
    · exact outcome_trivial.mono (fun _ _ _ => trivial) fun _ _ _ => trivial
    · trivial

/-- **A run that stopped is marked as failed**, which is reported unless a term failed. -/
theorem markFailed_failed {id : ExprId} {ts : List ExprId} {error : CompileError}
    {c₁ : Compilation} (hk : (c.arena.expr id).kind = .run ts)
    (hstop : c.StopsAmong depth ts (c.arena.expr id).span (.error error) c₁) :
    Outcome (markFailed id error) c₁ (fun _ => c.Failed id error) fun _ _ => False := by
  have hlt : id.index < c.arena.exprs.size := Arena.lt_size_of_kind_ne (by simp [hk])
  have hplaced : c.Placed c₁ := by
    rcases hstop with ⟨_, _, _, hcalm⟩ | ⟨_, _, _, _, _, _, _, hcalm, hfails⟩
    · exact hcalm.toPlaced
    · exact hcalm.toPlaced.trans hfails.toPlaced
  -- Of the run itself only its place and its declared type are left.
  let f : Expression → Expression := fun e => { e with kind := .syntaxError, ty := .absurd }
  have hnode : (c₁.arena.modifyExpr id f).expr id = f (c.arena.expr id) := by
    rw [Arena.expr_modifyExpr_self (hlt.trans_le hplaced.size)]
    simp only [f, hplaced.span id hlt, hplaced.declared id hlt]
  have hplaced' : c.Placed (c₁.modifyArena (·.modifyExpr id f)) :=
    hplaced.trans (placed_modifyExpr rfl rfl)
  simp only [markFailed, outcome_bind, outcome_modifyExpr, outcome_modify]
  rcases hstop with ⟨_, ⟨⟩, hnew, hcalm⟩ | ⟨before, t, after, c₂, origin, rfl, hread, hcalm, hfails⟩
  · simp only [Compilation.reportNew, hnew, Bool.false_eq_true, if_false]
    refine ⟨⟨hplaced'.size, hplaced'.span, hplaced'.declared⟩, hnode, rfl, _, .own hk hnew, ?_⟩
    exact congrArg (· ++ _) hcalm.diagnostics
  · obtain rfl := hfails.error
    have hrecords : c.RecordsOnly origin c₁ := by
      rw [RecordsOnly, hfails.records, hcalm.diagnostics]
    have hby : c.FailsBy id ⟨.containsError, (c₂.arena.expr t).span⟩ origin := by
      rcases hfails.cause with ⟨ht, rfl⟩ | ⟨e, ht⟩
      · exact .failed hk hread ht
      · exact .nested hk hread ht
    exact ⟨⟨hplaced'.size, hplaced'.span, hplaced'.declared⟩, hnode, rfl, origin, hby, hrecords⟩

/-- **A run is resolved, or it fails and reports that**, if the runs among its terms do. -/
theorem resolveNode_reports (hreports : Reports depth (resolveWithin depth)) :
    Reports (depth + 1) (resolveNode (resolveWithin depth)) := by
  intro c id ts hk
  have hterms := (resolveTerms_calm (c := c) hreports ts (c.arena.expr id).span).and
    (resolveTerms_settled (resolveWithin_outcome depth) ts (c.arena.expr id).span)
  simp only [resolveNode, outcome_bind, outcome_expr, hk, outcome_attempt]
  refine hterms.mono ?_ ?_
  · rintro e c₁ ⟨hcalm, hunfolds, hsettled, he⟩
    simp only [outcome_modifyExpr, outcome_emit]
    have hrun := hunfolds.run_self hk
    refine ⟨(Calm.replaced hcalm hrun hsettled he).trans (calm_emit _ _), ?_⟩
    have hlt : id.index < c₁.arena.exprs.size := Arena.lt_size_of_kind_ne (by simp [hrun])
    simp only [Settled, emit, modifyArena, Arena.expr_modifyExpr_self hlt]
    exact he
  · rintro (error | _) c₁ ⟨hstop, -⟩
    · simp only [outcome_throw]
      exact (markFailed_failed hk hstop).mono (fun _ _ h => h) fun _ _ => False.elim
    · exact ⟨hstop.1, fun hn => hstop.2 fun t ht => hn t ⟨ts, hk, ht⟩⟩

theorem resolveWithin_reports (depth : Nat) : Reports depth (resolveWithin depth) := by
  induction depth with
  | zero => exact fun c id ts hk => ⟨Calm.refl c, fun hn => hn ts hk⟩
  | succ depth ih => exact resolveNode_reports ih

/-- What is settled after a run was resolved: the run, and all that lies below it. -/
theorem Compilation.Calm.settled_below {n id : ExprId} (h : c.Calm c') (hid : c'.Settled id)
    (hn : Relation.ReflTransGen c.TermOf n id) : c'.Settled n := by
  induction hn using Relation.ReflTransGen.head_induction_on with
  | refl => exact hid
  | @head n m hterm _ ih =>
    obtain ⟨ts, hk, hmem⟩ := hterm
    rcases h.resolved m ts hk with hrun | hsettled
    · simp [Settled, hrun, ExprKind.isSettled] at ih
    · exact hsettled n hmem

/-- Reading terms without a failure is calm. -/
theorem Compilation.ReadsTo.calm {terms : List ExprId} {span : Span}
    (h : c.ReadsTo terms span c') : c.Calm c' := by
  obtain ⟨depth, s, hok⟩ := h
  exact (foldlM_advance_calm (resolveWithin_reports depth) [] rfl (Calm.refl c)
    terms).of_ok hok

/-- Where nothing is recorded, a term at or below the run had failed before. -/
theorem Compilation.FailsBy.exists_failed {id : ExprId} {error : CompileError}
    {origin : Option CompileError} (h : c.FailsBy id error origin) (hnone : origin = none) :
    ∃ n, Relation.ReflTransGen c.TermOf n id ∧ (c.arena.expr n).kind = .syntaxError := by
  induction h with
  | own => cases hnone
  | failed hk hread ht =>
    exact ⟨_, .single ⟨_, hk, by simp⟩, hread.calm.failed _ ht⟩
  | nested hk hread _ ih =>
    obtain ⟨n, hbelow, hn⟩ := ih hnone
    have hbelow := Relation.ReflTransGen.mono (fun _ _ => hread.calm.termOf) _ _ hbelow
    exact ⟨n, hbelow.tail ⟨_, hk, by simp⟩, hread.calm.failed n hn⟩

/-- **A run that nests without a cycle** is resolved calmly, or fails. -/
theorem resolve_calm {id : ExprId} {ts : List ExprId} (hk : (c.arena.expr id).kind = .run ts)
    (hacc : Acc c.TermOf id) :
    Outcome (resolve id) c (fun _ c' => c.Calm c' ∧ c'.Settled id)
      fun stop c' => ∃ error, stop = .error error ∧ c.Failed id error c' := by
  have hnests : c.NestsWithin (c.arena.exprs.size + 1) id :=
    (nestsWithin_size hacc).mono (Nat.le_succ _)
  simp only [resolve, outcome_bind, outcome_arena]
  refine (resolveWithin_reports _ c id ts hk).mono (fun _ _ h => h) ?_
  rintro (error | _) c' hstop
  · exact ⟨error, rfl, hstop⟩
  · exact (hstop.2 hnests).elim

/-- **The failure of a run is reported exactly once.** A run that is resolved reports nothing, and
then every run below it was resolved, too: no failure is passed over. A run that fails is a failed
term at the same place and makes the program invalid. If it fails for a reason of its own, just
this error is recorded. Otherwise the error names a term that makes the run fail, the terms before
it having been read: just the error that is recorded for that term is, or none if a term at or
below it had failed before. -/
theorem resolve_reports_once {id : ExprId} {ts : List ExprId}
    (hk : (c.arena.expr id).kind = .run ts) (hacc : Acc c.TermOf id) :
    Outcome (resolve id) c
      (fun _ c' => c'.diagnostics = c.diagnostics ∧ c'.isValid = c.isValid ∧
        ∀ n, Relation.ReflTransGen c.TermOf n id → c'.Settled n)
      fun stop c' => ∃ error origin, stop = .error error ∧ c.FailsBy id error origin ∧
        c'.arena.expr id = { c.arena.expr id with kind := .syntaxError, ty := .absurd } ∧
        c'.isValid = false ∧
        c'.diagnostics = c.diagnostics ++ origin.toList.map (Diagnostic.mk .error) ∧
        (origin = none → ∃ n, Relation.ReflTransGen c.TermOf n id ∧
          (c.arena.expr n).kind = .syntaxError) := by
  refine (resolve_calm hk hacc).mono ?_ ?_
  · rintro _ c' ⟨hcalm, hid⟩
    exact ⟨hcalm.diagnostics, hcalm.isValid, fun n hn => hcalm.settled_below hid hn⟩
  · rintro stop c' ⟨error, rfl, hfailed⟩
    obtain ⟨origin, hfails, hrecords⟩ := hfailed.recorded
    exact ⟨error, origin, rfl, hfails, hfailed.node, hfailed.isValid, hrecords,
      hfails.exists_failed⟩

/-- The run `3 + (1 2)`: the group lacks an operator. -/
def failingGroup : Compilation :=
  { Compilation.new with
    arena :=
      { Builtins.arena with
        exprs := #[.new (.value (.int 1)) .int .origin, .new (.value (.int 2)) .int .origin,
          .new (.run [⟨0⟩, ⟨1⟩]) .hole .origin, .new (.value (.int 3)) .int .origin,
          .new (.operator ⟨1⟩) .hole .origin, .new (.run [⟨3⟩, ⟨4⟩, ⟨2⟩]) .hole .origin] } }

theorem acc_failingGroup : Acc failingGroup.TermOf ⟨5⟩ := by
  have hlast {n : ExprId} {ids : List ExprId} (hk : (failingGroup.arena.expr n).kind = .run ids)
      (hids : ∀ m ∈ ids, Acc failingGroup.TermOf m) : Acc failingGroup.TermOf n := by
    constructor
    rintro m ⟨ts, hts, hm⟩
    cases hk.symm.trans hts
    exact hids m hm
  refine hlast rfl fun m hm => ?_
  fin_cases hm
  · exact acc_of_settled rfl
  · exact acc_of_settled rfl
  · refine hlast rfl fun m hm => ?_
    fin_cases hm <;> exact acc_of_settled rfl

/-- The group fails and is reported, and the run around it fails without a second report. -/
theorem resolve_failingGroup :
    ∃ error c', resolve ⟨5⟩ failingGroup = .error (.error error) c' ∧
      (c'.arena.expr ⟨5⟩).kind = .syntaxError ∧ c'.isValid = false ∧
      ∃ e, failingGroup.FailsBy ⟨5⟩ error (some e) ∧ c'.diagnostics = [⟨.error, e⟩] := by
  obtain ⟨c', hc'⟩ : ∃ c', resolve ⟨5⟩ failingGroup = .error (.error ⟨.containsError, .origin⟩) c' :=
    exists_error_of_eq (by decide +kernel)
  have hreports := @resolve_reports_once failingGroup ⟨5⟩ _ rfl acc_failingGroup
  rw [Outcome, hc'] at hreports
  obtain ⟨_, origin, ⟨⟩, hfails, hnode, hvalid, hd, hnone⟩ := hreports
  refine ⟨_, c', hc', by rw [hnode], hvalid, ?_⟩
  cases origin with
  | some e => exact ⟨e, hfails, hd⟩
  | none =>
    obtain ⟨n, -, hn⟩ := hnone rfl
    have hlt : n.index < failingGroup.arena.exprs.size := Arena.lt_size_of_kind_ne (by simp [hn])
    have hkind : ∀ i < failingGroup.arena.exprs.size,
        (failingGroup.arena.expr ⟨i⟩).kind ≠ .syntaxError := by decide
    exact (hkind n.index hlt hn).elim

end Termwise
