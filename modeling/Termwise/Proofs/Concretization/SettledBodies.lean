import Termwise.Proofs.Concretization.TreeSteps

/-!
# Bodies that can be walked again

Trees are walked one after the other, and a body where it is met first, by a walk that was begun
elsewhere. If each single tree can be walked again after that, or fails as before, so can the trees
together, and so can a body: whether it is an expression, whose failure is noted where it is met, or
a statement, which is walked past the failures in it.

## Main definitions

* `Prospect.Succeeds`, `Prospect.Fails`: what a first walk of trees comes to
* `Prospect.Advances`: a way to walk one expression for the first time
* `Prospect.DefSucceeds`, `Prospect.DefFails`: what dealing with a definition comes to
* `Prospect.Reruns`: statements that can be walked again

## Main results

* `visitEach_advances`: trees one after the other
* `visitDefinition_advances`: definitions
* `visitStatementWithin_advances`: statements
-/

namespace Termwise

open Compilation

variable {P : Prospect} {settings : Settings} {k k' : Nat} {c c' c₁ c₂ : Compilation}
  {F F' F₁ G : List DefId} {id : ExprId} {d : DefId} {ids ids' : List ExprId} {s : StmtId}
  {ss : List StmtId} {next : Visitor} {child : ExprId → WalkM Unit} {active : List DefId}
  {w w' w₁ : Walk} {again first rest : WalkM Unit} {depth : Nat}

namespace Prospect

/-! ## Trees -/

/-- **Trees were walked**: they have native types and can be walked again. -/
structure Succeeds (P : Prospect) (settings : Settings) (k : Nat) (ids : List ExprId)
    (w w' : Walk) : Prop where
  passes : P.Passes k ids w w'
  native : ∀ n ∈ ids, (w'.unit.arena.expr n).ty.native = .yes
  settled : P.Steadfast w'.unit k → P.Settled settings k w.finished w'.finished w'.unit ids

/-- **Trees could not be walked**, and cannot be walked later. -/
structure Fails (P : Prospect) (settings : Settings) (k : Nat) (ids : List ExprId)
    (w w' : Walk) : Prop where
  passes : P.Passes k ids w w'
  barred : P.Steadfast w'.unit k → P.Barred settings k w.finished w'.finished w'.unit ids

/-- **A way to walk an expression.** One that cannot stand in for a use is left alone. -/
def Advances (P : Prospect) (settings : Settings) (k : Nat) (id : ExprId) (visit : WalkM Unit) :
    Prop :=
  ∀ w, P.Ready k [id] w → Outcome visit w
    (fun _ w' => (w.unit.arena.expr id).kind.isSubstitutable = true ∧
      P.Succeeds settings k [id] w w')
    fun stop w' => stop = .cyclic ∨ ((w.unit.arena.expr id).kind.isSubstitutable = false →
      w'.unit.arena.expr id = w.unit.arena.expr id) ∧ P.Fails settings k [id] w w'

/-- **Trees one after the other.** -/
theorem visitEach_advances (hchild : ∀ id, P.Advances settings k id (child id))
    (ids : List ExprId) (hw : P.Ready k ids w) :
    Outcome (visitEach child ids) w (fun _ w' => P.Succeeds settings k ids w w')
      fun stop w' => stop = .cyclic ∨ P.Fails settings k ids w w' := by
  induction ids generalizing w with
  | nil => exact ⟨.refl hw, by simp, fun _ => .nil P settings k w.finished w.unit⟩
  | cons id ids ih =>
    simp only [visitEach, outcome_bind]
    refine (hchild id w (Ready.first (show P.Ready k ([id] ++ ids) w from hw))).mono ?_ ?_
    · rintro - w₁ ⟨-, h₁⟩
      have hw₁ := (h₁.passes.rest hw).2.2
      refine (ih hw₁).mono (fun _ w₂ h₂ => ?_) fun _ w₂ h₂ => h₂.imp_right fun h₂ => ?_
      all_goals
        obtain ⟨hkept, hpasses⟩ := h₁.passes.append h₂.passes hw
        have hlasts := h₁.passes.lasts h₂.passes hw
        have hstart (hs : P.Steadfast w₂.unit k) := h₁.settled (h₂.passes.steadfast hw₁ hs)
      · refine ⟨hpasses, List.forall_mem_cons.2 ⟨?_, h₂.native⟩, fun hs =>
          (hstart hs).cons (h₂.settled hs) (hlasts hs) hpasses.ready.lot⟩
        rw [hkept id (w₁.unit.mem_trees_self (List.mem_singleton_self id))]
        exact h₁.native id (List.mem_singleton_self id)
      · exact ⟨hpasses, fun hs => .tail (hstart hs) (h₂.barred hs) (hlasts hs)⟩
    · rintro stop w₁ (hstop | ⟨-, h₁⟩)
      · exact .inl hstop
      · have hw₁ := (h₁.passes.rest hw).2.2
        exact .inr ⟨(h₁.passes.append (.refl hw₁) hw).2, fun hs => (h₁.barred hs).head⟩

/-! ## Definitions -/

/-- **What dealing with a definition does**: it is finished if it has an expression for a body, and
a body that cannot stand in for a use is left alone. -/
structure Dealt (P : Prospect) (k : Nat) (d : DefId) (w w' : Walk) : Prop where
  passes : P.Passes k [] w w'
  finished : ∀ b, (w.unit.arena.definition d).body = .expression b → d ∈ w'.finished
  unfit : ∀ b, (w.unit.arena.definition d).body = .expression b →
    (w.unit.arena.expr b).kind.isSubstitutable = false →
    (w'.unit.arena.expr b).kind.isSubstitutable = false

/-- A definition was dealt with, and can be dealt with again. -/
structure DefSucceeds (P : Prospect) (settings : Settings) (k : Nat) (d : DefId) (w w' : Walk) :
    Prop extends Dealt P k d w w' where
  recurs : P.Steadfast w'.unit k → P.DefRecurs settings k w.finished w'.finished w'.unit d

/-- A definition failed, and fails when it is dealt with again. -/
structure DefFails (P : Prospect) (settings : Settings) (k : Nat) (d : DefId) (w w' : Walk) :
    Prop extends Dealt P k d w w' where
  refails : P.Steadfast w'.unit k → P.DefRefails settings k w.finished w'.finished w'.unit d

/-- What is finished is not walked. -/
theorem outcome_visitDefinition_finished {ended : Unit → Walk → Prop} {stopped : Stop → Walk → Prop}
    (hd : d ∈ w.finished) : Outcome (visitDefinition next active d) w ended stopped ↔ ended () w := by
  simp only [visitDefinition, outcome_bind, outcome_lift, outcome_definition]
  cases (w.unit.arena.definition d).body <;> simp [hd]

/-- What needs no walk is dealt with at once, whenever it is. -/
theorem DefRecurs.idle (h : d ∈ F ∨ (c.arena.definition d).body = .builtin ∨
    (c.arena.definition d).body = .undefined) : P.DefRecurs settings k F F c d := by
  intro next active _ c₂ hr _ G hG
  have hidle : (Outcome (visitDefinition next active d) ⟨c₂, G⟩
      (fun _ w => c.Revisited c₂ w.unit [] ∧ Resumed F F G w.finished) fun stop _ => stop = .cyclic) ↔
        c.Revisited c₂ c₂ [] ∧ Resumed F F G G := by
    rcases h with hd | hd | hd
    · refine outcome_visitDefinition_finished (hG.elim (fun h => (h d).2 hd) fun h => h hd)
    · exact outcome_visitDefinition_builtin (by rwa [hr.definition])
    · simp only [visitDefinition, outcome_bind, outcome_lift, outcome_definition, hr.definition, hd,
        outcome_pure]
  exact hidle.2 ⟨(Alters.refl ∅ c₂).revisited c [], .refl F G⟩

/-- **A body that was walked** is walked again if and only if it is not finished. -/
theorem DefRecurs.of_body (hnew : d ∉ F) (hfinished : d ∈ F')
    (h : ∀ next active, P.Enters settings k next active → ∀ c₂, P.Recalls k F F' c c₂ → ∀ G,
      d ∉ G → (∀ e, e ∈ G ↔ e ∈ F) → Outcome (visitDefinition next active d) ⟨c₂, G⟩
        (fun _ w => Restores F' c₂ w) fun stop _ => stop = .cyclic) :
    P.DefRecurs settings k F F' c d := by
  intro next active henters c₂ hr _ G hG
  by_cases hd : d ∈ G
  · rw [outcome_visitDefinition_finished hd]
    exact ⟨(Alters.refl ∅ c₂).revisited c [], fun hstart => absurd ((hstart d).1 hd) hnew,
      fun _ => rfl⟩
  · have hstart := hG.resolve_right fun hsub => hd (hsub hfinished)
    refine (h next active henters c₂ hr G hd hstart).imp fun _ w hw => ?_
    exact ⟨hw.1.revisited c [], fun _ => hw.2, fun hsub => absurd (hsub hfinished) hd⟩

/-- Nothing changed since, apart from the tables of a walk. -/
theorem DefRecurs.later (h : P.DefRecurs settings k F F' c₁ d) (hr : P.Recalls k F F' c₁ c) :
    P.DefRecurs settings k F F' c d := by
  intro next active henters c₂ hr₂ _ G hG
  refine (h next active henters c₂ (hr.trans hr₂ (List.Subset.refl F')) nofun G hG).imp ?_
  rintro _ w ⟨hrevisited, hresumed⟩
  refine ⟨Alters.revisited (hrevisited.still fun n hn => ?_) c [], hresumed⟩
  simp [trees_nil] at hn

/-! ## Higher ranks -/

theorem Recalls.lower (h : P.Recalls k F F' c c') (hle : k' ≤ k)
    (hrank : ∀ d ∈ F', d ∉ F → P.rank d < k') : P.Recalls k' F F' c c' :=
  ⟨h.toSameProgram, h.size, hrank, h.bodies, fun d hd hr => h.heads d hd (hr.trans_le hle),
    h.steadfast.mono hle⟩

theorem Enters.lower (h : P.Enters settings k next active) (hle : k' ≤ k) :
    P.Enters settings k' next active :=
  ⟨h.next, fun d hd => hle.trans (h.active d hd)⟩

theorem Settled.raise (h : P.Settled settings k' F F' c ids) (hle : k' ≤ k)
    (hrank : ∀ d ∈ F', d ∉ F → P.rank d < k') : P.Settled settings k F F' c ids :=
  fun visit hvisit c₂ hr => h visit (fun id => (hvisit id).mono hle) c₂ (hr.lower hle hrank)

theorem Barred.raise (h : P.Barred settings k' F F' c ids) (hle : k' ≤ k)
    (hrank : ∀ d ∈ F', d ∉ F → P.rank d < k') : P.Barred settings k F F' c ids :=
  fun visit hvisit c₂ hr => h visit (fun id => (hvisit id).mono hle) c₂ (hr.lower hle hrank)

/-- What was walked among lower ranks. -/
theorem Succeeds.raise (h : P.Succeeds settings k' ids w w') (hw : P.Ready k ids w) (hle : k' ≤ k) :
    P.Succeeds settings k ids w w' :=
  ⟨h.passes.mono hw hle, h.native, fun hs => (h.settled (hs.mono hle)).raise hle h.passes.rank⟩

theorem Fails.raise (h : P.Fails settings k' ids w w') (hw : P.Ready k ids w) (hle : k' ≤ k) :
    P.Fails settings k ids w w' :=
  ⟨h.passes.mono hw hle, fun hs => (h.barred (hs.mono hle)).raise hle h.passes.rank⟩

/-! ## Walks of bodies -/

/-- **An action repeats a part of a walk** of trees that did not change since. -/
def Reruns (P : Prospect) (k : Nat) (F F' : List DefId) (c : Compilation) (ids : List ExprId)
    (again : WalkM Unit) : Prop :=
  ∀ c₂, P.Recalls k F F' c c₂ → (∀ n ∈ c.trees ids, c₂.arena.expr n = c.arena.expr n) →
    ∀ G, (∀ d, d ∈ G ↔ d ∈ F) →
    Outcome again ⟨c₂, G⟩ (fun _ w => Restores F' c₂ w) fun stop _ => stop = .cyclic

/-- **Statements were walked** that consist of some trees, and can be walked again. -/
structure StmtsSucceed (P : Prospect) (settings : Settings) (k : Nat) (ids : List ExprId)
    (again : Visitor → List DefId → WalkM Unit) (w w' : Walk) : Prop where
  passes : P.Passes k ids w w'
  reruns : P.Steadfast w'.unit k → ∀ next active, P.Enters settings k next active →
    P.Reruns k w.finished w'.finished w'.unit ids (again next active)

/-- **A visitor** whose walks can be repeated. -/
structure Leads (P : Prospect) (settings : Settings) (next : Visitor) : Prop where
  expr : ∀ k active, (∀ d ∈ active, k ≤ P.rank d) → ∀ id,
    P.Advances settings k id (next.expr active id)
  statement : ∀ k active, (∀ d ∈ active, k ≤ P.rank d) → ∀ s w,
    P.Ready k (w.unit.arena.stated (w.unit.arena.stmts.size + 1) s) w →
    (∀ d ∈ w.unit.arena.bound (w.unit.arena.stmts.size + 1) s, P.rank d < k) →
    Outcome (next.statement active s) w (fun _ w' =>
      P.StmtsSucceed settings k (w.unit.arena.stated (w.unit.arena.stmts.size + 1) s)
        (fun next active => next.statement active s) w w') fun stop _ => stop = .cyclic

theorem Steadfast.of_still (hs : P.Steadfast c' k) (h : c.Alters ∅ c') : P.Steadfast c k := by
  intro d hd ty hty
  rw [← hs d hd ty hty]
  exact (h.toSameProgram.definitionType fun _ b _ => h.expr b (Set.notMem_empty b)).symm

theorem alters_reportNew (c : Compilation) (e : CompileError) : c.Alters ∅ (c.reportNew e) :=
  alters_of_arena_eq (arena_reportNew c e) (sameProgram_reportNew c e).builtins

/-- The walk of a body in its own place, with success or not. -/
theorem Enters.walker (henters : P.Enters settings k next active) (hd : P.rank d < k) :
    P.Walker settings (P.rank d) fun id => next.expr (d :: active) id := by
  obtain ⟨rounds, rfl⟩ := henters.next
  exact .whole (List.forall_mem_cons.2 ⟨le_rfl, fun e he => hd.le.trans (henters.active e he)⟩)
    rounds

theorem outcome_visitDefinition_statement {ended : Unit → Walk → Prop}
    {stopped : Stop → Walk → Prop} (hbody : (w.unit.arena.definition d).body = .statement s)
    (hnew : d ∉ w.finished) : Outcome (visitDefinition next active d) w ended stopped ↔
      Outcome (next.statement active s) ⟨w.unit, d :: w.finished⟩ ended stopped := by
  simp [visitDefinition, hbody, hnew]

/-- A body is walked, and then its definition is finished and its error reported. -/
theorem outcome_visitDefinition_expression {b : ExprId} {ended : Unit → Walk → Prop}
    {stopped : Stop → Walk → Prop} (hbody : (w.unit.arena.definition d).body = .expression b)
    (hnew : d ∉ w.finished) (hnot : d ∉ active) :
    Outcome (visitDefinition next active d) w ended stopped ↔
      Outcome (next.expr (d :: active) b) w (fun _ w' => ended () ⟨w'.unit, d :: w'.finished⟩)
        fun stop w' => match stop with
          | .error e => stopped (.error ⟨.containsError, e.span⟩)
              ⟨w'.unit.reportNew e, d :: w'.finished⟩
          | .cyclic => stopped .cyclic w' := by
  simp only [visitDefinition, outcome_bind, outcome_lift, outcome_definition, hbody, outcome_get]
  rw [if_neg (by simp [hnew, hnot])]
  simp only [outcome_bind, outcome_walk_attempt, outcome_finish]
  refine ⟨fun h => h.mono (fun _ _ h => h) ?_, fun h => h.mono (fun _ _ h => h) ?_⟩ <;>
    rintro (e | _) w' h <;> exact h

/-- **A statement that is a body**, which is finished before it is walked. -/
theorem visitDefinition_statement (hnext : P.Leads settings next)
    (hactive : ∀ e ∈ active, k ≤ P.rank e) (hw : P.Ready k [] w) (hd : P.rank d < k)
    (hnew : d ∉ w.finished) (hbody : (w.unit.arena.definition d).body = .statement s) :
    Outcome (visitDefinition next active d) w (fun _ w' => P.DefSucceeds settings k d w w')
      fun stop _ => stop = .cyclic := by
  have hroots : w.unit.arena.bodyRoots d = w.unit.arena.stated (w.unit.arena.stmts.size + 1) s := by
    simp only [Arena.bodyRoots, hbody]
  have hbound : w.unit.arena.bodyBound d = w.unit.arena.bound (w.unit.arena.stmts.size + 1) s := by
    simp only [Arena.bodyBound, hbody]
  have hfinished : w.finished ⊆ d :: w.finished := List.subset_cons_self d w.finished
  have hready := hw.ofBody hd hfinished
  rw [hroots] at hready
  rw [outcome_visitDefinition_statement hbody hnew]
  refine (hnext.statement (P.rank d) active (fun e he => hd.le.trans (hactive e he)) s
    ⟨w.unit, d :: w.finished⟩ hready
    fun e he => hw.estate.bound d hd e (hbound ▸ he)).imp fun _ w₁ h => ?_
  have hpasses := h.passes
  rw [← hroots] at hpasses
  have hmem : d ∈ w₁.finished := hpasses.finished List.mem_cons_self
  have hsame : w.unit.SameProgram w₁.unit := hpasses.toBranches.toSameProgram
  have hpasses' : P.Passes k [] w ⟨w₁.unit, w₁.finished⟩ := by
    refine hw.body hd hnew hfinished
      (fun e he => List.mem_cons.1 he) hpasses fun e => ⟨.inr, ?_⟩
    rintro (rfl | he)
    · exact hmem
    · exact he
  refine ⟨⟨hpasses', fun _ _ => hmem, fun b hb => ?_⟩, fun hs => .of_body hnew hmem ?_⟩
  · cases hbody.symm.trans hb
  · intro next' active' henters c₂ hr G hG hstart
    rw [outcome_visitDefinition_statement (by rw [hr.definition, hsame.definition, hbody]) hG]
    refine h.reruns (hs.mono hd.le) next' active' (henters.lower hd.le) c₂
      ((hr.part hfinished (List.Subset.refl _)).lower hd.le hpasses.rank) (fun n hn => ?_) _
      fun e => by simp [hstart]
    refine hr.bodies d hmem hnew n ?_
    rwa [hsame.bodyRoots, hroots]

section ExpressionBody

variable {b : ExprId} (hw : P.Ready k [] w) (hd : P.rank d < k) (hnew : d ∉ w.finished)
  (hbody : (w.unit.arena.definition d).body = .expression b)

include hw hd hnew hbody

theorem Passes.ofExpression (h : P.Passes (P.rank d) [b] w w₁) :
    P.Passes k [] w ⟨w₁.unit, d :: w₁.finished⟩ := by
  have hroots : w.unit.arena.bodyRoots d = [b] := by simp only [Arena.bodyRoots, hbody]
  rw [← hroots] at h
  exact hw.body hd hnew (List.Subset.refl _) (fun e he => .inr he) h fun e => List.mem_cons

omit hw in
/-- What is known about a body when it is met again. -/
theorem Passes.recalls_body (h : P.Passes (P.rank d) [b] w w₁)
    (hr : P.Recalls k w.finished (d :: w₁.finished) w₁.unit c₂) :
    P.Recalls (P.rank d) w.finished w₁.finished w₁.unit c₂ ∧
      ∀ n ∈ w₁.unit.trees [b], c₂.arena.expr n = w₁.unit.arena.expr n := by
  have hroots : w.unit.arena.bodyRoots d = [b] := by simp only [Arena.bodyRoots, hbody]
  refine ⟨(hr.part (List.Subset.refl _) (List.subset_cons_self d _)).lower hd.le h.rank,
    fun n hn => hr.bodies d List.mem_cons_self hnew n ?_⟩
  rwa [h.toBranches.toSameProgram.bodyRoots, hroots]

/-- A body that was walked is walked again, if it is met where it is not finished. -/
theorem DefSucceeds.ofExpression (hfit : (w.unit.arena.expr b).kind.isSubstitutable = true)
    (h : P.Succeeds settings (P.rank d) [b] w w₁) :
    P.DefSucceeds settings k d w ⟨w₁.unit, d :: w₁.finished⟩ := by
  refine ⟨⟨h.passes.ofExpression hw hd hnew hbody, fun _ _ => List.mem_cons_self,
    fun b' hb' hunfit => ?_⟩, fun hs => .of_body hnew List.mem_cons_self ?_⟩
  · cases hbody.symm.trans hb'
    cases hfit.symm.trans hunfit
  · intro next active henters c₂ hr G hG hstart
    obtain ⟨hr', hsame⟩ := h.passes.recalls_body hd hnew hbody hr
    rw [outcome_visitDefinition_expression
      (by rw [hr.definition, h.passes.toBranches.toSameProgram.definition, hbody]) hG
      fun hmem => (henters.active d hmem).not_gt hd]
    have hvisit := h.settled (hs.mono hd.le) _ (henters.walker hd) c₂ hr'
      (by simpa using Version.same hsame) G (.inl hstart)
    simp only [visitEach, outcome_bind, outcome_pure] at hvisit
    refine hvisit.mono (fun _ w' h' => ⟨h'.1.still hsame, fun e => ?_⟩) ?_
    · simp [h'.2.start hstart]
    · rintro _ w' rfl
      rfl

/-- A body that could not be walked fails wherever it is met, since it is not finished there. -/
theorem DefFails.ofExpression {e : CompileError}
    (hunfit : (w.unit.arena.expr b).kind.isSubstitutable = false →
      w₁.unit.arena.expr b = w.unit.arena.expr b)
    (h : P.Fails settings (P.rank d) [b] w w₁) :
    P.DefFails settings k d w ⟨w₁.unit.reportNew e, d :: w₁.finished⟩ := by
  have hpassed := h.passes.ofExpression hw hd hnew hbody
  have hidle := hpassed.ready.idle (retouches_reportNew w₁.unit e) (arena_reportNew w₁.unit e)
  have hstill := alters_reportNew w₁.unit e
  refine ⟨⟨hpassed.trans hidle, fun _ _ => List.mem_cons_self, fun b' hb' hunfit' => ?_⟩,
    fun hs => ?_⟩
  · cases hbody.symm.trans hb'
    rw [hstill.expr b (Set.notMem_empty b), hunfit hunfit', hunfit']
  · intro next active henters c₂ hr _ G hstart
    have hs₁ := hs.of_still hstill
    obtain ⟨hr', hsame⟩ := h.passes.recalls_body hd hnew hbody
      (((hs₁.recalls hpassed.rank).still hstill).trans hr (List.Subset.refl _))
    have hG : d ∉ G := fun hmem => hnew ((hstart d).1 hmem)
    rw [outcome_visitDefinition_expression (by rw [hr.definition,
      hstill.toSameProgram.definition, h.passes.toBranches.toSameProgram.definition, hbody]) hG
      fun hmem => (henters.active d hmem).not_gt hd]
    have hvisit := h.barred (hs₁.mono hd.le) _ (henters.walker hd) c₂ hr' hsame G hstart
    simp only [visitEach, outcome_bind, outcome_pure] at hvisit
    refine hvisit.mono (fun _ _ => False.elim) ?_
    rintro (e' | _) w' h'
    · obtain ⟨hstill', hfinished⟩ := h'.resolve_left (by simp)
      exact .inr ⟨hstill'.trans (alters_reportNew _ e'), fun e => by simp [hfinished]⟩
    · exact .inl rfl

/-- **An expression that is a body**, which is finished after it was walked, with success or not. -/
theorem visitDefinition_expression (hnext : P.Leads settings next)
    (hactive : ∀ e ∈ active, k ≤ P.rank e) :
    Outcome (visitDefinition next active d) w (fun _ w' => P.DefSucceeds settings k d w w')
      fun stop w' => stop = .cyclic ∨ P.DefFails settings k d w w' := by
  have hready := hw.ofBody hd (List.Subset.refl w.finished)
  rw [show w.unit.arena.bodyRoots d = [b] by simp only [Arena.bodyRoots, hbody]] at hready
  have hbeside (e : DefId) (he : e ∈ active) : P.rank d ≤ P.rank e := hd.le.trans (hactive e he)
  rw [outcome_visitDefinition_expression hbody hnew fun hmem => (hactive d hmem).not_gt hd]
  refine (hnext.expr (P.rank d) (d :: active) (List.forall_mem_cons.2 ⟨le_rfl, hbeside⟩) b w
    hready).mono ?_ ?_
  · rintro - w₁ ⟨hfit, h⟩
    exact .ofExpression hw hd hnew hbody hfit h
  · rintro (e | _) w₁ h
    · obtain ⟨hunfit, h⟩ := h.resolve_left (by simp)
      exact .inr (.ofExpression hw hd hnew hbody hunfit h)
    · exact .inl rfl

end ExpressionBody

/-- **A definition is dealt with**, and can be dealt with again or fails again. -/
theorem visitDefinition_advances (hnext : P.Leads settings next)
    (hactive : ∀ e ∈ active, k ≤ P.rank e) (hw : P.Ready k [] w) (hd : P.rank d < k) :
    Outcome (visitDefinition next active d) w (fun _ w' => P.DefSucceeds settings k d w w')
      fun stop w' => stop = .cyclic ∨ P.DefFails settings k d w w' := by
  by_cases hfinished : d ∈ w.finished
  · rw [outcome_visitDefinition_finished hfinished]
    exact ⟨⟨.refl hw, fun _ _ => hfinished, fun _ _ => id⟩, fun _ => .idle (.inl hfinished)⟩
  · cases hbody : (w.unit.arena.definition d).body with
    | builtin =>
      rw [outcome_visitDefinition_builtin hbody]
      refine ⟨⟨.refl hw, fun b hb => ?_, fun _ _ => id⟩, fun _ => .idle (.inr (.inl hbody))⟩
      cases hbody.symm.trans hb
    | undefined =>
      simp only [visitDefinition, outcome_bind, outcome_lift, outcome_definition, hbody,
        outcome_pure]
      refine ⟨⟨.refl hw, fun b hb => ?_, fun _ _ => id⟩, fun _ => .idle (.inr (.inr hbody))⟩
      cases hbody.symm.trans hb
    | statement s =>
      exact (visitDefinition_statement hnext hactive hw hd hfinished hbody).mono (fun _ _ => id)
        fun _ _ => .inl
    | expression b => exact visitDefinition_expression hw hd hfinished hbody hnext hactive

/-! ## Statements -/

/-- Nothing changed since, apart from the tables of a walk. -/
theorem Refails.still (h : P.Refails k F F' c ids again) (hstill : c.Alters ∅ c')
    (hs : P.Steadfast c k) (hrank : ∀ d ∈ F', d ∉ F → P.rank d < k) :
    P.Refails k F F' c' ids again := by
  intro c₂ hr hsame G hG
  have hkept (n : ExprId) : c'.arena.expr n = c.arena.expr n := hstill.expr n (Set.notMem_empty n)
  have htrees : c'.trees ids = c.trees ids := trees_congr fun n _ => by rw [hkept n]
  refine h c₂ (((hs.recalls hrank).still hstill).trans hr (List.Subset.refl F')) (fun n hn => ?_) G
    hG
  rw [hsame n (htrees ▸ hn), hkept n]

theorem Settled.expr (h : P.Settled settings k F F' c [id])
    (henters : P.Enters settings k next active) :
    P.Recurs k F F' c [id] (next.expr active id) := by
  intro c₂ hr hversions G hG
  obtain ⟨rounds, rfl⟩ := henters.next
  have hvisit := h _ (fun n => .whole henters.active rounds n) c₂ hr hversions G hG
  simpa only [visitEach, outcome_bind, outcome_pure] using hvisit

theorem Barred.expr (h : P.Barred settings k F F' c [id])
    (henters : P.Enters settings k next active) :
    P.Refails k F F' c [id] (next.expr active id) := by
  intro c₂ hr hsame G hG
  obtain ⟨rounds, rfl⟩ := henters.next
  have hvisit := h _ (fun n => .whole henters.active rounds n) c₂ hr hsame G hG
  simp only [visitEach, outcome_bind, outcome_pure] at hvisit
  exact hvisit.mono (fun _ _ => False.elim) fun _ _ h => h

/-- A walk past an error, which is reported. -/
def reported (visit : WalkM Unit) : WalkM Unit := do
  WalkM.reportOutcome (← WalkM.attempt visit)

theorem outcome_reported {visit : WalkM Unit} {ended : Unit → Walk → Prop}
    {stopped : Stop → Walk → Prop} : Outcome (reported visit) w ended stopped ↔
      Outcome visit w ended fun stop w' => match stop with
        | .error e => ended () ⟨w'.unit.reportNew e, w'.finished⟩
        | .cyclic => stopped .cyclic w' := by
  rw [reported, outcome_bind, outcome_walk_attempt]
  refine ⟨fun h => h.mono (fun _ _ h => h) ?_, fun h => h.mono (fun _ _ h => h) ?_⟩ <;>
    rintro (e | _) w' h <;> exact h

/-- What is walked again is walked again where errors are reported. -/
theorem Reruns.of_recurs (h : P.Recurs k F F' c ids again) :
    P.Reruns k F F' c ids (reported again) := by
  intro c₂ hr hsame G hG
  rw [outcome_reported]
  refine (h c₂ hr (fun m hm => .same fun n hn => hsame n (c.trees_subset_of_mem hm hn)) G
    (.inl hG)).mono (fun _ w h => ⟨h.1.still hsame, h.2.start hG⟩) ?_
  rintro _ w rfl
  rfl

/-- What fails again has its error reported again. -/
theorem Reruns.of_refails (h : P.Refails k F F' c ids again) :
    P.Reruns k F F' c ids (reported again) := by
  intro c₂ hr hsame G hG
  rw [outcome_reported]
  refine (h c₂ hr hsame G hG).mono (fun _ _ => False.elim) ?_
  rintro (e | _) w h
  · obtain ⟨hstill, hfinished⟩ := h.resolve_left (by simp)
    exact ⟨hstill.trans (alters_reportNew _ e), hfinished⟩
  · rfl

/-- **A part of a statement**, whether it fails or not. -/
theorem reported_advances (again : Visitor → List DefId → WalkM Unit) {visit : WalkM Unit}
    (h : Outcome visit w
      (fun _ w' => P.Passes k ids w w' ∧ (P.Steadfast w'.unit k → ∀ next active,
        P.Enters settings k next active →
          P.Recurs k w.finished w'.finished w'.unit ids (again next active)))
      fun stop w' => stop = .cyclic ∨ P.Passes k ids w w' ∧ (P.Steadfast w'.unit k →
        ∀ next active, P.Enters settings k next active →
          P.Refails k w.finished w'.finished w'.unit ids (again next active))) :
    Outcome (reported visit) w (fun _ w' => P.StmtsSucceed settings k ids
      (fun next active => reported (again next active)) w w') fun stop _ => stop = .cyclic := by
  rw [outcome_reported]
  refine h.mono (fun _ w' h => ⟨h.1, fun hs next active henters =>
    .of_recurs (h.2 hs next active henters)⟩) ?_
  rintro (e | _) w' h
  · obtain ⟨hpasses, hrefails⟩ := h.resolve_left (by simp)
    have hstill := alters_reportNew w'.unit e
    refine ⟨hpasses.trans (hpasses.ready.idle (retouches_reportNew w'.unit e)
      (arena_reportNew w'.unit e)), fun hs next active henters => ?_⟩
    have hs' := hs.of_still hstill
    exact .of_refails ((hrefails hs' next active henters).still hstill hs' hpasses.rank)
  · rfl

/-- Parts of statements, one after the other. -/
theorem Reruns.append (h : P.Reruns k F F₁ c₁ ids first) (h' : P.Reruns k F₁ F' c ids' rest)
    (hlasts : P.Lasts k F F₁ F' c₁ c ids) :
    P.Reruns k F F' c (ids ++ ids') (do first; rest) := by
  intro c₂ hr hsame G hG
  have hsame₁ : ∀ n ∈ c₁.trees ids, c₂.arena.expr n = c₁.arena.expr n := fun n hn => by
    rw [hsame n (trees_mono (List.subset_append_left ids ids') (hlasts.echoes.trees ▸ hn)),
      hlasts.echoes.expr n hn]
  rw [outcome_bind]
  refine (h c₂ (hlasts.toRecalls.trans hr hlasts.later) hsame₁ G hG).imp ?_
  rintro - w ⟨hstill, hfinished⟩
  refine (h' w.unit ((hr.part hlasts.start (List.Subset.refl F')).still hstill) (fun n hn => ?_)
    w.finished hfinished).imp fun _ _ h => ⟨hstill.trans h.1, h.2⟩
  rw [hstill.expr n (Set.notMem_empty n),
    hsame n (trees_mono (List.subset_append_right ids ids') hn)]

theorem StmtsSucceed.append {first rest : Visitor → List DefId → WalkM Unit}
    (h : P.StmtsSucceed settings k ids first w w₁)
    (h' : P.StmtsSucceed settings k ids' rest w₁ w') (hw : P.Ready k (ids ++ ids') w) :
    P.StmtsSucceed settings k (ids ++ ids')
      (fun next active => do first next active; rest next active) w w' := by
  have hw₁ := (h.passes.rest hw).2.2
  refine ⟨(h.passes.append h'.passes hw).2, fun hs next active henters => ?_⟩
  exact (h.reruns (h'.passes.steadfast hw₁ hs) next active henters).append
    (h'.reruns hs next active henters) (h.passes.lasts h'.passes hw hs)

/-- What is done with a statement of some kind. -/
def visitStatementKind (next : Visitor) (active : List DefId) (depth : Nat) :
    StatementKind → WalkM Unit
  | .expression e | .result e => reported (next.expr active e)
  | .bind d => reported (visitDefinition next active d)
  | .block ss => visitStatementWithin.each (visitStatementWithin next active depth) ss
  | .empty | .deleted => return

theorem outcome_visitStatementWithin {ended : Unit → Walk → Prop} {stopped : Stop → Walk → Prop} :
    Outcome (visitStatementWithin next active (depth + 1) s) w ended stopped ↔
      Outcome (visitStatementKind next active depth (w.unit.arena.stmt s).kind) w ended stopped := by
  rw [visitStatementWithin, outcome_bind, outcome_lift, outcome_arena, visitStatementKind.eq_def]
  cases (w.unit.arena.stmt s).kind <;> rfl

/-- **Statements one after the other.** -/
theorem each_advances (again : Visitor → List DefId → StmtId → WalkM Unit)
    {visit : StmtId → WalkM Unit} {roots : StmtId → List ExprId}
    (hvisit : ∀ s ∈ ss, ∀ w', w.unit.SameProgram w'.unit → P.Ready k (roots s) w' →
      Outcome (visit s) w' (fun _ w'' => P.StmtsSucceed settings k (roots s)
        (fun next active => again next active s) w' w'') fun stop _ => stop = .cyclic)
    (hw : P.Ready k (ss.flatMap roots) w) :
    Outcome (visitStatementWithin.each visit ss) w (fun _ w' =>
      P.StmtsSucceed settings k (ss.flatMap roots)
        (fun next active => visitStatementWithin.each (again next active) ss) w w')
      fun stop _ => stop = .cyclic := by
  induction ss generalizing w with
  | nil => exact ⟨.refl hw, fun _ _ _ _ c₂ _ _ _ hG => ⟨.refl ∅ c₂, hG⟩⟩
  | cons s ss ih =>
    obtain ⟨hs, hss⟩ := List.forall_mem_cons.1 hvisit
    rw [List.flatMap_cons] at hw ⊢
    rw [visitStatementWithin.each, outcome_bind]
    refine (hs w (.refl _) hw.first).imp fun _ w₁ h => ?_
    have hsame : w.unit.SameProgram w₁.unit := h.passes.toBranches.toSameProgram
    refine (ih (fun s hs w' hw' => hss s hs w' (hsame.trans hw')) (h.passes.rest hw).2.2).imp
      fun _ w₂ h' => h.append h' hw

/-- **A statement is walked**, and can be walked again. -/
theorem visitStatementWithin_advances (hnext : P.Leads settings next)
    (hactive : ∀ e ∈ active, k ≤ P.rank e) (depth : Nat) (s : StmtId)
    (hw : P.Ready k (w.unit.arena.stated depth s) w)
    (hbound : ∀ d ∈ w.unit.arena.bound depth s, P.rank d < k) :
    Outcome (visitStatementWithin next active depth s) w (fun _ w' =>
      P.StmtsSucceed settings k (w.unit.arena.stated depth s)
        (fun next active => visitStatementWithin next active depth s) w w')
      fun stop _ => stop = .cyclic := by
  induction depth generalizing s w with
  | zero => exact rfl
  | succ depth ih =>
    rw [outcome_visitStatementWithin]
    -- A statement is of the same kind when it is walked again.
    suffices h : Outcome (visitStatementKind next active depth (w.unit.arena.stmt s).kind) w
        (fun _ w' => P.StmtsSucceed settings k (w.unit.arena.stated (depth + 1) s)
          (fun next active => visitStatementKind next active depth (w.unit.arena.stmt s).kind) w w')
        fun stop _ => stop = .cyclic by
      refine h.imp fun _ w' h => ⟨h.passes, fun hs next' active' henters c₂ hr hsame G hG => ?_⟩
      have hstmt : c₂.arena.stmt s = w.unit.arena.stmt s :=
        (h.passes.toBranches.toSameProgram.trans hr.toSameProgram).stmt s
      rw [outcome_visitStatementWithin, hstmt]
      exact h.reruns hs next' active' henters c₂ hr hsame G hG
    simp only [Arena.stated, Arena.bound] at hw hbound ⊢
    cases hkind : (w.unit.arena.stmt s).kind with
    | expression e | result e =>
      rw [hkind] at hw
      refine reported_advances (fun next active => next.expr active e)
        ((hnext.expr k active hactive e w hw).mono (fun _ w' h => ⟨h.2.passes, fun hs _ _ henters =>
          (h.2.settled hs).expr henters⟩) fun _ w' h => h.imp_right fun h => ⟨h.2.passes,
            fun hs _ _ henters => (h.2.barred hs).expr henters⟩)
    | bind d =>
      rw [hkind] at hw hbound
      refine reported_advances (fun next active => visitDefinition next active d)
        ((visitDefinition_advances hnext hactive hw (hbound d (List.mem_singleton_self d))).mono
          (fun _ w' h => ⟨h.passes, h.recurs⟩) fun _ w' h => h.imp_right fun h =>
            ⟨h.passes, h.refails⟩)
    | block ss =>
      rw [hkind] at hw hbound
      refine each_advances (fun next active => visitStatementWithin next active depth)
        (fun s hs w' hsame hw' => ?_) hw
      have hstated := congrFun (Arena.stated_congr hsame.stmts depth) s
      have hbound' := congrFun (Arena.bound_congr hsame.stmts depth) s
      rw [← hstated] at hw' ⊢
      exact ih s hw' fun d hd => hbound d (List.mem_flatMap.2 ⟨s, hs, hbound' ▸ hd⟩)
    | empty | deleted =>
      rw [hkind] at hw
      exact ⟨.refl hw, fun _ _ _ _ c₂ _ _ _ hG => ⟨.refl ∅ c₂, hG⟩⟩

end Prospect

end Termwise
