import Termwise.Proofs.Concretization.Coercions

/-!
# Walks that are repeated

A part of a walk is repeated when the same trees are walked once more, with the bodies that it
finished as it left them. Either the definitions dealt with by then are those that were dealt with
when the part began, so that the same bodies are walked again, or all that it finished is dealt with
already. In both cases the walk comes back to where it started. The one exception is a call that a
call around it widened in the meantime: it may take back its integers, for the call around it to
widen it anew.

## Main definitions

* `Prospect.Walks`, `Prospect.Walker`: the walks of single expressions
* `Compilation.Version`, `Compilation.Revisited`: how a tree may have been changed since it was
  walked, and what it is after it was walked again
* `Prospect.Recalls`: a program in which a part of a walk is remembered
* `Prospect.Settled`, `Prospect.Barred`: trees whose walk is repeated, with success or with an error

## Main results

* `Settled.cons`, `Barred.head`, `Barred.tail`: trees one after the other
* `Settled.of_kind`, `Barred.of_type`, `Barred.of_kind`: a single tree
-/

namespace Termwise

open Compilation

variable {P : Prospect} {settings : Settings} {k k' : Nat} {c c' c'' c₁ c₂ c₃ g : Compilation}
  {F F' F₁ F₂ G G' G₁ : List DefId} {id n m : ExprId} {d : DefId} {ids ids' args : List ExprId}
  {active : List DefId} {w : Walk} {S : Set ExprId}

/-! ## Walks of single expressions -/

namespace Prospect

/-- **A walk of one expression** while only bodies of at least a rank are being walked. -/
inductive Walks (P : Prospect) (settings : Settings) (k : Nat) : ExprId → WalkM Unit → Prop where
  | within {active : List DefId} (hactive : ∀ d ∈ active, k ≤ P.rank d) (rounds bound depth : Nat)
    (id : ExprId) :
    Walks P settings k id (visitWithin settings (visitor settings rounds) active bound depth id)
  | whole {active : List DefId} (hactive : ∀ d ∈ active, k ≤ P.rank d) (rounds : Nat)
    (id : ExprId) : Walks P settings k id ((visitor settings rounds).expr active id)

/-- A way to walk expressions. -/
def Walker (P : Prospect) (settings : Settings) (k : Nat) (visit : ExprId → WalkM Unit) : Prop :=
  ∀ id, P.Walks settings k id (visit id)

theorem Walks.mono {action : WalkM Unit} (h : P.Walks settings k id action) (hle : k' ≤ k) :
    P.Walks settings k' id action := by
  cases h with
  | within hactive => exact .within (fun d hd => hle.trans (hactive d hd)) _ _ _ _
  | whole hactive => exact .whole (fun d hd => hle.trans (hactive d hd)) _ _

/-- How a walk goes on from a definition. -/
structure Enters (P : Prospect) (settings : Settings) (k : Nat) (next : Visitor)
    (active : List DefId) : Prop where
  next : ∃ rounds, next = visitor settings rounds
  active : ∀ d ∈ active, k ≤ P.rank d

/-- How a walk goes on from an expression. -/
structure Onwards (P : Prospect) (settings : Settings) (k : Nat) (next : Visitor)
    (child : ExprId → WalkM Unit) (active : List DefId) : Prop
    extends Enters P settings k next active where
  child : P.Walker settings k child

/-- **The walk of an expression** goes on in one way or another, or it goes too deep. -/
theorem Walks.outcome {action : WalkM Unit} {ended : Unit → Walk → Prop}
    {stopped : Stop → Walk → Prop} (h : P.Walks settings k id action)
    (hvisit : ∀ next child active, P.Onwards settings k next child active →
      Outcome (visitExpr settings next child active id) w ended stopped)
    (hcyclic : stopped .cyclic w) : Outcome action w ended stopped := by
  have hwithin {active : List DefId} (hactive : ∀ d ∈ active, k ≤ P.rank d) (rounds bound depth) :
      Outcome (visitWithin settings (visitor settings rounds) active bound depth id) w ended
        stopped := by
    cases depth with
    | zero => exact hcyclic
    | succ depth =>
      refine hvisit _ _ active ⟨⟨⟨rounds, rfl⟩, hactive⟩, fun n => ?_⟩
      split
      · exact .within hactive rounds bound depth n
      · exact .whole hactive rounds n
  cases h with
  | within hactive rounds bound depth => exact hwithin hactive rounds bound depth
  | whole hactive rounds =>
    cases rounds with
    | zero => exact hcyclic
    | succ rounds =>
      simp only [visitor, outcome_bind, outcome_lift, outcome_arena]
      exact hwithin hactive rounds _ _

end Prospect

/-- What is done with an expression of some kind, before its type is looked at. -/
def visitKind (settings : Settings) (next : Visitor) (child : ExprId → WalkM Unit)
    (active : List DefId) (id : ExprId) (e : Expression) : WalkM Unit :=
  match e.kind with
  | .value _ => concretizeValue id
  | .reference d | .operator d => visitReference settings next active id d
  | .call callee args => visitCall settings next child active id callee args
  | .negated operand => visitNegation next child active id operand
  | .empty => CheckM.fail .emptyExpression e.span
  | .syntaxError => CheckM.fail .containsError e.span
  | .run _ | .minusSign | .missingArg | .notImplemented | .deleted =>
    CheckM.fail (.notConcretizable e.ty) e.span

/-- An expression is walked according to its kind, and then its type is looked at. -/
theorem outcome_visitExpr {next : Visitor} {child : ExprId → WalkM Unit}
    {ended : Unit → Walk → Prop} {stopped : Stop → Walk → Prop} :
    Outcome (visitExpr settings next child active id) w ended stopped ↔
      Outcome (visitKind settings next child active id (w.unit.arena.expr id)) w
        (fun _ w' => Outcome (do honourDeclared id; requireNative id : CheckM Unit) w'.unit
          (fun _ c => ended () ⟨c, w'.finished⟩) fun stop c => stopped stop ⟨c, w'.finished⟩)
        stopped := by
  rw [visitExpr, outcome_bind, outcome_lift, outcome_expr, visitKind]
  cases (w.unit.arena.expr id).kind <;>
    simp only [outcome_bind, outcome_lift, outcome_fail]

/-- An expression that declares no type is accepted if it has a native one. -/
theorem outcome_requireNative {ended : Unit → Compilation → Prop}
    {stopped : Stop → Compilation → Prop} (hdeclared : (c.arena.expr id).declared = none) :
    Outcome (do honourDeclared id; requireNative id : CheckM Unit) c ended stopped ↔
      if (c.arena.expr id).ty.native = .yes then ended () c
      else stopped (.error ⟨.notConcretizable (c.arena.expr id).ty, (c.arena.expr id).span⟩) c := by
  simp only [honourDeclared, requireNative, outcome_bind, outcome_expr, hdeclared, outcome_pure]
  split <;> rfl

/-! ## Trees that were walked -/

namespace Compilation

/-- **How a tree may have been changed** since it was walked: not at all, or it is a value and took
another one, or it was widened. -/
inductive Version (c c' : Compilation) (id : ExprId) : Prop where
  | same (h : ∀ n ∈ c.trees [id], c'.arena.expr n = c.arena.expr n)
  | value (h : (c.arena.expr id).kind.isValue = true)
    (hvalue : (c'.arena.expr id).kind.isValue = true)
    (hnative : (c'.arena.expr id).ty.native = .yes)
    (hdeclared : (c'.arena.expr id).declared = none)
  | enlarged (hvalue : (c.arena.expr id).kind.isValue = false) (h : c.Enlarged c' id)

/-- In whatever version, what lies below the nodes of a tree stays there. -/
theorem Version.children (h : c.Version c' id) (hn : n ∈ c.trees [id]) :
    (c'.arena.expr n).kind.children = (c.arena.expr n).kind.children := by
  cases h with
  | same h => rw [h n hn]
  | value h hvalue =>
    rw [trees_of_isValue h] at hn
    obtain rfl := Set.mem_singleton_iff.1 hn
    rw [ExprKind.children_of_isValue h, ExprKind.children_of_isValue hvalue]
  | enlarged _ h => exact h.children hn

theorem Version.trees (h : c.Version c' id) : c'.trees [id] = c.trees [id] :=
  trees_congr fun _ hn => h.children hn

theorem trees_of_versions (h : ∀ id ∈ ids, c.Version c' id) : c'.trees ids = c.trees ids := by
  induction ids with
  | nil => rw [trees_nil, trees_nil]
  | cons id ids ih =>
    obtain ⟨hfirst, hrest⟩ := List.forall_mem_cons.1 h
    rw [trees_cons, hfirst.trees, ih hrest, ← trees_cons]

theorem Version.congr (h : c.Version c' id)
    (hsame : ∀ n ∈ c.trees [id], c''.arena.expr n = c'.arena.expr n) : c.Version c'' id := by
  have hid := hsame id (c.mem_trees_self (List.mem_singleton_self id))
  cases h with
  | same h => exact .same fun n hn => (hsame n hn).trans (h n hn)
  | value h hvalue hnative hdeclared =>
    exact .value h (hid ▸ hvalue) (hid ▸ hnative) (hid ▸ hdeclared)
  | enlarged hvalue h => exact .enlarged hvalue (h.congr hsame)

/-- What was widened declares what it declared. -/
theorem declared_widened (c : Compilation) (n : ExprId) :
    (c.widened n).declared = (c.arena.expr n).declared := by
  simp only [Compilation.widened]
  split
  · cases hcast : (c.arena.expr n).cast? .int .float with
    | none => rfl
    | some e => exact (Expression.cast?_place hcast).2
  · rfl
  · rfl

/-- In whatever version, a tree that was walked declares nothing and has a native type. -/
theorem Version.accepted (h : c.Version c' id) (hdeclared : (c.arena.expr id).declared = none)
    (hnative : (c.arena.expr id).ty.native = .yes) :
    (c'.arena.expr id).declared = none ∧ (c'.arena.expr id).ty.native = .yes := by
  cases h with
  | same h =>
    rw [h id (c.mem_trees_self (List.mem_singleton_self id))]
    exact ⟨hdeclared, hnative⟩
  | value _ _ hnative hdeclared => exact ⟨hdeclared, hnative⟩
  | enlarged hvalue h =>
    obtain ⟨d, args, -, hty⟩ := h.isValue_or_call.resolve_left (by simp [hvalue])
    refine ⟨?_, by rw [hty]; rfl⟩
    rw [h.root, declared_widened, hdeclared]

/-- **What trees are after they were walked again**: nothing changed in any of them, or a call that
was widened in the meantime is what it was before that. -/
structure Revisited (c c' c'' : Compilation) (ids : List ExprId) : Prop
    extends Alters (c.trees ids) c' c'' where
  each : ∀ id ∈ ids, (∀ n ∈ c.trees [id], c''.arena.expr n = c'.arena.expr n) ∨
    (c.arena.expr id).kind.isValue = false ∧ c.Enlarged c' id ∧
      ∀ n ∈ c.trees [id], c''.arena.expr n = c.arena.expr n

theorem Alters.revisited (h : c'.Alters ∅ c'') (c : Compilation) (ids : List ExprId) :
    c.Revisited c' c'' ids :=
  ⟨h.mono (Set.empty_subset _), fun _ _ => .inl fun n _ => h.expr n (Set.notMem_empty n)⟩

/-- Nothing was changed before that. -/
theorem Revisited.after (h : c.Revisited c₂ c₃ ids) (hstill : c'.Alters ∅ c₂) :
    c.Revisited c' c₃ ids := by
  have hkept (n : ExprId) : c₂.arena.expr n = c'.arena.expr n := hstill.expr n (Set.notMem_empty n)
  refine ⟨(hstill.mono (Set.empty_subset _)).trans h.toAlters, fun id hid => ?_⟩
  refine (h.each id hid).imp (fun h n hn => (h n hn).trans (hkept n)) ?_
  exact fun ⟨hvalue, henlarged, hback⟩ =>
    ⟨hvalue, henlarged.congr fun n _ => (hkept n).symm, hback⟩

/-- A node of trees that were walked again is what it was before or at first. -/
theorem Revisited.node (h : c.Revisited c' c'' ids) (hn : n ∈ c.trees ids) :
    c''.arena.expr n = c'.arena.expr n ∨ c''.arena.expr n = c.arena.expr n := by
  obtain ⟨id, hid, hn⟩ := hn
  rcases h.each id hid with h | ⟨-, -, h⟩
  · exact .inl (h n (mem_trees_singleton.2 hn))
  · exact .inr (h n (mem_trees_singleton.2 hn))

/-- Trees that were not changed since are not changed by a walk. -/
theorem Revisited.still (h : c.Revisited c' c'' ids)
    (hsame : ∀ n ∈ c.trees ids, c'.arena.expr n = c.arena.expr n) : c'.Alters ∅ c'' := by
  refine h.toAlters.of_kept ?_
  rintro n ⟨id, hid, hn⟩
  rcases h.each id hid with hkept | ⟨-, -, hback⟩
  · exact hkept n (mem_trees_singleton.2 hn)
  · rw [hback n (mem_trees_singleton.2 hn), hsame n ⟨id, hid, hn⟩]

/-- One of some trees was not changed since, and is not changed by a walk. -/
theorem Revisited.kept (h : c.Revisited c' c'' ids) (hm : m ∈ ids)
    (hsame : ∀ n ∈ c.trees [m], c'.arena.expr n = c.arena.expr n) :
    c''.trees [m] = c.trees [m] ∧ ∀ n ∈ c.trees [m], c''.arena.expr n = c'.arena.expr n := by
  have hkept : ∀ n ∈ c.trees [m], c''.arena.expr n = c'.arena.expr n := by
    intro n hn
    rcases h.each m hm with h | ⟨-, -, h⟩
    · exact h n hn
    · rw [h n hn, hsame n hn]
  exact ⟨trees_congr fun n hn => by rw [hkept n hn, hsame n hn], hkept⟩

/-- The same tree stands in both programs: what it becomes when it is widened is the same. -/
theorem Echoes.enlarged (h : c.Echoes [m] c') (hc : c.Rooted [m]) (h' : c'.Enlarged g m) :
    c.Enlarged g m where
  ty := by
    rw [← h.expr m (c.mem_trees_self (List.mem_singleton_self m))]
    exact h'.ty
  widens := (h.widens hc).symm.trans h'.widens
  rebuilt n hn hr := by
    rw [← h.widened hc hn]
    exact h'.rebuilt n (h.trees ▸ hn) ((h.rebuilt hc).2 hr)
  kept n hn hr := by
    rw [← h.expr n hn]
    exact h'.kept n (h.trees ▸ hn) fun hr' => hr ((h.rebuilt hc).1 hr')

theorem Version.of_echoes (h : c'.Version c'' id) (he : c.Echoes [id] c') (hc : c.Rooted [id]) :
    c.Version c'' id := by
  have hid := he.expr id (c.mem_trees_self (List.mem_singleton_self id))
  cases h with
  | same h => exact .same fun n hn => (h n (he.trees ▸ hn)).trans (he.expr n hn)
  | value h hvalue hnative hdeclared => exact .value (hid ▸ h) hvalue hnative hdeclared
  | enlarged hvalue h => exact .enlarged (hid ▸ hvalue) (he.enlarged hc h)

/-- The same tree stands in both programs. -/
theorem Revisited.echo (h : c₁.Revisited c₂ c₃ [id]) (he : c₁.Echoes [id] c)
    (hc : c₁.Rooted [id]) : c.Revisited c₂ c₃ [id] := by
  have hid : c.trees [id] = c₁.trees [id] := he.trees
  refine ⟨hid ▸ h.toAlters, ?_⟩
  rintro _ hmem
  obtain rfl := List.mem_singleton.1 hmem
  rw [hid]
  refine (h.each _ hmem).imp_right ?_
  rintro ⟨hvalue, henlarged, hback⟩
  rw [← he.expr _ (c₁.mem_trees_self hmem)] at hvalue
  exact ⟨hvalue, henlarged.echo he hc, fun n hn => by rw [hback n hn, he.expr n hn]⟩

/-- Trees one after the other. -/
theorem Revisited.cons (h : c.Revisited c₂ c₃ [id]) (h' : c.Revisited c₃ g ids)
    (hdisjoint : Disjoint (c.trees [id]) (c.trees ids)) : c.Revisited c₂ g (id :: ids) := by
  have hsub : c.trees [id] ⊆ c.trees (id :: ids) := trees_mono (by simp)
  have hfirst : ∀ n ∈ c.trees [id], g.arena.expr n = c₃.arena.expr n := fun n hn =>
    h'.expr n (Set.disjoint_left.1 hdisjoint hn)
  have hothers : ∀ n ∈ c.trees ids, c₃.arena.expr n = c₂.arena.expr n := fun n hn =>
    h.expr n fun hmem => Set.disjoint_left.1 hdisjoint hmem hn
  refine ⟨(h.toAlters.mono hsub).trans
    (h'.toAlters.mono (trees_mono (List.subset_cons_self id ids))), ?_⟩
  refine List.forall_mem_cons.2 ⟨?_, fun m hm => ?_⟩
  · refine (h.each id (List.mem_singleton_self id)).imp (fun hkept n hn => ?_) ?_
    · rw [hfirst n hn, hkept n hn]
    · rintro ⟨hvalue, henlarged, hback⟩
      exact ⟨hvalue, henlarged, fun n hn => by rw [hfirst n hn, hback n hn]⟩
  · have hm' {n : ExprId} (hn : n ∈ c.trees [m]) : n ∈ c.trees ids :=
      trees_mono (by simpa using hm) hn
    refine (h'.each m hm).imp (fun hkept n hn => ?_) ?_
    · rw [hkept n hn, hothers n (hm' hn)]
    · rintro ⟨hvalue, henlarged, hback⟩
      exact ⟨hvalue, henlarged.congr fun n hn => (hothers n (hm' hn)).symm, hback⟩

end Compilation

/-! ## Definitions that were dealt with -/

/-- **A walk is resumed**: the definitions dealt with are those at the start of a part of it, or
they include all that were dealt with at its end. -/
def Resumes (F F' G : List DefId) : Prop := (∀ d, d ∈ G ↔ d ∈ F) ∨ F' ⊆ G

/-- What was dealt with after a part of a walk was repeated. -/
structure Resumed (F F' G G' : List DefId) : Prop where
  start : (∀ d, d ∈ G ↔ d ∈ F) → ∀ d, d ∈ G' ↔ d ∈ F'
  done : F' ⊆ G → G' = G

theorem Resumed.refl (F G : List DefId) : Resumed F F G G := ⟨id, fun _ => rfl⟩

theorem Resumes.first (h : Resumes F F' G) (hsub : F₁ ⊆ F') : Resumes F F₁ G :=
  h.imp_right fun h => List.Subset.trans hsub h

theorem Resumes.next (h : Resumes F F' G) (hsub : F₁ ⊆ F') (h₁ : Resumed F F₁ G G₁) :
    Resumes F₁ F' G₁ := by
  rcases h with h | h
  · exact .inl (h₁.start h)
  · exact .inr (h₁.done (List.Subset.trans hsub h) ▸ h)

theorem Resumed.trans (h : Resumed F F₁ G G₁) (h' : Resumed F₁ F' G₁ G') (hsub : F₁ ⊆ F') :
    Resumed F F' G G' where
  start hG := h'.start (h.start hG)
  done hG := by
    have hG₁ := h.done (List.Subset.trans hsub hG)
    rw [h'.done (hG₁ ▸ hG), hG₁]

namespace Prospect

/-- **A program in which a part of a walk is remembered**: the bodies that it finished are as it
left them, what else was finished has the type that it had, and so has all that has a fixed one. -/
structure Recalls (P : Prospect) (k : Nat) (F F' : List DefId) (c c' : Compilation) : Prop
    extends SameProgram c c' where
  size : c.arena.exprs.size ≤ c'.arena.exprs.size
  rank : ∀ d ∈ F', d ∉ F → P.rank d < k
  bodies : ∀ d ∈ F', d ∉ F → ∀ n ∈ c.trees (c.arena.bodyRoots d),
    c'.arena.expr n = c.arena.expr n
  heads : ∀ d ∈ F', P.rank d < k → ∀ b, (c.arena.definition d).body = .expression b →
    c'.arena.expr b = c.arena.expr b
  steadfast : P.Steadfast c' k

theorem Recalls.trans (h : P.Recalls k F F₁ c c') (h' : P.Recalls k F F' c' c'') (hsub : F₁ ⊆ F') :
    P.Recalls k F F₁ c c'' where
  toSameProgram := h.toSameProgram.trans h'.toSameProgram
  size := h.size.trans h'.size
  rank := h.rank
  bodies d hd hnew n hn := by
    have htrees : c'.trees (c'.arena.bodyRoots d) = c.trees (c.arena.bodyRoots d) := by
      rw [h.toSameProgram.bodyRoots]
      exact trees_congr fun n hn => by rw [h.bodies d hd hnew n hn]
    rw [h'.bodies d (hsub hd) hnew n (htrees ▸ hn), h.bodies d hd hnew n hn]
  heads d hd hr b hb := by
    rw [h'.heads d (hsub hd) hr b (by rwa [h.definition]), h.heads d hd hr b hb]
  steadfast := h'.steadfast

/-- A part of what was finished is remembered, too. -/
theorem Recalls.part (h : P.Recalls k F F' c c') (hstart : F ⊆ F₁) (hend : F₂ ⊆ F') :
    P.Recalls k F₁ F₂ c c' :=
  ⟨h.toSameProgram, h.size, fun d hd hnew => h.rank d (hend hd) fun hmem => hnew (hstart hmem),
    fun d hd hnew => h.bodies d (hend hd) fun hmem => hnew (hstart hmem),
    fun d hd => h.heads d (hend hd), h.steadfast⟩

/-- A definition that was finished has the type that it had. -/
theorem Recalls.definitionType (h : P.Recalls k F F' c c') (hd : P.rank d < k)
    (hfinished : ∀ b, (c.arena.definition d).body = .expression b → d ∈ F') :
    c'.arena.definitionType d = c.arena.definitionType d :=
  h.toSameProgram.definitionType fun _ b hb => h.heads d (hfinished b hb) hd b hb

/-- **Some trees were changed** since, and no body. -/
theorem Recalls.altered (h : P.Recalls k F F' c c') (halters : c'.Alters S c'')
    (hdisjoint : ∀ d, P.rank d < k → Disjoint S (c.trees (c.arena.bodyRoots d))) :
    P.Recalls k F F' c c'' := by
  have hkept {d : DefId} (hd : P.rank d < k) {n : ExprId}
      (hn : n ∈ c.trees (c.arena.bodyRoots d)) : c''.arena.expr n = c'.arena.expr n :=
    halters.expr n fun hmem => Set.disjoint_left.1 (hdisjoint d hd) hmem hn
  have hroot {d : DefId} {b : ExprId} (hb : (c.arena.definition d).body = .expression b) :
      b ∈ c.trees (c.arena.bodyRoots d) := mem_trees_self _ (Arena.mem_bodyRoots hb)
  refine ⟨h.toSameProgram.trans halters.toSameProgram, h.size.trans halters.size.ge, h.rank,
    fun d hd hnew n hn => (hkept (h.rank d hd hnew) hn).trans (h.bodies d hd hnew n hn),
    fun d hd hr b hb => (hkept hr (hroot hb)).trans (h.heads d hd hr b hb), fun d hd ty hty => ?_⟩
  rw [halters.toSameProgram.definitionType fun _ b hb => hkept hd (hroot (by
    rwa [h.definition] at hb))]
  exact h.steadfast d hd ty hty

theorem Recalls.still (h : P.Recalls k F F' c c') (hstill : c'.Alters ∅ c'') :
    P.Recalls k F F' c c'' :=
  h.altered hstill fun _ _ => Set.empty_disjoint _

/-- **An action repeats a part of a walk** of some trees, wherever that is remembered. -/
def Recurs (P : Prospect) (k : Nat) (F F' : List DefId) (c : Compilation) (ids : List ExprId)
    (again : WalkM Unit) : Prop :=
  ∀ c₂, P.Recalls k F F' c c₂ → (∀ id ∈ ids, c.Version c₂ id) → ∀ G, Resumes F F' G →
    Outcome again ⟨c₂, G⟩
      (fun _ w => c.Revisited c₂ w.unit ids ∧ Resumed F F' G w.finished) fun stop _ => stop = .cyclic

/-- Nothing changed but what was dealt with. -/
def Restores (F' : List DefId) (c : Compilation) (w : Walk) : Prop :=
  c.Alters ∅ w.unit ∧ ∀ d, d ∈ w.finished ↔ d ∈ F'

/-- An action stops with an error, as a part of a walk of some trees did. -/
def Refails (P : Prospect) (k : Nat) (F F' : List DefId) (c : Compilation) (ids : List ExprId)
    (again : WalkM Unit) : Prop :=
  ∀ c₂, P.Recalls k F F' c c₂ → (∀ n ∈ c.trees ids, c₂.arena.expr n = c.arena.expr n) →
    ∀ G, (∀ d, d ∈ G ↔ d ∈ F) →
    Outcome again ⟨c₂, G⟩ (fun _ _ => False) fun stop w => stop = .cyclic ∨ Restores F' c₂ w

/-- **Trees that can be walked again.** -/
def Settled (P : Prospect) (settings : Settings) (k : Nat) (F F' : List DefId) (c : Compilation)
    (ids : List ExprId) : Prop :=
  ∀ visit, P.Walker settings k visit → P.Recurs k F F' c ids (visitEach visit ids)

/-- **Trees that cannot be walked**, now as before. -/
def Barred (P : Prospect) (settings : Settings) (k : Nat) (F F' : List DefId) (c : Compilation)
    (ids : List ExprId) : Prop :=
  ∀ visit, P.Walker settings k visit → P.Refails k F F' c ids (visitEach visit ids)

/-! ## Trees one after the other -/

theorem Settled.nil (P : Prospect) (settings : Settings) (k : Nat) (F : List DefId)
    (c : Compilation) : P.Settled settings k F F c [] := by
  intro visit _ c₂ _ _ G _
  exact ⟨(Alters.refl ∅ c₂).revisited c [], .refl F G⟩

/-- What a part of a walk left is what it was when the walk ended. -/
structure Lasts (P : Prospect) (k : Nat) (F F₁ F' : List DefId) (c₁ c' : Compilation)
    (ids : List ExprId) : Prop extends Recalls P k F F₁ c₁ c' where
  rooted : c₁.Rooted ids
  echoes : c₁.Echoes ids c'
  start : F ⊆ F₁
  later : F₁ ⊆ F'

/-- **Trees one after the other** can be walked again. -/
theorem Settled.cons (h : P.Settled settings k F F₁ c₁ [id]) (h' : P.Settled settings k F₁ F' c ids)
    (hlasts : P.Lasts k F F₁ F' c₁ c [id]) (hlot : P.Lot c k (id :: ids)) :
    P.Settled settings k F F' c (id :: ids) := by
  intro visit hvisit c₂ hrecalls hversions G hG
  obtain ⟨hfirst, hrest⟩ := List.forall_mem_cons.1 hversions
  have hid : c.trees [id] = c₁.trees [id] := hlasts.echoes.trees
  have hdisjoint := hlot.toPlot.uncons.2.2
  have hversion : c₁.Version c₂ id := hfirst.of_echoes hlasts.echoes hlasts.rooted
  have hrecalls₁ := hlasts.toRecalls.trans hrecalls hlasts.later
  have hagain := h visit hvisit c₂ hrecalls₁ (by simpa using hversion) G (hG.first hlasts.later)
  simp only [visitEach, outcome_bind, outcome_pure] at hagain ⊢
  refine hagain.imp ?_
  rintro - ⟨c₃, G₁⟩ ⟨hrevisited, hresumed⟩
  -- The first tree was walked again, and the others are what they were before that.
  have hkept : ∀ n ∈ c.trees ids, c₃.arena.expr n = c₂.arena.expr n := fun n hn =>
    hrevisited.expr n fun hmem => Set.disjoint_left.1 hdisjoint (hid ▸ hmem) hn
  have hrecalls₂ : P.Recalls k F₁ F' c c₃ := by
    refine (hrecalls.part hlasts.start (List.Subset.refl F')).altered hrevisited.toAlters
      fun d hd => ?_
    exact (hlot.apart d hd).mono_left (hid ▸ trees_mono (by simp))
  have hversions₂ : ∀ n ∈ ids, c.Version c₃ n := fun n hn => (hrest n hn).congr fun m hm =>
    hkept m (trees_mono (by simpa using hn) hm)
  refine (h' visit hvisit c₃ hrecalls₂ hversions₂ G₁ (hG.next hlasts.later hresumed)).imp ?_
  rintro - ⟨c₄, G₂⟩ ⟨hrevisited', hresumed'⟩
  exact ⟨(hrevisited.echo hlasts.echoes hlasts.rooted).cons hrevisited' hdisjoint,
    hresumed.trans hresumed' hlasts.later⟩

/-- **The first tree** fails again. -/
theorem Barred.head (h : P.Barred settings k F F' c [id]) :
    P.Barred settings k F F' c (id :: ids) := by
  intro visit hvisit c₂ hrecalls hsame G hG
  have hfails := h visit hvisit c₂ hrecalls (fun n hn => hsame n (trees_mono (by simp) hn)) G hG
  simp only [visitEach, outcome_bind, outcome_pure] at hfails ⊢
  exact hfails.mono (fun _ _ => False.elim) fun _ _ h => h

/-- **One of the other trees** fails again, after the first one was walked. -/
theorem Barred.tail (h : P.Settled settings k F F₁ c₁ [id]) (h' : P.Barred settings k F₁ F' c ids)
    (hlasts : P.Lasts k F F₁ F' c₁ c [id]) : P.Barred settings k F F' c (id :: ids) := by
  intro visit hvisit c₂ hrecalls hsame G hG
  have hid : c.trees [id] = c₁.trees [id] := hlasts.echoes.trees
  have hsub : c.trees [id] ⊆ c.trees (id :: ids) := trees_mono (by simp)
  have hsame₁ : ∀ n ∈ c₁.trees [id], c₂.arena.expr n = c₁.arena.expr n := fun n hn => by
    rw [hsame n (hsub (hid ▸ hn)), hlasts.echoes.expr n hn]
  have hrecalls₁ := hlasts.toRecalls.trans hrecalls hlasts.later
  have hagain := h visit hvisit c₂ hrecalls₁ (by simpa using Version.same hsame₁) G (.inl hG)
  simp only [visitEach, outcome_bind, outcome_pure] at hagain ⊢
  refine hagain.mono ?_ fun _ _ => .inl
  rintro - ⟨c₃, G₁⟩ ⟨hrevisited, hresumed⟩
  have hstill : c₂.Alters ∅ c₃ := hrevisited.still hsame₁
  have hsame₃ : ∀ n ∈ c.trees ids, c₃.arena.expr n = c.arena.expr n := fun n hn => by
    rw [hstill.expr n (Set.notMem_empty n), hsame n (trees_mono (List.subset_cons_self id ids) hn)]
  have hrecalls₃ := (hrecalls.part hlasts.start (List.Subset.refl F')).still hstill
  refine (h' visit hvisit c₃ hrecalls₃ hsame₃ G₁ (hresumed.start hG)).mono
    (fun _ _ => False.elim) fun _ _ => ?_
  exact Or.imp_right fun h => ⟨hstill.trans h.1, h.2⟩

/-! ## Single trees -/

/-- An expression is walked again with success, up to a look at its type. -/
def KindRecurs (P : Prospect) (settings : Settings) (k : Nat) (F F' : List DefId)
    (c : Compilation) (id : ExprId) : Prop :=
  ∀ next child active, P.Onwards settings k next child active →
    ∀ c₂, P.Recalls k F F' c c₂ → c.Version c₂ id → ∀ G, Resumes F F' G →
    Outcome (visitKind settings next child active id (c₂.arena.expr id)) ⟨c₂, G⟩
      (fun _ w => c.Revisited c₂ w.unit [id] ∧ Resumed F F' G w.finished) fun stop _ => stop = .cyclic

/-- An expression fails again. -/
def KindRefails (P : Prospect) (settings : Settings) (k : Nat) (F F' : List DefId)
    (c : Compilation) (id : ExprId) : Prop :=
  ∀ next child active, P.Onwards settings k next child active →
    ∀ c₂, P.Recalls k F F' c c₂ → (∀ n ∈ c.trees [id], c₂.arena.expr n = c.arena.expr n) →
    ∀ G, (∀ d, d ∈ G ↔ d ∈ F) →
    Outcome (visitKind settings next child active id (c₂.arena.expr id)) ⟨c₂, G⟩
      (fun _ _ => False) fun stop w => stop = .cyclic ∨ Restores F' c₂ w

/-- **A tree can be walked again** if its root can, and declares nothing and has a native type. -/
theorem Settled.of_kind (h : P.KindRecurs settings k F F' c id)
    (hdeclared : (c.arena.expr id).declared = none)
    (hnative : (c.arena.expr id).ty.native = .yes) : P.Settled settings k F F' c [id] := by
  intro visit hvisit c₂ hrecalls hversions G hG
  have hversion : c.Version c₂ id := hversions id (List.mem_singleton_self id)
  have hid := c.mem_trees_self (List.mem_singleton_self id)
  simp only [visitEach, outcome_bind, outcome_pure]
  refine (hvisit id).outcome (fun next child active honwards => ?_) rfl
  rw [outcome_visitExpr]
  refine (h next child active honwards c₂ hrecalls hversion G hG).imp ?_
  rintro - ⟨c₃, G₁⟩ ⟨hrevisited, hresumed⟩
  have haccepted : (c₃.arena.expr id).declared = none ∧ (c₃.arena.expr id).ty.native = .yes := by
    rcases hrevisited.each id (List.mem_singleton_self id) with hkept | ⟨-, -, hback⟩
    · rw [hkept id hid]
      exact hversion.accepted hdeclared hnative
    · rw [hback id hid]
      exact ⟨hdeclared, hnative⟩
  rw [outcome_requireNative haccepted.1, if_pos haccepted.2]
  exact ⟨hrevisited, hresumed⟩

/-- A tree whose root is walked, and is refused for its type. -/
theorem Barred.of_type (h : P.KindRecurs settings k F F' c id)
    (hdeclared : (c.arena.expr id).declared = none)
    (hnative : (c.arena.expr id).ty.native ≠ .yes) : P.Barred settings k F F' c [id] := by
  intro visit hvisit c₂ hrecalls hsame G hG
  have hid := c.mem_trees_self (List.mem_singleton_self id)
  simp only [visitEach, outcome_bind, outcome_pure]
  refine (hvisit id).outcome (fun next child active honwards => ?_) (.inl rfl)
  rw [outcome_visitExpr]
  refine (h next child active honwards c₂ hrecalls (.same hsame) G (.inl hG)).mono ?_
    fun _ _ => .inl
  rintro - ⟨c₃, G₁⟩ ⟨hrevisited, hresumed⟩
  have hstill : c₂.Alters ∅ c₃ := hrevisited.still hsame
  have hroot : c₃.arena.expr id = c.arena.expr id := by
    rw [hstill.expr id (Set.notMem_empty id), hsame id hid]
  rw [outcome_requireNative (hroot ▸ hdeclared), if_neg (hroot ▸ hnative)]
  exact .inr ⟨hstill, hresumed.start hG⟩

/-- A tree whose root cannot be walked. -/
theorem Barred.of_kind (h : P.KindRefails settings k F F' c id) :
    P.Barred settings k F F' c [id] := by
  intro visit hvisit c₂ hrecalls hsame G hG
  simp only [visitEach, outcome_bind, outcome_pure]
  refine (hvisit id).outcome (fun next child active honwards => ?_) (.inl rfl)
  rw [outcome_visitExpr]
  exact (h next child active honwards c₂ hrecalls hsame G hG).mono (fun _ _ => False.elim)
    fun _ _ h => h

end Prospect

end Termwise
