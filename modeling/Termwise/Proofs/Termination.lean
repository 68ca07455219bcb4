import Termwise.Proofs.Concretization.Combing

/-!
# Concretization ends

Definitions may be used in their own bodies and in those of each other, and every use that is
replaced makes the tree larger that is being walked. What brings a walk to its end is that a body
is entered only while it is not being walked, and walked for itself only once: with each step into
a body fewer definitions are left. In between, a walk leaves a round only for two reasons. A minus
sign became a call, which is walked again; then no minus sign is left below it. Or an expression
that was already replaced in this round is met once more, on another path; then the walk goes on
in the tree that took its place, and in a tree no paths meet. So four rounds for each definition
that is left are enough.

The walk copies trees, asks whether they can be widened, and widens them. Each of these descends on
its own, as far as the table is large, and a tree that is deeper stops it as `Stop.cyclic`. Nothing
catches that stop, so a walk that ends has met no such tree.

## Main definitions

* `Arena.AcyclicBlocks`: no block is a part of itself
* `Walk.scope`: how many definitions are left
* `Walk.Affords`: the rounds that suffice for an expression
* `Walk.During`: what holds throughout a round, as long as no body is walked

## Main results

* `visitWithin_ends`: a round ends if the next ones do
* `concretizeAll_ends`: the walk of a program ends, however its definitions refer to each other
-/

namespace Termwise

open Compilation Walk

/-! ## Blocks -/

/-- The statements that a statement consists of. -/
def StatementKind.parts : StatementKind → List StmtId
  | .block ss => ss
  | _ => []

namespace Arena

variable {a : Arena} {s : StmtId} {depth : Nat}

/-- **No block is a part of itself.** -/
def AcyclicBlocks (a : Arena) : Prop := WellFounded fun t s => t ∈ (a.stmt s).kind.parts

/-- Blocks are nested in a statement to a depth. -/
def Nests (a : Arena) : (depth : Nat) → StmtId → Prop
  | 0, _ => False
  | depth + 1, s => ∀ t ∈ (a.stmt s).kind.parts, a.Nests depth t

theorem Nests.mono (h : a.Nests depth s) {depth' : Nat} (hle : depth ≤ depth') :
    a.Nests depth' s := by
  induction depth generalizing depth' s with
  | zero => exact h.elim
  | succ depth ih =>
    obtain ⟨depth', rfl⟩ := Nat.exists_eq_add_one.2 (Nat.zero_lt_of_lt hle)
    exact fun t ht => ih (h t ht) (by omega)

/-- Blocks are nested no deeper than there are statements in them. -/
theorem AcyclicBlocks.nests_card (ha : a.AcyclicBlocks) (s : StmtId) (S : Finset StmtId)
    (hS : ∀ t, Relation.ReflTransGen (fun s t => t ∈ (a.stmt s).kind.parts) s t → t ∈ S) :
    a.Nests S.card s := by
  induction ha.apply s generalizing S with
  | intro s _ ih =>
    rw [← Finset.card_erase_add_one (hS s .refl)]
    intro t ht
    refine ih t ht (S.erase s) fun k hk => Finset.mem_erase.2 ⟨?_, hS k (hk.head ht)⟩
    -- A part of a block does not contain the block.
    rintro rfl
    have hcycle : Relation.TransGen (fun t s => t ∈ (a.stmt s).kind.parts) k k :=
      Relation.transGen_swap.1 (Relation.TransGen.head' ht hk)
    exact (WellFounded.transGen ha).irrefl.irrefl k hcycle

theorem AcyclicBlocks.nests_size (ha : a.AcyclicBlocks)
    (hin : ∀ s, ∀ t ∈ (a.stmt s).kind.parts, t.index < a.stmts.size) (s : StmtId) :
    a.Nests (a.stmts.size + 1) s := by
  classical
  let S := insert s ((Finset.range a.stmts.size).image StmtId.mk)
  have hcard : S.card ≤ a.stmts.size + 1 := by
    refine (Finset.card_insert_le _ _).trans (Nat.succ_le_succ ?_)
    exact Finset.card_image_le.trans_eq (Finset.card_range _)
  refine (ha.nests_card s S fun t hpath => ?_).mono hcard
  rcases hpath.cases_tail with rfl | ⟨p, -, ht⟩
  · exact Finset.mem_insert_self ..
  · refine Finset.mem_insert_of_mem (Finset.mem_image.2 ⟨t.index, ?_, rfl⟩)
    exact Finset.mem_range.2 (hin p t ht)

/-- There are no parts outside the table. -/
theorem lt_size_of_mem_parts {t : StmtId} (ht : t ∈ (a.stmt s).kind.parts) :
    s.index < a.stmts.size := by
  by_contra hle
  rw [stmt, Array.getD_eq_getD_getElem?, Array.getElem?_eq_none (Nat.le_of_not_lt hle)] at ht
  cases ht

theorem InBounds.parts (h : a.InBounds) :
    ∀ s, ∀ t ∈ (a.stmt s).kind.parts, t.index < a.stmts.size := by
  intro s t ht
  have hs := lt_size_of_mem_parts ht
  have hstmt : (a.stmt s).kind.InBounds a := by
    refine h.stmts _ ?_
    rw [stmt, Array.getD_eq_getD_getElem?, Array.getElem?_eq_getElem hs]
    exact Array.getElem_mem hs
  cases hk : (a.stmt s).kind <;> rw [hk] at ht hstmt
  case block => exact hstmt t ht
  all_goals cases ht

/-- Blocks that consist of statements before them. -/
theorem acyclicBlocks_of_lt
    (h : ∀ i < a.stmts.size, ∀ t ∈ (a.stmt ⟨i⟩).kind.parts, t.index < i) : a.AcyclicBlocks := by
  refine Subrelation.wf (r := InvImage (· < ·) StmtId.index) ?_ (InvImage.wf _ Nat.lt_wfRel.wf)
  exact fun {_ s} ht => h s.index (lt_size_of_mem_parts ht) _ ht

end Arena

/-! ## Rounds -/

variable {settings : Settings} {next : Visitor} {child : ExprId → WalkM Unit}
  {active : List DefId} {w₀ w w' w'' : Walk} {id id₀ n x : ExprId} {d : DefId} {ids : List ExprId}
  {rounds : Nat}

namespace Walk

/-- **How many definitions are left**: those whose bodies are not being walked, and those whose
bodies were not walked yet. -/
def scope (w : Walk) (active : List DefId) : Nat :=
  w.unit.arena.remaining active + w.unit.arena.remaining w.finished

theorem Proceeds.scope_le (h : w.Proceeds w') (active : List DefId) :
    w'.scope active ≤ w.scope active := by
  have hle := h.remaining_le
  simp only [scope, remaining_eq h.unit.toSameProgram]
  omega

/-- Once a body was walked, fewer definitions are left. -/
theorem Proceeds.scope_lt (h : w.Proceeds w') (hne : w'.finished ≠ w.finished)
    (active : List DefId) : w'.scope active < w.scope active := by
  have hlt := h.finished.resolve_left hne
  simp only [scope, remaining_eq h.unit.toSameProgram]
  omega

/-- While one body more is being walked, fewer definitions are left. -/
theorem scope_cons_lt (hd : d.index < w.unit.arena.defs.size) (hnew : d ∉ active) :
    w.scope (d :: active) < w.scope active := by
  have hlt := Arena.remaining_cons_lt hd hnew
  simp only [scope]
  omega

/-- **The rounds that suffice for an expression**: four for each definition that is left, and one
more; another one unless it is a tree, and still another one while a minus sign waits in it. -/
def Affords (w : Walk) (rounds : Nat) (active : List DefId) (id : ExprId) : Prop :=
  4 * w.scope active + 3 ≤ rounds ∨ w.unit.Clear id ∧ 4 * w.scope active + 2 ≤ rounds ∨
    w.unit.Clear id ∧ w.unit.IsTree id ∧ 4 * w.scope active + 1 ≤ rounds

theorem Affords.le (h : w.Affords rounds active id) : 4 * w.scope active + 1 ≤ rounds := by
  rcases h with h | ⟨-, h⟩ | ⟨-, -, h⟩ <;> omega

theorem affords_of_lt {bound : Nat} (hlt : w.scope active < bound) (hle : 4 * bound ≤ rounds) :
    w.Affords rounds active id := .inl (by omega)

/-! ## Ends -/

/-- **A part of a walk ends**, with a value or an error. -/
def Ends {α : Type} (w : Walk) (action : WalkM α) : Prop :=
  Outcome action w (fun _ _ => True) fun stop _ => stop ≠ .cyclic

section

variable {α β : Type} {action : WalkM α} {first : WalkM β} {rest : β → WalkM α}
  {mid : β → Walk → Prop}

theorem ends_pure (a : α) : w.Ends (pure a) := trivial

theorem ends_fail (cause : Cause) (span : Span) :
    w.Ends (liftM (CheckM.fail cause span : CheckM α)) := by
  rw [Ends, outcome_lift]
  exact fun h => by cases h

/-- **Parts in sequence.** What the first one leaves behind, the second one starts from. -/
theorem Ends.bind (h : w.Ends first) (hcombs : w.Combs first mid)
    (hrest : ∀ b w', w.Proceeds w' → (w'.finished = w.finished → mid b w') → w'.Ends (rest b)) :
    w.Ends (first >>= rest) := by
  rw [Ends, outcome_bind]
  refine (Outcome.and h hcombs).mono ?_ fun _ _ h => h.1
  rintro b w' ⟨-, hproceeds, hmid⟩
  exact hrest b w' hproceeds hmid

theorem ends_lift {step : CheckM α} {ended : α → Compilation → Prop}
    (h : Outcome step w.unit ended w.unit.Errs) : w.Ends (liftM step) := by
  rw [Ends, outcome_lift]
  exact Outcome.mono h (fun _ _ _ => trivial) fun _ _ h => h.error

theorem ends_arena {rest : Arena → WalkM α} :
    w.Ends (liftM CheckM.arena >>= rest) ↔ w.Ends (rest w.unit.arena) := Iff.rfl

theorem ends_expr {rest : Expression → WalkM α} :
    w.Ends (liftM (CheckM.expr id) >>= rest) ↔ w.Ends (rest (w.unit.arena.expr id)) := Iff.rfl

theorem ends_get {rest : Walk → WalkM α} : w.Ends (get >>= rest) ↔ w.Ends (rest w) := Iff.rfl

theorem ends_definition {rest : Definition → WalkM α} :
    w.Ends (liftM (CheckM.definition d) >>= rest) ↔ w.Ends (rest (w.unit.arena.definition d)) :=
  Iff.rfl

/-- **A part of a walk comes to its end**, and what fails in it is reported. -/
def Completes {α : Type} (w : Walk) (action : WalkM α) : Prop :=
  Outcome action w (fun _ _ => True) fun _ _ => False

theorem completes_arena {rest : Arena → WalkM α} :
    w.Completes (liftM CheckM.arena >>= rest) ↔ w.Completes (rest w.unit.arena) := Iff.rfl

theorem report_completes {visit : WalkM Unit} (h : w.Ends visit) :
    w.Completes (do WalkM.reportOutcome (← WalkM.attempt visit)) := by
  rw [Completes, outcome_bind, outcome_walk_attempt]
  refine Outcome.mono h (fun _ _ _ => trivial) ?_
  rintro (e | _) w' hstop
  · exact trivial
  · exact hstop rfl

end

end Walk

/-- Every handle is in the tables, no expression lies below itself, and blocks are not nested too
deep. -/
structure Compilation.Sober (c : Compilation) : Prop extends Upright c where
  nests : ∀ s, c.arena.Nests (c.arena.stmts.size + 1) s

theorem Compilation.SameProgram.nests {c c' : Compilation} (h : c.SameProgram c') {depth : Nat}
    {s : StmtId} (hs : c.arena.Nests depth s) : c'.arena.Nests depth s := by
  induction depth generalizing s with
  | zero => exact hs
  | succ depth ih =>
    intro t ht
    rw [h.stmt] at ht
    exact ih (hs t ht)

theorem Walk.Proceeds.sober (h : w.Proceeds w') (hw : w.unit.Sober) : w'.unit.Sober where
  toUpright := h.unit.upright hw.toUpright
  nests s := by
    rw [h.unit.stmts]
    exact h.unit.toSameProgram.nests (hw.nests s)

/-- **A walk with so many rounds** ends wherever these suffice. -/
structure Visitor.Suffices (v : Visitor) (rounds : Nat) : Prop where
  expr : ∀ (active : List DefId) (id : ExprId) (w : Walk), w.unit.Sober →
    w.Affords rounds active id → w.Ends (v.expr active id)
  statement : ∀ (active : List DefId) (s : StmtId) (w : Walk), w.unit.Sober →
    4 * w.scope active + 4 ≤ rounds → w.Completes (v.statement active s)

/-! ## Bodies -/

/-- **The body of a definition**: fewer definitions are left while it is walked. -/
theorem visitDefinition_ends (hnext : next.Suffices rounds) (d : DefId) (hw : w.unit.Sober)
    (hle : 4 * w.scope active ≤ rounds) : w.Ends (visitDefinition next active d) := by
  rw [visitDefinition, ends_definition]
  split <;> rename_i hbody
  · exact ends_pure ()
  · exact ends_pure ()
  · rename_i s
    rw [ends_get]
    split
    · exact ends_pure ()
    · rename_i hnew
      have hd : d.index < w.unit.arena.defs.size := Arena.lt_size_of_body_ne (by simp [hbody])
      obtain ⟨-, hlt⟩ := (Proceeds.refl w).finish hd (by simpa using hnew)
      rw [Ends, outcome_bind, outcome_finish]
      refine Outcome.mono (hnext.statement active s _ hw ?_) (fun _ _ _ => trivial) fun _ _ =>
        False.elim
      have hscope : w.scope active =
        w.unit.arena.remaining active + w.unit.arena.remaining w.finished := rfl
      show 4 * (w.unit.arena.remaining active + w.unit.arena.remaining (d :: w.finished)) + 4 ≤ _
      omega
  · rename_i b
    rw [ends_get]
    split
    · exact ends_pure ()
    · rename_i hnew
      have hd : d.index < w.unit.arena.defs.size := Arena.lt_size_of_body_ne (by simp [hbody])
      simp only [Bool.or_eq_true, List.contains_iff_mem, not_or] at hnew
      have haffords : w.Affords rounds (d :: active) b :=
        affords_of_lt (scope_cons_lt hd hnew.2) hle
      rw [Ends, outcome_bind, outcome_walk_attempt]
      refine (hnext.expr (d :: active) b w hw haffords).mono (fun _ _ _ => trivial) ?_
      rintro (e | _) w' hstop
      · exact fun h => by cases h
      · exact absurd rfl hstop

theorem trySubstitute_ends (hnext : next.Suffices rounds) (hw : w.unit.Sober)
    (hd : (w.unit.arena.expr id).kind.definition? = some d)
    (hle : 4 * w.scope active ≤ rounds) :
    w.Ends (trySubstitute settings next active id d) := by
  rw [trySubstitute]
  split
  · exact ends_pure false
  · rename_i hactive
    have hnot : d ∉ active := by simpa using hactive
    rw [Ends, outcome_bind, outcome_lift]
    refine (substitute_grafts settings hw.toUpright hd).mono ?_ fun _ _ => False.elim
    rintro (_ | _) c' ⟨hgrafted, -⟩
    · exact ends_pure false
    · -- The use took a tree, which is walked as a body.
      obtain ⟨xs, h⟩ := hgrafted rfl
      have hproceeds : w.Proceeds ⟨c', w.finished⟩ := proceeds_step (h.proceeds hw.toUpright)
      have hdef : d.index < c'.arena.defs.size := by
        rw [h.defs]
        exact hw.uses id d hd
      have haffords : Affords ⟨c', w.finished⟩ rounds (d :: active) id :=
        affords_of_lt ((scope_cons_lt hdef hnot).trans_le (hproceeds.scope_le active)) hle
      have hvisit := hnext.expr (d :: active) id _ (hproceeds.sober hw) haffords
      show Ends _ _
      rw [Ends, if_pos rfl, outcome_bind]
      exact Outcome.imp hvisit fun _ _ _ => trivial

/-! ## Within a round -/

/-- **What holds throughout a round** that began with an expression, of some expressions that are
still to be walked, as long as no body is walked: no minus sign came about, and if the round began
with a tree in which none waited, then nothing changed below these expressions. -/
structure Walk.During (w₀ : Walk) (id₀ : ExprId) (ids : List ExprId) (w : Walk) : Prop where
  proceeds : w₀.Proceeds w
  negated : w.finished = w₀.finished → ∀ n x, (w.unit.arena.expr n).kind = .negated x →
    (w₀.unit.arena.expr n).kind = .negated x
  kept : w.finished = w₀.finished → w₀.unit.Clear id₀ → w₀.unit.IsTree id₀ →
    ∃ xs, w₀.unit.arena.Forest ids xs ∧ xs.Nodup ∧ ∀ n ∈ xs, n.index < w₀.unit.arena.exprs.size ∧
      (w.unit.arena.expr n).kind.children = (w₀.unit.arena.expr n).kind.children

namespace Walk.During

/-- What a round begins with. -/
theorem start (hw : w.unit.Upright) (hid : id.index < w.unit.arena.exprs.size) :
    w.During id [id] w where
  proceeds := .refl w
  negated _ _ _ h := h
  kept := by
    rintro - - ⟨xs, hforest, hnodup⟩
    refine ⟨xs, hforest, hnodup, fun n hn => ⟨?_, rfl⟩⟩
    obtain ⟨root, hroot, hpath⟩ := hforest.exists_root hn
    obtain rfl := List.mem_singleton.1 hroot
    exact hw.lt_size_of_below hid hpath

/-- What changes no tree is done in between. -/
theorem retouched (h : w₀.During id₀ ids w) (hproceeds : w.Proceeds w')
    (hretouches : w'.finished = w.finished → w.unit.Retouches w'.unit) :
    w₀.During id₀ ids w' where
  proceeds := h.proceeds.trans hproceeds
  negated heq n x hn := by
    have heq₁ := h.proceeds.finished_eq hproceeds heq
    exact h.negated heq₁ n x ((hretouches (heq.trans heq₁.symm)).negated n x hn)
  kept heq hclear htree := by
    have heq₁ := h.proceeds.finished_eq hproceeds heq
    obtain ⟨xs, hforest, hnodup, hxs⟩ := h.kept heq₁ hclear htree
    refine ⟨xs, hforest, hnodup, fun n hn => ⟨(hxs n hn).1, ?_⟩⟩
    exact ((hretouches (heq.trans heq₁.symm)).trees.children n).trans (hxs n hn).2

/-- What lies below an expression is walked after it. -/
theorem children (h : w₀.During id₀ [id] w) :
    w₀.During id₀ (w.unit.arena.expr id).kind.children w where
  proceeds := h.proceeds
  negated := h.negated
  kept heq hclear htree := by
    obtain ⟨xs, hforest, hnodup, hxs⟩ := h.kept heq hclear htree
    obtain ⟨below, rfl, hbelow⟩ := hforest.exists_tree
    obtain ⟨hid, hxs⟩ := List.forall_mem_cons.1 hxs
    rw [hid.2]
    exact ⟨below, hbelow, hnodup.of_cons, hxs⟩

/-- The first of some expressions. -/
theorem head (h : w₀.During id₀ (id :: ids) w) : w₀.During id₀ [id] w where
  proceeds := h.proceeds
  negated := h.negated
  kept heq hclear htree := by
    obtain ⟨xs, hforest, hnodup, hxs⟩ := h.kept heq hclear htree
    obtain ⟨below, rest, rfl, hbelow, -⟩ := hforest.exists_cons
    rw [← List.cons_append] at hnodup hxs
    exact ⟨id :: below, hbelow.tree, (List.nodup_append'.1 hnodup).1,
      fun n hn => hxs n (List.mem_append_left rest hn)⟩

/-- **The others**, once the first one was walked: its tree was beside theirs. -/
theorem tail (h : w₀.During id₀ (id :: ids) w) (hproceeds : w.Proceeds w')
    (hcombed : w'.finished = w.finished → Combed [id] w.unit w'.unit) :
    w₀.During id₀ ids w' where
  proceeds := h.proceeds.trans hproceeds
  negated heq n x hn := by
    have heq₁ := h.proceeds.finished_eq hproceeds heq
    exact h.negated heq₁ n x ((hcombed (heq.trans heq₁.symm)).negated n x hn)
  kept heq hclear htree := by
    have heq₁ := h.proceeds.finished_eq hproceeds heq
    have hcombed := hcombed (heq.trans heq₁.symm)
    obtain ⟨xs, hforest, hnodup, hxs⟩ := h.kept heq₁ hclear htree
    obtain ⟨below, rest, rfl, hbelow, hrest⟩ := hforest.exists_cons
    rw [← List.cons_append] at hnodup hxs
    obtain ⟨-, hnodup₂, hdisjoint⟩ := List.nodup_append'.1 hnodup
    refine ⟨rest, hrest, hnodup₂, fun n hn => ?_⟩
    obtain ⟨hlt, hsame⟩ := hxs n (List.mem_append_right _ hn)
    refine ⟨hlt, ?_⟩
    rw [← hsame]
    refine hcombed.aside n (hlt.trans_le h.proceeds.unit.toBranches.size) fun m hm hpath => ?_
    obtain rfl := List.mem_singleton.1 hm
    rcases h.proceeds.unit.toBranches.below_or hpath with hpath | hnew
    · exact hdisjoint (hbelow.tree.mem_of_reaches List.mem_cons_self hpath) hn
    · exact Nat.not_le.2 hlt hnew

end Walk.During

/-- What lies directly below an expression is walked to its end, whatever was done in this round. -/
def ChildrenEnd (child : ExprId → WalkM Unit) (w₀ : Walk) (id₀ : ExprId) (w : Walk)
    (ids : List ExprId) : Prop :=
  ∀ n ∈ ids, ∀ w', w.Proceeds w' → w₀.During id₀ [n] w' → w'.Ends (child n)

theorem visitEach_ends (hcombs : CombsExprs child) (hchild : ChildrenEnd child w₀ id₀ w ids)
    (hw : w.unit.Upright) (hduring : w₀.During id₀ ids w) : w.Ends (visitEach child ids) := by
  induction ids generalizing w with
  | nil => exact ends_pure ()
  | cons n ids ih =>
    obtain ⟨hn, hids⟩ := List.forall_mem_cons.1 hchild
    rw [visitEach]
    refine (hn w (.refl w) hduring.head).bind (hcombs n w hw) fun _ w₁ h₁ hcombed => ?_
    refine ih (fun m hm w' h' => hids m hm w' (h₁.trans h')) (h₁.unit.upright hw) ?_
    exact hduring.tail h₁ hcombed

/-! ## Kinds of expressions -/

theorem visitReference_ends (hnext : next.Suffices rounds) (hcombing : next.Combing)
    (hw : w.unit.Sober) (hd : (w.unit.arena.expr id).kind.definition? = some d)
    (hle : 4 * w.scope active ≤ rounds) :
    w.Ends (visitReference settings next active id d) := by
  rw [visitReference]
  refine (trySubstitute_ends hnext hw hd hle).bind
    (trySubstitute_combs hcombing active hw.toUpright hd) fun replaced w₁ h₁ _ => ?_
  cases replaced with
  | true => exact ends_pure ()
  | false =>
    have hw₁ := h₁.sober hw
    have hle₁ : 4 * w₁.scope active ≤ rounds := by
      have := h₁.scope_le active
      omega
    refine (visitDefinition_ends hnext d hw₁ hle₁).bind
      (visitDefinition_combs hcombing active d hw₁.toUpright) fun _ w₂ _ _ => ?_
    exact ends_lift (typeReference_retouches id d)

theorem visitCall_ends {args : List ExprId} (hnext : next.Suffices rounds)
    (hcombing : next.Combing) (hcombs : CombsExprs child) (hw : w.unit.Sober)
    (hk : (w.unit.arena.expr id).kind = .call d args) (hle : 4 * w.scope active ≤ rounds)
    (hduring : w₀.During id₀ [id] w) (hchild : ChildrenEnd child w₀ id₀ w args) :
    w.Ends (visitCall settings next child active id d args) := by
  have hd : (w.unit.arena.expr id).kind.definition? = some d := by
    rw [hk]
    rfl
  have hargs : w₀.During id₀ args w := by
    have := hduring.children
    rwa [hk] at this
  simp only [visitCall, ends_arena]
  split
  · exact ends_fail _ _
  · -- What follows an attempt to replace the call that changed no table.
    have hrest {w₁ : Walk} {calleeType : Ty} (h₁ : w.Proceeds w₁)
        (hretouches : w₁.finished = w.finished → w.unit.Retouches w₁.unit) : w₁.Ends (do
          visitDefinition next active d
          visitEach child args
          liftM (typeCall id calleeType args)) := by
      have hw₁ := h₁.sober hw
      have hle₁ : 4 * w₁.scope active ≤ rounds := by
        have := h₁.scope_le active
        omega
      refine (visitDefinition_ends hnext d hw₁ hle₁).bind
        (visitDefinition_combs hcombing active d hw₁.toUpright) fun _ w₂ h₂ hsame => ?_
      have hw₂ := h₂.sober hw₁
      have hduring₂ : w₀.During id₀ args w₂ := by
        refine (hargs.retouched h₁ hretouches).retouched h₂ fun heq => ?_
        rw [hsame heq]
        exact .refl w₁.unit
      refine (visitEach_ends hcombs (fun n hn w' h' => hchild n hn w' ((h₁.trans h₂).trans h'))
        hw₂.toUpright hduring₂).bind (visitEach_combs hcombs args hw₂.toUpright) ?_
      intro _ w₃ h₃ _
      exact ends_lift (typeCall_retouches id _ args (h₃.unit.upright hw₂.toUpright))
    split
    · refine (trySubstitute_ends hnext hw hd hle).bind
        (trySubstitute_combs hcombing active hw.toUpright hd) fun replaced w₁ h₁ hreplaced => ?_
      cases replaced with
      | true => exact ends_pure ()
      | false => exact hrest h₁ fun heq => ((hreplaced heq).2 rfl).1
    · exact hrest (.refl w) fun _ => .refl w.unit

/-- **A minus sign** becomes a call, and no minus sign is left below that. -/
theorem visitNegation_ends (hnext : next.Suffices rounds) (hcombs : CombsExprs child)
    (hw : w.unit.Sober) (hround : w₀.Affords (rounds + 1) active id₀)
    (hid₀ : w₀.unit.Below id₀ id) (hduring : w₀.During id₀ [id] w)
    (hk : (w.unit.arena.expr id).kind = .negated x)
    (hchild : ChildrenEnd child w₀ id₀ w [x]) :
    w.Ends (visitNegation next child active id x) := by
  have hx : (w.unit.arena.expr id).kind.children = [x] := by
    rw [hk]
    rfl
  have hoperand : w₀.During id₀ [x] w := hx ▸ hduring.children
  rw [visitNegation]
  refine (hchild x (List.mem_singleton_self x) w (.refl w) hoperand).bind
    (hcombs x w hw.toUpright) fun _ w₁ h₁ hcombed => ?_
  have hw₁ := h₁.sober hw
  have hx₁ : (w₁.unit.arena.expr id).kind.children = [x] := by
    rw [h₁.unit.children_eq (by simp [hx]), hx]
  have hcall := callNegation_retouches hw₁.toUpright hx₁
  have hstep := combs_lift
    (fun _ c => w₁.unit.Retouches c ∧ ∀ y, (c.arena.expr id).kind ≠ .negated y)
    (hcall.mono (fun _ _ h => ⟨h.1.proceeds, h⟩) fun _ _ h => h.retouches.proceeds)
  refine (ends_lift hcall).bind hstep fun _ w₂ h₂ hcalled => ?_
  have hproceeds := (h₁.trans h₂)
  apply hnext.expr active id w₂ (hproceeds.sober hw)
  have hle := hround.le
  have hscope := hduring.proceeds.scope_le active
  by_cases heq : w₂.finished = w₀.finished
  · have heq₀ : w.finished = w₀.finished := hduring.proceeds.finished_eq hproceeds heq
    have heq₁ : w₁.finished = w.finished := h₁.finished_eq h₂ (heq.trans heq₀.symm)
    have heq₂ : w₂.finished = w₁.finished := heq.trans (heq₁.trans heq₀).symm
    -- The minus sign was there when the round began.
    have hwaits : ¬ w₀.unit.Clear id₀ := fun hclear =>
      hclear id hid₀ x (hduring.negated heq₀ id x hk)
    obtain ⟨hretouches, hid⟩ := hcalled heq₂
    have hclear : w₂.unit.Clear id := by
      refine clear_of_children hid fun n hn => ?_
      rw [hretouches.trees.children, hx₁] at hn
      have hclear₁ := (hcombed heq₁).clear n hn
      exact hclear₁.of_branches hretouches.proceeds.toBranches hretouches.negated
    refine .inr (.inl ⟨hclear, ?_⟩)
    have hrounds : 4 * w₀.scope active + 3 ≤ rounds + 1 :=
      hround.resolve_right fun h => h.elim (hwaits ·.1) (hwaits ·.1)
    have := hproceeds.scope_le active
    omega
  · have := (hduring.proceeds.trans hproceeds).scope_lt heq active
    exact affords_of_lt this (by omega)

/-- **An expression.** -/
theorem visitExpr_ends (hnext : next.Suffices rounds) (hcombing : next.Combing)
    (hcombs : CombsExprs child) (hw : w.unit.Sober)
    (hround : w₀.Affords (rounds + 1) active id₀) (hid₀ : w₀.unit.Below id₀ id)
    (hduring : w₀.During id₀ [id] w)
    (hchild : ChildrenEnd child w₀ id₀ w (w.unit.arena.expr id).kind.children) :
    w.Ends (visitExpr settings next child active id) := by
  have hle : 4 * w.scope active ≤ rounds := by
    have := hround.le
    have := hduring.proceeds.scope_le active
    omega
  rw [visitExpr, ends_expr]
  have hfinish {visit : WalkM Unit} {mid : Unit → Walk → Prop} (hvisit : w.Ends visit)
      (hcombs : w.Combs visit mid) : w.Ends (do
        visit
        liftM (honourDeclared id)
        liftM (requireNative id)) := by
    refine hvisit.bind hcombs fun _ w₁ h₁ _ => ?_
    have hhonour := honourDeclared_retouches id (h₁.unit.upright hw.toUpright)
    refine (ends_lift hhonour).bind (combs_retouches hhonour) fun _ w₂ _ _ => ?_
    exact ends_lift (requireNative_retouches id)
  split <;> rename_i hk
  · have hvalue := concretizeValue_retouches id hw.toUpright
    exact hfinish (ends_lift hvalue) (combs_retouches hvalue)
  · exact hfinish (visitReference_ends hnext hcombing hw (by rw [hk]; rfl) hle)
      (visitReference_combs hcombing active hw.toUpright (.inl hk))
  · exact hfinish (visitReference_ends hnext hcombing hw (by rw [hk]; rfl) hle)
      (visitReference_combs hcombing active hw.toUpright (.inr hk))
  · rw [hk] at hchild
    exact hfinish (visitCall_ends hnext hcombing hcombs hw hk hle hduring hchild)
      (visitCall_combs hcombing hcombs active hw.toUpright hk)
  · rw [hk] at hchild
    exact hfinish (visitNegation_ends hnext hcombs hw hround hid₀ hduring hk hchild)
      (visitNegation_combs hcombing hcombs active hw.toUpright hk)
  all_goals exact ends_fail _ _

/-! ## Whole rounds -/

/-- **What was appended in this round** is walked in the next one: it is a tree without a minus
sign, and the round did not begin with one. -/
theorem affords_of_new (hround : w₀.Affords (rounds + 1) active id₀)
    (hduring : w₀.During id₀ [n] w) (hn : w₀.unit.arena.exprs.size ≤ n.index) :
    w.Affords rounds active n := by
  have hle := hround.le
  by_cases heq : w.finished = w₀.finished
  · have hclear : w.unit.Clear n := by
      intro m hm x hx
      have hnew := hduring.proceeds.unit.toBranches.size_le_of_below hn hm
      have hold := hduring.negated heq m x hx
      rw [Arena.expr_of_size_le hnew] at hold
      cases hold
    refine .inr (.inr ⟨hclear, hduring.proceeds.unit.isTree hn, ?_⟩)
    have hscope := hduring.proceeds.scope_le active
    rcases hround with h | ⟨-, h⟩ | ⟨hclear₀, htree₀, -⟩
    · omega
    · omega
    · -- In a tree, nothing is met that was replaced before.
      obtain ⟨xs, hforest, -, hxs⟩ := hduring.kept heq hclear₀ htree₀
      have := (hxs n (hforest.subset (List.mem_singleton_self n))).1
      omega
  · exact affords_of_lt (hduring.proceeds.scope_lt heq active) (by omega)

/-- **A round** ends if the next ones do, and its descent is deep enough. -/
theorem visitWithin_ends (hnext : next.Suffices rounds) (hcombing : next.Combing)
    (hround : w₀.Affords (rounds + 1) active id₀) (depth : Nat) (hw : w.unit.Sober)
    (hid₀ : w₀.unit.Below id₀ id) (hduring : w₀.During id₀ [id] w)
    (hdepth : w₀.unit.arena.Shallow (fun _ => True) depth id) :
    w.Ends (visitWithin settings next active w₀.unit.arena.exprs.size depth id) := by
  -- On the depth: along old expressions, the paths are those of the beginning of the round.
  induction depth generalizing id w with
  | zero => exact hdepth.elim
  | succ depth ih =>
    refine visitExpr_ends hnext hcombing (fun n => ?_) hw hround hid₀ hduring ?_
    · split
      · exact visitWithin_combs hcombing active _ depth n
      · exact hcombing.expr active n
    · intro n hn w' h' hduring'
      have hw' := h'.sober hw
      dsimp only
      split
      · rename_i hlt
        have hold := hduring.proceeds.unit.toBranches.mem_children hn hlt
        exact ih hw' (hid₀.tail hold) hduring' (hdepth.2.2 n hold)
      · rename_i hge
        exact hnext.expr active n w' hw' (affords_of_new hround hduring' (Nat.le_of_not_lt hge))

/-! ## Statements -/

theorem each_completes {visit : StmtId → WalkM Unit} (hcombs : CombsStatements visit)
    (ss : List StmtId) (hw : w.unit.Upright)
    (hvisit : ∀ s ∈ ss, ∀ w', w.Proceeds w' → w'.Completes (visit s)) :
    w.Completes (visitStatementWithin.each visit ss) := by
  induction ss generalizing w with
  | nil => exact trivial
  | cons s ss ih =>
    obtain ⟨hs, hss⟩ := List.forall_mem_cons.1 hvisit
    rw [visitStatementWithin.each, Completes, outcome_bind]
    refine (Outcome.and (hs w (.refl w)) (hcombs s w hw)).mono ?_ fun _ _ h => h.1
    rintro _ w₁ ⟨-, h₁, -⟩
    exact ih (h₁.unit.upright hw) fun t ht w' h' => hss t ht w' (h₁.trans h')

/-- **A statement**: blocks are walked to their depth, and errors go no further than their
statements. -/
theorem visitStatementWithin_completes (hnext : next.Suffices rounds) (hcombing : next.Combing)
    (depth : Nat) {s : StmtId} (hw : w.unit.Sober) (hle : 4 * w.scope active + 3 ≤ rounds)
    (hnests : w.unit.arena.Nests depth s) :
    w.Completes (visitStatementWithin next active depth s) := by
  induction depth generalizing s w with
  | zero => exact hnests.elim
  | succ depth ih =>
    rw [visitStatementWithin, completes_arena]
    split <;> rename_i hk
    · exact report_completes (hnext.expr active _ w hw (.inl hle))
    · exact report_completes (hnext.expr active _ w hw (.inl hle))
    · exact report_completes (visitDefinition_ends hnext _ hw (by omega))
    · refine each_completes (visitStatementWithin_combs hcombing active depth) _ hw.toUpright ?_
      intro t ht w' h'
      have hscope := h'.scope_le active
      refine ih (h'.sober hw) (by omega) (h'.unit.toSameProgram.nests (hnests t ?_))
      rw [hk]
      exact ht
    all_goals exact trivial

/-! ## Programs -/

/-- **So many rounds suffice.** -/
theorem visitor_suffices (settings : Settings) (rounds : Nat) :
    (visitor settings rounds).Suffices rounds := by
  induction rounds with
  | zero => exact ⟨fun _ _ _ _ h => absurd h.le (by omega), fun _ _ _ _ h => absurd h (by omega)⟩
  | succ rounds ih =>
    have hcombing := visitor_combs settings rounds
    constructor
    · intro active id w hw hround
      simp only [visitor, ends_arena]
      by_cases hid : id.index < w.unit.arena.exprs.size
      · have hshallow : w.unit.arena.Shallow (fun _ => True) w.unit.arena.exprs.size id :=
          Arena.shallow_size (hw.acyclic.apply id) fun n hn =>
            ⟨hw.toUpright.lt_size_of_below hid hn, trivial⟩
        exact visitWithin_ends ih hcombing hround _ hw .refl (.start hw.toUpright hid)
          (hshallow.mono (Nat.le_succ _))
      · -- There is nothing outside the table.
        rw [visitWithin, visitExpr, ends_expr, Arena.expr_of_size_le (Nat.le_of_not_lt hid)]
        exact ends_fail _ _
    · intro active s w hw hle
      simp only [visitor, completes_arena]
      exact visitStatementWithin_completes ih hcombing _ hw (by omega) (hw.nests s)

theorem Compilation.Intact.sober {c : Compilation} (h : c.Intact)
    (hblocks : c.arena.AcyclicBlocks) : c.Sober where
  toUpright := h.upright
  nests := hblocks.nests_size h.arena.parts

/-- **Concretization ends** for every program without cycles among its expressions and its blocks,
whether its definitions are put in or not, and however they refer to themselves and to each other:
by references, calls with or without arguments, and the statements in their bodies. No descent runs
out on the way, be it that of the walk, of a copy or of a widening. -/
theorem concretizeAll_ends {c : Compilation} (settings : Settings) (h : c.Intact)
    (hblocks : c.arena.AcyclicBlocks) :
    ∃ valid c', concretizeAll settings c = .ok valid c' := by
  have hsuffices := visitor_suffices settings c.arena.rounds
  have hcombing := visitor_combs settings c.arena.rounds
  have hsober := h.sober hblocks
  have heach : Walk.Completes ⟨c, []⟩ (visitStatementWithin.each
      ((visitor settings c.arena.rounds).statement []) c.arena.roots) := by
    refine each_completes (hcombing.statement []) _ hsober.toUpright fun s _ w hw => ?_
    refine hsuffices.statement [] s w (hw.sober hsober) ?_
    -- Each definition is left twice: no body is being walked, and none was.
    have hscope := hw.scope_le []
    have hactive : (⟨c, []⟩ : Walk).scope [] = c.arena.remaining [] + c.arena.remaining [] := rfl
    have hle := c.arena.remaining_le []
    have hrounds : c.arena.rounds = 12 * (c.arena.defs.size + 1) := rfl
    omega
  have hends : Outcome (concretizeAll settings) c (fun _ _ => True) fun _ _ => False := by
    simp only [concretizeAll, outcome_bind, outcome_arena, outcome_runWalk, outcome_get]
    exact heach
  obtain ⟨valid, c', hok, -⟩ := hends.exists_ok
  exact ⟨valid, c', hok⟩

/-- Definitions that use each other, `d = 1 + e` and `e = -d()`, and one whose body is a block that
makes `d` known and uses the definition itself. -/
def mutualUses : Compilation :=
  { Compilation.new with
    arena :=
      { exprs := #[.new (.value (.int 1)) .int .origin, .new (.reference ⟨10⟩) .number .origin,
          .new (.call ⟨1⟩ [⟨0⟩, ⟨1⟩]) .number .origin, .new (.call ⟨9⟩ []) .number .origin,
          .new (.negated ⟨3⟩) .number .origin, .new (.reference ⟨11⟩) .number .origin]
        defs := Builtins.definitions.toArray ++ #[⟨"d", .expression ⟨2⟩, none, none, .origin⟩,
          ⟨"e", .expression ⟨4⟩, none, none, .origin⟩,
          ⟨"f", .statement ⟨2⟩, none, none, .origin⟩]
        stmts := #[⟨.bind ⟨9⟩, .origin⟩, ⟨.expression ⟨5⟩, .origin⟩,
          ⟨.block [⟨0⟩, ⟨1⟩], .origin⟩, ⟨.bind ⟨10⟩, .origin⟩, ⟨.bind ⟨11⟩, .origin⟩]
        roots := [⟨3⟩, ⟨4⟩] } }

theorem intact_mutualUses : mutualUses.Intact where
  arena :=
    { children := by simp [mutualUses, Expression.new, ExprKind.children]
      uses := by simp [mutualUses, Expression.new, ExprKind.definition?, Builtins.definitions]
      defs := by simp [mutualUses, Builtins.definitions, Builtins.entry, Body.InBounds]
      stmts := by simp [mutualUses, StatementKind.InBounds, Builtins.definitions]
      roots := by simp [mutualUses] }
  builtins name d hd := (Builtins.lt_of_mem_positions hd).trans_le (by decide)
  queue := nofun
  acyclic := Arena.acyclic_of_lt (by decide)

theorem concretizeAll_ends_mutualUses :
    mutualUses.Intact ∧ mutualUses.arena.AcyclicBlocks ∧
      (∃ valid c', concretizeAll {} mutualUses = .ok valid c') ∧
      ∃ valid c', concretizeAll { debugNoInline := true } mutualUses = .ok valid c' := by
  have hblocks : mutualUses.arena.AcyclicBlocks := Arena.acyclicBlocks_of_lt (by decide)
  exact ⟨intact_mutualUses, hblocks, concretizeAll_ends _ intact_mutualUses hblocks,
    concretizeAll_ends _ intact_mutualUses hblocks⟩

end Termwise
