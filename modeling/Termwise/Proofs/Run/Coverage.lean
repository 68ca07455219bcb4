import Termwise.Proofs.Run.Locality

/-!
# The places of built calls

A call that the resolver builds stands at the smallest place over what it is built of: a function
and its arguments, an operator and the operand behind it, or the two sides of a binary operator. If
the places of a run cover those of its parts to begin with, then so do the places of all calls that
are built, at every depth, whatever was cast or reused for them.

The one exception is an operator behind its operand. Its call stands at the place of the operator
alone, in front of which its operand lies.

## Main definitions

* `Compilation.SpansChildren`: an expression covers what lies directly below it
* `Compilation.Trails`: a call that stands at the place of an operator behind its operand
* `Compilation.Laid`: the expressions of a set are laid out, up to such calls
* `layout`: the custody of a run whose calls are laid out

## Main results

* `resolve_covers`: a built call covers its arguments unless it trails its operand
* `resolve_not_covers`: a call that trails its operand does not cover it
-/

namespace Termwise

open Compilation

/-! ## Places -/

namespace Span

variable {r s t : Span} {α : Type}

theorem Covers.merge (hs : r.Covers s) (ht : r.Covers t) : r.Covers (s.merge t) := by
  obtain ⟨hs, hs'⟩ := hs
  obtain ⟨ht, ht'⟩ := ht
  constructor <;> simp only [Span.merge] <;> omega

theorem Covers.foldl_merge {f : α → Span} {l : List α} (hs : r.Covers s)
    (hl : ∀ a ∈ l, r.Covers (f a)) : r.Covers (l.foldl (fun s a => s.merge (f a)) s) := by
  induction l generalizing s with
  | nil => exact hs
  | cons a l ih =>
    obtain ⟨ha, hl⟩ := List.forall_mem_cons.1 hl
    exact ih (hs.merge ha) hl

theorem foldl_merge_covers_start (f : α → Span) (l : List α) (s : Span) :
    (l.foldl (fun s a => s.merge (f a)) s).Covers s := by
  induction l generalizing s with
  | nil => exact .refl s
  | cons a l ih => exact (ih _).trans (merge_covers_left s (f a))

theorem foldl_merge_covers_mem (f : α → Span) {l : List α} {a : α} (ha : a ∈ l) (s : Span) :
    (l.foldl (fun s a => s.merge (f a)) s).Covers (f a) := by
  induction l generalizing s with
  | nil => cases ha
  | cons b l ih =>
    rcases List.mem_cons.1 ha with rfl | ha
    · exact (foldl_merge_covers_start f l _).trans (merge_covers_right s (f a))
    · exact ih ha _

end Span

/-- The place that a classified term has. An operand is looked up in the table. -/
def Term.StandsAt (place : Span) : Term → Prop
  | .operand _ => True
  | .leading _ span | .trailing _ span | .minusSign span => span = place
  | .binary op => op.span = place

namespace Compilation

/-- An expression covers what lies directly below it. -/
def SpansChildren (c : Compilation) (n : ExprId) : Prop :=
  ∀ m ∈ (c.arena.expr n).kind.children, (c.arena.expr n).span.Covers (c.arena.expr m).span

/-- **A call that trails its operand**: it stands at the place of an operator behind that. -/
def Trails (c : Compilation) (n : ExprId) : Prop :=
  ∃ d x o, (c.arena.expr n).kind = .call d [x] ∧ c.RefersTo o d .trailing ∧
    (c.arena.expr n).span = (c.arena.expr o).span

/-- **The expressions of a set are laid out**: whatever was there from the start covers what lies
below it, and so does what was appended, unless it trails its operand. `old` is how many
expressions there were. -/
structure Laid (c : Compilation) (Z : Set ExprId) (old : Nat) : Prop extends Sealed c Z where
  grown : old ≤ c.arena.exprs.size
  inside : ∀ n ∈ Z, ∀ m ∈ (c.arena.expr n).kind.children, m.index < c.arena.exprs.size
  term : ∀ n ∈ Z, ∀ ts, (c.arena.expr n).kind = .run ts → ∀ t ∈ ts, t.index < old
  covers : ∀ n ∈ Z, c.SpansChildren n ∨ old ≤ n.index ∧ c.Trails n

/-- An expression of a set lies within a place. -/
structure LiesIn (c : Compilation) (Z : Set ExprId) (place : Span) (n : ExprId) : Prop where
  mem : n ∈ Z
  lt : n.index < c.arena.exprs.size
  covered : place.Covers (c.arena.expr n).span

/-- An operand that lies within a place with all that is directly below it. -/
structure FitsIn (c : Compilation) (Z : Set ExprId) (place : Span) (n : ExprId) : Prop
    extends LiesIn c Z place n where
  settled : c.Settled n
  children : ∀ m ∈ (c.arena.expr n).kind.children, c.LiesIn Z place m

/-- A term that may be taken at a place. -/
def MayTake (c : Compilation) (terms : List ExprId) (place : Span) : Term → Prop
  | .operand t => t ∈ terms ∧ c.Settled t
  | .leading _ span | .minusSign span => place.Covers span
  | .trailing d span =>
    place.Covers span ∧ ∃ o, c.RefersTo o d .trailing ∧ span = (c.arena.expr o).span
  | .binary op => place.Covers op.span

variable {c c' c'' : Compilation} {Z : Set ExprId} {old : Nat} {place : Span} {id n t : ExprId}
  {d : DefId} {e : Expression} {terms : List ExprId}

/-! ## What stays -/

/-- Below a settled expression lies what did before. -/
theorem Extends.children_settled (h : c.Extends c') (hn : c.Settled n) :
    (c'.arena.expr n).kind.children = (c.arena.expr n).kind.children := by
  rcases hn.isFixed_or_isValue with hk | hk
  · rw [h.kind n hk]
  · rw [ExprKind.children_of_isValue hk, ExprKind.children_of_isValue (h.value n hk)]

theorem Steady.children (h : c.Steady c') (hn : n.index < c.arena.exprs.size) :
    (c'.arena.expr n).kind.children = (c.arena.expr n).kind.children := by
  cases hv : (c.arena.expr n).kind.isValue with
  | false => rw [h.kind n hn hv]
  | true => rw [ExprKind.children_of_isValue hv, ExprKind.children_of_isValue (h.value n hv)]

theorem RefersTo.lt_size {f : Fixity} (h : c.RefersTo t d f) : t.index < c.arena.exprs.size :=
  Arena.lt_size_of_kind_ne (by simp [h.1])

theorem Trails.lt_size (h : c.Trails n) : n.index < c.arena.exprs.size := by
  obtain ⟨d, x, o, hk, -⟩ := h
  exact Arena.lt_size_of_kind_ne (by simp [hk])

theorem Trails.later (h : c.Trails n) (hplaced : c.Placed c') (hext : c.Extends c') :
    c'.Trails n := by
  have hlt := h.lt_size
  obtain ⟨d, x, o, hk, ho, hspan⟩ := h
  refine ⟨d, x, o, (hext.kind n (by rw [hk]; rfl)).trans hk, hext.refersTo ho, ?_⟩
  rw [hplaced.span n hlt, hplaced.span o ho.lt_size, hspan]

theorem LiesIn.placed (h : c.LiesIn Z place n) (hplaced : c.Placed c') : c'.LiesIn Z place n :=
  ⟨h.mem, h.lt.trans_le hplaced.size, by rw [hplaced.span n h.lt]; exact h.covered⟩

theorem FitsIn.calm (h : c.FitsIn Z place n) (hcalm : c.Calm c') : c'.FitsIn Z place n where
  toLiesIn := h.toLiesIn.placed hcalm.toPlaced
  settled := hcalm.toExtends.settled h.settled
  children m hm := by
    rw [hcalm.toExtends.children_settled h.settled] at hm
    exact (h.children m hm).placed hcalm.toPlaced

theorem FitsIn.spansChildren_calm (h : c.FitsIn Z place n) (hcalm : c.Calm c')
    (hn : c.SpansChildren n) : c'.SpansChildren n := by
  intro m hm
  rw [hcalm.toExtends.children_settled h.settled] at hm
  rw [hcalm.span n h.lt, hcalm.span m (h.children m hm).lt]
  exact hn m hm

theorem MayTake.calm {term : Term} (h : c.MayTake terms place term) (hcalm : c.Calm c') :
    c'.MayTake terms place term := by
  cases term with
  | operand t => exact ⟨h.1, hcalm.toExtends.settled h.2⟩
  | leading | minusSign | binary => exact h
  | trailing d span =>
    obtain ⟨hspan, o, ho, heq⟩ := h
    exact ⟨hspan, o, hcalm.toExtends.refersTo ho, by rw [hcalm.span o ho.lt_size, heq]⟩

/-! ## Steps -/

/-- What was there from the start covers what lies directly below it. -/
theorem Laid.spansChildren (h : c.Laid Z old) (hn : n ∈ Z) (hlt : n.index < old) :
    c.SpansChildren n :=
  (h.covers n hn).resolve_right fun hnew => absurd hlt (Nat.not_lt_of_le hnew.1)

theorem Laid.child (h : c.Laid Z old) (hn : n ∈ Z) {m : ExprId}
    (hm : m ∈ (c.arena.expr n).kind.children) : m ∈ Z ∧ m.index < c.arena.exprs.size :=
  ⟨h.closed n hn m hm, h.inside n hn m hm⟩

/-- Nothing but types and values are changed. -/
theorem Laid.steady (h : c.Laid Z old) (hsteady : c.Steady c') (hplaced : c.Placed c')
    (hsize : c'.arena.exprs.size = c.arena.exprs.size) : c'.Laid Z old := by
  have hchildren (n : ExprId) :
      (c'.arena.expr n).kind.children = (c.arena.expr n).kind.children := by
    rcases Nat.lt_or_ge n.index c.arena.exprs.size with hn | hn
    · exact hsteady.children hn
    · rw [Arena.expr_of_size_le hn, Arena.expr_of_size_le (hsize.trans_le hn)]
  refine ⟨⟨fun n hn m hm => ?_, fun n hn => h.fresh n (hsize ▸ hn)⟩, hsize ▸ h.grown,
    fun n hn m hm => ?_, fun n hn ts hk => h.term n hn ts (hsteady.run n ts hk), fun n hn => ?_⟩
  · exact h.closed n hn m (hchildren n ▸ hm)
  · rw [hsize]
    exact h.inside n hn m (hchildren n ▸ hm)
  · refine (h.covers n hn).imp (fun hspans m hm => ?_) fun hnew =>
      ⟨hnew.1, hnew.2.later hplaced hsteady.extends⟩
    rw [hchildren] at hm
    have hlt : n.index < c.arena.exprs.size := Arena.lt_size_of_kind_ne fun hk => by
      rw [hk] at hm
      cases hm
    rw [hplaced.span n hlt, hplaced.span m (h.inside n hn m hm)]
    exact hspans m hm

/-- One expression is written, with parts that lie in the set. -/
theorem Laid.written {w : ExprId} (h : c.Laid Z old) (hplaced : c.Placed c')
    (hext : c.Extends c') (hsame : ∀ n, n ≠ w → c'.arena.expr n = c.arena.expr n)
    (hchild : ∀ m ∈ (c'.arena.expr w).kind.children, m ∈ Z ∧ m.index < c.arena.exprs.size)
    (hterm : ∀ ts, (c'.arena.expr w).kind = .run ts → ∀ t ∈ ts, t.index < old)
    (hcovers : c'.SpansChildren w ∨ old ≤ w.index ∧ c'.Trails w) : c'.Laid Z old := by
  have hparts : ∀ n ∈ Z, ∀ m ∈ (c'.arena.expr n).kind.children,
      m ∈ Z ∧ m.index < c.arena.exprs.size := by
    intro n hn m hm
    rcases eq_or_ne n w with rfl | hne
    · exact hchild m hm
    · exact h.child hn (hsame n hne ▸ hm)
  refine ⟨⟨fun n hn m hm => (hparts n hn m hm).1, fun n hn => h.fresh n (hplaced.size.trans hn)⟩,
    h.grown.trans hplaced.size, fun n hn m hm => (hparts n hn m hm).2.trans_le hplaced.size,
    fun n hn ts hk => ?_, fun n hn => ?_⟩
  · rcases eq_or_ne n w with rfl | hne
    · exact hterm ts hk
    · exact h.term n hn ts (hsame n hne ▸ hk)
  · rcases eq_or_ne n w with rfl | hne
    · exact hcovers
    · refine (h.covers n hn).imp (fun hspans m hm => ?_) fun hnew =>
        ⟨hnew.1, hnew.2.later hplaced hext⟩
      have hlt := (hparts n hn m hm).2
      rw [hsame n hne] at hm ⊢
      rw [hplaced.span m hlt]
      exact hspans m hm

/-- **What is appended** lies in the set, and covers what lies below it or trails its operand. -/
theorem Laid.allocExpr (h : c.Laid Z old) (hrun : ∀ ts, e.kind ≠ .run ts)
    (hfailed : e.kind ≠ .syntaxError)
    (he : ∀ m ∈ e.kind.children, m ∈ Z ∧ m.index < c.arena.exprs.size)
    (hspans : (∀ m ∈ e.kind.children, e.span.Covers (c.arena.expr m).span) ∨
      ∃ d x o, e.kind = .call d [x] ∧ c.RefersTo o d .trailing ∧
        e.span = (c.arena.expr o).span) :
    (c.allocExpr e).2.Laid Z old := by
  have hcalm := calm_allocExpr c hrun hfailed
  have hself : (c.allocExpr e).2.arena.expr (c.allocExpr e).1 = e := Arena.expr_allocExpr_self ..
  refine h.written (w := (c.allocExpr e).1) hcalm.toPlaced hcalm.toExtends (fun n hn => ?_)
    (by rwa [hself]) (fun ts hk => (hrun ts (hself ▸ hk)).elim) ?_
  · have hne : n.index ≠ c.arena.exprs.size := fun heq => hn (ExprId.ext heq)
    simp only [Compilation.allocExpr, Arena.expr_allocExpr, if_neg hne]
  · refine hspans.imp (fun hspans m hm => ?_) ?_
    · rw [hself] at hm ⊢
      rw [hcalm.span m (he m hm).2]
      exact hspans m hm
    · rintro ⟨d, x, o, hk, ho, hspan⟩
      refine ⟨h.grown, d, x, o, by rw [hself, hk], hcalm.toExtends.refersTo ho, ?_⟩
      rw [hself, hcalm.span o ho.lt_size, hspan]

/-- **A run is overwritten** by something whose parts it covers. -/
theorem Laid.replaced {ts : List ExprId} (h : c.Laid Z old)
    (hk : (c.arena.expr id).kind = .run ts)
    (he : ∀ m ∈ e.kind.children, c.LiesIn Z (c.arena.expr id).span m)
    (hrun : ∀ us, e.kind = .run us → ∀ t ∈ us, t.index < old) :
    (c.modifyArena (·.modifyExpr id (·.replaceBy e))).Laid Z old := by
  have hlt : id.index < c.arena.exprs.size := Arena.lt_size_of_kind_ne (by simp [hk])
  have hplaced : c.Placed (c.modifyArena (·.modifyExpr id (·.replaceBy e))) :=
    placed_modifyExpr rfl rfl
  have hkind : ((c.modifyArena (·.modifyExpr id (·.replaceBy e))).arena.expr id).kind = e.kind := by
    simp only [modifyArena, Arena.expr_modifyExpr_self hlt]
    rfl
  refine h.written hplaced (extends_modifyExpr_run hk)
    (fun n hn => Arena.expr_modifyExpr_of_ne hn _) ?_ (by rwa [hkind]) (.inl fun m hm => ?_)
  · rw [hkind]
    exact fun m hm => ⟨(he m hm).mem, (he m hm).lt⟩
  · rw [hkind] at hm
    rw [hplaced.span id hlt, hplaced.span m (he m hm).lt]
    exact (he m hm).covered

/-! ## Calls -/

/-- What is done to a compilation whose expressions are laid out. -/
def StaysLaid (Z : Set ExprId) (old : Nat) (c c' : Compilation) : Prop :=
  c.Calm c' ∧ (c.Laid Z old → c'.Laid Z old)

theorem StaysLaid.refl (Z : Set ExprId) (old : Nat) (c : Compilation) : StaysLaid Z old c c :=
  ⟨.refl c, id⟩

theorem StaysLaid.trans (h : StaysLaid Z old c c') (h' : StaysLaid Z old c' c'') :
    StaysLaid Z old c c'' :=
  ⟨h.1.trans h'.1, h'.2 ∘ h.2⟩

/-- A call is built at its place, and nothing but types and values are changed for it. -/
theorem createCall_at (d : DefId) (args : List ExprId) (span : Span) :
    Outcome (createCall d args span) c
      (fun e c' => c.Steady c' ∧ c.Calm c' ∧ c'.arena.exprs.size = c.arena.exprs.size ∧
        e.kind = .call d args ∧ e.span = span) fun _ _ => True := by
  refine (((callLaw_steady args).outcome_createCall d span c).and
    ((callLaw_calm args).outcome_createCall d span c)).mono ?_ fun _ _ _ => trivial
  rintro e c₁ ⟨⟨⟨hsteady, hsize⟩, hk, hspan⟩, hcalm, -⟩
  exact ⟨hsteady, hcalm, hsize, hk, hspan⟩

/-- What is appended fits where it covers nothing else, if its parts do. -/
theorem Laid.fitsIn_allocExpr (hc : c.Laid Z old) (hsettled : e.kind.isSettled = true)
    (hplace : place.Covers e.span) (hparts : ∀ m ∈ e.kind.children, c.LiesIn Z place m) :
    (c.allocExpr e).2.FitsIn Z place (c.allocExpr e).1 := by
  have hnode : (c.allocExpr e).2.arena.expr (c.allocExpr e).1 = e := Arena.expr_allocExpr_self ..
  have hcalm : c.Calm (c.allocExpr e).2 := by
    refine calm_allocExpr c (fun ts hk => ?_) fun hk => ?_ <;>
      simp [hk, ExprKind.isSettled] at hsettled
  refine ⟨⟨hc.fresh _ le_rfl, ?_, ?_⟩, ?_, fun m hm => ?_⟩
  · exact Nat.lt_of_lt_of_eq (Nat.lt_succ_self _) (Arena.size_allocExpr ..).symm
  · rwa [hnode]
  · rwa [Settled, hnode]
  · exact (hparts m (hnode ▸ hm)).placed hcalm.toPlaced

/-- **A call is built** of what lies within a place, over its arguments or trailing its operand. -/
theorem allocCall_staysLaid (hc : c.Laid Z old) (d : DefId) {args : List ExprId} {span : Span}
    (hspan : place.Covers span) (hargs : ∀ m ∈ args, c.LiesIn Z place m)
    (hspans : (∀ m ∈ args, span.Covers (c.arena.expr m).span) ∨
      ∃ x o, args = [x] ∧ c.RefersTo o d .trailing ∧ span = (c.arena.expr o).span) :
    Outcome (allocCall d args span) c
      (fun n c' => StaysLaid Z old c c' ∧ c'.FitsIn Z place n ∧
        ((∀ m ∈ args, span.Covers (c.arena.expr m).span) → c'.SpansChildren n))
      fun _ _ => True := by
  simp only [allocCall, outcome_bind, outcome_allocExpr]
  refine (createCall_at d args span).imp ?_
  rintro e c₁ ⟨hsteady, hcalm, hsize, hk, he⟩
  have hc₁ := hc.steady hsteady hcalm.toPlaced hsize
  have hchildren : e.kind.children = args := by rw [hk]; rfl
  have hargs₁ : ∀ m ∈ e.kind.children, c₁.LiesIn Z place m := by
    rw [hchildren]
    exact fun m hm => (hargs m hm).placed hcalm.toPlaced
  have hcalm₁ : c₁.Calm (c₁.allocExpr e).2 := calm_allocExpr c₁ (by simp [hk]) (by simp [hk])
  have hlaid : (c₁.allocExpr e).2.Laid Z old := by
    refine hc₁.allocExpr (by simp [hk]) (by simp [hk])
      (fun m hm => ⟨(hargs₁ m hm).mem, (hargs₁ m hm).lt⟩) ?_
    rw [hchildren, he]
    refine hspans.imp (fun hcovers m hm => ?_) ?_
    · rw [hcalm.span m (hargs m hm).lt]
      exact hcovers m hm
    · rintro ⟨x, o, rfl, ho, hspan⟩
      exact ⟨d, x, o, hk, hcalm.toExtends.refersTo ho, by rw [hcalm.span o ho.lt_size, hspan]⟩
  have hfits := hc₁.fitsIn_allocExpr (by rw [hk]; rfl) (he ▸ hspan) hargs₁
  refine ⟨⟨hcalm.trans hcalm₁, fun _ => hlaid⟩, hfits, fun hcovers m hm => ?_⟩
  have hnode : (c₁.allocExpr e).2.arena.expr (c₁.allocExpr e).1 = e := Arena.expr_allocExpr_self ..
  rw [hnode, hchildren] at hm
  rw [hnode, he, (hcalm.trans hcalm₁).span m (hargs m hm).lt]
  exact hcovers m hm

/-- **A call over its arguments** covers them. -/
theorem allocCall_covers (hc : c.Laid Z old) (d : DefId) {args : List ExprId} {span : Span}
    (hspan : place.Covers span)
    (hargs : ∀ m ∈ args, c.LiesIn Z place m ∧ span.Covers (c.arena.expr m).span) :
    Outcome (allocCall d args span) c
      (fun n c' => StaysLaid Z old c c' ∧ c'.FitsIn Z place n ∧ c'.SpansChildren n)
      fun _ _ => True :=
  (allocCall_staysLaid hc d hspan (fun m hm => (hargs m hm).1)
    (.inl fun m hm => (hargs m hm).2)).imp
      fun _ _ h => ⟨h.1, h.2.1, h.2.2 fun m hm => (hargs m hm).2⟩

/-! ## Terms -/

/-- The terms of a run lie within its place, and were there from the start. -/
def HoldsTerms (c : Compilation) (Z : Set ExprId) (old : Nat) (terms : List ExprId)
    (place : Span) : Prop :=
  ∀ t ∈ terms, c.LiesIn Z place t ∧ t.index < old

theorem HoldsTerms.placed (h : c.HoldsTerms Z old terms place) (hplaced : c.Placed c') :
    c'.HoldsTerms Z old terms place :=
  fun t ht => ⟨(h t ht).1.placed hplaced, (h t ht).2⟩

/-- A settled term may be an operand with all that lies below it. -/
theorem Laid.fitsIn (hc : c.Laid Z old) (hterms : c.HoldsTerms Z old terms place)
    (ht : t ∈ terms) (hsettled : c.Settled t) : c.FitsIn Z place t ∧ c.SpansChildren t := by
  obtain ⟨hlies, hlt⟩ := hterms t ht
  have hspans := hc.spansChildren hlies.mem hlt
  refine ⟨⟨hlies, hsettled, fun m hm => ?_⟩, hspans⟩
  have hm' := hc.child hlies.mem hm
  exact ⟨hm'.1, hm'.2, hlies.covered.trans (hspans m hm)⟩

theorem normalizeOperand_covers (hc : c.Laid Z old) (hterms : c.HoldsTerms Z old terms place)
    (ht : t ∈ terms) (hsettled : c.Settled t) :
    Outcome (Arrangement.normalizeOperand t) c
      (fun n c' => StaysLaid Z old c c' ∧ c'.FitsIn Z place n ∧ c'.SpansChildren n)
      fun _ _ => True := by
  obtain ⟨hfits, hspans⟩ := hc.fitsIn hterms ht hsettled
  simp only [Arrangement.normalizeOperand, outcome_bind, outcome_expr]
  split
  · rename_i x hk
    have hx : x ∈ (c.arena.expr t).kind.children := by rw [hk]; exact List.mem_singleton_self x
    simp only [outcome_bind, outcome_get]
    exact allocCall_covers hc _ hfits.covered (by simpa using ⟨hfits.children x hx, hspans x hx⟩)
  · exact ⟨.refl Z old c, hfits, hspans⟩

theorem applyCollected_covers (hc : c.Laid Z old) {args : List ExprId}
    (hn : c.FitsIn Z place n) (hspans : c.SpansChildren n)
    (hargs : ∀ m ∈ args, c.FitsIn Z place m) :
    Outcome (Arrangement.applyCollected n args) c
      (fun m c' => StaysLaid Z old c c' ∧ c'.FitsIn Z place m ∧ c'.SpansChildren m)
      fun _ _ => True := by
  unfold Arrangement.applyCollected
  split
  · exact ⟨.refl Z old c, hn, hspans⟩
  · simp only [outcome_bind, outcome_arena]
    -- The call stands over the function and all the new arguments.
    let f : ExprId → Span := fun m => (c.arena.expr m).span
    have hplace : place.Covers (args.foldl (fun s m => s.merge (f m)) (f n)) :=
      hn.covered.foldl_merge fun m hm => (hargs m hm).covered
    have hnew : ∀ m ∈ args, c.LiesIn Z place m ∧
        (args.foldl (fun s m => s.merge (f m)) (f n)).Covers (f m) :=
      fun m hm => ⟨(hargs m hm).toLiesIn, Span.foldl_merge_covers_mem f hm _⟩
    split
    · exact allocCall_covers hc _ hplace hnew
    · rename_i d bound hk
      refine allocCall_covers hc _ hplace fun m hm => ?_
      -- An argument that a partial call has already lies within that call.
      rcases mem_of_mem_fillOpen hm with hm | hm
      · have hm : m ∈ (c.arena.expr n).kind.children := by rw [hk]; exact hm
        exact ⟨hn.children m hm, (Span.foldl_merge_covers_start f args _).trans (hspans m hm)⟩
      · exact hnew m hm
    · exact ⟨.refl Z old c, hn, hspans⟩

/-- A term stands where it was classified. -/
theorem classify_standsAt (resolveRun : ExprId → CheckM Unit) (t : ExprId) :
    Outcome (classify resolveRun t) c (fun term _ => term.StandsAt (c.arena.expr t).span)
      fun _ _ => True := by
  have hrest (c₁ : Compilation) (span : Span) :
      Outcome (classifyResolved t span) c₁ (fun term _ => term.StandsAt span)
        fun _ _ => True := by
    simp only [classifyResolved, outcome_bind, outcome_refreshReference, outcome_expr]
    split
    · trivial
    · trivial
    · trivial
    · exact rfl
    · simp only [operatorTerm, outcome_bind, outcome_definition]
      split <;> first | exact rfl | trivial
    · trivial
  simp only [classify, outcome_bind, outcome_expr]
  split
  · simp only [outcome_bind, outcome_attempt]
    refine outcome_trivial.mono (fun _ c₁ _ => hrest c₁ _) ?_
    rintro (e | _) c₁ - <;> trivial
  · exact hrest c _

/-- What resolves the runs among the terms leaves the expressions laid out. -/
def LaysRuns (Z : Set ExprId) (old : Nat) (resolveRun : ExprId → CheckM Unit) : Prop :=
  ∀ (c : Compilation) (t : ExprId) (ts : List ExprId), c.Laid Z old → t ∈ Z →
    (c.arena.expr t).kind = .run ts →
    Outcome (resolveRun t) c (fun _ c' => c'.Laid Z old) fun _ _ => True

section

variable {resolveRun : ExprId → CheckM Unit} {depth : Nat}

theorem classifyResolved_laid (hc : c.Laid Z old) (t : ExprId) (span : Span) :
    Outcome (classifyResolved t span) c (fun _ c' => c'.Laid Z old) fun _ _ => True := by
  have hstep : (c.refreshed t).Laid Z old := by
    refine hc.steady (steady_refreshed c t) (calm_refreshed c t).toPlaced ?_
    unfold refreshed
    split <;> simp [modifyArena]
  simp only [classifyResolved, outcome_bind, outcome_refreshReference, outcome_expr]
  split
  · trivial
  · trivial
  · trivial
  · exact hstep
  · simp only [operatorTerm, outcome_bind, outcome_definition]
    split <;> exact hstep
  · exact hstep

/-- **A term is classified**, and may be taken where it stands. -/
theorem classify_staysLaid (hreports : Reports depth resolveRun) (hres : ResolvesRuns resolveRun)
    (hlays : LaysRuns Z old resolveRun) (hc : c.Laid Z old)
    (hterms : c.HoldsTerms Z old terms place) (ht : t ∈ terms) :
    Outcome (classify resolveRun t) c
      (fun term c' => StaysLaid Z old c c' ∧ c'.MayTake terms place term) fun _ _ => True := by
  have hlaid : Outcome (classify resolveRun t) c (fun _ c' => c'.Laid Z old)
      fun _ _ => True := by
    simp only [classify, outcome_bind, outcome_expr]
    split
    · rename_i ts hk
      simp only [outcome_bind, outcome_attempt]
      refine (hlays c t ts hc (hterms t ht).1.mem hk).mono
        (fun _ c₁ h₁ => classifyResolved_laid h₁ t _) ?_
      rintro (e | _) c₁ - <;> trivial
    · exact classifyResolved_laid hc t _
  refine ((((classify_calm hreports t).and (classify_unfolds hres c ht)).and
    (classify_standsAt resolveRun t)).and hlaid).mono ?_ fun _ _ _ => trivial
  rintro term c₁ ⟨⟨⟨⟨hcalm, -⟩, -, hsettled, hplays⟩, hstands⟩, hlaid₁⟩
  have hplace := (hterms t ht).1.covered
  have hspan : (c₁.arena.expr t).span = (c.arena.expr t).span := hcalm.span t (hterms t ht).1.lt
  refine ⟨⟨hcalm, fun _ => hlaid₁⟩, ?_⟩
  cases term with
  | operand id =>
    obtain rfl := hplays.1
    exact ⟨ht, hsettled⟩
  | leading d span | minusSign span =>
    obtain rfl : span = (c.arena.expr t).span := hstands
    exact hplace
  | trailing d span =>
    obtain rfl : span = (c.arena.expr t).span := hstands
    exact ⟨hplace, t, hplays, hspan.symm⟩
  | binary op =>
    have hop : op.span = (c.arena.expr t).span := hstands
    exact (congrArg place.Covers hop).mpr hplace

/-- **The custody of a run whose calls are laid out** at its place. -/
def layout (hreports : Reports depth resolveRun) (hres : ResolvesRuns resolveRun)
    (hlays : LaysRuns Z old resolveRun) (terms : List ExprId) (place : Span) :
    Custody resolveRun terms place where
  Valid c := c.Laid Z old ∧ c.HoldsTerms Z old terms place
  Later c c' := StaysLaid Z old c c'
  Stops _ _ _ := True
  Takes c term := c.MayTake terms place term
  Opens c n := c.FitsIn Z place n ∧ c.SpansChildren n
  Holds c n := c.FitsIn Z place n
  Yields c e := (∀ m ∈ e.kind.children, c.LiesIn Z place m) ∧
    ∀ us, e.kind = .run us → ∀ t ∈ us, t.index < old
  refl := .refl Z old
  trans h h' := h.trans h'
  later _ h := h
  refuse _ _ _ _ := trivial
  valid hc h := ⟨h.2 hc.1, hc.2.placed h.1.toPlaced⟩
  takes hterm h := hterm.calm h.1
  opens hn h := ⟨hn.1.calm h.1, hn.1.spansChildren_calm h.1 hn.2⟩
  holds hn h := hn.calm h.1
  closes hn := hn.1
  classify hc ht := classify_staysLaid hreports hres hlays hc.1 hc.2 ht
  sign _ hterm := hterm
  minus {c span op} _ hterm hop := by
    rw [Definition.pending?_eq] at hop
    obtain ⟨binding, -, rfl⟩ := Option.map_eq_some_iff.1 hop
    exact hterm
  operand hc hterm := normalizeOperand_covers hc.1 hc.2 hterm.1 hterm.2
  apply hc hf hargs := applyCollected_covers hc.1 hf.1 hf.2 fun m hm => (hargs m hm).1
  lead {c d span x} hc hterm hx := by
    have hspan : place.Covers span := hterm
    exact allocCall_covers hc.1 _ (hspan.merge hx.1.covered)
      (by simpa using ⟨hx.1.toLiesIn, Span.merge_covers_right span (c.arena.expr x).span⟩)
  -- Here alone a call has the place of its operator only.
  trail {c d span x} hc hterm hx := by
    obtain ⟨hspan, o, ho, heq⟩ := hterm
    exact (allocCall_staysLaid hc.1 d hspan (by simpa using hx.toLiesIn)
      (.inr ⟨x, o, rfl, ho, heq⟩)).imp fun _ _ h => ⟨h.1, h.2.1⟩
  missing {c op} hc hterm :=
    ⟨⟨calm_allocExpr c nofun nofun, fun _ => hc.1.allocExpr nofun nofun nofun (.inl nofun)⟩,
      hc.1.fitsIn_allocExpr rfl hterm nofun⟩
  combine {c op x y} hc _ hx hy := by
    let left := (c.arena.expr x).span
    let right := (c.arena.expr y).span
    exact (allocCall_covers hc.1 op.definition (hx.covered.merge hy.covered)
      (by simpa using ⟨⟨hx.toLiesIn, Span.merge_covers_left left right⟩,
        hy.toLiesIn, Span.merge_covers_right left right⟩)).imp fun _ _ h => ⟨h.1, h.2.1⟩
  empty _ := ⟨nofun, nofun⟩
  only {c t} hc ht := by
    obtain ⟨hlies, hlt⟩ := hc.2 t ht
    refine ⟨fun m hm => ?_, hc.1.term t hlies.mem⟩
    have hm' := hc.1.child hlies.mem hm
    exact ⟨hm'.1, hm'.2, hlies.covered.trans (hc.1.spansChildren hlies.mem hlt m hm)⟩
  negated {c x} hc hterm :=
    ⟨fun m hm => List.mem_singleton.1 hm ▸ (hc.2 x hterm.1).1, nofun⟩
  whole {c n} _ hn := by
    refine ⟨hn.children, fun us hk => ?_⟩
    have hsettled := hn.settled
    simp [Settled, hk, ExprKind.isSettled] at hsettled

/-! ## Runs -/

/-- **A run** leaves the expressions laid out, if the runs among its terms do. -/
theorem resolveNode_laid (hreports : Reports depth resolveRun) (hres : ResolvesRuns resolveRun)
    (hlays : LaysRuns Z old resolveRun) : LaysRuns Z old (resolveNode resolveRun) := by
  intro c id terms hc hid hk
  -- The run covers its terms, since it is no call.
  have hspans : c.SpansChildren id := (hc.covers id hid).resolve_right fun ⟨_, htrails⟩ => by
    obtain ⟨d, x, o, hcall, -⟩ := htrails
    cases hk.symm.trans hcall
  have hterms : c.HoldsTerms Z old terms (c.arena.expr id).span := fun t ht =>
    have hchild : t ∈ (c.arena.expr id).kind.children := by rwa [hk]
    ⟨⟨(hc.child hid hchild).1, (hc.child hid hchild).2, hspans t hchild⟩,
      hc.term id hid terms hk t ht⟩
  have hbuilt : ∀ n : ExprId, 0 ≤ n.index → (fun _ => True) n := fun _ _ => trivial
  have hkept := (layout hreports hres hlays terms (c.arena.expr id).span).keeps_resolveTerms
    ⟨hc, hterms⟩
  simp only [resolveNode, outcome_bind, outcome_expr, hk, outcome_attempt]
  refine ((resolveTerms_accepted hres hbuilt terms (c.arena.expr id).span (Nat.zero_le _)).and
    hkept).mono ?_ ?_
  · rintro e c₁ ⟨haccepted, hlays₁, he⟩
    simp only [outcome_modifyExpr, outcome_emit]
    have hlt : id.index < c.arena.exprs.size := Arena.lt_size_of_kind_ne (by simp [hk])
    have hspan : (c₁.arena.expr id).span = (c.arena.expr id).span := hlays₁.1.span id hlt
    have hlaid := (hlays₁.2 hc).replaced (haccepted.unfolds.run_self hk) (hspan ▸ he.1) he.2
    have hemit := fun event => calm_emit (c₁.modifyArena (·.modifyExpr id (·.replaceBy e))) event
    exact hlaid.steady (steady_emit _ _) (hemit _).toPlaced rfl
  · rintro (error | _) c₁ -
    · exact outcome_trivial.mono (fun _ _ _ => trivial) fun _ _ _ => trivial
    · trivial

end

/-- **Resolving a run** leaves the expressions laid out, to whatever depth it goes. -/
theorem resolveWithin_laid (Z : Set ExprId) (old depth : Nat) :
    LaysRuns Z old (resolveWithin depth) := by
  -- On the depth of nesting: a run is resolved with what resolves the runs among its terms.
  induction depth with
  | zero => exact fun _ _ _ _ _ _ => trivial
  | succ depth ih =>
    exact resolveNode_laid (resolveWithin_reports depth) (resolveWithin_outcome depth) ih

end Compilation

/-- **The calls that are built for a run cover their arguments**, at every depth, as long as every
expression at and below the run covers what lies directly below it. A call of an operator behind
its operand is the exception: it stands at the place of the operator. -/
theorem resolve_covers {c c' : Compilation} {id : ExprId}
    (hinside : ∀ n, c.Below id n → n.index < c.arena.exprs.size)
    (hcovers : ∀ n, c.Below id n → c.SpansChildren n) (hok : resolve id c = .ok () c')
    {n : ExprId} (hnew : c.arena.exprs.size ≤ n.index) {d : DefId} {args : List ExprId}
    (hn : (c'.arena.expr n).kind = .call d args) :
    (∀ arg ∈ args, (c'.arena.expr n).span.Covers (c'.arena.expr arg).span) ∨ c'.Trails n := by
  by_cases hk : ∃ ts, (c.arena.expr id).kind = .run ts
  · obtain ⟨ts, hk⟩ := hk
    have hlaid : c.Laid {n | c.Below id n ∨ c.arena.exprs.size ≤ n.index} c.arena.exprs.size := by
      have hparts : ∀ n, c.Below id n ∨ c.arena.exprs.size ≤ n.index →
          ∀ m ∈ (c.arena.expr n).kind.children, c.Below id n ∧ m.index < c.arena.exprs.size := by
        rintro n (hn | hn) m hm
        · exact ⟨hn, hinside m (hn.tail hm)⟩
        · rw [Arena.expr_of_size_le hn] at hm
          cases hm
      refine { c.sealed_below id with
        grown := le_rfl, inside := fun n hn m hm => (hparts n hn m hm).2,
        term := fun n hn ts hk t ht => (hparts n hn t (by rwa [hk])).2,
        covers := fun n hn => .inl fun m hm => hcovers n (hparts n hn m hm).1 m hm }
    have hlays : Outcome (resolve id) c (fun _ c' =>
        c'.Laid {n | c.Below id n ∨ c.arena.exprs.size ≤ n.index} c.arena.exprs.size)
        fun _ _ => True := by
      simp only [resolve, outcome_bind, outcome_arena]
      exact resolveWithin_laid _ _ _ c id ts hlaid (.inl .refl) hk
    refine ((hlays.of_ok hok).covers n (.inr hnew)).imp (fun hspans => ?_) And.right
    rwa [SpansChildren, hn] at hspans
  -- What is no run is left alone, and nothing is appended.
  · rw [resolve_of_ne_run fun ts hts => hk ⟨ts, hts⟩] at hok
    cases hok
    rw [Arena.expr_of_size_le hnew] at hn
    cases hn

/-- The run `1 + 3!`, with an operator for factorials behind its operand. -/
def trailedSum : Compilation :=
  let factorial : Definition :=
    ⟨"!", .builtin, some Builtins.unaryMinusType, some .trailing, .origin⟩
  { Compilation.new with
    arena :=
      { Arena.empty with
        exprs := #[.new (.value (.int 1)) .int ⟨0, 1, by decide⟩,
          .new (.operator ⟨1⟩) .hole ⟨2, 3, by decide⟩,
          .new (.value (.int 3)) .int ⟨4, 5, by decide⟩,
          .new (.operator ⟨9⟩) .hole ⟨5, 6, by decide⟩,
          .new (.run [⟨0⟩, ⟨1⟩, ⟨2⟩, ⟨3⟩]) .hole ⟨0, 6, by decide⟩]
        defs := (Builtins.definitions ++ [factorial]).toArray } }

theorem below_trailedSum {n : ExprId} (hn : trailedSum.Below ⟨4⟩ n) : n.index ≤ 4 := by
  have hlt : ∀ n, ∀ m ∈ (trailedSum.arena.expr n).kind.children, m.index < n.index :=
    Arena.forall_children (by decide)
  induction hn with
  | refl => exact le_rfl
  | tail _ hm ih => exact (hlt _ _ hm).le.trans ih

theorem spansChildren_trailedSum (n : ExprId) : trailedSum.SpansChildren n :=
  Arena.forall_children (p := fun n m =>
    (trailedSum.arena.expr n).span.Covers (trailedSum.arena.expr m).span) (by decide) n

/-- The sum covers its sides; the factorial within it is an exception. -/
theorem resolve_trailedSum_covers :
    (∀ n, trailedSum.Below ⟨4⟩ n → n.index < trailedSum.arena.exprs.size) ∧
    (∀ n, trailedSum.Below ⟨4⟩ n → trailedSum.SpansChildren n) ∧
    ∃ c', resolve ⟨4⟩ trailedSum = .ok () c' ∧
      (c'.arena.expr ⟨6⟩).kind = .call ⟨1⟩ [⟨0⟩, ⟨5⟩] ∧
      ∀ arg ∈ [(⟨0⟩ : ExprId), ⟨5⟩],
        (c'.arena.expr ⟨6⟩).span.Covers (c'.arena.expr arg).span := by
  have hinside : ∀ n, trailedSum.Below ⟨4⟩ n → n.index < trailedSum.arena.exprs.size :=
    fun n hn => Nat.lt_succ_of_le (below_trailedSum hn)
  refine ⟨hinside, fun n _ => spansChildren_trailedSum n, _, rfl, rfl, ?_⟩
  refine (resolve_covers hinside (fun n _ => spansChildren_trailedSum n) rfl (n := ⟨6⟩) (by decide)
    rfl).resolve_right ?_
  rintro ⟨d, x, o, hk, -⟩
  cases hk

/-- **A call that trails its operand does not cover it**: the factorial of `1 + 3!` stands at the
place of its operator, in front of which the operand lies. -/
theorem resolve_not_covers :
    (∀ n, trailedSum.Below ⟨4⟩ n → n.index < trailedSum.arena.exprs.size) ∧
    (∀ n, trailedSum.Below ⟨4⟩ n → trailedSum.SpansChildren n) ∧
    ∃ c' n, resolve ⟨4⟩ trailedSum = .ok () c' ∧ trailedSum.arena.exprs.size ≤ n.index ∧
      (c'.arena.expr n).kind = .call ⟨9⟩ [⟨2⟩] ∧ (c'.arena.expr ⟨2⟩).kind ≠ .missingArg ∧
      ¬ (c'.arena.expr n).span.Covers (c'.arena.expr ⟨2⟩).span :=
  ⟨fun _ hn => Nat.lt_succ_of_le (below_trailedSum hn), fun n _ => spansChildren_trailedSum n,
    _, ⟨5⟩, rfl, by decide, rfl, by decide, by decide⟩

end Termwise
