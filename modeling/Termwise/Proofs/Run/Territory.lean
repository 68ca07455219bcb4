import Termwise.Proofs.Run.Tandem
import Termwise.Proofs.Run.Thinning

/-!
# Territories

The nodes at and below a run are its territory: from outside, only the run itself is referred to,
and only as a term of another run. What the run comes to depends on its territory alone, so it does
not matter whether it is resolved now or after other runs have been.

## Main definitions

* `Extent.Fits`: a compilation in which runs may be resolved in any order
* `Territory`: what a run depends on
* `Lagging`: a run, and what it comes to if it is resolved at once

## Main results

* `Territory.coupled`: a run comes to the same now and later
* `Lagging.catchesUp`: a run that lags is resolved, and lags no longer
* `Lagging.resolves`: other runs are resolved alike meanwhile
-/

namespace Termwise

open Compilation

variable {Z : Extent} {O : Set Outset} {R : ExprId → ExprId → Prop} {c c₁ k k₁ : Compilation}
  {a n m : ExprId} {S T : Set ExprId}

/-! ## Resolution in step -/

/-- The extent in which no run lags. -/
def Extent.prompt (Z : Extent) : Extent := { Z with late := fun _ _ => False }

/-- **Nodes that correspond are resolved in step** where no run lags. -/
theorem resolves_prompt (depth depth' : Nat) :
    Resolves True Z.prompt O (resolveWithin depth) (resolveWithin depth') := by
  -- On the depth of nesting: terms are classified alike because the runs among them are resolved
  -- in step.
  induction depth generalizing depth' with
  | zero => exact fun R n m _ c k _ => coupled_cyclic_left rfl
  | succ depth ih =>
    cases depth' with
    | zero => exact fun R n m _ c k _ => coupled_cyclic_right trivial rfl
    | succ depth' =>
      refine tandem_resolveNode ⟨fun R t t' ht hterm => ?_, fun _ _ _ _ _ _ => False.elim⟩
      exact (ih depth').classify ⟨ht.resolve_right id, hterm⟩

/-! ## Territories -/

/-- Some nodes correspond to themselves. -/
def identityOn (S : Set ExprId) (n m : ExprId) : Prop := n = m ∧ n ∈ S

/-- **A compilation fits an extent**: what lies below the zone is inside, terms name what is listed,
and what is listed takes its type from outside. -/
structure Extent.Fits (Z : Extent) (c : Compilation) : Prop where
  builtins : c.builtins = Z.builtins
  floor : Z.floor ≤ c.arena.exprs.size
  closed : ∀ n ∈ Z.zone, ∀ m ∈ (c.arena.expr n).kind.children,
    m ∈ Z.zone ∧ m.index < c.arena.exprs.size
  admits : ∀ n ∈ Z.zone, Z.Admits n (c.arena.expr n).kind
  body : ∀ d ∈ Z.names, (c.arena.definition d).declared = none → ∀ b,
    (c.arena.definition d).body = .expression b → b ∉ Z.zone

/-- **What a run depends on**: it is entered at the run only, and only from another run. -/
structure Territory (c : Compilation) (a : ExprId) (T : Set ExprId) : Prop where
  root : a ∈ T
  inside : ∀ n ∈ T, n.index < c.arena.exprs.size
  closed : ∀ n ∈ T, ∀ m ∈ (c.arena.expr n).kind.children, m ∈ T
  sealed : ∀ n, n ∉ T → ∀ m ∈ (c.arena.expr n).kind.children, m ∈ T →
    m = a ∧ ∃ ts, (c.arena.expr n).kind = .run ts

/-- Some nodes of a compilation are what they are in another one, and all that lies below them. -/
theorem Extent.Fits.alike (hZ : Z.Fits c) (hprogram : c₁.SameProgram k)
    (hprogram' : c.SameProgram c₁) (hfloor : Z.floor ≤ c₁.arena.exprs.size)
    (hfloor' : Z.floor ≤ k.arena.exprs.size) (hS : S ⊆ Z.zone)
    (hinside : ∀ n ∈ S, n.index < c₁.arena.exprs.size ∧ n.index < k.arena.exprs.size)
    (hsame : ∀ n ∈ S, c₁.arena.expr n = c.arena.expr n)
    (hsame' : ∀ n ∈ S, k.arena.expr n = c.arena.expr n)
    (hclosed : ∀ n ∈ S, ∀ m ∈ (c.arena.expr n).kind.children,
      m ∈ S ∨ Z.late m m ∧ ∃ ts, (c.arena.expr n).kind = .run ts)
    (houtside : ∀ n ∉ Z.zone, k.arena.expr n = c₁.arena.expr n) :
    Alike Z (identityOn S) c₁ k where
  program := hprogram
  builtins := hprogram'.builtins.trans hZ.builtins
  floor := hfloor
  floor' := hfloor'
  inside := by
    rintro n _ ⟨rfl, hn⟩
    exact hinside n hn
  zone := by
    rintro n _ ⟨rfl, hn⟩
    exact ⟨hS hn, hS hn⟩
  left_unique := by
    rintro n n' m ⟨rfl, -⟩ ⟨rfl, -⟩
    rfl
  right_unique := by
    rintro n m m' ⟨rfl, -⟩ ⟨rfl, -⟩
    rfl
  expr := by
    rintro n _ ⟨rfl, hn⟩
    rw [hsame n hn, hsame' n hn]
    refine ⟨.refl (fun ts hk t ht => ?_) fun hk m hm => ?_, rfl, rfl, rfl⟩
    · have ht : t ∈ (c.arena.expr n).kind.children := by rwa [hk]
      exact (hclosed n hn t ht).imp (⟨rfl, ·⟩) And.left
    · rcases hclosed n hn m hm with hm | ⟨-, ts, hts⟩
      · exact ⟨rfl, hm⟩
      · exact (hk ts hts).elim
  admits := by
    rintro n _ ⟨rfl, hn⟩
    rw [hsame n hn]
    exact hZ.admits n (hS hn)
  outside := houtside
  body d hd hdeclared b hb := by
    rw [hprogram'.definition] at hdeclared hb
    exact .inl (hZ.body d hd hdeclared b hb)

theorem Extent.Fits.prompt (hZ : Z.Fits c) : Z.prompt.Fits c :=
  ⟨hZ.builtins, hZ.floor, hZ.closed, fun n hn => ⟨(hZ.admits n hn).names, (hZ.admits n hn).terms⟩,
    hZ.body⟩

/-- **A run comes to the same now and later**, as long as its territory is untouched. -/
theorem Territory.coupled (hT : Territory c a T) (hZ : Z.Fits c) (hzone : T ⊆ Z.zone)
    (hprogram : c.SameProgram c₁) (hsize : c.arena.exprs.size ≤ c₁.arena.exprs.size)
    (hsame : ∀ n ∈ T, c₁.arena.expr n = c.arena.expr n)
    (houtside : ∀ n ∉ Z.zone, c₁.arena.expr n = c.arena.expr n) (depth depth' : Nat) :
    Coupled True (resolveWithin depth a) (resolveWithin depth' a) c₁ c
      (fun _ _ c' k' => ∃ R, Alike Z.prompt R c' k' ∧ (Outset.mk c₁ c (identityOn T)).Leads R c' k')
      fun _ c' k' => ∃ R, Alike Z.prompt R c' k' ∧
        (Outset.mk c₁ c (identityOn T)).Leads R c' k' := by
  have halike : Alike Z.prompt (identityOn T) c₁ c := by
    refine hZ.prompt.alike hprogram.symm hprogram (hZ.floor.trans hsize) hZ.floor hzone ?_ hsame
      (fun _ _ => rfl) (fun n hn m hm => .inl (hT.closed n hn m hm))
      fun n hn => (houtside n hn).symm
    exact fun n hn => ⟨(hT.inside n hn).trans_le hsize, hT.inside n hn⟩
  have hleads := (Outset.mk c₁ c (identityOn T)).leads_start
  have hck : InStep Z.prompt {⟨c₁, c, identityOn T⟩} (identityOn T) c₁ c :=
    ⟨halike, _, rfl, hleads⟩
  refine (resolves_prompt depth depth' _ a a ⟨rfl, hT.root⟩ c₁ c hck).mono ?_ ?_
  · rintro _ _ c' k' ⟨R, -, ⟨halike, _, rfl, hleads⟩, -⟩
    exact ⟨R, halike, hleads⟩
  · rintro _ c' k' ⟨R, -, halike, _, rfl, hleads⟩
    exact ⟨R, halike, hleads⟩

/-! ## A run that lags -/

/-- **A run that lags**: one compilation still has it, the other one had it resolved first. -/
structure Lagging (Z : Extent) (a : ExprId) (T : Set ExprId) (c k : Compilation)
    (result : Except CompileError Unit) : Prop where
  fits : Z.Fits c
  territory : Territory c a T
  zone : T ⊆ Z.zone
  late : ∀ t t', Z.late t t' ↔ t = a ∧ t' = a
  run : ∃ ts, (c.arena.expr a).kind = .run ts
  nested : Acc c.TermOf a
  resolved : CheckM.attempt (resolve a) c = .ok result k

/-- The nodes of the zone that are in the table. -/
def Extent.table (Z : Extent) (c : Compilation) : Set ExprId :=
  {n | n ∈ Z.zone ∧ n.index < c.arena.exprs.size}

/-- Where the two compilations part, and where they would have if the run did not matter. -/
def Lagging.outsets (Z : Extent) (T : Set ExprId) (c k : Compilation) : Set Outset :=
  {⟨c, k, identityOn (Z.table c \ T)⟩, ⟨c, c, identityOn (Z.table c)⟩}

namespace Lagging

variable {result : Except CompileError Unit} (h : Lagging Z a T c k result)
include h

theorem outcome {ended : Except CompileError Unit → Compilation → Prop}
    {stopped : Stop → Compilation → Prop}
    (houtcome : Outcome (CheckM.attempt (resolve a)) c ended stopped) : ended result k :=
  houtcome.of_ok h.resolved

/-- What resolving the run at once did. -/
theorem thins : c.Thins k := (h.outcome (resolve_leaves_no_run h.nested)).1

theorem ne_run (ts : List ExprId) : (k.arena.expr a).kind ≠ .run ts :=
  (h.outcome (resolve_leaves_no_run h.nested)).2 ts

/-- The run failed, or it came to something that is no minus sign. -/
theorem kind : (∃ e, result = .error e ∧ (k.arena.expr a).kind = .syntaxError) ∨
    result = .ok () ∧ (k.arena.expr a).kind ≠ .minusSign := by
  obtain ⟨ts, hk⟩ := h.run
  have hkind : Outcome (CheckM.attempt (resolve a)) c (fun result k =>
      (∃ e, result = .error e ∧ (k.arena.expr a).kind = .syntaxError) ∨
        result = .ok () ∧ (k.arena.expr a).kind ≠ .minusSign) fun _ _ => True := by
    rw [outcome_attempt]
    refine ((resolve_calm hk h.nested).and
      (resolveWithin_ne_minusSign (c.arena.exprs.size + 1) hk)).mono ?_ ?_
    · rintro _ k ⟨-, hne⟩
      exact .inr ⟨rfl, hne⟩
    · rintro stop k ⟨⟨e, rfl, hfailed⟩, -⟩
      exact .inl ⟨e, rfl, by rw [hfailed.node]⟩
  exact h.outcome hkind

theorem ne_minusSign : (k.arena.expr a).kind ≠ .minusSign := by
  rcases h.kind with ⟨-, -, hk⟩ | ⟨-, hk⟩
  · simp [hk]
  · exact hk

/-- The run is resolved while the other compilation waits: it comes to the same. -/
theorem coupled (hck : Alike Z R c₁ k₁)
    (hleads : (Outset.mk c k (identityOn (Z.table c \ T))).Leads R c₁ k₁) (depth : Nat) :
    (∃ c', CheckM.attempt (resolveWithin depth a) c₁ = .error .cyclic c') ∨
      ∃ c', CheckM.attempt (resolveWithin depth a) c₁ = .ok result c' ∧
        ∃ R₁, Alike Z.prompt R₁ c' k ∧ (Outset.mk c₁ c (identityOn T)).Leads R₁ c' k := by
  have hfloor : Z.floor ≤ c₁.arena.exprs.size := hck.floor
  have hsame (n : ExprId) (hn : n ∈ T) : c₁.arena.expr n = c.arena.expr n := by
    refine hleads.left n (h.territory.inside n hn) ?_
    rintro _ ⟨-, -, hnot⟩
    exact hnot hn
  have houtside (n : ExprId) (hn : n ∉ Z.zone) : c₁.arena.expr n = c.arena.expr n := by
    have hlt : n.index < Z.floor := Nat.lt_of_not_le fun hle => hn (Z.zone_of_le n hle)
    refine hleads.left n (hlt.trans_le h.fits.floor) ?_
    rintro _ ⟨-, ⟨hzone, -⟩, -⟩
    exact hn hzone
  have hcoupled := h.territory.coupled h.fits h.zone hleads.same hleads.size hsame houtside depth
    (c.arena.exprs.size + 1)
  have hattempt : Coupled True (CheckM.attempt (resolveWithin depth a)) (CheckM.attempt (resolve a))
      c₁ c (fun outcome outcome' c' k' => outcome' = outcome ∧ ∃ R₁, Alike Z.prompt R₁ c' k' ∧
        (Outset.mk c₁ c (identityOn T)).Leads R₁ c' k') fun _ _ _ => False :=
    Coupled.attempt (hcoupled.mono (fun _ _ _ _ h => ⟨rfl, h⟩) fun _ _ _ h => ⟨rfl, h⟩)
  rcases hattempt.of_ok_right h.resolved with hcyclic | ⟨_, c', hok, rfl, hR⟩
  · exact .inl hcyclic
  · exact .inr ⟨c', hok, hR⟩

/-! ### The two correspondences side by side

While the run lags, `R` relates what lies outside its territory. Once the run is resolved on the
other side as well, `R₁` relates what came of the territory. The two have no node in common, on
either side, and neither of the two steps touched what the other one relates, so that together they
relate all there is. -/

/-- What corresponds while the run lags lies outside its territory. -/
theorem outside_of_leads (hck : Alike Z R c₁ k₁)
    (hleads : (Outset.mk c k (identityOn (Z.table c \ T))).Leads R c₁ k₁) {n m : ExprId}
    (hnm : R n m) : (n ∉ T ∧ n.index < c₁.arena.exprs.size) ∧
      (m ∉ T ∧ m.index < c.arena.exprs.size ∨ k.arena.exprs.size ≤ m.index) := by
  refine ⟨⟨fun hn => ?_, (hck.inside hnm).1⟩, ?_⟩
  · rcases hleads.fresh n m hnm with ⟨-, -, hnot⟩ | ⟨hle, -⟩
    · exact hnot hn
    · exact absurd (h.territory.inside n hn) (Nat.not_lt.2 hle)
  · rcases hleads.fresh n m hnm with ⟨rfl, ⟨-, hlt⟩, hnot⟩ | ⟨-, hle⟩
    · exact .inl ⟨hnot, hlt⟩
    · exact .inr hle

omit h in
/-- What corresponds when the run catches up lies in its territory, or was appended for it. -/
theorem within_of_leads {R₁ : ExprId → ExprId → Prop} {c' : Compilation}
    (halike : Alike Z.prompt R₁ c' k) (hleads : (Outset.mk c₁ c (identityOn T)).Leads R₁ c' k)
    {n m : ExprId} (hnm : R₁ n m) : (n ∈ T ∨ c₁.arena.exprs.size ≤ n.index) ∧
      m.index < k.arena.exprs.size ∧ (m ∈ T ∨ c.arena.exprs.size ≤ m.index) := by
  refine ⟨?_, (halike.inside hnm).2, ?_⟩
  · rcases hleads.fresh n m hnm with ⟨-, hn⟩ | ⟨hle, -⟩
    · exact .inl hn
    · exact .inr hle
  · rcases hleads.fresh n m hnm with ⟨rfl, hn⟩ | ⟨-, hle⟩
    · exact .inl hn
    · exact .inr hle

section

variable {R₁ : ExprId → ExprId → Prop} {c' : Compilation}

theorem disjoint_left (hck : Alike Z R c₁ k₁)
    (hleads : (Outset.mk c k (identityOn (Z.table c \ T))).Leads R c₁ k₁)
    (halike : Alike Z.prompt R₁ c' k) (hleads₁ : (Outset.mk c₁ c (identityOn T)).Leads R₁ c' k)
    {n m m' : ExprId} (hnm : R n m) (hnm' : R₁ n m') : False := by
  obtain ⟨⟨hnot, hlt⟩, -⟩ := h.outside_of_leads hck hleads hnm
  rcases (within_of_leads halike hleads₁ hnm').1 with hn | hle
  · exact hnot hn
  · omega

theorem disjoint_right (hck : Alike Z R c₁ k₁)
    (hleads : (Outset.mk c k (identityOn (Z.table c \ T))).Leads R c₁ k₁)
    (halike : Alike Z.prompt R₁ c' k) (hleads₁ : (Outset.mk c₁ c (identityOn T)).Leads R₁ c' k)
    {n n' m : ExprId} (hnm : R n m) (hnm' : R₁ n' m) : False := by
  obtain ⟨-, hlt, hm⟩ := within_of_leads halike hleads₁ hnm'
  rcases (h.outside_of_leads hck hleads hnm).2 with ⟨hnot, hlt'⟩ | hle
  · rcases hm with hm | hle
    · exact hnot hm
    · omega
  · omega

/-- Resolving the run leaves alone what corresponded before. -/
theorem kept_left (hck : Alike Z R c₁ k₁)
    (hleads : (Outset.mk c k (identityOn (Z.table c \ T))).Leads R c₁ k₁)
    (hleads₁ : (Outset.mk c₁ c (identityOn T)).Leads R₁ c' k) {n m : ExprId} (hnm : R n m) :
    c'.arena.expr n = c₁.arena.expr n := by
  obtain ⟨⟨hnot, hlt⟩, -⟩ := h.outside_of_leads hck hleads hnm
  refine hleads₁.left n hlt ?_
  rintro _ ⟨-, hn⟩
  exact hnot hn

omit h in
/-- What was done meanwhile leaves alone what came of the run. -/
theorem kept_right (hleads : (Outset.mk c k (identityOn (Z.table c \ T))).Leads R c₁ k₁)
    (halike : Alike Z.prompt R₁ c' k) (hleads₁ : (Outset.mk c₁ c (identityOn T)).Leads R₁ c' k)
    {n m : ExprId} (hnm : R₁ n m) : k₁.arena.expr m = k.arena.expr m := by
  obtain ⟨-, hlt, hm⟩ := within_of_leads halike hleads₁ hnm
  refine hleads.right m hlt ?_
  rintro _ ⟨rfl, ⟨-, hlt'⟩, hnot⟩
  rcases hm with hm | hle
  · exact hnot hm
  · exact absurd hlt' (Nat.not_lt.2 hle)

/-- Resolving the run leaves alone what is outside the zone. -/
theorem kept_outside (hleads : (Outset.mk c k (identityOn (Z.table c \ T))).Leads R c₁ k₁)
    (hleads₁ : (Outset.mk c₁ c (identityOn T)).Leads R₁ c' k) {n : ExprId} (hn : n ∉ Z.zone) :
    c'.arena.expr n = c₁.arena.expr n := by
  have hlt : n.index < Z.floor := Nat.lt_of_not_le fun hle => hn (Z.zone_of_le n hle)
  refine hleads₁.left n (hlt.trans_le (h.fits.floor.trans hleads.size)) ?_
  rintro _ ⟨-, hT⟩
  exact hn (h.zone hT)

/-- Together the two correspondences make the compilations mirror each other. -/
theorem alike_union (hck : Alike Z R c₁ k₁)
    (hleads : (Outset.mk c k (identityOn (Z.table c \ T))).Leads R c₁ k₁)
    (halike : Alike Z.prompt R₁ c' k) (hleads₁ : (Outset.mk c₁ c (identityOn T)).Leads R₁ c' k) :
    Alike Z (fun n m => R n m ∨ R₁ n m) c' k₁ := by
  have hgrow : ∀ n m, R n m → R n m ∨ R₁ n m := fun _ _ => .inl
  have hgrow₁ : ∀ n m, R₁ n m → R n m ∨ R₁ n m := fun _ _ => .inr
  refine
    { program := halike.program.trans hleads.same'
      builtins := halike.builtins
      floor := halike.floor
      floor' := hck.floor'
      inside := ?_
      zone := ?_
      left_unique := ?_
      right_unique := ?_
      expr := ?_
      admits := ?_
      outside := ?_
      body := ?_ }
  · rintro n m (hnm | hnm)
    · exact ⟨(hck.inside hnm).1.trans_le hleads₁.size, (hck.inside hnm).2⟩
    · exact ⟨(halike.inside hnm).1, (halike.inside hnm).2.trans_le hleads.size'⟩
  · rintro n m (hnm | hnm)
    · exact hck.zone hnm
    · exact halike.zone hnm
  -- A node of one of the two correspondences is no node of the other one.
  · rintro n n' m (hnm | hnm) (hnm' | hnm')
    · exact hck.left_unique hnm hnm'
    · exact (h.disjoint_right hck hleads halike hleads₁ hnm hnm').elim
    · exact (h.disjoint_right hck hleads halike hleads₁ hnm' hnm).elim
    · exact halike.left_unique hnm hnm'
  · rintro n m m' (hnm | hnm) (hnm' | hnm')
    · exact hck.right_unique hnm hnm'
    · exact (h.disjoint_left hck hleads halike hleads₁ hnm hnm').elim
    · exact (h.disjoint_left hck hleads halike hleads₁ hnm' hnm).elim
    · exact halike.right_unique hnm hnm'
  · rintro n m (hnm | hnm)
    · rw [h.kept_left hck hleads hleads₁ hnm]
      exact (hck.expr hnm).grow hgrow
    -- No run lags in what came of the territory, so its terms correspond at once.
    · rw [kept_right hleads halike hleads₁ hnm]
      refine (halike.expr hnm).mono (fun t t' ht => ?_) hgrow₁
      exact .inl (hgrow₁ t t' (ht.resolve_right id))
  · rintro n m (hnm | hnm)
    · rw [h.kept_left hck hleads hleads₁ hnm]
      exact hck.admits hnm
    · exact ⟨(halike.admits hnm).names, (halike.admits hnm).terms⟩
  · exact fun n hn => (hck.outside n hn).trans (h.kept_outside hleads hleads₁ hn).symm
  · exact fun d hd hdeclared b hb => (halike.body d hd hdeclared b hb).imp_right (hgrow₁ b b)

/-- Together the two correspondences lead from the start, as if the run had never lagged. -/
theorem leads_union (hleads : (Outset.mk c k (identityOn (Z.table c \ T))).Leads R c₁ k₁)
    (hleads₁ : (Outset.mk c₁ c (identityOn T)).Leads R₁ c' k) :
    (Outset.mk c c (identityOn (Z.table c))).Leads (fun n m => R n m ∨ R₁ n m) c' k₁ := by
  -- One side resolved the run last and the other one first, so that what the two steps add to the
  -- records comes in opposite orders.
  obtain ⟨X, x, hX, hX'⟩ := hleads.books
  obtain ⟨Y, y, hY, hY'⟩ := hleads₁.books
  refine
    { same := hleads.same.trans hleads₁.same
      same' := hleads₁.same'.trans hleads.same'
      size := hleads.size.trans hleads₁.size
      size' := hleads₁.size'.trans hleads.size'
      start := ?_
      fresh := ?_
      covered := ?_
      left := ?_
      right := ?_
      books := ?_ }
  · rintro n _ ⟨rfl, hn⟩
    by_cases hT : n ∈ T
    · exact .inr (hleads₁.start n n ⟨rfl, hT⟩)
    · exact .inl (hleads.start n n ⟨rfl, hn, hT⟩)
  · rintro n m (hnm | hnm)
    · rcases hleads.fresh n m hnm with ⟨rfl, hn, -⟩ | ⟨hle, hle'⟩
      · exact .inl ⟨rfl, hn⟩
      · exact .inr ⟨hle, hleads₁.size'.trans hle'⟩
    · rcases hleads₁.fresh n m hnm with ⟨rfl, hn⟩ | ⟨hle, hle'⟩
      · exact .inl ⟨rfl, h.zone hn, h.territory.inside n hn⟩
      · exact .inr ⟨hleads.size.trans hle, hle'⟩
  · intro n hle hlt
    by_cases hn : n.index < c₁.arena.exprs.size
    · exact (hleads.covered n hle hn).imp fun _ => .inl
    · exact (hleads₁.covered n (Nat.le_of_not_lt hn) hlt).imp fun _ => .inr
  -- What does not start in the zone is left alone by both steps, on either side.
  · intro n hn hnot
    have hzone : n ∉ Z.zone := fun hzone => hnot n ⟨rfl, hzone, hn⟩
    rw [h.kept_outside hleads hleads₁ hzone]
    refine hleads.left n hn ?_
    rintro _ ⟨-, ⟨hzone', -⟩, -⟩
    exact hzone hzone'
  · intro m hm hnot
    have hzone : m ∉ Z.zone := fun hzone => hnot m ⟨rfl, hzone, hm⟩
    refine (hleads.right m (hm.trans_le hleads₁.size') ?_).trans (hleads₁.right m hm ?_)
    · rintro _ ⟨rfl, ⟨hzone', -⟩, -⟩
      exact hzone hzone'
    · rintro _ ⟨rfl, hT⟩
      exact hzone (h.zone hT)
  · refine ⟨X + Y, (x && y), hX.trans hY, ?_⟩
    rw [Multiset.add_comm, Bool.and_comm]
    exact hY'.trans hX'

end

/-- The run lags, or it corresponds to itself. -/
theorem lags_or (hck : InStep Z (outsets Z T c k) R c₁ k₁) :
    R a a ∨ Alike Z R c₁ k₁ ∧ (Outset.mk c k (identityOn (Z.table c \ T))).Leads R c₁ k₁ := by
  obtain ⟨halike, F, rfl | rfl, hleads⟩ := hck
  · exact .inr ⟨halike, hleads⟩
  · have ha : a ∈ Z.table c := ⟨h.zone h.territory.root, h.territory.inside a h.territory.root⟩
    exact .inl (hleads.start a a ⟨rfl, ha⟩)

/-- What the run is on the two sides while it lags. -/
theorem expr_of_lags (hleads : (Outset.mk c k (identityOn (Z.table c \ T))).Leads R c₁ k₁)
    (hn : n ∈ T) :
    c₁.arena.expr n = c.arena.expr n ∧ k₁.arena.expr n = k.arena.expr n := by
  have hlt := h.territory.inside n hn
  refine ⟨hleads.left n hlt ?_, hleads.right n (hlt.trans_le h.thins.size) ?_⟩
  · rintro _ ⟨-, -, hnot⟩
    exact hnot hn
  · rintro _ ⟨rfl, -, hnot⟩
    exact hnot hn

/-- **A run that lags is resolved**, and lags no longer. -/
theorem catchesUp (hck : Alike Z R c₁ k₁)
    (hleads : (Outset.mk c k (identityOn (Z.table c \ T))).Leads R c₁ k₁) (depth : Nat) :
    (∃ c', CheckM.attempt (resolveWithin depth a) c₁ = .error .cyclic c') ∨
      ∃ c', CheckM.attempt (resolveWithin depth a) c₁ = .ok result c' ∧
        ∃ R', R ≤ R' ∧ InStep Z (outsets Z T c k) R' c' k₁ ∧ R' a a := by
  rcases h.coupled hck hleads depth with hcyclic | ⟨c', hok, R₁, halike, hleads₁⟩
  · exact .inl hcyclic
  -- Once the run is resolved on both sides, all corresponds.
  · have halike' := h.alike_union hck hleads halike hleads₁
    have hleads' := h.leads_union hleads hleads₁
    refine .inr ⟨c', hok, _, fun _ _ => .inl, ⟨halike', _, .inr rfl, hleads'⟩, .inr ?_⟩
    exact hleads₁.start a a ⟨rfl, h.territory.root⟩

end Lagging

/-! ## What happens meanwhile -/

section

variable {resolveRun : ExprId → CheckM Unit} {id : ExprId} {ts : List ExprId}

theorem classify_eq_of_ne_run (hk : ∀ ts, (c.arena.expr id).kind ≠ .run ts) :
    classify resolveRun id c = classifyResolved id (c.arena.expr id).span c := by
  have hrest : Outcome (classify resolveRun id) c
      (classifyResolved id (c.arena.expr id).span c = .ok · ·)
      (classifyResolved id (c.arena.expr id).span c = .error · ·) := by
    simp only [classify, outcome_bind, outcome_expr]
    exact outcome_self
  unfold Outcome at hrest
  split at hrest <;> rename_i heq <;> rw [heq, hrest]

/-- A failed term is refused. -/
theorem classifyResolved_eq_of_syntaxError (span : Span)
    (hk : (c.arena.expr id).kind = .syntaxError) :
    classifyResolved id span c = .error (.error ⟨.containsError, span⟩) c := by
  have hfound : CheckM.expr id c = .ok (c.arena.expr id) c := rfl
  simp only [classifyResolved, refreshReference, bind, EStateM.bind, hfound, hk, pure, EStateM.pure]
  rfl

theorem classify_eq_of_run {result : Except CompileError Unit} {c' : Compilation}
    (hk : (c.arena.expr id).kind = .run ts)
    (hattempt : CheckM.attempt (resolveRun id) c = .ok result c') :
    classify resolveRun id c =
      if result.isOk then classifyResolved id (c.arena.expr id).span c'
      else .error (.error ⟨.containsError, (c.arena.expr id).span⟩) c' := by
  have hfound : CheckM.expr id c = .ok (c.arena.expr id) c := rfl
  simp only [classify, bind, EStateM.bind, hfound, hk, hattempt]
  cases result <;> rfl

end

namespace Lagging

variable {result : Except CompileError Unit} (h : Lagging Z a T c k result)
include h

/-- **A run that lags is classified alike**, which makes it catch up. -/
theorem classify {depth depth' : Nat} (hterm : a ∈ Z.terms)
    (hres : Resolves True Z (outsets Z T c k) (resolveWithin depth) (resolveWithin depth')) :
    Tandem True Z (outsets Z T c k) R (classify (resolveWithin depth) a)
      (classify (resolveWithin depth') a) fun R' x y => x.Mirrors Z R' y ∧ Z.Operand R' a a := by
  intro c₁ k₁ hck
  rcases h.lags_or hck with hR | ⟨halike, hleads⟩
  · exact hres.classify ⟨hR, hterm⟩ c₁ k₁ hck
  · obtain ⟨ts, hk⟩ := h.run
    obtain ⟨hleft, hright⟩ := h.expr_of_lags hleads h.territory.root
    have hspan : (k₁.arena.expr a).span = (c₁.arena.expr a).span := by
      rw [hleft, hright]
      exact h.thins.span a (h.territory.inside a h.territory.root)
    have hne : ∀ ts, (k₁.arena.expr a).kind ≠ .run ts := hright ▸ h.ne_run
    have hk₁ : (c₁.arena.expr a).kind = .run ts := hleft ▸ hk
    unfold Coupled
    rw [classify_eq_of_ne_run hne, hspan]
    rcases h.catchesUp halike hleads depth with ⟨c', hcyclic⟩ | ⟨c', hok, R', hR', hck', ha⟩
    · have hcyclic' : Termwise.classify (resolveWithin depth) a c₁ = .error .cyclic c' := by
        have hfound : CheckM.expr a c₁ = .ok (c₁.arena.expr a) c₁ := rfl
        simp only [Termwise.classify, bind, EStateM.bind, hfound, hk₁, hcyclic]
      rw [hcyclic']
      trivial
    · rw [classify_eq_of_run hk₁ hok]
      rcases h.kind with ⟨e, rfl, hfailed⟩ | ⟨rfl, -⟩
      · have hk' : (k₁.arena.expr a).kind = .syntaxError := hright ▸ hfailed
        rw [classifyResolved_eq_of_syntaxError (c := k₁) _ hk']
        exact ⟨rfl, R', hR', hck'⟩
      · refine (tandem_classifyResolved (O := outsets Z T c k) ⟨ha, hterm⟩ _ c' k₁ hck').mono ?_ ?_
        · rintro x y c₂ k₂ ⟨R₂, hR₂, hck₂, hxy⟩
          exact ⟨R₂, hR'.trans hR₂, hck₂, hxy, hR₂ a a ha, hterm⟩
        · rintro e c₂ k₂ ⟨R₂, hR₂, hck₂⟩
          exact ⟨R₂, hR'.trans hR₂, hck₂⟩

/-- **Other runs are resolved alike** while the run lags. -/
theorem resolves (depth depth' : Nat) :
    Resolves True Z (outsets Z T c k) (resolveWithin depth) (resolveWithin depth') := by
  induction depth generalizing depth' with
  | zero => exact fun R n m _ c k _ => coupled_cyclic_left rfl
  | succ depth ih =>
    cases depth' with
    | zero => exact fun R n m _ c k _ => coupled_cyclic_right trivial rfl
    | succ depth' =>
      refine tandem_resolveNode ⟨?_, ?_⟩
      · rintro R t t' (hR | hlate) hterm
        · exact (ih depth').classify ⟨hR, hterm⟩
        · obtain ⟨rfl, rfl⟩ := (h.late t t').1 hlate
          exact h.classify hterm (ih depth')
      · intro R c₁ k₁ t t' hck hlate
        obtain ⟨rfl, rfl⟩ := (h.late t t').1 hlate
        rcases h.lags_or hck with hR | ⟨-, hleads⟩
        · exact .inl hR
        · obtain ⟨ts, hk⟩ := h.run
          obtain ⟨hleft, hright⟩ := h.expr_of_lags hleads h.territory.root
          exact .inr ⟨by simp [hleft, hk], hright ▸ h.ne_minusSign⟩

/-- An entry of a queue, if the run that lags is the only one in its territory. -/
theorem entry {id : ExprId} (hid : id ∈ Z.table c)
    (honly : id ∈ T → id ≠ a → ∀ ts, (c.arena.expr id).kind ≠ .run ts) :
    Tandem True Z (outsets Z T c k) R (CheckM.attempt (resolve id))
      (CheckM.attempt (resolve id)) fun R' _ _ => id = a → R' a a := by
  intro c₁ k₁ hck
  by_cases hR : R id id
  · have hresolve : Tandem True Z (outsets Z T c k) R (resolve id) (resolve id)
        fun _ _ _ => True :=
      tandem_arena.bind fun R₁ hR₁ _ _ _ => h.resolves _ _ R₁ id id (hR₁ id id hR)
    have hentry : Tandem True Z (outsets Z T c k) R (CheckM.attempt (resolve id))
        (CheckM.attempt (resolve id)) fun R' _ _ => id = a → R' a a := by
      refine hresolve.attempt.mono ?_
      rintro R' hR' _ _ - rfl
      exact hR' id id hR
    exact hentry c₁ k₁ hck
  -- The entry lies in the territory of the run, which lags.
  · obtain ⟨halike, F, rfl | rfl, hleads⟩ := hck
    · have hT : id ∈ T := by
        by_contra hT
        exact hR (hleads.start id id ⟨rfl, hid, hT⟩)
      obtain ⟨hleft, hright⟩ := h.expr_of_lags hleads hT
      by_cases hida : id = a
      · subst hida
        have hskip : CheckM.attempt (resolve id) k₁ = .ok (.ok ()) k₁ := by
          have hne : ∀ ts, (k₁.arena.expr id).kind ≠ .run ts := hright ▸ h.ne_run
          simp only [CheckM.attempt, resolve_of_ne_run hne]
        rcases h.catchesUp halike hleads (c₁.arena.exprs.size + 1) with
          ⟨c', hcyclic⟩ | ⟨c', hok, R', hR', hck', ha⟩
        · exact coupled_cyclic_left hcyclic
        · exact coupled_ok hok hskip ⟨R', hR', hck', fun _ => ha⟩
      · have hne := honly hT hida
        have hskip {s : Compilation} (hs : ∀ ts, (s.arena.expr id).kind ≠ .run ts) :
            CheckM.attempt (resolve id) s = .ok (.ok ()) s := by
          simp only [CheckM.attempt, resolve_of_ne_run hs]
        refine coupled_ok (hskip (hleft ▸ hne)) (hskip (hright ▸ h.thins.ne_run hne)) ?_
        exact ⟨R, le_rfl, ⟨halike, _, .inl rfl, hleads⟩, fun heq => (hida heq).elim⟩
    · exact (hR (hleads.start id id ⟨rfl, hid⟩)).elim

/-- **A queue** is worked off alike while the run lags. -/
theorem queue {ids : List ExprId} (hids : ∀ id ∈ ids, id ∈ Z.table c)
    (honly : ∀ id ∈ ids, id ∈ T → id ≠ a → ∀ ts, (c.arena.expr id).kind ≠ .run ts) :
    Tandem True Z (outsets Z T c k) R (resolveEach ids) (resolveEach ids)
      fun R' _ _ => a ∈ ids → R' a a := by
  induction ids generalizing R with
  | nil => exact tandem_pure nofun
  | cons id ids ih =>
    obtain ⟨hid, hids⟩ := List.forall_mem_cons.1 hids
    obtain ⟨honly_id, honly⟩ := List.forall_mem_cons.1 honly
    refine (h.entry hid honly_id).bind fun R₁ hR₁ _ _ ha => ?_
    refine (ih hids honly).bind fun R₂ hR₂ _ _ hrest => tandem_pure ?_
    rintro (_ | ⟨_, hmem⟩)
    · exact hR₂ a a (ha rfl)
    · exact hrest hmem

/-- What resolving the run at once changed lies in its territory. -/
theorem self : ∃ R, Alike Z.prompt R k k ∧ (Outset.mk c c (identityOn T)).Leads R k k := by
  have hcoupled := h.territory.coupled h.fits h.zone (SameProgram.refl c) le_rfl (fun _ _ => rfl)
    (fun _ _ => rfl) (c.arena.exprs.size + 1) (c.arena.exprs.size + 1)
  have hattempt : Coupled True (CheckM.attempt (resolve a)) (CheckM.attempt (resolve a)) c c
      (fun _ _ c' k' => ∃ R, Alike Z.prompt R c' k' ∧
        (Outset.mk c c (identityOn T)).Leads R c' k') fun _ _ _ => False :=
    Coupled.attempt (hcoupled.mono (fun _ _ _ _ => id) fun _ _ _ => id)
  rcases hattempt.of_ok_right h.resolved with ⟨c', hcyclic⟩ | ⟨_, c', hok, hR⟩
  · rw [h.resolved] at hcyclic
    cases hcyclic
  · rw [h.resolved] at hok
    cases hok
    exact hR

theorem expr_of_notMem (hlt : n.index < c.arena.exprs.size) (hn : n ∉ T) :
    k.arena.expr n = c.arena.expr n := by
  obtain ⟨R, -, hleads⟩ := h.self
  refine hleads.left n hlt ?_
  rintro _ ⟨-, hT⟩
  exact hn hT

/-- At first, the run lags. -/
theorem inStep : InStep Z (outsets Z T c k) (identityOn (Z.table c \ T)) c k := by
  obtain ⟨R, halike, hleads⟩ := h.self
  refine ⟨h.fits.alike hleads.same (SameProgram.refl c) h.fits.floor halike.floor
    (fun n hn => hn.1.1) ?_ (fun _ _ => rfl) ?_ ?_ ?_, _, .inl rfl, Outset.leads_start _⟩
  · exact fun n hn => ⟨hn.1.2, hn.1.2.trans_le h.thins.size⟩
  · exact fun n hn => h.expr_of_notMem hn.1.2 hn.2
  · intro n hn m hm
    by_cases hT : m ∈ T
    · obtain ⟨rfl, hrun⟩ := h.territory.sealed n hn.2 m hm hT
      exact .inr ⟨(h.late m m).2 ⟨rfl, rfl⟩, hrun⟩
    · exact .inl ⟨h.fits.closed n hn.1.1 m hm, hT⟩
  · intro n hn
    have hlt : n.index < Z.floor := Nat.lt_of_not_le fun hle => hn (Z.zone_of_le n hle)
    exact h.expr_of_notMem (hlt.trans_le h.fits.floor) fun hT => hn (h.zone hT)

/-- **A queue comes to the same** if a run that is in it is resolved first. -/
theorem comes_first {ids : List ExprId} (hids : ∀ id ∈ ids, id ∈ Z.table c)
    (honly : ∀ id ∈ ids, id ∈ T → id ≠ a → ∀ ts, (c.arena.expr id).kind ≠ .run ts)
    (ha : a ∈ ids) :
    Coupled True (resolveEach ids) (resolveEach ids) c k
      (fun _ _ c' k' => ∃ R, Alike Z R c' k' ∧
        (Outset.mk c c (identityOn (Z.table c))).Leads R c' k') fun _ _ _ => True := by
  refine (h.queue hids honly c k h.inStep).mono ?_ fun _ _ _ _ => trivial
  rintro _ _ c' k' ⟨R, -, ⟨halike, F, rfl | rfl, hleads⟩, hR⟩
  -- A run that corresponds to itself lags no longer.
  · have hroot := h.territory.root
    rcases hleads.fresh a a (hR ha) with ⟨-, -, hnot⟩ | ⟨hle, -⟩
    · exact (hnot hroot).elim
    · exact absurd (h.territory.inside a hroot) (Nat.not_lt.2 hle)
  · exact ⟨R, halike, hleads⟩

end Lagging

end Termwise
