import Mathlib.Data.Finset.Card
import Mathlib.Logic.Relation
import Mathlib.Order.WellFounded
import Termwise.Proofs.Run.Territory

/-!
# Moving a run to the front

The innermost run of a queue may be moved to its front, because the runs before it can do without
it, whether they come upon it or not. What is left is a queue with one run less, so two queues that
hold the same runs end alike: in the same program, up to the positions of nodes that were appended.

## Main definitions

* `Renaming`, `EndsAlike`: two compilations are the same up to the positions of new nodes
* `Orderly`: the invariant, with the territories of the runs that are left

## Main results

* `Orderly.step`: the innermost run is resolved
* `Orderly.endsAlike`: two queues that hold the same runs
-/

namespace Termwise

open Compilation

/-! ## Compilations that are the same -/

/-- **Nodes correspond one to one**, and those that were there first to themselves. -/
structure Renaming (size : Nat) (R : ExprId → ExprId → Prop) (c k : Compilation) : Prop where
  old : ∀ n : ExprId, n.index < size → R n n
  left_unique : ∀ {n n' m}, R n m → R n' m → n = n'
  right_unique : ∀ {n m m'}, R n m → R n m' → m = m'
  expr : ∀ {n m}, R n m → (c.arena.expr n).Mirrors R R (k.arena.expr m)

/-- **Two compilations end alike**: they are as valid, the same was reported, and they hold the
same nodes up to the positions of those that were appended. -/
structure EndsAlike (size : Nat) (c k : Compilation) : Prop where
  nodes : ∃ R, Renaming size R c k
  isValid : k.isValid = c.isValid
  diagnostics : c.diagnostics.Perm k.diagnostics

theorem ExprKind.Mirrors.symm {Q R : ExprId → ExprId → Prop} {x y : ExprKind}
    (h : x.Mirrors Q R y) : y.Mirrors (fun n m => Q m n) (fun n m => R m n) x := by
  cases h with
  | leaf hk => exact .leaf hk
  | run hts => exact .run hts.flip
  | call d hargs => exact .call d hargs.flip
  | negated hn => exact .negated hn

theorem forall₂_comp {R R' : ExprId → ExprId → Prop} {ns ms ls : List ExprId}
    (h : List.Forall₂ R ns ms) (h' : List.Forall₂ R' ms ls) :
    List.Forall₂ (fun n l => ∃ m, R n m ∧ R' m l) ns ls := by
  induction h generalizing ls with
  | nil =>
    cases h'
    exact .nil
  | cons hhead _ ih =>
    cases h' with
    | cons hhead' htail' => exact .cons ⟨_, hhead, hhead'⟩ (ih htail')

theorem ExprKind.Mirrors.trans {R R' : ExprId → ExprId → Prop} {x y z : ExprKind}
    (h : x.Mirrors R R y) (h' : y.Mirrors R' R' z) :
    x.Mirrors (fun n l => ∃ m, R n m ∧ R' m l) (fun n l => ∃ m, R n m ∧ R' m l) z := by
  cases h with
  | leaf hk =>
    rw [h'.of_isAtom hk]
    exact .leaf hk
  | run hts =>
    obtain ⟨us, rfl, hus⟩ := h'.of_run
    exact .run (forall₂_comp hts hus)
  | call d hargs =>
    obtain ⟨args, rfl, hargs'⟩ := h'.of_call
    exact .call d (forall₂_comp hargs hargs')
  | negated hn =>
    obtain ⟨l, rfl, hl⟩ := h'.of_negated
    exact .negated ⟨_, hn, hl⟩

namespace EndsAlike

variable {size : Nat} {c c' c'' : Compilation}

theorem refl (size : Nat) (c : Compilation) : EndsAlike size c c where
  nodes :=
    ⟨Eq, fun _ _ => rfl, fun h h' => h.trans h'.symm, fun h h' => h.symm.trans h',
      fun h => h ▸ ⟨.refl (fun _ _ _ _ => rfl) fun _ _ _ => rfl, rfl, rfl, rfl⟩⟩
  isValid := rfl
  diagnostics := .refl _

theorem symm (h : EndsAlike size c c') : EndsAlike size c' c := by
  obtain ⟨R, hR⟩ := h.nodes
  refine ⟨⟨fun n m => R m n, hR.old, hR.right_unique, hR.left_unique, fun {n m} hnm => ?_⟩,
    h.isValid.symm, h.diagnostics.symm⟩
  obtain ⟨hkind, hty, hdeclared, hspan⟩ := hR.expr hnm
  exact ⟨hkind.symm, hty.symm, hdeclared.symm, hspan.symm⟩

theorem trans (h : EndsAlike size c c') (h' : EndsAlike size c' c'') : EndsAlike size c c'' := by
  obtain ⟨R, hR⟩ := h.nodes
  obtain ⟨R', hR'⟩ := h'.nodes
  refine ⟨⟨fun n l => ∃ m, R n m ∧ R' m l, ?_, ?_, ?_, ?_⟩, h'.isValid.trans h.isValid,
    h.diagnostics.trans h'.diagnostics⟩
  · exact fun n hn => ⟨n, hR.old n hn, hR'.old n hn⟩
  · rintro n n' l ⟨m, hnm, hml⟩ ⟨m', hnm', hml'⟩
    cases hR'.left_unique hml hml'
    exact hR.left_unique hnm hnm'
  · rintro n l l' ⟨m, hnm, hml⟩ ⟨m', hnm', hml'⟩
    cases hR.right_unique hnm hnm'
    exact hR'.right_unique hml hml'
  · rintro n l ⟨m, hnm, hml⟩
    have he := hR.expr hnm
    have he' := hR'.expr hml
    exact ⟨he.kind.trans he'.kind, he'.ty.trans he.ty, he'.declared.trans he.declared,
      he'.span.trans he.span⟩

end EndsAlike

/-- Compilations that mirror each other end alike: what lies outside the zone is the same. -/
theorem Alike.endsAlike {Z : Extent} {R : ExprId → ExprId → Prop} {c k : Compilation}
    (h : Alike Z R c k) (hlate : ∀ t t', Z.late t t' → R t t')
    (hold : ∀ n ∈ Z.zone, n.index < Z.floor → R n n)
    (houtside : ∀ n ∉ Z.zone, ∀ m ∈ (c.arena.expr n).kind.children, m.index < Z.floor)
    (hvalid : k.isValid = c.isValid) (hdiagnostics : c.diagnostics.Perm k.diagnostics) :
    EndsAlike Z.floor c k := by
  refine ⟨⟨fun n m => R n m ∨ n = m ∧ n ∉ Z.zone, ?_, ?_, ?_, ?_⟩, hvalid, hdiagnostics⟩
  · intro n hn
    by_cases hzone : n ∈ Z.zone
    · exact .inl (hold n hzone hn)
    · exact .inr ⟨rfl, hzone⟩
  · rintro n n' m (hnm | ⟨rfl, hn⟩) (hnm' | ⟨rfl, hn'⟩)
    · exact h.left_unique hnm hnm'
    · exact (hn' (h.zone hnm).2).elim
    · exact (hn (h.zone hnm').2).elim
    · rfl
  · rintro n m m' (hnm | ⟨rfl, hn⟩) (hnm' | ⟨rfl, hn'⟩)
    · exact h.right_unique hnm hnm'
    · exact (hn' (h.zone hnm).1).elim
    · exact (hn (h.zone hnm').1).elim
    · rfl
  · rintro n m (hnm | ⟨rfl, hn⟩)
    · refine (h.expr hnm).mono (fun t t' ht => .inl ?_) fun _ _ => .inl
      exact ht.elim id (hlate t t')
    · rw [h.outside n hn]
      have hbelow : ∀ m ∈ (c.arena.expr n).kind.children, R m m ∨ m = m ∧ m ∉ Z.zone := by
        intro m hm
        by_cases hzone : m ∈ Z.zone
        · exact .inl (hold m hzone (houtside n hn m hm))
        · exact .inr ⟨rfl, hzone⟩
      refine ⟨.refl (fun ts hk t ht => hbelow t ?_) fun _ m hm => hbelow m hm, rfl, rfl, rfl⟩
      rwa [hk]

/-! ## The invariant -/

/-- The extent in which one run lags. -/
def Extent.lagging (Z : Extent) (a : ExprId) : Extent :=
  { Z with late := fun t t' => t = a ∧ t' = a }

theorem Extent.Fits.lagging {Z : Extent} {c : Compilation} (h : Z.Fits c) (a : ExprId) :
    (Z.lagging a).Fits c :=
  ⟨h.builtins, h.floor, h.closed, fun n hn => ⟨(h.admits n hn).names, (h.admits n hn).terms⟩,
    h.body⟩

/-- **Runs may be resolved in any order**: each of those that are left has its territory, and of two
territories one contains the other, or they are apart. -/
structure Orderly (Z : Extent) (below : ExprId → ExprId → Prop) (runs : Finset ExprId)
    (T : ExprId → Set ExprId) (c : Compilation) : Prop where
  fits : Z.Fits c
  outside : ∀ n ∉ Z.zone, ∀ m ∈ (c.arena.expr n).kind.children, m.index < Z.floor
  nested : ∀ n, Acc c.TermOf n
  run : ∀ a ∈ runs, ∃ ts, (c.arena.expr a).kind = .run ts
  territory : ∀ a ∈ runs, Territory c a (T a)
  zone : ∀ a ∈ runs, T a ⊆ Z.zone
  inner : ∀ a ∈ runs, ∀ b ∈ runs, b ∈ T a → T b ⊆ T a
  apart : ∀ a ∈ runs, ∀ b ∈ runs, a ∉ T b → b ∉ T a → ∀ n ∈ T a, n ∉ T b
  below : ∀ a ∈ runs, ∀ b ∈ runs, b ∈ T a → b = a ∨ below b a

namespace Orderly

variable {Z : Extent} {below : ExprId → ExprId → Prop} {runs : Finset ExprId}
  {T : ExprId → Set ExprId} {c k : Compilation} {a : ExprId} {result : Except CompileError Unit}

/-- Some run has no other one in its territory. -/
theorem exists_innermost (h : Orderly Z below runs T c) (hwf : WellFounded below)
    (hruns : runs.Nonempty) : ∃ a ∈ runs, ∀ b ∈ runs, b ∈ T a → b = a := by
  obtain ⟨a, ha, hmin⟩ := hwf.has_min {a | a ∈ runs} hruns
  refine ⟨a, ha, fun b hb hmem => ?_⟩
  exact (h.below a ha b hb hmem).resolve_right (hmin b hb)

/-- A run that is left lags behind itself resolved. -/
theorem lagging (h : Orderly Z below runs T c) (ha : a ∈ runs)
    (hresolved : CheckM.attempt (resolve a) c = .ok result k) :
    Lagging (Z.lagging a) a (T a) c k result where
  fits := h.fits.lagging a
  territory := h.territory a ha
  zone := h.zone a ha
  late _ _ := Iff.rfl
  run := h.run a ha
  nested := h.nested a
  resolved := hresolved

/-- The territories once a run was resolved: what was appended belongs to the runs around it. -/
def enlarged (T : ExprId → Set ExprId) (a : ExprId) (c k : Compilation) (b : ExprId) : Set ExprId :=
  T b ∪ {n | a ∈ T b ∧ c.arena.exprs.size ≤ n.index ∧ n.index < k.arena.exprs.size}

/-- What a step made of the nodes: those that the run reached, and those that it left alone. -/
theorem reached (h : Orderly Z below runs T c) (ha : a ∈ runs)
    (hresolved : CheckM.attempt (resolve a) c = .ok result k) :
    c.Thins k ∧ c.SameProgram k ∧
      (∀ n, n.index < c.arena.exprs.size → n ∉ T a → k.arena.expr n = c.arena.expr n) ∧
      ∀ n, (n ∈ T a ∨ c.arena.exprs.size ≤ n.index ∧ n.index < k.arena.exprs.size) →
        Z.Admits n (k.arena.expr n).kind ∧ ∀ m ∈ (k.arena.expr n).kind.children,
          m ∈ T a ∨ c.arena.exprs.size ≤ m.index ∧ m.index < k.arena.exprs.size := by
  have hlagging := h.lagging ha hresolved
  obtain ⟨R, halike, hleads⟩ := hlagging.self
  refine ⟨hlagging.thins, hleads.same, fun n => hlagging.expr_of_notMem, fun n hn => ?_⟩
  have hmember {m m' : ExprId} (hm : R m m') :
      m ∈ T a ∨ c.arena.exprs.size ≤ m.index ∧ m.index < k.arena.exprs.size := by
    rcases hleads.fresh m m' hm with ⟨-, hm⟩ | ⟨hle, -⟩
    · exact .inl hm
    · exact .inr ⟨hle, (halike.inside hm).1⟩
  have hR : ∃ m, R n m := by
    rcases hn with hn | ⟨hle, hlt⟩
    · exact ⟨n, hleads.start n n ⟨rfl, hn⟩⟩
    · exact hleads.covered n hle hlt
  obtain ⟨m, hR⟩ := hR
  refine ⟨⟨(halike.admits hR).names, (halike.admits hR).terms⟩, fun x hx => ?_⟩
  obtain ⟨y, hxy⟩ := (halike.expr hR).kind.mem_children (fun _ _ ht => ht.resolve_right id) hx
  exact hmember hxy

/-- After a run was resolved a node is one that the run reached, or is untouched, or is not in the
table. -/
theorem reached_or (T : ExprId → Set ExprId) (a : ExprId) (c k : Compilation) (n : ExprId) :
    (n ∈ T a ∨ c.arena.exprs.size ≤ n.index ∧ n.index < k.arena.exprs.size) ∨
      n.index < c.arena.exprs.size ∧ n ∉ T a ∨ k.arena.expr n = .tombstone := by
  by_cases hT : n ∈ T a
  · exact .inl (.inl hT)
  · by_cases hlt : n.index < c.arena.exprs.size
    · exact .inr (.inl ⟨hlt, hT⟩)
    · by_cases hlt' : n.index < k.arena.exprs.size
      · exact .inl (.inr ⟨Nat.le_of_not_lt hlt, hlt'⟩)
      · exact .inr (.inr (Arena.expr_of_size_le (Nat.le_of_not_lt hlt')))

theorem inTable_of_mem_children (h : Orderly Z below runs T c) {n m : ExprId}
    (hm : m ∈ (c.arena.expr n).kind.children) : m.index < c.arena.exprs.size := by
  by_cases hzone : n ∈ Z.zone
  · exact (h.fits.closed n hzone m hm).2
  · exact (h.outside n hzone m hm).trans_le h.fits.floor

open Classical in
/-- The runs that are left lie outside the territory of the innermost one. -/
theorem notMem_of_left (h : Orderly Z below runs T c) (ha : a ∈ runs)
    (hinnermost : ∀ b ∈ runs, b ∈ T a → b = a)
    (hresolved : CheckM.attempt (resolve a) c = .ok result k) {b : ExprId}
    (hb : b ∈ runs.filter fun b => ∃ ts, (k.arena.expr b).kind = .run ts) :
    b ∈ runs ∧ b ∉ T a := by
  obtain ⟨hmem, ts, hk⟩ := Finset.mem_filter.1 hb
  refine ⟨hmem, fun hT => ?_⟩
  cases hinnermost b hmem hT
  exact (h.lagging ha hresolved).ne_run ts hk

/-- What was there before is in no territory that it was not in. -/
theorem mem_of_mem_enlarged (h : Orderly Z below runs T c) {b b' : ExprId} (hb' : b' ∈ runs)
    (hmem : b' ∈ enlarged T a c k b) : b' ∈ T b := by
  refine hmem.resolve_right ?_
  rintro ⟨-, hle, -⟩
  have hterritory := h.territory b' hb'
  exact absurd (hterritory.inside b' hterritory.root) (Nat.not_lt.2 hle)

/-- What the run reached and what was appended for it stays in the zone. -/
theorem fits_step (h : Orderly Z below runs T c) (ha : a ∈ runs)
    (hresolved : CheckM.attempt (resolve a) c = .ok result k) : Z.Fits k := by
  obtain ⟨hthins, hprogram, hkept, hreached⟩ := h.reached ha hresolved
  have hfloor := h.fits.floor
  have hsize := hthins.size
  refine ⟨hprogram.builtins.trans h.fits.builtins, hfloor.trans hsize, ?_, ?_, ?_⟩
  · intro n hn m hm
    rcases reached_or T a c k n with hn' | ⟨hlt, hT⟩ | htomb
    · rcases (hreached n hn').2 m hm with hT | ⟨hle, hlt⟩
      · exact ⟨h.zone a ha hT, ((h.territory a ha).inside m hT).trans_le hsize⟩
      · exact ⟨Z.zone_of_le m (hfloor.trans hle), hlt⟩
    · rw [hkept n hlt hT] at hm
      obtain ⟨hzone, hlt'⟩ := h.fits.closed n hn m hm
      exact ⟨hzone, hlt'.trans_le hsize⟩
    · rw [htomb] at hm
      cases hm
  · intro n hn
    rcases reached_or T a c k n with hn' | ⟨hlt, hT⟩ | htomb
    · exact (hreached n hn').1
    · rw [hkept n hlt hT]
      exact h.fits.admits n hn
    · rw [htomb]
      exact ⟨fun _ _ hd => (List.not_mem_nil hd).elim, nofun⟩
  · intro d hd hdeclared b hb
    rw [hprogram.definition] at hdeclared hb
    exact h.fits.body d hd hdeclared b hb

/-- An enlarged territory is not left downwards. -/
theorem closed_step (h : Orderly Z below runs T c) (ha : a ∈ runs)
    (hresolved : CheckM.attempt (resolve a) c = .ok result k) {b : ExprId} (hb : b ∈ runs)
    (hbT : b ∉ T a) : ∀ n ∈ enlarged T a c k b, ∀ m ∈ (k.arena.expr n).kind.children,
      m ∈ enlarged T a c k b := by
  obtain ⟨-, -, hkept, hreached⟩ := h.reached ha hresolved
  have hterritory := h.territory b hb
  intro n hn m hm
  by_cases haT : a ∈ T b
  -- The run is inside, and with it all that it reached.
  · rcases reached_or T a c k n with hn' | ⟨hlt, hT⟩ | htomb
    · rcases (hreached n hn').2 m hm with hT | hnew
      · exact .inl (h.inner b hb a ha haT hT)
      · exact .inr ⟨haT, hnew⟩
    · rcases hn with hn | ⟨-, hle, -⟩
      · rw [hkept n hlt hT] at hm
        exact .inl (hterritory.closed n hn m hm)
      · omega
    · rw [htomb] at hm
      cases hm
  -- The run is outside, and the two territories are apart.
  · rcases hn with hn | ⟨haT', -⟩
    · rw [hkept n (hterritory.inside n hn) (h.apart b hb a ha hbT haT n hn)] at hm
      exact .inl (hterritory.closed n hn m hm)
    · exact (haT haT').elim

/-- An enlarged territory is entered at its run only. -/
theorem sealed_step (h : Orderly Z below runs T c) (ha : a ∈ runs)
    (hresolved : CheckM.attempt (resolve a) c = .ok result k) {b : ExprId} (hb : b ∈ runs)
    (hbT : b ∉ T a) : ∀ n, n ∉ enlarged T a c k b → ∀ m ∈ (k.arena.expr n).kind.children,
      m ∈ enlarged T a c k b → m = b ∧ ∃ ts, (k.arena.expr n).kind = .run ts := by
  obtain ⟨-, -, hkept, hreached⟩ := h.reached ha hresolved
  have hterritory := h.territory b hb
  intro n hn m hm hmT
  rcases reached_or T a c k n with hn' | ⟨hlt, hT⟩ | htomb
  -- What the run reached refers to what it reached, which is all inside or all outside.
  · refine absurd ?_ hn
    have hmem := (hreached n hn').2 m hm
    by_cases haT : a ∈ T b
    · rcases hn' with hT | hnew
      · exact .inl (h.inner b hb a ha haT hT)
      · exact .inr ⟨haT, hnew⟩
    · rcases hmT with hmT | ⟨haT', -⟩
      · rcases hmem with hT | ⟨hle, -⟩
        · exact (h.apart b hb a ha hbT haT m hmT hT).elim
        · exact absurd (hterritory.inside m hmT) (Nat.not_lt.2 hle)
      · exact (haT haT').elim
  -- An untouched node refers to nothing new.
  · rw [hkept n hlt hT] at hm ⊢
    refine hterritory.sealed n (fun hnT => hn (.inl hnT)) m hm ?_
    rcases hmT with hmT | ⟨-, hle, -⟩
    · exact hmT
    · exact absurd (h.inTable_of_mem_children hm) (Nat.not_lt.2 hle)
  · rw [htomb] at hm
    cases hm

/-- A run that is left has its enlarged territory. -/
theorem territory_step (h : Orderly Z below runs T c) (ha : a ∈ runs)
    (hresolved : CheckM.attempt (resolve a) c = .ok result k) {b : ExprId} (hb : b ∈ runs)
    (hbT : b ∉ T a) : Territory k b (enlarged T a c k b) where
  root := .inl (h.territory b hb).root
  inside := by
    rintro n (hn | ⟨-, -, hlt⟩)
    · exact ((h.territory b hb).inside n hn).trans_le (h.reached ha hresolved).1.size
    · exact hlt
  closed := h.closed_step ha hresolved hb hbT
  sealed := h.sealed_step ha hresolved hb hbT

open Classical in
/-- **The innermost run is resolved**, which leaves the invariant to those that are runs then. -/
theorem step (h : Orderly Z below runs T c) (ha : a ∈ runs)
    (hinnermost : ∀ b ∈ runs, b ∈ T a → b = a)
    (hresolved : CheckM.attempt (resolve a) c = .ok result k) :
    Orderly Z below (runs.filter fun b => ∃ ts, (k.arena.expr b).kind = .run ts)
      (enlarged T a c k) k := by
  obtain ⟨hthins, -, hkept, -⟩ := h.reached ha hresolved
  have hleft {b : ExprId} := h.notMem_of_left ha hinnermost hresolved (b := b)
  have hinside (b) (hb : b ∈ runs) := (h.territory b hb).inside
  refine
    { fits := h.fits_step ha hresolved
      outside := ?_
      nested := fun n => hthins.acc (h.nested n)
      run := fun b hb => (Finset.mem_filter.1 hb).2
      territory := fun b hb => h.territory_step ha hresolved (hleft hb).1 (hleft hb).2
      zone := ?_
      inner := ?_
      apart := ?_
      below := ?_ }
  · intro n hn m hm
    have hlt : n.index < Z.floor := Nat.lt_of_not_le fun hle => hn (Z.zone_of_le n hle)
    rw [hkept n (hlt.trans_le h.fits.floor) fun hT => hn (h.zone a ha hT)] at hm
    exact h.outside n hn m hm
  · rintro b hb n (hn | ⟨-, hle, -⟩)
    · exact h.zone b (hleft hb).1 hn
    · exact Z.zone_of_le n (h.fits.floor.trans hle)
  · intro b hb b' hb' hmem
    have hsub : T b' ⊆ T b :=
      h.inner b (hleft hb).1 b' (hleft hb').1 (h.mem_of_mem_enlarged (hleft hb').1 hmem)
    rintro n (hn | ⟨haT, hnew⟩)
    · exact .inl (hsub hn)
    · exact .inr ⟨hsub haT, hnew⟩
  · intro b hb b' hb' hnot hnot'
    obtain ⟨hb, -⟩ := hleft hb
    obtain ⟨hb', -⟩ := hleft hb'
    have hapart := h.apart b hb b' hb' (fun hT => hnot (.inl hT)) fun hT => hnot' (.inl hT)
    -- What was appended belongs to one of two such territories at most, since the run does.
    rintro n (hn | ⟨haT, hle, -⟩) (hn' | ⟨haT', hle', -⟩)
    · exact hapart n hn hn'
    · exact absurd (hinside b hb n hn) (Nat.not_lt.2 hle')
    · exact absurd (hinside b' hb' n hn') (Nat.not_lt.2 hle)
    · exact hapart a haT haT'
  · intro b hb b' hb' hmem
    exact h.below b (hleft hb).1 b' (hleft hb').1 (h.mem_of_mem_enlarged (hleft hb').1 hmem)

/-! ## Queues -/

/-- **A queue ends alike** if the innermost run is resolved first. -/
theorem endsAlike_step (h : Orderly Z below runs T c) (ha : a ∈ runs)
    (hinnermost : ∀ b ∈ runs, b ∈ T a → b = a)
    (hresolved : CheckM.attempt (resolve a) c = .ok result k) {ids : List ExprId} (hmem : a ∈ ids)
    (hids : ∀ id ∈ ids, id ∈ Z.zone ∧ id.index < Z.floor)
    (hruns : ∀ id ∈ ids, ∀ ts, (c.arena.expr id).kind = .run ts → id ∈ runs) {failures : Nat}
    {c' : Compilation} (hok : resolveEach ids c = .ok failures c') :
    ∃ failures k', resolveEach ids k = .ok failures k' ∧ EndsAlike Z.floor c' k' := by
  have hlagging := h.lagging ha hresolved
  have hfloor := h.fits.floor
  have htable : ∀ id ∈ ids, id ∈ (Z.lagging a).table c :=
    fun id hid => ⟨(hids id hid).1, (hids id hid).2.trans_le hfloor⟩
  have honly : ∀ id ∈ ids, id ∈ T a → id ≠ a → ∀ ts, (c.arena.expr id).kind ≠ .run ts :=
    fun id hid hT hne ts hk => hne (hinnermost id (hruns id hid ts hk) hT)
  have hdeep : ∀ k', resolveEach ids k ≠ .error .cyclic k' := by
    intro k' hcyclic
    have hends := resolveEach_ends ids fun n => hlagging.thins.acc (h.nested n)
    rwa [Outcome, hcyclic] at hends
  obtain ⟨failures', k', hok', R, halike, hleads⟩ :=
    (hlagging.comes_first htable honly hmem).of_ok hok hdeep
  refine ⟨failures', k', hok', ?_⟩
  obtain ⟨X, x, hX, hX'⟩ := hleads.books
  have hself (n : ExprId) (hn : n ∈ Z.zone) (hlt : n.index < Z.floor) : R n n :=
    hleads.start n n ⟨rfl, hn, hlt.trans_le hfloor⟩
  refine halike.endsAlike ?_ hself ?_ (hX'.2.trans hX.2.symm)
    (Multiset.coe_eq_coe.1 (hX.1.trans hX'.1.symm))
  · rintro t t' ⟨rfl, rfl⟩
    exact hself _ (hids _ hmem).1 (hids _ hmem).2
  · intro n hn m hm
    have hlt : n.index < Z.floor := Nat.lt_of_not_le fun hle => hn (Z.zone_of_le n hle)
    rw [hleads.left n (hlt.trans_le hfloor)] at hm
    · exact h.outside n hn m hm
    · rintro _ ⟨-, hzone, -⟩
      exact hn hzone

open Classical in
/-- **Two queues end alike** if they hold the same runs. -/
theorem endsAlike (h : Orderly Z below runs T c) (hwf : WellFounded below) {ids ids' : List ExprId}
    (hmem : ∀ a ∈ runs, a ∈ ids ∧ a ∈ ids')
    (hids : ∀ id, id ∈ ids ∨ id ∈ ids' → id ∈ Z.zone ∧ id.index < Z.floor)
    (hruns : ∀ id, id ∈ ids ∨ id ∈ ids' → ∀ ts, (c.arena.expr id).kind = .run ts → id ∈ runs)
    {failures failures' : Nat} {c₁ c₂ : Compilation}
    (hok : resolveEach ids c = .ok failures c₁) (hok' : resolveEach ids' c = .ok failures' c₂) :
    EndsAlike Z.floor c₁ c₂ := by
  -- On the number of runs that are left: the innermost one is moved to the front of both queues.
  induction hcard : runs.card using Nat.strongRecOn generalizing runs T c failures failures' c₁ c₂
    with
  | ind count ih =>
    rcases runs.eq_empty_or_nonempty with rfl | hnonempty
    · have hskip {ids : List ExprId} (hnone : ∀ id ∈ ids, ∀ ts, (c.arena.expr id).kind = .run ts →
          id ∈ (∅ : Finset ExprId)) : resolveEach ids c = .ok 0 c :=
        resolveEach_of_ne_run fun id hid ts hk => Finset.notMem_empty id (hnone id hid ts hk)
      rw [hskip fun id hid => hruns id (.inl hid)] at hok
      rw [hskip fun id hid => hruns id (.inr hid)] at hok'
      cases hok
      cases hok'
      exact .refl _ _
    · obtain ⟨a, ha, hinnermost⟩ := h.exists_innermost hwf hnonempty
      obtain ⟨result, k, hresolved, hthins, hne⟩ :=
        (resolve_leaves_no_run (h.nested a)).exists_ok
      obtain ⟨_, k₁, hk₁, hends₁⟩ := h.endsAlike_step ha hinnermost hresolved (hmem a ha).1
        (fun id hid => hids id (.inl hid)) (fun id hid => hruns id (.inl hid)) hok
      obtain ⟨_, k₂, hk₂, hends₂⟩ := h.endsAlike_step ha hinnermost hresolved (hmem a ha).2
        (fun id hid => hids id (.inr hid)) (fun id hid => hruns id (.inr hid)) hok'
      have hfewer : (runs.filter fun b => ∃ ts, (k.arena.expr b).kind = .run ts).card < count := by
        rw [← hcard]
        refine Finset.card_lt_card (Finset.filter_ssubset.2 ⟨a, ha, ?_⟩)
        rintro ⟨ts, hk⟩
        exact hne ts hk
      have hmiddle := ih _ hfewer (h.step ha hinnermost hresolved)
        (fun b hb => hmem b (Finset.mem_filter.1 hb).1) ?_ hk₁ hk₂ rfl
      · exact (hends₁.trans hmiddle).trans hends₂.symm
      · intro id hid ts hk
        exact Finset.mem_filter.2 ⟨hruns id hid ts (hthins.run id ts hk), ts, hk⟩

end Orderly

end Termwise
