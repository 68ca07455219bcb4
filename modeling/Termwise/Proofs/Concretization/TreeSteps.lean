import Termwise.Proofs.Concretization.RepeatedCalls

/-!
# Steps among trees that share nothing

A step of a walk changes one tree: it settles a value, types a reference or a call, makes a call of
a minus sign, or puts the copy of a body in the place of a use. Whatever the step does, the tree
still shares nothing with the bodies that the walk may get to, and uses definitions of the same
ranks as before. A copy uses those of the body that it is a copy of, which are of lower ranks.

## Main results

* `Ready.alter`: a step that changes expressions in place
* `typeCall_passes`, `callNegation_passes`, `substitute_passes`: the steps of calls, minus signs and
  uses
* `Passes.recalls`, `Passes.lasts`: what is remembered of a part of a walk
-/

namespace Termwise

open Compilation

variable {P : Prospect} {settings : Settings} {k k' : Nat} {c c' c₁ : Compilation}
  {id n m x b : ExprId} {d d' : DefId} {ids ids' args : List ExprId} {t param : Ty}
  {w w' w₁ : Walk} {e e' : Expression} {bs : Builtins}

/-! ## Expressions that fit -/

namespace Prospect

/-- A value uses no definition. -/
theorem Fits.of_value (hvalue : e.kind.isValue = true) (hdeclared : e.declared = none) :
    P.Fits bs k e := by
  obtain ⟨v, hk⟩ : ∃ v, e.kind = .value v := by
    cases hk : e.kind <;> simp_all [ExprKind.isValue]
  refine ⟨hdeclared, fun d hd => ?_, fun d args hk' => ?_⟩
  · rw [hk] at hd
    cases hd with
    | use h => cases h
  · cases hk.symm.trans hk'

/-- What stands in for an integer when it is widened uses definitions of the same ranks. -/
theorem Fits.widened (h : P.Fits c.builtins k (c.arena.expr n))
    (hneg : ∃ ty, P.fixed c.builtins.unaryMinusFloat = some ty) :
    P.Fits c.builtins k (c.widened n) := by
  have hdeclared : (c.widened n).declared = none := (declared_widened c n).trans h.declared
  cases hk : (c.arena.expr n).kind with
  | value v =>
    refine .of_value ?_ hdeclared
    have hvalue : (c.arena.expr n).kind.isValue = true := by rw [hk]; rfl
    simp only [Compilation.widened, hk]
    cases hcast : (c.arena.expr n).cast? .int .float with
    | none => exact hvalue
    | some e =>
      rcases Expression.cast?_kind hcast with heq | ⟨-, hvalue'⟩
      · exact heq ▸ hvalue
      · exact hvalue'
  | call d args =>
    have huses := h.uses
    rw [hk] at huses
    have hwidened : (c.widened n).kind = .call ((c.floatCallee? d).getD d) args := by
      simp only [Compilation.widened, hk]
    -- The callee stays, or the negation of integers became that of floats.
    have hcallee := c.getD_floatCallee? d
    generalize (c.floatCallee? d).getD d = d' at hwidened hcallee
    refine ⟨hdeclared, fun d'' hd => ?_, fun d'' xs hk' => ?_⟩
    · rw [hwidened] at hd
      cases hd with
      | use heq =>
        obtain rfl := Option.some.inj heq
        rcases hcallee with rfl | ⟨rfl, rfl⟩
        · exact huses _ (.use rfl)
        · exact huses _ (.widening args)
      | widening =>
        rcases hcallee with heq | ⟨rfl, -⟩
        · exact huses _ (heq ▸ .widening args)
        · exact huses _ (.widening args)
    · cases hwidened.symm.trans hk'
      rcases hcallee with rfl | ⟨-, rfl⟩
      · exact h.called _ _ hk
      · exact hneg
  | _ =>
    have hsame : c.widened n = c.arena.expr n := by simp only [Compilation.widened, hk]
    rw [hsame]
    exact h


theorem Fits.congr (h : P.Fits bs k e) (hk : e'.kind = e.kind)
    (hdeclared : e'.declared = e.declared) : P.Fits bs k e' :=
  ⟨hdeclared.trans h.declared, by rw [hk]; exact h.uses, by rw [hk]; exact h.called⟩

/-- What looks the same uses the same definitions. -/
theorem Fits.of_resembles (h : P.Fits bs k e) (hk : e.kind.Resembles e'.kind)
    (hdeclared : e'.declared = none) : P.Fits bs k e' := by
  refine ⟨hdeclared, fun d hd => ?_, fun d args hk' => ?_⟩
  · rcases hk.leadsTo hd with ⟨m, -, heq⟩ | hd
    · cases heq
    · exact h.uses d hd
  · rw [hk'] at hk
    cases hk' : e.kind <;> rw [hk'] at hk <;> cases hk
    · exact h.called _ _ hk'
    · exact h.called _ _ hk'

end Prospect

namespace Compilation

/-- In whatever version, a tree uses definitions of the same ranks. -/
theorem Version.fits (h : c.Version c' m)
    (hfits : ∀ n ∈ c.trees [m], P.Fits c.builtins k (c.arena.expr n))
    (hneg : ∃ ty, P.fixed c.builtins.unaryMinusFloat = some ty) :
    ∀ n ∈ c.trees [m], P.Fits c.builtins k (c'.arena.expr n) := by
  intro n hn
  cases h with
  | same h => exact h n hn ▸ hfits n hn
  | value h hvalue _ hdeclared =>
    rw [trees_of_isValue h] at hn
    obtain rfl := Set.mem_singleton_iff.1 hn
    exact .of_value hvalue hdeclared
  | enlarged _ h =>
    by_cases hr : c.Rebuilt m n
    · rw [h.rebuilt n hn hr]
      exact (hfits n hn).widened hneg
    · rw [h.kept n hn hr]
      exact hfits n hn

/-- In whatever version, nothing in a tree is missing that was there. -/
theorem Version.missing (h : c.Version c' m) (hn : n ∈ c.trees [m])
    (hk : (c'.arena.expr n).kind = .missingArg) : (c.arena.expr n).kind = .missingArg := by
  cases h with
  | same h => rwa [← h n hn]
  | value h hvalue =>
    rw [trees_of_isValue h] at hn
    obtain rfl := Set.mem_singleton_iff.1 hn
    rw [hk] at hvalue
    cases hvalue
  | enlarged _ h =>
    by_cases hr : c.Rebuilt m n
    · rw [h.rebuilt n hn hr] at hk
      simp only [Compilation.widened] at hk
      split at hk
      · rename_i v hv
        cases hcast : (c.arena.expr n).cast? .int .float with
        | none => rwa [hcast, Option.getD_none] at hk
        | some e =>
          rw [hcast, Option.getD_some] at hk
          rcases Expression.cast?_kind hcast with heq | ⟨-, hvalue⟩
          · rwa [← heq]
          · rw [hk] at hvalue
            cases hvalue
      · cases hk
      · exact hk
    · rwa [← h.kept n hn hr]

/-- Changes in trees leave the types of their callees alone. -/
theorem Rooted.alongside (hc : c.Rooted ids) (h : c.Alters (c.trees ids) c') :
    c.Alongside ids c' :=
  ⟨h.toSameProgram, h.size.ge, fun n hn d args hk => h.toSameProgram.definitionType fun _ b hb =>
    h.expr b (hc.free n hn d args hk b hb)⟩

end Compilation

/-! ## Steps in place -/

namespace Prospect

/-- **A step that changes expressions of a tree in place.** -/
theorem Ready.alter (hw : P.Ready k [id] w) (h : w.unit.Retouches c')
    (halters : w.unit.Alters (w.unit.trees [id]) c')
    (hmissing : ∀ n ∈ w.unit.trees [id], (c'.arena.expr n).kind = .missingArg →
      (w.unit.arena.expr n).kind = .missingArg)
    (hfits : ∀ n ∈ w.unit.trees [id], P.Fits w.unit.builtins k (c'.arena.expr n)) :
    P.Passes k [id] w ⟨c', w.finished⟩ := by
  have htrees : c'.trees [id] = w.unit.trees [id] := trees_congr fun n _ => h.trees.children n
  refine hw.touch h.proceeds halters.keepsTo (fun n _ hk => ?_) fun n hn => ?_
  · by_cases hn : n ∈ w.unit.trees [id]
    · exact hmissing n hn hk
    · rwa [← halters.expr n hn]
  · rw [halters.builtins]
    exact hfits n (htrees ▸ hn)

/-- A step that changes no table. -/
theorem Ready.idle (hw : P.Ready k ids w) (h : w.unit.Retouches c')
    (harena : c'.arena = w.unit.arena) : P.Passes k ids w ⟨c', w.finished⟩ := by
  have hsame : w.unit.SameProgram c' := h.toSameProgram
  have hkept (n : ExprId) : c'.arena.expr n = w.unit.arena.expr n := by rw [harena]
  have hproceeds : w.unit.Proceeds (Walk.mk c' w.finished).unit := h.proceeds
  obtain ⟨-, hlot⟩ := hw.lot.of_kept hproceeds fun n _ => hkept n
  exact { h.proceeds with
    finished := List.Subset.refl _
    rank := fun _ hd hnew => absurd hd hnew
    missing := fun n _ hk => by rwa [← hkept n]
    kept := ⟨hsame, h.trees.size.ge, fun n _ _ => hkept n⟩
    ready := ⟨h.upright hw.upright, hw.estate.of_kept h.proceeds.toBranches
      fun _ _ n _ => hkept n, hlot⟩ }

/-- **A value** is settled, or it is left alone. -/
theorem concretizeValue_passes (hw : P.Ready k [id] w)
    (hvalue : (w.unit.arena.expr id).kind.isValue = true) :
    Outcome (concretizeValue id) w.unit
      (fun _ c' => P.Passes k [id] w ⟨c', w.finished⟩ ∧ (c'.arena.expr id).kind.isValue = true ∧
        (c'.arena.expr id).ty.native = .yes)
      fun stop c' => stop ≠ .cyclic ∧ c' = w.unit ∧ (w.unit.arena.expr id).ty.native ≠ .yes ∧
        (w.unit.arena.expr id).settle? (w.unit.arena.expr id).ty = none := by
  have hid := w.unit.mem_trees_self (List.mem_singleton_self id)
  have hretouches := concretizeValue_retouches id hw.upright
  simp only [concretizeValue_eq, outcome_bind, outcome_expr] at hretouches ⊢
  split_ifs at hretouches ⊢ with hnative
  · exact ⟨.refl hw, hvalue, hnative⟩
  · split at hretouches
    · rename_i settled hsettled
      simp only [outcome_bind, outcome_modifyExpr, outcome_emit] at hretouches ⊢
      have hrecast := (Expression.converts_of_settle? hsettled hnative).recast
      have hvalue' : settled.kind.isValue = true := hrecast.kind.isValue.trans hvalue
      have hfits : P.Fits w.unit.builtins k settled :=
        .of_value hvalue' (hrecast.declared.trans (hw.lot.fits id hid).declared)
      have halters := (alters_modifyExpr (c := w.unit) hid fun _ => settled).emit
        (.settled settled.span settled.ty)
      have hroot := Arena.expr_modifyExpr_self hw.lot.lt_size fun _ => settled
      have hof {n : ExprId} (hn : n ∈ w.unit.trees [id]) : n = id := by
        rwa [trees_of_isValue hvalue] at hn
      refine ⟨hw.alter hretouches halters (fun n hn hk => ?_) (fun n hn => ?_), ?_⟩
      · obtain rfl := hof hn
        refine absurd hvalue' ?_
        rw [← hroot]
        exact fun hvalue => by cases (congrArg ExprKind.isValue hk).symm.trans hvalue
      · obtain rfl := hof hn
        exact hroot.symm ▸ hfits
      · exact ⟨hroot.symm ▸ hvalue', hroot.symm ▸ hrecast.ty⟩
    · rename_i hnone
      split <;> exact ⟨by simp, rfl, hnative, hnone⟩

/-- A use takes another type. -/
theorem Ready.retype (hw : P.Ready k [id] w) (ty : Ty) :
    P.Passes k [id] w ⟨w.unit.modifyArena (·.modifyExpr id fun e => { e with ty }), w.finished⟩ := by
  have hid := w.unit.mem_trees_self (List.mem_singleton_self id)
  have hsame {n : ExprId} : (((w.unit.modifyArena (·.modifyExpr id fun e =>
      { e with ty })).arena.expr n).kind = (w.unit.arena.expr n).kind) ∧
      (((w.unit.modifyArena (·.modifyExpr id fun e => { e with ty })).arena.expr n).declared =
        (w.unit.arena.expr n).declared) := by
    simp only [modifyArena, Arena.expr_modifyExpr]
    split
    · rename_i h
      rw [h.1]
      exact ⟨rfl, rfl⟩
    · exact ⟨rfl, rfl⟩
  refine hw.alter (retouches_setType id ty) (alters_modifyExpr hid _) (fun n _ hk => ?_)
    fun n hn => ?_
  · rwa [← hsame.1]
  · exact (hw.lot.fits n hn).congr hsame.1 hsame.2

/-! ## Calls -/

/-- Whatever became of the arguments of a call, the call may be walked on. -/
theorem Ready.typed (hw : P.Ready k [id] w) (hk : (w.unit.arena.expr id).kind = .call d args)
    (h : w.unit.Retouches c') (halters : w.unit.Alters (w.unit.trees [id]) c')
    (hargs : ∀ m ∈ args, ∃ t, w.unit.Brought c' m t)
    (hkind : (c'.arena.expr id).kind = (w.unit.arena.expr id).kind)
    (hdeclared : (c'.arena.expr id).declared = (w.unit.arena.expr id).declared) :
    P.Passes k [id] w ⟨c', w.finished⟩ := by
  have hid := w.unit.mem_trees_self (List.mem_singleton_self id)
  have hrooted := hw.lot.toPlot.rooted
  obtain ⟨hroot, -, hsub⟩ := hrooted.call hk
  have hversion {m : ExprId} (hm : m ∈ args) : w.unit.Version c' m := by
    obtain ⟨t, hbrought⟩ := hargs m hm
    have hmem := hsub (w.unit.mem_trees_self hm)
    exact hbrought.version (hroot.of_mem hm) ((hrooted.alongside halters).mono
      ((w.unit.trees_subset_of_mem hm).trans hsub)) (hw.lot.fits m hmem).declared
      (.inl fun _ _ => rfl)
  have hcases {n : ExprId} (hn : n ∈ w.unit.trees [id]) :
      n = id ∨ ∃ m ∈ args, n ∈ w.unit.trees [m] := by
    rw [mem_trees_iff_children, hk] at hn
    refine hn.imp_right ?_
    rintro ⟨m, hm, hn⟩
    exact ⟨m, hm, mem_trees_singleton.2 hn⟩
  refine hw.alter h halters (fun n hn hmissing => ?_) fun n hn => ?_
  · rcases hcases hn with rfl | ⟨m, hm, hn⟩
    · rwa [← hkind]
    · exact (hversion hm).missing hn hmissing
  · rcases hcases hn with rfl | ⟨m, hm, hn'⟩
    · exact (hw.lot.fits n hid).congr hkind hdeclared
    · exact (hversion hm).fits (fun n hn => hw.lot.fits n (hsub (w.unit.trees_subset_of_mem hm hn)))
        (hw.estate.negation _ (.inr rfl)).2 n hn'

/-- **A call is typed**, or one of its arguments does not suit its callee. -/
theorem typeCall_passes (hw : P.Ready k [id] w)
    (hk : (w.unit.arena.expr id).kind = .call d args) (t : Ty) :
    Outcome (typeCall id t args) w.unit
      (fun _ c' => P.Passes k [id] w ⟨c', w.finished⟩ ∧ w.unit.TypedOver c' id args t ∧
        w.unit.Alters (w.unit.trees [id]) c')
      fun stop c' => stop ≠ .cyclic ∧ P.Passes k [id] w ⟨c', w.finished⟩ ∧
        w.unit.Alters (w.unit.trees [id]) c' ∧ ∃ params result isPure,
          t = .function params result isPure ∧ w.unit.Mistyped c' id args params := by
  refine ((typeCall_types hw.lot.toPlot.rooted hk t).and
    (typeCall_retouches id t args hw.upright)).mono ?_ ?_
  · rintro - c' ⟨⟨htyped, halters⟩, h⟩
    exact ⟨hw.typed hk h halters (fun _ => htyped.each) htyped.kind htyped.declared, htyped, halters⟩
  · rintro stop c' ⟨⟨hstop, halters, params, result, isPure, ht, hmistyped⟩, h⟩
    exact ⟨hstop, hw.typed hk h.retouches halters (fun _ => hmistyped.args.each)
      (by rw [hmistyped.root]) (by rw [hmistyped.root]), halters, params, result, isPure, ht,
      hmistyped⟩

/-! ## Uses -/

/-- Whatever lies below the copy of a tree looks like something below the tree. -/
theorem exists_original {a a' : Arena} (h : a.Replicas a' ids ids')
    (hn : ∃ r ∈ ids', Relation.ReflTransGen (fun n m => m ∈ (a'.expr n).kind.children) r n) :
    ∃ m, (∃ r ∈ ids, Relation.ReflTransGen (fun n m => m ∈ (a.expr n).kind.children) r m) ∧
      (a.expr m).Resembles (a'.expr n) := by
  induction h with
  | nil => simp at hn
  | @cons r r' ids ids' hroot _ _ ihbelow ihrest =>
    obtain ⟨s, hs, hn⟩ := hn
    rcases List.mem_cons.1 hs with rfl | hs
    · rcases hn.cases_head with rfl | ⟨s', hs', hn⟩
      · exact ⟨r, ⟨r, List.mem_cons_self, .refl⟩, hroot⟩
      · obtain ⟨m, ⟨t, ht, hm⟩, hresembles⟩ := ihbelow ⟨s', hs', hn⟩
        exact ⟨m, ⟨r, List.mem_cons_self, hm.head ht⟩, hresembles⟩
    · obtain ⟨m, ⟨t, ht, hm⟩, hresembles⟩ := ihrest ⟨s, hs, hn⟩
      exact ⟨m, ⟨t, List.mem_cons_of_mem r ht, hm⟩, hresembles⟩

/-- **A use that is replaced** holds a tree that uses what the body of its definition does, which is
of lower ranks than the definition. -/
theorem Ready.replaced (hw : P.Ready k [id] w) (h : w.unit.Replaced id d b c')
    (hp : w.unit.Proceeds c') :
    P.rank d < k ∧ P.Passes k [id] w ⟨c', w.finished⟩ ∧ P.Ready (P.rank d) [id] ⟨c', w.finished⟩ := by
  have hid := w.unit.mem_trees_self (List.mem_singleton_self id)
  have hd : P.rank d < k := (hw.lot.fits id hid).uses d (.use h.definition?)
  have htransplanted := h.transplanted hw.upright
  have hroots : w.unit.arena.bodyRoots d = [b] := by simp only [Arena.bodyRoots, h.body]
  have hbody := hw.estate.plot d hd
  rw [hroots] at hbody
  have hb := w.unit.mem_trees_self (List.mem_singleton_self b)
  have hapart : ¬ w.unit.Below b id := fun hbelow => by
    refine Set.disjoint_left.1 (hw.lot.apart d hd) hid ?_
    rw [hroots]
    exact mem_trees_singleton.2 hbelow
  obtain ⟨hkind, -, hbelow⟩ := htransplanted.faithful (.inr hapart)
  have hdeclared : (c'.arena.expr id).declared = none :=
    htransplanted.declared.trans (hw.lot.fits id hid).declared
  -- Each node of the tree looks like one of the body.
  have hfits : ∀ n ∈ c'.trees [id], P.Fits c'.builtins (P.rank d) (c'.arena.expr n) := by
    intro n hn
    rw [hp.toBranches.builtins]
    rcases mem_trees_iff_children.1 hn with rfl | hn
    · exact (hbody.fits b hb).of_resembles hkind hdeclared
    · obtain ⟨m, hm, hresembles⟩ := exists_original hbelow hn
      have hm : m ∈ w.unit.trees [b] := mem_trees_iff_children.2 (.inr hm)
      have hfits := hbody.fits m hm
      exact hfits.of_resembles hresembles.kind (hresembles.declared.trans hfits.declared)
  have hpasses : P.Passes k [id] w ⟨c', w.finished⟩ := by
    refine hw.touch hp ⟨hp.toBranches.toSameProgram, hp.toBranches.size, fun n hlt hn => ?_⟩
      (fun n hlt hk => ?_) fun n hn => (hfits n hn).mono hd.le
    · refine htransplanted.kept n ?_ hlt
      rintro rfl
      exact hn hid
    · by_cases hn : n = id
      · subst hn
        obtain ⟨_, rfl, hsubst, -⟩ := h.arena
        have hne : b ≠ n := by
          rintro rfl
          exact hapart .refl
        rw [Arena.expr_modifyExpr_of_ne hne] at hsubst
        rw [hk] at hkind
        generalize (w.unit.arena.expr b).kind = kind at hkind hsubst
        cases hkind
        cases hsubst
      · rwa [← htransplanted.kept n hn hlt]
  exact ⟨hd, hpasses, hpasses.ready.lower hd.le hfits⟩

/-- **A use** is replaced by a tree that is still to be walked, or it is withheld. -/
theorem substitute_passes (settings : Settings) (hw : P.Ready k [id] w)
    (hd : (w.unit.arena.expr id).kind.definition? = some d)
    (hleaf : (w.unit.arena.expr id).kind.children = []) :
    Outcome (substitute settings id) w.unit
      (fun replaced c' => P.Passes k [id] w ⟨c', w.finished⟩ ∧
        (replaced = true → P.Ready (P.rank d) [id] ⟨c', w.finished⟩) ∧
        (replaced = false → c'.arena = w.unit.arena ∧
          w.unit.Withheld settings (w.unit.arena.expr id).kind))
      fun _ _ => False := by
  have hid := w.unit.mem_trees_self (List.mem_singleton_self id)
  have hfits := hw.lot.fits id hid
  have hfree : ∀ b, (w.unit.arena.definition d).body = .expression b → b ≠ id := by
    rintro b hb rfl
    exact hw.lot.free d (hfits.uses d (.use hd)) b hb hid
  refine (((substitute_grafts settings hw.upright hd).and (substitute_copies settings hd)).and
    (substitute_withheld settings hfits.declared hd hleaf hfree)).mono ?_ fun _ _ h => h.1.1
  rintro replaced c' ⟨⟨⟨hgrafted, hkept⟩, hcopied⟩, hwithheld⟩
  cases replaced with
  | true =>
    obtain ⟨xs, hgrafted⟩ := hgrafted rfl
    obtain ⟨b, hreplaced⟩ := hcopied rfl
    obtain ⟨-, hpasses, hready⟩ := hw.replaced hreplaced (hgrafted.proceeds hw.upright)
    exact ⟨hpasses, fun _ => hready, nofun⟩
  | false =>
    obtain ⟨hretouches, harena⟩ := hkept rfl
    exact ⟨hw.idle hretouches harena, nofun, fun _ => ⟨harena, hwithheld.1 rfl⟩⟩

end Prospect

/-! ## Minus signs -/

namespace Compilation

/-- The type of the negation that suits an operand. -/
def negatedType (c : Compilation) (x : ExprId) : Ty :=
  if c.negationFor x = c.builtins.unaryMinus then .int else .float

/-- The compilation in which a minus sign became a call of its operand. -/
def negatedBy (c : Compilation) (id x : ExprId) (operand : Expression) : Compilation :=
  (c.modifyArena (·.modifyExpr x fun _ => operand)).modifyArena (·.modifyExpr id
    (·.replaceBy (.new (.call (c.negationFor x) [x]) (c.negatedType x) (c.arena.expr id).span)))

theorem alters_negatedBy (c : Compilation) (id x : ExprId) (e : Expression) :
    c.Alters {id, x} (c.negatedBy id x e) :=
  (alters_modifyExpr (by simp) _).trans (alters_modifyExpr (by simp) _)

theorem expr_negatedBy_self (hne : x ≠ id) (hlt : id.index < c.arena.exprs.size)
    (e : Expression) : (c.negatedBy id x e).arena.expr id = (c.arena.expr id).replaceBy
      (.new (.call (c.negationFor x) [x]) (c.negatedType x) (c.arena.expr id).span) := by
  simp only [negatedBy, modifyArena]
  rw [Arena.expr_modifyExpr_self (by simpa using hlt), Arena.expr_modifyExpr_of_ne hne.symm]

theorem expr_negatedBy_operand (hne : x ≠ id) (hlt : x.index < c.arena.exprs.size)
    (e : Expression) : (c.negatedBy id x e).arena.expr x = e := by
  simp only [negatedBy, modifyArena]
  rw [Arena.expr_modifyExpr_of_ne hne, Arena.expr_modifyExpr_self hlt]

theorem Registered.definitionType_negationFor (h : c.Registered) (x : ExprId) :
    c.arena.definitionType (c.negationFor x) =
      .function [c.negatedType x] (c.negatedType x) true := by
  rw [negatedType]
  rcases c.isNegation_negationFor x with heq | heq
  · rw [heq, if_pos rfl, Arena.definitionType_of_declared h.unaryMinus]
    rfl
  · have hne : c.builtins.unaryMinusFloat ≠ c.builtins.unaryMinus := by
      intro heq
      have := h.unaryMinusFloat
      rw [heq, h.unaryMinus] at this
      cases this
    rw [heq, if_neg hne, Arena.definitionType_of_declared h.unaryMinusFloat]
    rfl

/-- **A minus sign becomes a call** if its operand suits a negation. -/
theorem outcome_callNegation {ended : Unit → Compilation → Prop}
    {stopped : Stop → Compilation → Prop} (hc : c.Registered) (hx : x.index < c.arena.exprs.size)
    (hgiven : c.arena.isMissing x = false) :
    Outcome (callNegation id x) c ended stopped ↔
      match (c.arena.expr x).coerce (c.negatedType x) with
      | .ok e => ended () (c.negatedBy id x e)
      | .error cause => stopped (.error ⟨cause, (c.arena.expr x).span⟩) c := by
  simp only [callNegation, outcome_bind, outcome_get, outcome_expr, createCall,
    outcome_definitionType, hc.definitionType_negationFor, coerceArgs, coerceArg_eq]
  cases hcoerce : (c.arena.expr x).coerce (c.negatedType x) with
  | error cause => simp [hcoerce]
  | ok e =>
    have hmissing : (c.modifyArena (·.modifyExpr x fun _ => e)).arena.isMissing x = false := by
      rw [← hgiven]
      simp only [modifyArena, Arena.isMissing, Arena.expr_modifyExpr_self hx]
      exact ExprKind.isMissingArg_eq (Expression.coerce_kind hcoerce)
    simp [hcoerce, unboundParams, hmissing, negatedBy]

/-- An argument of a native type is accepted as it is, or it is a value and is cast. -/
theorem coerce_native (h : e.coerce param = .ok e') (hnative : e.ty.native = .yes) :
    e' = e ∨ e.kind.isValue = true ∧ e'.kind.isValue = true ∧ e'.ty.native = .yes ∧
      e'.declared = e.declared := by
  obtain ⟨heq, -⟩ | ⟨-, hhole⟩ | ⟨hvalue, -, hne, hcast⟩ := Expression.coerce_cases h
  · exact .inl heq
  · rw [hhole] at hnative
    cases hnative
  · exact .inr ⟨hvalue, cast?_native hcast hne hvalue⟩

end Compilation

namespace Prospect

/-- The call that a minus sign becomes uses what the sign might have used. -/
theorem Fits.negation {e : Expression} (h : P.Fits c.builtins k e) (hk : e.kind = .negated x)
    (hneg : c.IsNegation d) (hfixed : ∃ ty, P.fixed d = some ty) (ty : Ty) (span : Span) :
    P.Fits c.builtins k (e.replaceBy (.new (.call d [x]) ty span)) := by
  have huses := h.uses
  rw [hk] at huses
  refine ⟨h.declared, fun d' hd' => huses d' (.negation x ?_), fun d' args hk' => ?_⟩
  · cases hd' with
    | use heq =>
      obtain rfl := Option.some.inj heq
      exact hneg
    | widening => exact .inr rfl
  · obtain ⟨rfl, -⟩ := ExprKind.call.inj hk'
    exact hfixed

/-- What a minus sign became may be walked on. -/
theorem Ready.negatedBy (hw : P.Ready k [id] w) (hk : (w.unit.arena.expr id).kind = .negated x)
    (hx : x ∈ w.unit.trees [id]) (hne : x ≠ id) {e : Expression}
    (hretouches : w.unit.Retouches (w.unit.negatedBy id x e))
    (hcast : e = w.unit.arena.expr x ∨
      e.kind.isValue = true ∧ e.declared = (w.unit.arena.expr x).declared) :
    P.Passes k [id] w ⟨w.unit.negatedBy id x e, w.finished⟩ := by
  have hid := w.unit.mem_trees_self (List.mem_singleton_self id)
  have hroot := expr_negatedBy_self hne hw.lot.lt_size e
  have hoperand := expr_negatedBy_operand hne (hw.lot.inTable x hx) e
  have halters := w.unit.alters_negatedBy id x e
  have hsub : {id, x} ⊆ w.unit.trees [id] := by
    rintro n (rfl | rfl)
    · exact hid
    · exact hx
  -- A node is the sign itself, its operand, or it was left alone.
  have hcases (n : ExprId) :
      n = id ∨ n = x ∨ (w.unit.negatedBy id x e).arena.expr n = w.unit.arena.expr n := by
    by_cases hn : n = id
    · exact .inl hn
    · by_cases hn' : n = x
      · exact .inr (.inl hn')
      · exact .inr (.inr (halters.expr n (by simp [hn, hn'])))
  refine hw.alter hretouches (halters.mono hsub) (fun n _ hmissing => ?_) fun n hn => ?_
  · rcases hcases n with rfl | rfl | hsame
    · rw [hroot] at hmissing
      cases hmissing
    · rw [hoperand] at hmissing
      rcases hcast with rfl | ⟨hvalue, -⟩
      · exact hmissing
      · rw [hmissing] at hvalue
        cases hvalue
    · rwa [← hsame]
  · rcases hcases n with rfl | rfl | hsame
    · rw [hroot]
      have hneg := w.unit.isNegation_negationFor x
      exact (hw.lot.fits n hid).negation hk hneg (hw.estate.negation _ hneg).2 _ _
    · rw [hoperand]
      have hfits := hw.lot.fits n hx
      rcases hcast with rfl | ⟨hvalue, hdeclared⟩
      · exact hfits
      · exact .of_value hvalue (hdeclared.trans hfits.declared)
    · rw [hsame]
      exact hw.lot.fits n hn

/-- **A minus sign becomes a call**, and its operand stays as it is or is cast. -/
theorem callNegation_passes (hw : P.Ready k [id] w) (hk : (w.unit.arena.expr id).kind = .negated x)
    (hgiven : w.unit.arena.isMissing x = false)
    (hnative : (w.unit.arena.expr x).ty.native = .yes) :
    Outcome (callNegation id x) w.unit
      (fun _ c' => P.Passes k [id] w ⟨c', w.finished⟩ ∧
        (c'.arena.expr id).kind = .call (w.unit.negationFor x) [x] ∧
        w.unit.Alters {id, x} c' ∧
        (c'.arena.expr x = w.unit.arena.expr x ∨ (w.unit.arena.expr x).kind.isValue = true ∧
          (c'.arena.expr x).kind.isValue = true ∧ (c'.arena.expr x).ty.native = .yes ∧
          (c'.arena.expr x).declared = none))
      fun stop c' => stop ≠ .cyclic ∧ c' = w.unit ∧ ∃ cause,
        (w.unit.arena.expr x).coerce (w.unit.negatedType x) = .error cause := by
  have hid := w.unit.mem_trees_self (List.mem_singleton_self id)
  have hchildren : (w.unit.arena.expr id).kind.children = [x] := by rw [hk]; rfl
  have hx : x ∈ w.unit.trees [id] := child_mem_trees hid (by simp [hchildren])
  have hne : x ≠ id := by
    rintro rfl
    refine hw.lot.toPlot.children.2 ?_
    rw [hchildren]
    exact w.unit.mem_trees_self (List.mem_singleton_self x)
  have hltx := hw.lot.inTable x hx
  have hretouches := callNegation_retouches hw.upright hchildren
  rw [outcome_callNegation hw.estate.registered hltx hgiven] at hretouches ⊢
  cases hcoerce : (w.unit.arena.expr x).coerce (w.unit.negatedType x) with
  | error cause => exact ⟨nofun, rfl, cause, rfl⟩
  | ok e =>
    rw [hcoerce] at hretouches
    have hcast := coerce_native hcoerce hnative
    refine ⟨hw.negatedBy hk hx hne hretouches.1 (hcast.imp_right fun h => ⟨h.2.1, h.2.2.2⟩),
      by rw [expr_negatedBy_self hne hw.lot.lt_size]; rfl, w.unit.alters_negatedBy id x e, ?_⟩
    rw [expr_negatedBy_operand hne hltx]
    refine hcast.imp_right fun ⟨hvalue, hvalue', hnative, hdeclared⟩ => ?_
    exact ⟨hvalue, hvalue', hnative, hdeclared.trans (hw.lot.fits x hx).declared⟩

/-! ## What is remembered -/

/-- Nothing was forgotten yet. -/
theorem Steadfast.recalls {F F' : List DefId} (hs : P.Steadfast c k)
    (hrank : ∀ d ∈ F', d ∉ F → P.rank d < k) : P.Recalls k F F' c c where
  toSameProgram := .refl c
  size := le_rfl
  rank := hrank
  bodies _ _ _ _ _ := rfl
  heads _ _ _ _ _ := rfl
  steadfast := hs

/-- **A part of a walk is remembered** while the walk goes on. -/
theorem Passes.recalls (h : P.Passes k ids w w₁) (h' : P.Passes k ids' w₁ w')
    (hw₁ : P.Ready k ids' w₁) (hs : P.Steadfast w'.unit k) :
    P.Recalls k w.finished w₁.finished w₁.unit w'.unit where
  toSameProgram := h'.toBranches.toSameProgram
  size := h'.toBranches.size
  rank := h.rank
  bodies d hd hnew := h'.body_kept hw₁ (h.rank d hd hnew) (.inl hd)
  heads _ hd hr b hb := h'.body_kept hw₁ hr (.inl hd) b
    (w₁.unit.mem_trees_self (Arena.mem_bodyRoots hb))
  steadfast := hs

/-- **Trees that were walked** are left alone while the trees beside them are walked. -/
theorem Passes.lasts (h : P.Passes k ids w w₁) (h' : P.Passes k ids' w₁ w')
    (hw : P.Ready k (ids ++ ids') w) (hs : P.Steadfast w'.unit k) :
    P.Lasts k w.finished w₁.finished w'.finished w₁.unit w'.unit ids := by
  have hw₁ := (h.rest hw).2.2
  have hs₁ := h'.steadfast hw₁ hs
  have hrecalls := h.recalls h' hw₁ hs
  exact { hrecalls with
    rooted := h.ready.lot.toPlot.rooted
    echoes := ⟨h.ready.lot.alongside hs₁ hs hrecalls.toSameProgram hrecalls.size,
      (h.append h' hw).1⟩
    start := h.finished
    later := h'.finished }

/-- A walk of no trees leaves those alone that are there. -/
theorem Passes.beside (h : P.Passes k [] w w') (hw : P.Ready k ids w) :
    (∀ n ∈ w.unit.trees ids, w'.unit.arena.expr n = w.unit.arena.expr n) ∧
      P.Passes k ids w w' := by
  obtain ⟨hkept, -, hw'⟩ := Passes.rest h hw
  exact ⟨hkept, (Passes.append h (.refl hw') hw).2⟩

theorem Ready.none (hw : P.Ready k ids w) : P.Ready k [] w :=
  Ready.first (show P.Ready k ([] ++ ids) w from hw)

/-- A function has the type that it had. -/
theorem Passes.function_kept (h : P.Passes k ids w w') (hw : P.Ready k ids w)
    (hs : P.Steadfast w'.unit k) (hd : P.rank d < k)
    (hfunction : (w.unit.arena.definitionType d).isFunction = true) :
    w'.unit.arena.definitionType d = w.unit.arena.definitionType d := by
  by_cases hmem : d ∈ w.finished
  · exact h.toBranches.toSameProgram.definitionType fun _ b hb =>
      h.body_kept hw hd (.inl hmem) b (w.unit.mem_trees_self (Arena.mem_bodyRoots hb))
  · obtain ⟨ty, hty⟩ := hw.estate.function d hd hmem hfunction
    rw [hs d hd ty hty, hw.estate.fixed d hd hmem ty hty]

end Prospect

end Termwise
