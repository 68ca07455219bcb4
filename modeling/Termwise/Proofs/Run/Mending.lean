import Termwise.Proofs.Concretization.Gate
import Termwise.Proofs.Run.Nested

/-!
# What resolution does to the nodes of a run

`Ty.hole` stands for a type that is not known yet. Runs, minus signs, open parameters and
references that were read before their definition start with it, and resolution overwrites it in
all of them: an operator or a minus sign turns into the callee of a call, a reference takes the
type of its definition, an open parameter the type that the callee has for it, and a run what it
is resolved to.

The types that are written come from the definitions that the terms name, so no hole may occur in
those. A definition without a declared type has the type of its body, which resolution changes if
the body is a run that it resolves; the types of all other nodes are kept or become known ones.

## Main definitions

* `ExprKind.named`: the definitions that a node refers to
* `Expression.Ordinary`: an expression that needs no resolution
* `Compilation.Tidy`: the invariant of resolution
* `Compilation.Mends`: what resolution may do to the nodes of a run

## Main results

* `Compilation.Tidy.mends`: a step that mends the nodes keeps the invariant
* `allocCall_restores`: a new call needs no resolution
-/

namespace Termwise

open Compilation

/-! ## Known types -/

/-- No hole occurs in a type. -/
def Ty.Known (t : Ty) : Prop := ¬ Ty.Occurs .hole t

theorem Ty.Known.ne_hole {t : Ty} (h : t.Known) : t ≠ .hole := by
  rintro rfl
  exact h .itself

theorem Ty.Known.param {params : List Ty} {param result : Ty} {isPure : Bool}
    (h : (Ty.function params result isPure).Known) (hmem : param ∈ params) : param.Known :=
  fun hp => h (.param hmem hp)

theorem Ty.Known.result {params : List Ty} {result : Ty} {isPure : Bool}
    (h : (Ty.function params result isPure).Known) : result.Known :=
  fun hr => h (.result hr)

/-- An argument that is accepted takes the type of the parameter or keeps its own one, which is
then no hole unless the parameter is one. -/
theorem Expression.coerce_ty {e e' : Expression} {param : Ty} (h : e.coerce param = .ok e') :
    e'.ty = param ∨ e'.ty = e.ty ∧ (e.ty ≠ .hole ∨ param = .hole) := by
  obtain ⟨rfl, hty⟩ | ⟨rfl, -⟩ | ⟨-, -, hne, hcast⟩ := coerce_cases h
  · exact .inr ⟨rfl, hty⟩
  · exact .inl rfl
  · exact .inl (ty_of_cast? hcast hne)

/-! ## Expressions -/

/-- The definitions that a node refers to. A minus sign may become a call of binary minus or of a
negation, and the negation of integers may turn out to be that of floats. -/
def ExprKind.named (b : Builtins) : ExprKind → List DefId
  | .reference d | .call d _ => [d]
  | .operator d => if d = b.unaryMinus then [d, b.unaryMinusFloat] else [d]
  | .minusSign => [b.minus, b.unaryMinus, b.unaryMinusFloat]
  | .negated _ => [b.unaryMinus, b.unaryMinusFloat]
  | _ => []

theorem ExprKind.mem_named_operator (b : Builtins) (d : DefId) :
    d ∈ (ExprKind.operator d).named b := by
  simp only [named]
  split <;> exact List.mem_cons_self

/-- An expression that needs no resolution. -/
structure Expression.Ordinary (e : Expression) : Prop where
  run : ∀ ts, e.kind ≠ .run ts
  sign : e.kind ≠ .minusSign
  ty : e.ty ≠ .hole

instance (e : Expression) : Decidable e.Ordinary :=
  match hk : e.kind with
  | .run ts => isFalse fun h => h.run ts hk
  | .minusSign => isFalse fun h => h.sign hk
  | .empty | .value _ | .reference _ | .operator _ | .call .. | .negated _ | .missingArg
  | .syntaxError | .notImplemented | .deleted =>
    if hty : e.ty = .hole then isFalse fun h => h.ty hty
    else isTrue ⟨by simp [hk], by simp [hk], hty⟩

/-- An expression that may be a term: only runs, minus signs and references may be holes. -/
def Expression.MayBeTerm (e : Expression) : Prop :=
  (∃ ts, e.kind = .run ts) ∨ e.kind = .minusSign ∨
    (∃ d, e.kind = .reference d ∨ e.kind = .operator d) ∨ e.ty ≠ .hole

/-! ## The invariant -/

/-- A node of a kind may stand among some nodes, given the definitions that may be named. -/
structure Compilation.Admits (c : Compilation) (nodes : Set ExprId) (named : Set DefId)
    (k : ExprKind) : Prop where
  inside : ∀ m ∈ k.children, m ∈ nodes ∧ m.index < c.arena.exprs.size
  term : ∀ ts, k = .run ts → ∀ t ∈ ts, (c.arena.expr t).MayBeTerm
  child : (∀ ts, k ≠ .run ts) → ∀ m ∈ k.children, (c.arena.expr m).Ordinary
  names : ∀ d ∈ k.named c.builtins, d ∈ named

/-- **The invariant of resolution.** All nodes that are not there yet count among the nodes that
are looked after. -/
structure Compilation.Tidy (c : Compilation) (nodes : Set ExprId) (named : Set DefId) :
    Prop where
  fresh : ∀ n : ExprId, c.arena.exprs.size ≤ n.index → n ∈ nodes
  node : ∀ n ∈ nodes, c.Admits nodes named (c.arena.expr n).kind
  known : ∀ d ∈ named, (c.arena.definitionType d).Known
  body : ∀ d ∈ named, (c.arena.definition d).declared = none → ∀ b,
    (c.arena.definition d).body = .expression b →
    b.index < c.arena.exprs.size ∧ (b ∈ nodes → ∀ ts, (c.arena.expr b).kind ≠ .run ts)

/-- **What resolution may do to nodes**: values are cast, types become known, and runs that are
looked after turn into what needs no resolution. -/
structure Compilation.Mends (c : Compilation) (nodes : Set ExprId) (c' : Compilation) :
    Prop where
  size : c.arena.exprs.size ≤ c'.arena.exprs.size
  kind : ∀ n : ExprId, n.index < c.arena.exprs.size → (∀ ts, (c.arena.expr n).kind ≠ .run ts) →
    (c'.arena.expr n).kind = (c.arena.expr n).kind ∨
      (c.arena.expr n).kind.isValue = true ∧ (c'.arena.expr n).kind.isValue = true
  ty : ∀ n : ExprId, n.index < c.arena.exprs.size →
    (n ∈ nodes → ∀ ts, (c.arena.expr n).kind ≠ .run ts) →
    (c'.arena.expr n).ty = (c.arena.expr n).ty ∨ (c'.arena.expr n).ty.Known
  run : ∀ n ts, (c.arena.expr n).kind = .run ts →
    (c'.arena.expr n).kind = .run ts ∨ (c'.arena.expr n).Ordinary

variable {c c' c'' : Compilation} {nodes : Set ExprId} {named : Set DefId} {terms : List ExprId}
  {n : ExprId} {k : ExprKind}

theorem ExprKind.ne_run_of_isValue (h : k.isValue = true) (ts : List ExprId) : k ≠ .run ts := by
  rintro rfl
  cases h

namespace Compilation

theorem Mends.refl (c : Compilation) (nodes : Set ExprId) : c.Mends nodes c :=
  ⟨le_rfl, fun _ _ _ => .inl rfl, fun _ _ _ => .inl rfl, fun _ _ => .inl⟩

theorem Mends.ne_run (h : c.Mends nodes c') (hlt : n.index < c.arena.exprs.size)
    (hn : ∀ ts, (c.arena.expr n).kind ≠ .run ts) (ts : List ExprId) :
    (c'.arena.expr n).kind ≠ .run ts := by
  rcases h.kind n hlt hn with hk | ⟨-, hv⟩
  · exact hk ▸ hn ts
  · exact ExprKind.ne_run_of_isValue hv ts

/-- What needs no resolution needs none later. -/
theorem Mends.ordinary (h : c.Mends nodes c') (hlt : n.index < c.arena.exprs.size)
    (hn : (c.arena.expr n).Ordinary) : (c'.arena.expr n).Ordinary where
  run := h.ne_run hlt hn.run
  sign hsign := by
    rcases h.kind n hlt hn.run with hk | ⟨-, hv⟩
    · exact hn.sign (hk ▸ hsign)
    · simp [hsign, ExprKind.isValue] at hv
  ty := by
    rcases h.ty n hlt fun _ => hn.run with hty | hty
    · exact hty ▸ hn.ty
    · exact hty.ne_hole

theorem Mends.kind_eq (h : c.Mends nodes c') (hk : (c.arena.expr n).kind = k)
    (hfixed : k.isFixed = true) : (c'.arena.expr n).kind = k := by
  have hne : k ≠ .deleted ∧ k.isValue = false ∧ ∀ ts, k ≠ .run ts := by
    cases k <;> simp [ExprKind.isFixed, ExprKind.isValue] at hfixed ⊢
  have hlt : n.index < c.arena.exprs.size := Arena.lt_size_of_kind_ne (hk ▸ hne.1)
  rcases h.kind n hlt fun ts => hk ▸ hne.2.2 ts with hk' | ⟨hv, -⟩
  · exact hk'.trans hk
  · simp [hk, hne.2.1] at hv

/-- What may be a term may be one later. -/
theorem Mends.mayBeTerm (h : c.Mends nodes c') (hlt : n.index < c.arena.exprs.size)
    (hn : (c.arena.expr n).MayBeTerm) : (c'.arena.expr n).MayBeTerm := by
  by_cases hrun : ∃ ts, (c.arena.expr n).kind = .run ts
  · obtain ⟨ts, hk⟩ := hrun
    rcases h.run n ts hk with hk | hn
    · exact .inl ⟨ts, hk⟩
    · exact .inr (.inr (.inr hn.ty))
  · rcases hn with hn | hsign | ⟨d, hk | hk⟩ | hty
    · exact (hrun hn).elim
    · exact .inr (.inl (h.kind_eq hsign rfl))
    · exact .inr (.inr (.inl ⟨d, .inl (h.kind_eq hk rfl)⟩))
    · exact .inr (.inr (.inl ⟨d, .inr (h.kind_eq hk rfl)⟩))
    · refine .inr (.inr (.inr ?_))
      rcases h.ty n hlt fun _ ts hk => hrun ⟨ts, hk⟩ with hty' | hty'
      · exact hty' ▸ hty
      · exact hty'.ne_hole

theorem Mends.trans (h : c.Mends nodes c') (h' : c'.Mends nodes c'') : c.Mends nodes c'' where
  size := h.size.trans h'.size
  kind n hlt hn := by
    rcases h.kind n hlt hn with hk | ⟨hv, hv'⟩ <;>
      rcases h'.kind n (hlt.trans_le h.size) (h.ne_run hlt hn) with hk' | ⟨hv₁, hv₂⟩
    · exact .inl (hk'.trans hk)
    · exact .inr ⟨hk ▸ hv₁, hv₂⟩
    · exact .inr ⟨hv, hk' ▸ hv'⟩
    · exact .inr ⟨hv, hv₂⟩
  ty n hlt hn := by
    rcases h'.ty n (hlt.trans_le h.size) fun hmem => h.ne_run hlt (hn hmem) with hty' | hty'
    · exact hty' ▸ h.ty n hlt hn
    · exact .inr hty'
  run n ts hk := by
    have hlt : n.index < c.arena.exprs.size := Arena.lt_size_of_kind_ne (by simp [hk])
    rcases h.run n ts hk with hk' | hn
    · exact h'.run n ts hk'
    · exact .inr (h'.ordinary (hlt.trans_le h.size) hn)

theorem Admits.mends (h : c.Admits nodes named k) (hm : c.Mends nodes c')
    (hb : c'.builtins = c.builtins) : c'.Admits nodes named k where
  inside m hmem := ⟨(h.inside m hmem).1, (h.inside m hmem).2.trans_le hm.size⟩
  term ts hk t ht :=
    hm.mayBeTerm (h.inside t (by rw [hk]; exact ht)).2 (h.term ts hk t ht)
  child hk m hmem := hm.ordinary (h.inside m hmem).2 (h.child hk m hmem)
  names d hd := h.names d (hb ▸ hd)

theorem admits_of_isValue (c : Compilation) (h : k.isValue = true) : c.Admits nodes named k := by
  cases k <;> simp [ExprKind.isValue] at h
  exact ⟨by simp [ExprKind.children], by simp, by simp [ExprKind.children], fun d hd => by cases hd⟩

/-- **A step keeps a compilation tidy** if it mends it and whatever became another kind of thing
may stand where it does. -/
theorem Tidy.mends (hc : c.Tidy nodes named) (hm : c.Mends nodes c') (hext : c.Extends c')
    (hnew : ∀ n ∈ nodes, (c'.arena.expr n).kind = (c.arena.expr n).kind ∨
      c'.Admits nodes named (c'.arena.expr n).kind) : c'.Tidy nodes named where
  fresh n hn := hc.fresh n (hm.size.trans hn)
  node n hn := by
    rcases hnew n hn with hk | hadmits
    · exact hk ▸ (hc.node n hn).mends hm hext.builtins
    · exact hadmits
  known d hd := by
    cases hdecl : (c.arena.definition d).declared with
    | some ty =>
      rw [Arena.definitionType_of_declared (hext.definition d ▸ hdecl)]
      exact Arena.definitionType_of_declared hdecl ▸ hc.known d hd
    | none =>
      have hdecl' := (congrArg Definition.declared (hext.definition d)).trans hdecl
      -- Without a declared type only a body that is an expression gives a known one.
      by_cases hbody : ∃ b, (c.arena.definition d).body = .expression b
      · obtain ⟨b, hb⟩ := hbody
        have hb' := (congrArg Definition.body (hext.definition d)).trans hb
        have hknown := hc.known d hd
        rw [Arena.definitionType_of_body hdecl hb] at hknown
        rw [Arena.definitionType_of_body hdecl' hb']
        obtain ⟨hlt, hrun⟩ := hc.body d hd hdecl b hb
        rcases hm.ty b hlt hrun with hty | hty
        · exact hty ▸ hknown
        · exact hty
      · have hhole := Arena.definitionType_of_no_body hdecl fun b hb => hbody ⟨b, hb⟩
        exact ((hc.known d hd).ne_hole hhole).elim
  body d hd hdecl b hb := by
    rw [hext.definition d] at hdecl hb
    obtain ⟨hlt, hrun⟩ := hc.body d hd hdecl b hb
    exact ⟨hlt.trans_le hm.size, fun hmem => hm.ne_run hlt (hrun hmem)⟩

end Compilation

/-! ## Steps -/

/-- Giving a node a known type or another value keeps a compilation tidy. -/
theorem Compilation.Tidy.modifyExpr (hc : c.Tidy nodes named) {id : ExprId}
    {f : Expression → Expression}
    (hk : (f (c.arena.expr id)).kind = (c.arena.expr id).kind ∨
      (c.arena.expr id).kind.isValue = true ∧ (f (c.arena.expr id)).kind.isValue = true)
    (hty : (f (c.arena.expr id)).ty = (c.arena.expr id).ty ∨ (f (c.arena.expr id)).ty.Known) :
    c.Mends nodes (c.modifyArena (·.modifyExpr id f)) ∧
      (c.modifyArena (·.modifyExpr id f)).Tidy nodes named := by
  have hkind : ∀ n, ((c.modifyArena (·.modifyExpr id f)).arena.expr n).kind =
      (c.arena.expr n).kind ∨ (c.arena.expr n).kind.isValue = true ∧
        ((c.modifyArena (·.modifyExpr id f)).arena.expr n).kind.isValue = true := by
    intro n
    simp only [modifyArena, Arena.expr_modifyExpr]
    split <;> rename_i hn
    · exact hn.1 ▸ hk
    · exact .inl rfl
  have hmends : c.Mends nodes (c.modifyArena (·.modifyExpr id f)) := by
    refine ⟨by simp [modifyArena], fun n _ _ => hkind n, fun n _ _ => ?_, fun n ts hn => ?_⟩
    · simp only [modifyArena, Arena.expr_modifyExpr]
      split <;> rename_i hn
      · exact hn.1 ▸ hty
      · exact .inl rfl
    · rcases hkind n with hk | ⟨hv, -⟩
      · exact .inl (hk.trans hn)
      · exact (ExprKind.ne_run_of_isValue hv ts hn).elim
  refine ⟨hmends, hc.mends hmends (steady_modifyExpr hk).extends fun n _ => ?_⟩
  exact (hkind n).imp_right fun hv => admits_of_isValue _ hv.2

/-- Types and events are none of the tables. -/
theorem Compilation.Tidy.of_arena_eq (hc : c.Tidy nodes named) (c' : Compilation)
    (ha : c'.arena = c.arena) (hb : c'.builtins = c.builtins) :
    c.Mends nodes c' ∧ c'.Tidy nodes named := by
  have hmends : c.Mends nodes c' := by
    constructor <;> rw [ha]
    · exact fun _ _ _ => .inl rfl
    · exact fun _ _ _ => .inl rfl
    · exact fun _ _ => .inl
  have hext : c.Extends c' := ⟨hb, by rw [ha], by rw [ha], by simp [ha], by simp [ha]⟩
  exact ⟨hmends, hc.mends hmends hext fun n _ => .inl (by rw [ha])⟩

/-- A run that is looked after may be replaced by what needs no resolution. -/
theorem Compilation.Tidy.resolved (hc : c.Tidy nodes named) {id : ExprId} {ts : List ExprId}
    {e : Expression} (hid : id ∈ nodes) (hk : (c.arena.expr id).kind = .run ts)
    (he : e.Ordinary) (hadmits : c.Admits nodes named e.kind) :
    c.Mends nodes (c.modifyArena (·.modifyExpr id (·.replaceBy e))) ∧
      (c.modifyArena (·.modifyExpr id (·.replaceBy e))).Tidy nodes named ∧
      ((c.modifyArena (·.modifyExpr id (·.replaceBy e))).arena.expr id).Ordinary := by
  have hlt : id.index < c.arena.exprs.size := Arena.lt_size_of_kind_ne (by simp [hk])
  have hself : (c.modifyArena (·.modifyExpr id (·.replaceBy e))).arena.expr id =
      (c.arena.expr id).replaceBy e := Arena.expr_modifyExpr_self hlt _
  have hother : ∀ n, n ≠ id → (c.modifyArena (·.modifyExpr id (·.replaceBy e))).arena.expr n =
      c.arena.expr n := fun n hn => Arena.expr_modifyExpr_of_ne hn _
  have hordinary :
      ((c.modifyArena (·.modifyExpr id (·.replaceBy e))).arena.expr id).Ordinary :=
    hself ▸ ⟨he.run, he.sign, he.ty⟩
  have hmends : c.Mends nodes (c.modifyArena (·.modifyExpr id (·.replaceBy e))) := by
    refine ⟨by simp [modifyArena], fun n _ hn => ?_, fun n _ hn => ?_, fun n us hn => ?_⟩
    · rw [hother n fun heq => hn ts (heq ▸ hk)]
      exact .inl rfl
    · rw [hother n fun heq => hn (heq ▸ hid) ts (heq ▸ hk)]
      exact .inl rfl
    · by_cases heq : n = id
      · exact .inr (heq ▸ hordinary)
      · exact .inl (by rw [hother n heq, hn])
  refine ⟨hmends, hc.mends hmends (extends_modifyExpr_run hk) fun n _ => ?_, hordinary⟩
  by_cases heq : n = id
  · rw [heq, hself]
    exact .inr (hadmits.mends hmends rfl)
  · exact .inl (by rw [hother n heq])

/-- A reference takes the type of its definition, in which no hole occurs. -/
theorem Compilation.Tidy.refreshed (hc : c.Tidy nodes named) {t : ExprId} (ht : t ∈ nodes) :
    c.Mends nodes (c.refreshed t) ∧ (c.refreshed t).Tidy nodes named := by
  have hknown := fun d hd => hc.known d ((hc.node t ht).names d hd)
  unfold Compilation.refreshed
  split
  · rename_i d hk
    exact hc.modifyExpr (.inl rfl) (.inr (hknown d (by simp [hk, ExprKind.named])))
  · rename_i d hk
    exact hc.modifyExpr (.inl rfl) (.inr (hknown d (hk ▸ ExprKind.mem_named_operator _ d)))
  · exact ⟨.refl c nodes, hc⟩

theorem ty_refreshed_ne_hole (hc : c.Tidy nodes named) {t : ExprId} (ht : t ∈ nodes)
    (hlt : t.index < c.arena.exprs.size) (hrun : ∀ ts, (c.arena.expr t).kind ≠ .run ts)
    (hterm : (c.arena.expr t).MayBeTerm) :
    ((c.refreshed t).arena.expr t).kind = .minusSign ∨
      ((c.refreshed t).arena.expr t).ty ≠ .hole := by
  have hknown := fun d hd => (hc.known d ((hc.node t ht).names d hd)).ne_hole
  unfold Compilation.refreshed
  split
  · rename_i d hk
    simp only [modifyArena, Arena.expr_modifyExpr_self hlt]
    exact .inr (hknown d (by simp [hk, ExprKind.named]))
  · rename_i d hk
    simp only [modifyArena, Arena.expr_modifyExpr_self hlt]
    exact .inr (hknown d (hk ▸ ExprKind.mem_named_operator _ d))
  · rename_i hreference hoperator
    rcases hterm with ⟨ts, hk⟩ | hsign | ⟨d, hk | hk⟩ | hty
    · exact (hrun ts hk).elim
    · exact .inl hsign
    · exact (hreference d hk).elim
    · exact (hoperator d hk).elim
    · exact .inr hty

/-- A new node keeps a compilation tidy if it may stand there. -/
theorem Compilation.Tidy.allocExpr (hc : c.Tidy nodes named) {e : Expression}
    (hrun : ∀ ts, e.kind ≠ .run ts) (he : c.Admits nodes named e.kind) :
    c.Mends nodes (c.allocExpr e).2 ∧ (c.allocExpr e).2.Tidy nodes named ∧
      (c.allocExpr e).1 ∈ nodes ∧
      (c.allocExpr e).1.index < (c.allocExpr e).2.arena.exprs.size := by
  have hexpr : ∀ n : ExprId, n.index < c.arena.exprs.size →
      (c.allocExpr e).2.arena.expr n = c.arena.expr n := fun n hlt =>
    Arena.expr_allocExpr_of_lt hlt e
  have hmends : c.Mends nodes (c.allocExpr e).2 := by
    refine ⟨by simp [Compilation.allocExpr], fun n hlt _ => ?_, fun n hlt _ => ?_,
      fun n ts hk => ?_⟩
    · exact .inl (by rw [hexpr n hlt])
    · exact .inl (by rw [hexpr n hlt])
    · have hlt : n.index < c.arena.exprs.size := Arena.lt_size_of_kind_ne (by simp [hk])
      exact .inl (by rw [hexpr n hlt, hk])
  refine ⟨hmends, hc.mends hmends (steady_allocExpr c hrun).extends fun n _ => ?_, ?_, ?_⟩
  · simp only [Compilation.allocExpr, Arena.expr_allocExpr]
    split
    · exact .inr (he.mends hmends rfl)
    · exact .inl rfl
  · exact hc.fresh _ le_rfl
  · simp [Compilation.allocExpr, Arena.allocExpr]

/-! ## Calls -/

/-- A node may be an argument: it needs no resolution, or it is an open parameter. -/
structure Compilation.Usable (c : Compilation) (nodes : Set ExprId) (n : ExprId) : Prop where
  mem : n ∈ nodes
  lt : n.index < c.arena.exprs.size
  ordinary : (c.arena.expr n).Ordinary ∨ (c.arena.expr n).kind = .missingArg

theorem Compilation.Usable.mends (h : c.Usable nodes n) (hm : c.Mends nodes c') :
    c'.Usable nodes n where
  mem := h.mem
  lt := h.lt.trans_le hm.size
  ordinary := h.ordinary.imp (hm.ordinary h.lt) fun hk => hm.kind_eq hk rfl

/-- A node that is looked after needs no resolution. -/
structure Compilation.Proper (c : Compilation) (nodes : Set ExprId) (n : ExprId) : Prop where
  mem : n ∈ nodes
  lt : n.index < c.arena.exprs.size
  ordinary : (c.arena.expr n).Ordinary

theorem Compilation.Proper.usable (h : c.Proper nodes n) : c.Usable nodes n :=
  ⟨h.mem, h.lt, .inl h.ordinary⟩

/-- The arguments of a call that is looked after need no resolution. -/
theorem Compilation.Admits.proper (h : c.Admits nodes named k) (hrun : ∀ ts, k ≠ .run ts)
    (hn : n ∈ k.children) : c.Proper nodes n :=
  ⟨(h.inside n hn).1, (h.inside n hn).2, h.child hrun n hn⟩

/-- Arguments that a known type accepts are no holes any more. -/
theorem coerceArgs_mends (hc : c.Tidy nodes named) {args : List ExprId} {params : List Ty}
    (hargs : ∀ n ∈ args, c.Usable nodes n) (hparams : ∀ ty ∈ params, ty.Known)
    (hlength : args.length ≤ params.length) :
    Outcome (coerceArgs args params) c
      (fun _ c' => c.Mends nodes c' ∧ c'.Tidy nodes named ∧
        ∀ n ∈ args, (c'.arena.expr n).Ordinary) fun _ _ => True := by
  induction args generalizing c params with
  | nil => exact ⟨.refl c nodes, hc, by simp⟩
  | cons arg args ih =>
    cases params with
    | nil => simp at hlength
    | cons param params =>
      obtain ⟨hparam, hparams⟩ := List.forall_mem_cons.1 hparams
      obtain ⟨harg, hargs⟩ := List.forall_mem_cons.1 hargs
      simp only [coerceArgs, coerceArg_eq, outcome_bind, outcome_expr]
      split <;> rename_i coerced hcoerce
      · have hk := Expression.coerce_kind hcoerce
        have hty := Expression.coerce_ty hcoerce
        have hknown : coerced.ty = (c.arena.expr arg).ty ∨ coerced.ty.Known :=
          hty.symm.imp And.left fun hty => by rwa [hty]
        obtain ⟨hmends, htidy⟩ := hc.modifyExpr (f := fun _ => coerced) hk hknown
        -- It takes the type of its parameter, which is known, or it had one that is no hole.
        have hcoerced : coerced.Ordinary := by
          have hne : coerced.kind ≠ .minusSign ∧ ∀ ts, coerced.kind ≠ .run ts := by
            rcases hk with hk | ⟨-, hv⟩
            · rcases harg.ordinary with h | h
              · exact ⟨hk ▸ h.sign, fun ts => hk ▸ h.run ts⟩
              · exact ⟨by simp [hk, h], fun ts => by simp [hk, h]⟩
            · exact ⟨fun h => by simp [h, ExprKind.isValue] at hv,
                ExprKind.ne_run_of_isValue hv⟩
          refine ⟨hne.2, hne.1, ?_⟩
          rcases hty with hty | ⟨hty, h⟩
          · exact hty ▸ hparam.ne_hole
          · exact hty ▸ h.resolve_right hparam.ne_hole
        have harg₁ :
            ((c.modifyArena (·.modifyExpr arg fun _ => coerced)).arena.expr arg).Ordinary := by
          rw [modifyArena, Arena.expr_modifyExpr_self harg.lt]
          exact hcoerced
        simp only [outcome_modifyExpr]
        refine (ih htidy (fun n hn => (hargs n hn).mends hmends) hparams
          (by simpa using hlength)).imp ?_
        rintro _ c' ⟨hmends', htidy', hordinary⟩
        refine ⟨hmends.trans hmends', htidy', List.forall_mem_cons.2 ⟨?_, hordinary⟩⟩
        exact hmends'.ordinary (harg.lt.trans_le hmends.size) harg₁
      · trivial

/-- **A call** of a definition whose type is known is no hole, and neither are its arguments. -/
theorem createCall_mends (hc : c.Tidy nodes named) {d : DefId} {args : List ExprId} (span : Span)
    (hd : d ∈ named) (hargs : ∀ n ∈ args, c.Usable nodes n) :
    Outcome (createCall d args span) c
      (fun e c' => c.Mends nodes c' ∧ c'.Tidy nodes named ∧ e.kind = .call d args ∧
        e.ty ≠ .hole ∧ ∀ n ∈ args, (c'.arena.expr n).Ordinary) fun _ _ => True := by
  have hknown := hc.known d hd
  simp only [createCall, outcome_bind, outcome_definitionType]
  split <;> rename_i hty
  · rw [hty] at hknown
    split <;> rename_i hlength
    · trivial
    · simp only [outcome_bind, outcome_arena]
      refine (coerceArgs_mends hc hargs (fun ty => hknown.param) (Nat.le_of_not_lt hlength)).imp ?_
      rintro _ c' ⟨hmends, htidy, hordinary⟩
      split
      · exact ⟨hmends, htidy, rfl, hknown.result.ne_hole, hordinary⟩
      · simp only [outcome_bind, outcome_functionType]
        have htypes := fun types => htidy.of_arena_eq { c' with types } rfl rfl
        refine ⟨hmends.trans (htypes _).1, (htypes _).2, rfl, ?_, hordinary⟩
        simp [Expression.new, TypeStore.functionType_ty]
  · split <;> rename_i hempty
    · obtain rfl := List.isEmpty_iff.1 hempty
      exact ⟨.refl c nodes, hc, rfl, hknown.ne_hole, by simp⟩
    · trivial

/-- A step of the arrangement of a run. -/
structure Compilation.Restores (c : Compilation) (nodes : Set ExprId) (named : Set DefId)
    (terms : List ExprId) (c' : Compilation) : Prop extends c.Unfolds c' terms where
  mends : c.Mends nodes c'
  tidy : c.Tidy nodes named → c'.Tidy nodes named

theorem Compilation.Restores.refl (c : Compilation) (nodes : Set ExprId) (named : Set DefId)
    (terms : List ExprId) : c.Restores nodes named terms c :=
  ⟨(Steady.refl c).unfolds terms, .refl c nodes, id⟩

theorem Compilation.Restores.trans (h : c.Restores nodes named terms c')
    (h' : c'.Restores nodes named terms c'') : c.Restores nodes named terms c'' :=
  ⟨h.toUnfolds.trans h'.toUnfolds, h.mends.trans h'.mends, h'.tidy ∘ h.tidy⟩

/-- **A new call** needs no resolution. -/
theorem allocCall_restores (terms : List ExprId) (hc : c.Tidy nodes named) {d : DefId}
    {args : List ExprId} (span : Span) (hd : d ∈ named) (hargs : ∀ n ∈ args, c.Usable nodes n) :
    Outcome (allocCall d args span) c
      (fun n c' => c.Restores nodes named terms c' ∧ c'.Proper nodes n) fun _ _ => True := by
  have hmends : Outcome (allocCall d args span) c
      (fun n c' => c.Mends nodes c' ∧ c'.Tidy nodes named ∧ c'.Proper nodes n)
      fun _ _ => True := by
    simp only [allocCall, outcome_bind, outcome_allocExpr]
    refine (createCall_mends hc span hd hargs).imp ?_
    rintro e c' ⟨hmends, htidy, hk, hty, hordinary⟩
    have hadmits : c'.Admits nodes named e.kind := by
      rw [hk]
      refine ⟨fun m hm => ?_, by simp, fun _ => hordinary, ?_⟩
      · exact ⟨(hargs m hm).mem, (hargs m hm).lt.trans_le hmends.size⟩
      · simpa [ExprKind.named] using hd
    obtain ⟨hmends', htidy', hmem, hlt⟩ := htidy.allocExpr (by simp [hk]) hadmits
    refine ⟨hmends.trans hmends', htidy', hmem, hlt, ?_⟩
    rw [Compilation.allocExpr, Arena.expr_allocExpr_self]
    exact ⟨by simp [hk], by simp [hk], hty⟩
  refine ((allocCall_steady d args span).and hmends).mono ?_ fun _ _ _ => trivial
  rintro n c' ⟨⟨hsteady, -⟩, hmends, htidy, hn⟩
  exact ⟨⟨hsteady.unfolds terms, hmends, fun _ => htidy⟩, hn⟩

end Termwise
