import Termwise.Proofs.Concretization.Revisits

/-!
# Calls that are walked again

When a call is walked again, each of its arguments is what it was before it was brought into the
type of its parameter, or what it was after that. From either it is brought to the same place, into
the same type as before: generic numbers agree on a type that none of this can change. Only if the
call was widened in the meantime, and all that was widened below it was taken back, does it take back
its integers, too. The call around it will widen it once more.

## Main definitions

* `Compilation.TypedOver`, `Compilation.Mistyped`: a call that was typed over its arguments, or was
  not
* `Prospect.Called`: how a call was walked

## Main results

* `Called.recurs`: a call that was typed can be walked again
* `Called.refails`: a call that could not be typed cannot be typed now
-/

namespace Termwise

open Compilation

variable {P : Prospect} {settings : Settings} {k : Nat} {c c' c'' c₁ c₂ c₃ g : Compilation}
  {F F' F₀ G G' : List DefId} {id n m : ExprId} {d d₂ : DefId} {ids args : List ExprId}
  {params : List Ty} {param result t t₂ u : Ty} {isPure ok : Bool} {next : Visitor}
  {child : ExprId → WalkM Unit} {active : List DefId} {w : Walk}

namespace Compilation

/-- The tree of one of some expressions. -/
theorem trees_subset_of_mem (c : Compilation) (hm : m ∈ args) : c.trees [m] ⊆ c.trees args :=
  trees_mono (by simpa using hm)

/-! ## Versions of arguments -/

/-- What becomes of a value that is widened. -/
theorem Enlarged.of_value (h : c.Enlarged g m) (hvalue : (c.arena.expr m).kind.isValue = true) :
    (∃ e, (c.arena.expr m).cast? (c.arena.expr m).ty .float = some e ∧ g.arena.expr m = e) ∨
      (c.arena.expr m).cast? (c.arena.expr m).ty .float = none ∧
        ∀ n ∈ c.trees [m], g.arena.expr n = c.arena.expr n := by
  have hroot := h.root
  obtain ⟨v, hk⟩ : ∃ v, (c.arena.expr m).kind = .value v := by
    cases hk : (c.arena.expr m).kind <;> simp_all [ExprKind.isValue]
  rw [h.ty]
  simp only [Compilation.widened, hk] at hroot
  cases hcast : (c.arena.expr m).cast? .int .float with
  | some e => exact .inl ⟨e, rfl, by rw [hroot, hcast, Option.getD_some]⟩
  | none =>
    refine .inr ⟨rfl, fun n hn => ?_⟩
    rw [trees_of_isValue hvalue] at hn
    obtain rfl := Set.mem_singleton_iff.1 hn
    rw [hroot, hcast, Option.getD_none]

/-- What is widened becomes a float, unless it is a value that cannot be cast. -/
theorem Enlarged.ty_float_or (h : c.Enlarged g m) :
    (g.arena.expr m).ty = .float ∨ ∀ n ∈ c.trees [m], g.arena.expr n = c.arena.expr n := by
  rcases h.isValue_or_call with hvalue | ⟨_, _, -, hty⟩
  · rcases h.of_value hvalue with ⟨e, hcast, he⟩ | ⟨-, hsame⟩
    · exact .inl (by rw [he, Expression.ty_of_cast? hcast (by simp [h.ty])])
    · exact .inr hsame
  · exact .inl hty

/-- What is widened is brought into the type of floats. -/
theorem Enlarged.brought (h : c.Enlarged g m) : c.Brought g m .float := by
  have hne : (c.arena.expr m).ty ≠ .float := by simp [h.ty]
  cases hvalue : (c.arena.expr m).kind.isValue with
  | true =>
    rcases h.of_value hvalue with ⟨e, hcast, he⟩ | ⟨hnone, -⟩
    · exact .cast hne hvalue hcast he
    · exact .widened hne (fun _ => hnone) rfl h
  | false => exact .widened hne (by simp [hvalue]) rfl h

/-- A value that was cast is one that declares what it declared, and has a native type. -/
theorem cast?_native {e e' : Expression} (hcast : e.cast? e.ty t = some e') (hne : e.ty ≠ t)
    (hvalue : e.kind.isValue = true) :
    e'.kind.isValue = true ∧ e'.ty.native = .yes ∧ e'.declared = e.declared := by
  have hrecast := (Expression.converts_of_cast? hcast hne).recast
  exact ⟨hrecast.kind.isValue.trans hvalue, hrecast.ty, hrecast.declared⟩

theorem Enlarged.version (h : c.Enlarged g m) (hdeclared : (c.arena.expr m).declared = none) :
    c.Version g m := by
  cases hvalue : (c.arena.expr m).kind.isValue with
  | true =>
    rcases h.of_value hvalue with ⟨e, hcast, he⟩ | ⟨-, hsame⟩
    · obtain ⟨hvalue', hnative, hdeclared'⟩ := cast?_native hcast (by simp [h.ty]) hvalue
      exact .value hvalue (he ▸ hvalue') (he ▸ hnative) (by rw [he, hdeclared', hdeclared])
    · exact .same hsame
  | false => exact .enlarged hvalue h

/-- In whatever version, a value is a value. -/
theorem Version.isValue (h : c.Version c' m) (hvalue : (c.arena.expr m).kind.isValue = true) :
    (c'.arena.expr m).kind.isValue = true := by
  cases h with
  | same h => rwa [h m (c.mem_trees_self (List.mem_singleton_self m))]
  | value _ h => exact h
  | enlarged h => cases hvalue.symm.trans h

/-- **An argument that was brought into a type**, and was perhaps widened after that, is a version
of what it was. -/
theorem Brought.version (h : c₁.Brought c m t) (hc₁ : c₁.Rooted [m])
    (halongside : c₁.Alongside [m] c) (hdeclared : (c₁.arena.expr m).declared = none)
    (hlater : (∀ n ∈ c.trees [m], c₂.arena.expr n = c.arena.expr n) ∨ c.Enlarged c₂ m) :
    c₁.Version c₂ m := by
  have hm := c₁.mem_trees_self (List.mem_singleton_self m)
  have hkept (hsame : ∀ n ∈ c₁.trees [m], c.arena.expr n = c₁.arena.expr n) :
      c₁.Version c₂ m := by
    have hversion : c.Version c₂ m := by
      rcases hlater with hlater | hlater
      · exact .same hlater
      · exact hlater.version (by rw [hsame m hm, hdeclared])
    exact hversion.of_echoes ⟨halongside, hsame⟩ hc₁
  cases h with
  | same _ h => exact hkept h
  | cast hne hvalue hcast h =>
    obtain ⟨hvalue', hnative, hdeclared'⟩ := cast?_native hcast hne hvalue
    rw [← h] at hvalue' hnative hdeclared'
    have hversion : c.Version c₂ m := by
      rcases hlater with hlater | hlater
      · exact .same hlater
      · exact hlater.version (hdeclared'.trans hdeclared)
    obtain ⟨hdeclared₂, hnative₂⟩ := hversion.accepted (hdeclared'.trans hdeclared) hnative
    exact .value hvalue (hversion.isValue hvalue') hnative₂ hdeclared₂
  | widened hne hnone ht h =>
    cases hvalue : (c₁.arena.expr m).kind.isValue with
    | true =>
      rcases h.of_value hvalue with ⟨e, hcast, -⟩ | ⟨-, hsame⟩
      · subst ht
        cases (hnone hvalue).symm.trans hcast
      · exact hkept hsame
    | false =>
      obtain ⟨d, args, -, hty⟩ := h.isValue_or_call.resolve_left (by simp [hvalue])
      rcases hlater with hlater | hlater
      · refine .enlarged hvalue (h.congr fun n hn => hlater n ?_)
        rwa [trees_congr fun n hn => h.children hn]
      · cases hty.symm.trans hlater.ty

/-- An argument that was given is one in whatever version. -/
theorem Version.isMissing (h : c.Version c' m) (hgiven : c.arena.isMissing m = false) :
    c'.arena.isMissing m = false := by
  cases h with
  | same h => rwa [Arena.isMissing, h m (c.mem_trees_self (List.mem_singleton_self m))]
  | value _ hvalue => exact ExprKind.isMissingArg_of_isValue hvalue
  | enlarged hvalue h =>
    obtain ⟨d, args, hk, -⟩ := h.isValue_or_call.resolve_left (by simp [hvalue])
    have hroot := h.root
    simp only [Compilation.widened, hk] at hroot
    rw [Arena.isMissing, hroot]
    rfl

/-- The callee of a call that was widened: it is that of the call, or the negation of floats in
place of that of integers. -/
theorem getD_floatCallee? (c : Compilation) (d : DefId) : (c.floatCallee? d).getD d = d ∨
    d = c.builtins.unaryMinus ∧ (c.floatCallee? d).getD d = c.builtins.unaryMinusFloat := by
  simp only [floatCallee?]
  split_ifs with hd
  · exact .inr ⟨hd, rfl⟩
  · split
    · exact .inl rfl
    · exact .inl rfl

/-- In whatever version, a call is one of the same definition, up to negation. -/
theorem Version.call (h : c.Version c' m) (hn : n ∈ c.trees [m])
    (hk : (c'.arena.expr n).kind = .call d₂ args) : ∃ d, (c.arena.expr n).kind = .call d args ∧
      (d₂ = d ∨ d = c.builtins.unaryMinus ∧ d₂ = c.builtins.unaryMinusFloat) := by
  cases h with
  | same h => exact ⟨d₂, by rwa [h n hn] at hk, .inl rfl⟩
  | value h hvalue =>
    rw [trees_of_isValue h] at hn
    obtain rfl := Set.mem_singleton_iff.1 hn
    rw [hk] at hvalue
    cases hvalue
  | enlarged _ h =>
    by_cases hr : c.Rebuilt m n
    · rw [h.rebuilt n hn hr] at hk
      obtain ⟨d, hk', rfl⟩ := exists_call_of_widened hk
      exact ⟨d, hk', c.getD_floatCallee? d⟩
    · rw [h.kept n hn hr] at hk
      exact ⟨d₂, hk, .inl rfl⟩

/-! ## Arguments that were brought where they belong -/

/-- Each argument that has a parameter was brought into a type, or left as it was. -/
theorem BroughtAll.argument (h : c.BroughtAll g u ok args params)
    (hm : (m, param) ∈ args.zip params) :
    c.Brought g m (if param = .number then u else param) ∨
      ok = false ∧ ∀ n ∈ c.trees [m], g.arena.expr n = c.arena.expr n := by
  induction h with
  | done hend => rcases hend with rfl | rfl <;> simp at hm
  | fail _ h =>
    refine .inr ⟨rfl, fun n hn => h n (trees_mono ?_ hn)⟩
    simpa using (List.of_mem_zip hm).1
  | cons h _ ih =>
    rw [List.zip_cons_cons, List.mem_cons] at hm
    rcases hm with heq | hm
    · cases heq
      exact .inl h
    · exact ih hm

/-- An argument without a parameter was left as it was. -/
theorem BroughtAll.rest (h : c.BroughtAll g u ok args params) (hm : m ∈ args.drop params.length) :
    ∀ n ∈ c.trees [m], g.arena.expr n = c.arena.expr n := by
  induction h with
  | done _ h =>
    intro n hn
    exact h n (trees_mono (by simpa using List.mem_of_mem_drop hm) hn)
  | fail _ h =>
    intro n hn
    exact h n (trees_mono (by simpa using List.mem_of_mem_drop hm) hn)
  | cons _ _ ih => exact ih hm

/-- An argument has a parameter or none. -/
theorem mem_zip_or_drop {α β : Type} {a : α} {as : List α} (bs : List β) (ha : a ∈ as) :
    (∃ b, (a, b) ∈ as.zip bs) ∨ a ∈ as.drop bs.length := by
  induction as generalizing bs with
  | nil => cases ha
  | cons a' as ih =>
    cases bs with
    | nil => exact .inr ha
    | cons b bs =>
      rcases List.mem_cons.1 ha with rfl | ha
      · exact .inl ⟨b, by simp⟩
      · refine (ih bs ha).imp_left ?_
        rintro ⟨b', hmem⟩
        exact ⟨b', List.mem_cons_of_mem _ hmem⟩

/-- An argument without a parameter follows no call. -/
theorem not_mem_followers (hnodup : args.Nodup)
    (hm : m ∈ args.drop (c.arena.definitionType d).params.length) : m ∉ c.followers d args := by
  intro hfollows
  obtain ⟨⟨_, t⟩, hmem, rfl⟩ := List.mem_map.1 hfollows
  obtain ⟨i, hi, heq⟩ := List.mem_iff_getElem.1 (List.mem_filter.1 hmem).1
  obtain ⟨j, hj, heq'⟩ := List.mem_iff_getElem.1 hm
  simp only [List.length_zip, lt_inf_iff] at hi
  simp only [List.getElem_zip, Prod.mk.injEq] at heq
  rw [List.getElem_drop, ← heq.1, hnodup.getElem_inj_iff] at heq'
  omega

/-- What was brought into the type of integers is typed as one. -/
theorem Brought.ty_int (h : c.Brought g m .int) : (g.arena.expr m).ty = .int := by
  cases h with
  | same hty h => rw [h m (c.mem_trees_self (List.mem_singleton_self m)), hty]
  | cast hne _ hcast h => rw [h, Expression.ty_of_cast? hcast hne]
  | widened _ _ ht => cases ht

/-- What was a float is left as it was by that. -/
theorem Brought.of_float (h : c.Brought g m .float) (hty : (c.arena.expr m).ty = .float) :
    ∀ n ∈ c.trees [m], g.arena.expr n = c.arena.expr n := by
  cases h with
  | same _ h => exact h
  | cast hne | widened hne => exact (hne hty).elim

/-- **The type that generic numbers take** is that of floats if and only if one of them is. -/
theorem unifiedNumber_eq_float {a : Arena} : unifiedNumber a args params = .float ↔
    ∃ m, (m, .number) ∈ args.zip params ∧ (a.expr m).ty = .float := by
  simp only [unifiedNumber]
  split_ifs with h
  · simp only [List.any_eq_true, Bool.and_eq_true, beq_iff_eq, Prod.exists] at h
    obtain ⟨m, _, hmem, rfl, hty⟩ := h
    exact ⟨fun _ => ⟨m, hmem, hty⟩, fun _ => rfl⟩
  · refine ⟨by simp, ?_⟩
    rintro ⟨m, hmem, hty⟩
    refine (h (List.any_eq_true.2 ⟨(m, .number), hmem, ?_⟩)).elim
    simp [hty]

theorem unifiedNumber_or (a : Arena) (args : List ExprId) (params : List Ty) :
    unifiedNumber a args params = .int ∨ unifiedNumber a args params = .float := by
  simp only [unifiedNumber]
  split
  · exact .inr rfl
  · exact .inl rfl

/-- Generic numbers take the same type again, whether they were brought into it or not. -/
theorem BroughtAll.unifiedNumber_again {a : Arena}
    (h : c.BroughtAll g (unifiedNumber c.arena args params) ok args params)
    (ha : ∀ m ∈ args, a.expr m = g.arena.expr m ∨ a.expr m = c.arena.expr m) :
    unifiedNumber a args params = unifiedNumber c.arena args params := by
  have hroot {m : ExprId} : m ∈ c.trees [m] := c.mem_trees_self (List.mem_singleton_self m)
  rcases unifiedNumber_or c.arena args params with hint | hfloat
  · rw [hint] at h ⊢
    refine (unifiedNumber_or a args params).resolve_right fun hfloat => ?_
    obtain ⟨m, hm, hty⟩ := unifiedNumber_eq_float.1 hfloat
    have hold : (c.arena.expr m).ty ≠ .float := fun hty => by
      cases hint.symm.trans (unifiedNumber_eq_float.2 ⟨m, hm, hty⟩)
    rcases ha m (List.of_mem_zip hm).1 with hnew | hkept
    · rcases h.argument hm with hbrought | ⟨-, hsame⟩
      · cases hty.symm.trans (hnew ▸ hbrought.ty_int)
      · exact hold (by rwa [← hsame m hroot, ← hnew])
    · exact hold (hkept ▸ hty)
  · obtain ⟨m, hm, hty⟩ := unifiedNumber_eq_float.1 hfloat
    rw [hfloat] at h ⊢
    -- The one that is a float was left as it was.
    have hsame : g.arena.expr m = c.arena.expr m := by
      rcases h.argument hm with hbrought | ⟨-, hsame⟩
      · exact hbrought.of_float hty m hroot
      · exact hsame m hroot
    refine unifiedNumber_eq_float.2 ⟨m, hm, ?_⟩
    rcases ha m (List.of_mem_zip hm).1 with hnew | hkept
    · rw [hnew, hsame, hty]
    · rw [hkept, hty]

/-- Whatever became of an argument, it was brought into some type. -/
theorem BroughtAll.each (h : c.BroughtAll g u ok args params) (hm : m ∈ args) :
    ∃ t, c.Brought g m t := by
  rcases mem_zip_or_drop params hm with ⟨param, hmem⟩ | hmem
  · rcases h.argument hmem with hbrought | ⟨-, hsame⟩
    · exact ⟨_, hbrought⟩
    · exact ⟨_, .same rfl hsame⟩
  · exact ⟨_, .same rfl (h.rest hmem)⟩

/-- A tree that was brought into a type comes to the same from where it is now, or from where it
was. -/
theorem Brought.nears (h : c.Brought g m t) (hc : c.Rooted [m])
    (hnow : (∀ n ∈ c.trees [m], c'.arena.expr n = g.arena.expr n) ∨ c.Echoes [m] c') :
    c'.Nears g m t := by
  rcases hnow with hnow | he
  · exact .inr ⟨c, h, hnow⟩
  · exact .inl (h.echo he hc)

/-! ## Typing a call -/

/-- **A call was typed** over its arguments by a callee of some type. -/
inductive TypedOver (c g : Compilation) (id : ExprId) (args : List ExprId) : Ty → Prop where
  | function {params : List Ty} {result : Ty} (isPure : Bool)
    (hargs : c.BroughtAll g (unifiedNumber c.arena args params) true args params)
    (hroot : g.arena.expr id = if result = .number then
      { c.arena.expr id with ty := unifiedNumber c.arena args params } else c.arena.expr id) :
    TypedOver c g id args (.function params result isPure)
  | value {t : Ty} (ht : t.isFunction = false)
    (hargs : ∀ n ∈ c.trees args, g.arena.expr n = c.arena.expr n)
    (hroot : g.arena.expr id = { c.arena.expr id with ty := t }) : TypedOver c g id args t

/-- A call was not typed since one of its arguments does not suit its callee. -/
structure Mistyped (c g : Compilation) (id : ExprId) (args : List ExprId) (params : List Ty) :
    Prop where
  args : c.BroughtAll g (unifiedNumber c.arena args params) false args params
  root : g.arena.expr id = c.arena.expr id

theorem TypedOver.kind (h : c.TypedOver g id args t) :
    (g.arena.expr id).kind = (c.arena.expr id).kind := by
  cases h with
  | function _ _ hroot =>
    rw [hroot]
    split <;> rfl
  | value _ _ hroot => rw [hroot]

theorem TypedOver.declared (h : c.TypedOver g id args t) :
    (g.arena.expr id).declared = (c.arena.expr id).declared := by
  cases h with
  | function _ _ hroot =>
    rw [hroot]
    split <;> rfl
  | value _ _ hroot => rw [hroot]

/-- Whatever became of an argument, it was brought into some type. -/
theorem TypedOver.each (h : c.TypedOver g id args t) (hm : m ∈ args) : ∃ u, c.Brought g m u := by
  cases h with
  | function _ hargs => exact hargs.each hm
  | value _ hargs => exact ⟨_, .same rfl fun n hn => hargs n (c.trees_subset_of_mem hm hn)⟩

/-- A call of a value takes its type. -/
theorem typeCall_of_value (ht : t.isFunction = false) :
    typeCall id t args = CheckM.setType id t := by
  cases t <;> first | rfl | cases ht

/-- A call is not one of its arguments, and lies in the same tree. -/
theorem Rooted.call (hc : c.Rooted [id]) (hk : (c.arena.expr id).kind = .call d args) :
    c.Rooted args ∧ id ∉ c.trees args ∧ c.trees args ⊆ c.trees [id] := by
  obtain ⟨hargs, hroot⟩ := hc.children
  have hsub : c.trees (c.arena.expr id).kind.children ⊆ c.trees [id] := fun n hn =>
    mem_trees_iff_children.2 (.inr hn)
  rw [hk] at hargs hroot hsub
  exact ⟨hargs, hroot, hsub⟩

/-- **What becomes of a call** that is typed. -/
theorem typeCall_types (hc : c.Rooted [id]) (hk : (c.arena.expr id).kind = .call d args) (t : Ty) :
    Outcome (typeCall id t args) c
      (fun _ c' => c.TypedOver c' id args t ∧ c.Alters (c.trees [id]) c')
      fun stop c' => stop ≠ .cyclic ∧ c.Alters (c.trees [id]) c' ∧
        ∃ params result isPure, t = .function params result isPure ∧
          c.Mistyped c' id args params := by
  have hid := c.mem_trees_self (List.mem_singleton_self id)
  obtain ⟨hargs, hroot, hsub⟩ := hc.call hk
  have hne {n : ExprId} (hn : n ∈ c.trees args) : n ≠ id := by
    rintro rfl
    exact hroot hn
  unfold typeCall
  split
  · rename_i params result isPure
    simp only [outcome_bind, outcome_arena]
    refine (coerceAll_brings hargs _ params).mono ?_ ?_
    · rintro - c₁ ⟨hbrought, halters⟩
      have hroot₁ : c₁.arena.expr id = c.arena.expr id := halters.expr id hroot
      split
      · rename_i hnumber
        subst hnumber
        refine ⟨.function isPure (hbrought.congr fun n hn => ?_) ?_,
          (halters.mono hsub).trans (alters_modifyExpr hid _)⟩
        · exact Arena.expr_modifyExpr_of_ne (hne hn) _
        · simp only [modifyArena, if_true]
          rw [Arena.expr_modifyExpr_self (halters.size ▸ hc.lt_size), hroot₁]
      · rename_i hnumber
        refine ⟨.function isPure hbrought ?_, halters.mono hsub⟩
        rw [if_neg hnumber, hroot₁]
    · rintro stop c₁ ⟨hstop, hbrought, halters⟩
      exact ⟨hstop, halters.mono hsub, params, result, isPure, rfl, hbrought, halters.expr id hroot⟩
  · rename_i hfunction
    rw [outcome_setType]
    refine ⟨.value ?_ (fun n hn => Arena.expr_modifyExpr_of_ne (hne hn) _) ?_,
      alters_modifyExpr hid _⟩
    · cases t <;> first | rfl | exact (hfunction _ _ _ rfl).elim
    · exact Arena.expr_modifyExpr_self hc.lt_size _

/-- **A call is typed as it is elsewhere**, or it cannot be typed here either. -/
theorem typeCall_meets (hlt : id.index < c.arena.exprs.size) (hargs : c.Rooted args)
    (hroot : id ∉ c.trees args)
    (hmeets : c.Meets g (unifiedNumber c.arena args params) ok args params)
    (hid : g.arena.expr id = if ok = true ∧ result = .number then
      { c.arena.expr id with ty := unifiedNumber c.arena args params } else c.arena.expr id) :
    Outcome (typeCall id (.function params result isPure) args) c
      (fun _ c' => ok = true ∧ c.Alters (insert id (c.trees args)) c' ∧
        ∀ n ∈ insert id (c.trees args), c'.arena.expr n = g.arena.expr n)
      fun stop c' => ok = false ∧ stop ≠ .cyclic ∧ c.Alters (insert id (c.trees args)) c' ∧
        ∀ n ∈ insert id (c.trees args), c'.arena.expr n = g.arena.expr n := by
  have hsub : c.trees args ⊆ insert id (c.trees args) := Set.subset_insert _ _
  simp only [typeCall, outcome_bind, outcome_arena]
  refine (hmeets.coerceAll hargs).mono ?_ ?_
  · rintro - c₁ ⟨rfl, halters, hgoal⟩
    have hroot₁ : c₁.arena.expr id = c.arena.expr id := halters.expr id hroot
    simp only [true_and] at hid
    split <;> rename_i hnumber
    · rw [if_pos hnumber] at hid
      refine ⟨rfl, (halters.mono hsub).trans (alters_modifyExpr (Set.mem_insert _ _) _), ?_⟩
      rintro n (rfl | hn)
      · simp only [modifyArena]
        rw [Arena.expr_modifyExpr_self (halters.size ▸ hlt), hroot₁, hid]
      · have hne : n ≠ id := by
          rintro rfl
          exact hroot hn
        simp only [modifyArena, Arena.expr_modifyExpr_of_ne hne]
        exact hgoal n hn
    · rw [if_neg hnumber] at hid
      refine ⟨rfl, halters.mono hsub, ?_⟩
      rintro n (rfl | hn)
      · rw [hroot₁, hid]
      · exact hgoal n hn
  · rintro stop c₁ ⟨rfl, hstop, halters, hgoal⟩
    refine ⟨rfl, hstop, halters.mono hsub, ?_⟩
    rintro n (rfl | hn)
    · rw [halters.expr n hroot, hid]
      simp
    · exact hgoal n hn

end Compilation

namespace Prospect

/-! ## Callees -/

/-- A definition that is called has the same type wherever fixed types are kept. -/
theorem Fits.definitionType {b : Builtins} {e : Expression} (h : P.Fits b k e)
    (hk : e.kind = .call d args) (hc : P.Steadfast c k) (hc' : P.Steadfast c' k) :
    c'.arena.definitionType d = c.arena.definitionType d := by
  obtain ⟨ty, hty⟩ := h.called d args hk
  have hd : P.rank d < k := h.uses d (by rw [hk]; exact .use rfl)
  rw [hc d hd ty hty, hc' d hd ty hty]

theorem Lot.alongside (h : P.Lot c k ids) (hc : P.Steadfast c k) (hc' : P.Steadfast c' k)
    (hsame : c.SameProgram c') (hsize : c.arena.exprs.size ≤ c'.arena.exprs.size) :
    c.Alongside ids c' :=
  ⟨hsame, hsize, fun n hn _ _ hk => (h.fits n hn).definitionType hk hc hc'⟩

/-- **Trees with the same shape** that call the same definitions, up to negation, contain no body of
these either. -/
theorem Lot.rooted_of_calls (h : P.Lot c k ids) (hsame : c.SameProgram c')
    (hsize : c.arena.exprs.size ≤ c'.arena.exprs.size)
    (hchildren : ∀ n ∈ c.trees ids,
      (c'.arena.expr n).kind.children = (c.arena.expr n).kind.children)
    (hcalls : ∀ n ∈ c.trees ids, ∀ d₂ xs, (c'.arena.expr n).kind = .call d₂ xs →
      ∃ d, (c.arena.expr n).kind = .call d xs ∧
        (d₂ = d ∨ d = c.builtins.unaryMinus ∧ d₂ = c.builtins.unaryMinusFloat)) :
    c'.Rooted ids := by
  have htrees : c'.trees ids = c.trees ids := trees_congr hchildren
  obtain ⟨xs, hforest, hnodup⟩ := h.forest
  refine ⟨⟨xs, hforest.congr fun n hn => hchildren n ((mem_trees_of_forest hforest).2 hn), hnodup⟩,
    fun n hn => ?_, fun n hn d₂ args hk b hb => ?_⟩
  · rw [htrees] at hn
    exact (h.inTable n hn).trans_le hsize
  · rw [htrees] at hn ⊢
    obtain ⟨d, hk, hd⟩ := hcalls n hn d₂ args hk
    have huses := (h.fits n hn).uses
    rw [hk] at huses
    refine h.free d₂ (huses d₂ ?_) b (by rwa [hsame.definition] at hb)
    rcases hd with rfl | ⟨rfl, rfl⟩
    · exact .use rfl
    · exact .widening args

/-- A definition without a body of its own is dealt with at once. -/
theorem outcome_visitDefinition_builtin {ended : Unit → Walk → Prop} {stopped : Stop → Walk → Prop}
    (hd : (w.unit.arena.definition d).body = .builtin) :
    Outcome (visitDefinition next active d) w ended stopped ↔ ended () w := by
  simp only [visitDefinition, outcome_bind, outcome_lift, outcome_definition, hd, outcome_pure]

/-- **A call that is not replaced**, and leaves no parameter unbound: its definition is dealt with,
its arguments are walked, and it is typed. -/
theorem outcome_call_withheld {ended : Unit → Walk → Prop} {stopped : Stop → Walk → Prop}
    (hk : (c.arena.expr id).kind = .call d args) (hfull : c.arena.isPartialCall id = false)
    (hdeclared : (c.arena.expr id).declared = none)
    (hwithheld : args = [] → c.Withheld settings (.call d []))
    (hfree : ∀ b, (c.arena.definition d).body = .expression b → b ≠ id)
    (hrest : ∀ c', c.Alters ∅ c' → Outcome (do
      visitDefinition next active d
      visitEach child args
      liftM (typeCall id (c.arena.definitionType d) args)) ⟨c', G⟩ ended stopped) :
    Outcome (visitKind settings next child active id (c.arena.expr id)) ⟨c, G⟩ ended stopped := by
  have hkind : visitKind settings next child active id (c.arena.expr id) =
      visitCall settings next child active id d args := by
    rw [visitKind, hk]
  rw [hkind, visitCall]
  simp only [outcome_bind, outcome_lift, outcome_arena, hfull, Bool.false_eq_true, if_false]
  split
  · rename_i hempty
    obtain rfl := List.isEmpty_iff.1 hempty
    rw [outcome_bind]
    refine (trySubstitute_withheld (by rw [hk]; exact hwithheld rfl) hdeclared (by rw [hk]; rfl)
      (by rw [hk]; rfl) hfree).mono ?_ fun _ _ => False.elim
    rintro _ ⟨c', _⟩ ⟨rfl, hstill, rfl⟩
    simpa using hrest c' hstill
  · simpa using hrest c (.refl ∅ c)

/-- A call that has all its arguments leaves no parameter unbound. -/
theorem isPartialCall_eq_false_iff (hk : (c.arena.expr id).kind = .call d args) :
    c.arena.isPartialCall id = false ↔ (c.arena.definitionType d).arity ≤ args.length ∧
      ∀ m ∈ args, c.arena.isMissing m = false := by
  simp only [Arena.isPartialCall, hk, Bool.or_eq_false_iff, decide_eq_false_iff_not, not_lt,
    List.any_eq_false, Bool.not_eq_true]

/-! ## Calls that were walked -/

/-- **How a call was walked**: the definition was dealt with, and then the arguments were walked,
which led to `c₁`. What was done after that, up to `c`, left the rest alone. -/
structure Called (P : Prospect) (settings : Settings) (k : Nat) (F F₀ F' : List DefId)
    (c₁ c : Compilation) (id : ExprId) (d : DefId) (args : List ExprId) : Prop where
  kind : (c₁.arena.expr id).kind = .call d args
  before : P.Lot c₁ k [id]
  after : P.Lot c k [id]
  steadfast : P.Steadfast c₁ k
  full : (c₁.arena.definitionType d).arity ≤ args.length
  given : ∀ m ∈ args, c₁.arena.isMissing m = false
  withheld : args = [] → c.Withheld settings (.call d [])
  finished : ∀ b, (c.arena.definition d).body = .expression b → d ∈ F₀
  definition : P.DefRecurs settings k F F₀ c d
  arguments : P.Settled settings k F₀ F' c₁ args
  recalls : P.Recalls k F₀ F' c₁ c
  start : F ⊆ F₀
  later : F₀ ⊆ F'
  registered : c.Registered
  negation : ∀ d, c.IsNegation d → (c.arena.definition d).body = .builtin

section

variable (h : P.Called settings k F F₀ F' c₁ c id d args)

include h

theorem Called.rank : P.rank d < k :=
  (h.before.fits id (c₁.mem_trees_self (List.mem_singleton_self id))).uses d
    (by rw [h.kind]; exact .use rfl)

theorem Called.definitionType (hc₂ : P.Steadfast c₂ k) :
    c₂.arena.definitionType d = c₁.arena.definitionType d :=
  (h.before.fits id (c₁.mem_trees_self (List.mem_singleton_self id))).definitionType h.kind
    h.steadfast hc₂

/-- The arguments and the root of the call. -/
theorem Called.rooted : c₁.Rooted args ∧ id ∉ c₁.trees args ∧ c₁.trees args ⊆ c₁.trees [id] :=
  h.before.toPlot.rooted.call h.kind

theorem Called.declared (hm : m ∈ args) : (c₁.arena.expr m).declared = none :=
  (h.before.fits m (h.rooted.2.2 (c₁.mem_trees_self hm))).declared

theorem Called.recalled (hr : P.Recalls k F F' c c₂) : P.Recalls k F₀ F' c₁ c₂ :=
  h.recalls.trans (hr.part h.start (List.Subset.refl F')) (List.Subset.refl F')

theorem Called.alongside (hc₂ : P.Recalls k F₀ F' c₁ c₂) : c₁.Alongside args c₂ :=
  (h.before.alongside h.steadfast hc₂.steadfast hc₂.toSameProgram hc₂.size).mono h.rooted.2.2

/-- **What is done with a call** that is walked again: its definition is dealt with, its arguments
are walked, and it is typed. -/
theorem Called.outcome {ended : Unit → Walk → Prop} {stopped : Stop → Walk → Prop}
    (honwards : P.Onwards settings k next child active) (hr : P.Recalls k F F' c c₂)
    (hG : Resumes F F' G) (hk : (c₂.arena.expr id).kind = .call d₂ args)
    (hdeclared : (c₂.arena.expr id).declared = none)
    (hfull : (c₂.arena.definitionType d₂).arity ≤ args.length)
    (hwithheld : args = [] → c₂.Withheld settings (.call d₂ []))
    (hfree : ∀ b, (c₂.arena.definition d₂).body = .expression b → b ≠ id)
    (hdef : P.DefRecurs settings k F F₀ c d₂) (hversions : ∀ m ∈ args, c₁.Version c₂ m)
    (hrest : ∀ c₃ G', c₁.Revisited c₂ c₃ args → Resumed F F' G G' →
      Outcome (typeCall id (c₂.arena.definitionType d₂) args) c₃ (fun _ c => ended () ⟨c, G'⟩)
        fun stop c => stopped stop ⟨c, G'⟩)
    (hcyclic : ∀ w, stopped .cyclic w) :
    Outcome (visitKind settings next child active id (c₂.arena.expr id)) ⟨c₂, G⟩ ended stopped := by
  have hpartial : c₂.arena.isPartialCall id = false :=
    (isPartialCall_eq_false_iff hk).2 ⟨hfull, fun m hm => (hversions m hm).isMissing (h.given m hm)⟩
  refine outcome_call_withheld hk hpartial hdeclared hwithheld hfree fun c₃ hstill => ?_
  simp only [outcome_bind, outcome_lift]
  have hr₃ := hr.still hstill
  refine (hdef.outcome honwards.toEnters (hr₃.part (List.Subset.refl F) h.later)
    (hG.first h.later)).mono ?_ ?_
  · rintro - ⟨c₄, G₁⟩ ⟨hstill', hresumed⟩
    have hstill₄ := hstill.trans hstill'
    refine (h.arguments child honwards.child c₄ (h.recalled (hr.still hstill₄))
      (fun m hm => (hversions m hm).congr fun n _ => hstill₄.expr n (Set.notMem_empty n)) G₁
      (hG.next h.later hresumed)).mono ?_ ?_
    · rintro - ⟨c₅, G₂⟩ ⟨hrevisited, hresumed'⟩
      exact hrest c₅ G₂ (hrevisited.after hstill₄) (hresumed.trans hresumed' h.later)
    · rintro _ _ rfl
      exact hcyclic _
  · rintro _ _ rfl
    exact hcyclic _

/-- The arguments of a call are in some version of what they were before it was typed. -/
theorem Called.versions (hargs : ∀ m ∈ args, ∃ t, c₁.Brought c m t) (hversion : c.Version c₂ id)
    (hkind : (c.arena.expr id).kind = .call d args) : ∀ m ∈ args, c₁.Version c₂ m := by
  intro m hm
  obtain ⟨t, hbrought⟩ := hargs m hm
  have hsub : c.trees [m] ⊆ c.trees [id] :=
    (c.trees_subset_of_mem hm).trans (h.after.toPlot.rooted.call hkind).2.2
  refine hbrought.version (h.rooted.1.of_mem hm)
    ((h.alongside h.recalls).mono (c₁.trees_subset_of_mem hm)) (h.declared hm) ?_
  cases hversion with
  | same hsame => exact .inl fun n hn => hsame n (hsub hn)
  | value hvalue =>
    rw [hkind] at hvalue
    cases hvalue
  | enlarged _ henlarged =>
    rcases henlarged.argument h.after.toPlot.rooted hkind hm with ⟨-, -, h⟩ | ⟨-, h⟩
    · exact .inr h
    · exact .inl h

/-- The arguments share nothing after they were walked again, and their callees have the types that
they had. -/
theorem Called.again (hr : P.Recalls k F₀ F' c₁ c₂) (hversions : ∀ m ∈ args, c₁.Version c₂ m)
    (hrevisited : c₁.Revisited c₂ c₃ args) : c₃.Rooted args ∧ c₁.Alongside args c₃ := by
  have hr₃ : P.Recalls k F₀ F' c₁ c₃ := hr.altered hrevisited.toAlters fun e he =>
    (h.before.apart e he).mono_left h.rooted.2.2
  have hplot := h.before.toPlot.children.1
  rw [h.kind] at hplot
  have hlot : P.Lot c₁ k args := ⟨hplot, fun e he =>
    (h.before.apart e he).mono_left h.rooted.2.2⟩
  have hof {n : ExprId} (hn : n ∈ c₁.trees args) : ∃ m ∈ args, n ∈ c₁.trees [m] := by
    obtain ⟨m, hm, hn⟩ := hn
    exact ⟨m, hm, mem_trees_singleton.2 hn⟩
  refine ⟨hlot.rooted_of_calls hr₃.toSameProgram hr₃.size (fun n hn => ?_)
    fun n hn d₂ xs hk => ?_, h.alongside hr₃⟩
  all_goals
    obtain ⟨m, hm, hn'⟩ := hof hn
    rcases hrevisited.node hn with hkept | hback
  · rw [hkept]
    exact (hversions m hm).children hn'
  · rw [hback]
  · rw [hkept] at hk
    exact (hversions m hm).call hn' hk
  · rw [hback] at hk
    exact ⟨d₂, hk, .inl rfl⟩

/-- **A call is typed again** as it is elsewhere. -/
theorem Called.typed_as (result : Ty) (hr : P.Recalls k F₀ F' c₁ c₂)
    (hversions : ∀ m ∈ args, c₁.Version c₂ m)
    (hrevisited : c₁.Revisited c₂ c₃ args)
    (hmeets : c₃.Meets g (unifiedNumber c₃.arena args params) ok args params)
    (hid : g.arena.expr id = if ok = true ∧ result = .number then
      { c₂.arena.expr id with ty := unifiedNumber c₃.arena args params }
      else c₂.arena.expr id) :
    Outcome (typeCall id (.function params result isPure) args) c₃
      (fun _ c₄ => ok = true ∧ c₂.Alters (insert id (c₁.trees args)) c₄ ∧
        ∀ n ∈ insert id (c₁.trees args), c₄.arena.expr n = g.arena.expr n)
      fun stop c₄ => ok = false ∧ stop ≠ .cyclic ∧
        c₂.Alters (insert id (c₁.trees args)) c₄ ∧
        ∀ n ∈ insert id (c₁.trees args), c₄.arena.expr n = g.arena.expr n := by
  obtain ⟨hrooted, -⟩ := h.again hr hversions hrevisited
  have htrees : c₃.trees args = c₁.trees args := by
    refine trees_congr fun n hn => ?_
    obtain ⟨m, hm, hn'⟩ := hn
    rcases hrevisited.node ⟨m, hm, hn'⟩ with hkept | hback
    · rw [hkept, (hversions m hm).children (mem_trees_singleton.2 hn')]
    · rw [hback]
  have hlt : id.index < c₃.arena.exprs.size := by
    rw [hrevisited.size]
    exact h.before.lt_size.trans_le hr.size
  have hroot : c₃.arena.expr id = c₂.arena.expr id := hrevisited.expr id h.rooted.2.1
  have hstart := hrevisited.toAlters.mono (Set.subset_insert id (c₁.trees args))
  rw [← hroot] at hid
  rw [← htrees] at hstart ⊢
  exact (typeCall_meets hlt hrooted (htrees ▸ h.rooted.2.1) hmeets hid).mono
    (fun _ _ h => ⟨h.1, hstart.trans h.2.1, h.2.2⟩)
    fun _ _ h => ⟨h.1, h.2.1, hstart.trans h.2.2.1, h.2.2.2⟩

/-- The nodes of a call. -/
theorem Called.trees_eq (hargs : ∀ m ∈ args, ∃ t, c₁.Brought c m t)
    (hkind : (c.arena.expr id).kind = .call d args) :
    c.trees [id] = insert id (c₁.trees args) := by
  have htrees := trees_of_versions (h.versions hargs (.same fun _ _ => rfl) hkind)
  ext n
  rw [mem_trees_iff_children, hkind, Set.mem_insert_iff, ← htrees]
  rfl

/-- **A call that was not changed since it was typed** is left alone. -/
theorem Called.retyped (ht : c₁.TypedOver c id args t) (hr : P.Recalls k F₀ F' c₁ c₂)
    (hsame : ∀ n ∈ c.trees [id], c₂.arena.expr n = c.arena.expr n)
    (hrevisited : c₁.Revisited c₂ c₃ args) :
    Outcome (typeCall id t args) c₃ (fun _ c₄ => c₂.Alters ∅ c₄) fun _ _ => False := by
  have hkind := ht.kind.trans h.kind
  have hversions := h.versions (fun _ => ht.each) (.same hsame) hkind
  rw [h.trees_eq (fun _ => ht.each) hkind] at hsame
  have hid : c₂.arena.expr id = c.arena.expr id := hsame id (Set.mem_insert _ _)
  cases ht with
  | @function params result isPure hargs hroot =>
    have hbrought := hargs.congr fun n hn => hsame n (Set.mem_insert_of_mem id hn)
    have hunified := hbrought.unifiedNumber_again (a := c₃.arena)
      fun m hm => hrevisited.node (c₁.mem_trees_self hm)
    have hbetween : c₁.Between c₂ args c₃ := ⟨(h.again hr hversions hrevisited).2, fun m hm => by
      rcases hrevisited.each m hm with hkept | ⟨-, -, hback⟩
      · exact .inr hkept
      · exact .inl hback⟩
    have hmeets := hbrought.meets hbetween h.rooted.1
    rw [← hunified] at hmeets
    refine (h.typed_as result hr hversions hrevisited hmeets ?_).mono ?_ ?_
    · rw [hid, hroot, hunified]
      split <;> simp_all
    · exact fun _ _ h => h.2.1.of_kept h.2.2
    · exact fun _ _ h => by cases h.1
  | value ht hargs hroot =>
    rw [typeCall_of_value ht, outcome_setType]
    have hstill : c₂.Alters ∅ c₃ := hrevisited.still fun n hn => by
      rw [hsame n (Set.mem_insert_of_mem id hn), hargs n hn]
    refine hstill.trans (alters_of_eq ?_)
    rw [hstill.expr id (Set.notMem_empty id), hid, hroot]

/-- An argument that is now what it comes to elsewhere comes to that again. -/
theorem Called.nears (hr : P.Recalls k F₀ F' c₁ c₂) (hversions : ∀ m ∈ args, c₁.Version c₂ m)
    (hrevisited : c₁.Revisited c₂ c₃ args) (hm : m ∈ args) (hbrought : c₁.Brought g m t)
    (hnow : ∀ n ∈ c₁.trees [m], c₂.arena.expr n = g.arena.expr n) : c₃.Nears g m t := by
  refine hbrought.nears (h.rooted.1.of_mem hm) ?_
  rcases hrevisited.each m hm with hkept | ⟨-, -, hback⟩
  · exact .inl fun n hn => (hkept n hn).trans (hnow n hn)
  · exact .inr ⟨(h.again hr hversions hrevisited).2.mono (c₁.trees_subset_of_mem hm), hback⟩

/-- An argument that was widened with the call becomes a float again. -/
theorem Called.nears_float (hr : P.Recalls k F₀ F' c₁ c₂) (hversions : ∀ m ∈ args, c₁.Version c₂ m)
    (hrevisited : c₁.Revisited c₂ c₃ args) (hm : m ∈ args) (hbrought : c₁.Brought c m t)
    (henlarged : c.Enlarged c₂ m) : c₃.Nears c₂ m .float := by
  rcases hrevisited.each m hm with hkept | ⟨-, henlarged₁, hback⟩
  · refine .inr ⟨c, henlarged.brought, fun n hn => hkept n ?_⟩
    rwa [← hbrought.trees fun _ _ => rfl]
  · exact .inl (henlarged₁.brought.echo ⟨(h.again hr hversions hrevisited).2.mono
      (c₁.trees_subset_of_mem hm), hback⟩ (h.rooted.1.of_mem hm))

/-- An argument that was widened with the call is an integer again, unless it is a float now. -/
theorem Called.nears_int (hr : P.Recalls k F₀ F' c₁ c₂) (hversions : ∀ m ∈ args, c₁.Version c₂ m)
    (hrevisited : c₁.Revisited c₂ c₃ args) (hm : m ∈ args) (hbrought : c₁.Brought c m .int)
    (henlarged : c.Enlarged c₂ m) (hty : (c₃.arena.expr m).ty ≠ .float) : c₃.Nears c m .int := by
  rcases henlarged.ty_float_or with hfloat | hsame
  · -- It was taken back, since it would be a float otherwise.
    rcases hrevisited.each m hm with hkept | ⟨-, -, hback⟩
    · refine absurd ?_ hty
      rw [hkept m (c₁.mem_trees_self (List.mem_singleton_self m)), hfloat]
    · exact .inl (hbrought.echo ⟨(h.again hr hversions hrevisited).2.mono
        (c₁.trees_subset_of_mem hm), hback⟩ (h.rooted.1.of_mem hm))
  · -- A value that cannot be cast was never changed.
    refine h.nears hr hversions hrevisited hm hbrought fun n hn => hsame n ?_
    rwa [hbrought.trees fun _ _ => rfl]

/-! ### Arguments of a call that was widened -/

section Widened

variable (hkind : (c.arena.expr id).kind = .call d args) (henlarged : c.Enlarged c₂ id)

include hkind henlarged

/-- An argument that follows its call was widened with it if it was an integer. -/
theorem Called.enlarged_follower (hm : m ∈ args) (hbrought : c₁.Brought c m .int)
    (hfollows : m ∈ c.followers d args) : c.Enlarged c₂ m := by
  rcases henlarged.argument h.after.toPlot.rooted hkind hm with ⟨-, -, henlarged⟩ | ⟨hfloat, -⟩
  · exact henlarged
  · cases hbrought.ty_int.symm.trans (hfloat hfollows)

/-- An argument that does not follow its call is what it was when the call was typed. -/
theorem Called.same_of_notMem_followers (hm : m ∈ args) (hbrought : c₁.Brought c m t)
    (hfollows : m ∉ c.followers d args) :
    ∀ n ∈ c₁.trees [m], c₂.arena.expr n = c.arena.expr n := by
  intro n hn
  refine ((henlarged.argument h.after.toPlot.rooted hkind hm).resolve_left fun hfollows' =>
    hfollows hfollows'.1).2 n ?_
  rwa [hbrought.trees fun _ _ => rfl]

variable (hparams : (c.arena.definitionType d).params = params)

include hparams

/-- An argument that no parameter is left for was never changed. -/
theorem Called.kept_rest (hargs : c₁.BroughtAll c u true args params)
    (hrevisited : c₁.Revisited c₂ c₃ args) (hm : m ∈ args.drop params.length) :
    ∀ n ∈ c₃.trees [m],
      c₃.arena.expr n = c₂.arena.expr n ∧ c₂.arena.expr n = c.arena.expr n := by
  have hmem := List.mem_of_mem_drop hm
  have hsame := h.same_of_notMem_followers hkind henlarged hmem (.same rfl (hargs.rest hm))
    (not_mem_followers h.rooted.1.nodup (by rwa [hparams]))
  obtain ⟨htrees, hkept⟩ := hrevisited.kept hmem fun n hn => by
    rw [hsame n hn, hargs.rest hm n hn]
  intro n hn
  rw [htrees] at hn
  exact ⟨hkept n hn, hsame n hn⟩

section Generic

variable (hargs : c₁.BroughtAll c .int true args params)

include hargs

/-- A generic argument was an integer, and was widened with the call. -/
theorem Called.enlarged_generic (hm : (m, .number) ∈ args.zip params) :
    c₁.Brought c m .int ∧ c.Enlarged c₂ m := by
  have hbrought := (hargs.argument hm).resolve_right (by simp)
  rw [if_pos rfl] at hbrought
  exact ⟨hbrought, h.enlarged_follower hkind henlarged (List.of_mem_zip hm).1 hbrought
    (mem_followers (hparams ▸ hm) (by simp [followsCall]))⟩

variable (hd : d ≠ c.builtins.unaryMinus)

include hd

/-- Any other argument is what it was when the call was typed. -/
theorem Called.same_special (hm : (m, param) ∈ args.zip params) (hparam : param ≠ .number) :
    c₁.Brought c m param ∧ ∀ n ∈ c₁.trees [m], c₂.arena.expr n = c.arena.expr n := by
  have hbrought := (hargs.argument hm).resolve_right (by simp)
  rw [if_neg hparam] at hbrought
  exact ⟨hbrought, h.same_of_notMem_followers hkind henlarged (List.of_mem_zip hm).1 hbrought
    fun hfollows => hparam (eq_number_of_mem_followers h.rooted.1.nodup hd (hparams ▸ hm) hfollows)⟩

variable (hr : P.Recalls k F₀ F' c₁ c₂) (hversions : ∀ m ∈ args, c₁.Version c₂ m)
  (hrevisited : c₁.Revisited c₂ c₃ args)

include hr hversions hrevisited

/-- If no generic argument is a float, they all come to the integers that they were. -/
theorem Called.meets_ints (hint : unifiedNumber c₃.arena args params = .int) :
    c₃.Meets c .int true args params := by
  refine meets_of_nears (fun m param hm => ?_) fun m hm n hn => ?_
  · split_ifs with hparam
    · subst hparam
      obtain ⟨hbrought, hwidened⟩ := h.enlarged_generic hkind henlarged hparams hargs hm
      refine h.nears_int hr hversions hrevisited (List.of_mem_zip hm).1 hbrought hwidened
        fun hfloat => ?_
      cases hint.symm.trans (unifiedNumber_eq_float.2 ⟨m, hm, hfloat⟩)
    · obtain ⟨hbrought, hsame⟩ := h.same_special hkind henlarged hparams hargs hd hm hparam
      exact h.nears hr hversions hrevisited (List.of_mem_zip hm).1 hbrought hsame
  · obtain ⟨hkept, hsame⟩ := h.kept_rest hkind henlarged hparams hargs hrevisited hm n hn
    rw [hkept, hsame]

/-- If one of the generic arguments is a float, they all become floats again. -/
theorem Called.meets_floats : c₃.Meets c₂ .float true args params := by
  refine meets_of_nears (fun m param hm => ?_) fun m hm n hn =>
    (h.kept_rest hkind henlarged hparams hargs hrevisited hm n hn).1
  split_ifs with hparam
  · subst hparam
    obtain ⟨hbrought, hwidened⟩ := h.enlarged_generic hkind henlarged hparams hargs hm
    exact h.nears_float hr hversions hrevisited (List.of_mem_zip hm).1 hbrought hwidened
  · obtain ⟨hbrought, hsame⟩ := h.same_special hkind henlarged hparams hargs hd hm hparam
    exact h.nears hr hversions hrevisited (List.of_mem_zip hm).1 (hbrought.congr hsame)
      fun _ _ => rfl

end Generic

end Widened

/-- **A negation that was widened** is one of floats, and is typed as one. -/
theorem Called.retyped_negation (hd : d = c.builtins.unaryMinus)
    (ht : c₁.TypedOver c id args Builtins.unaryMinusType) (hr : P.Recalls k F₀ F' c₁ c₂)
    (henlarged : c.Enlarged c₂ id) (hrevisited : c₁.Revisited c₂ c₃ args) :
    Outcome (typeCall id Builtins.unaryMinusFloatType args) c₃ (fun _ c₄ => c₂.Alters ∅ c₄)
      fun _ _ => False := by
  have hkind := ht.kind.trans h.kind
  have hversions := h.versions (fun _ => ht.each) (.enlarged (by rw [hkind]; rfl) henlarged) hkind
  have hparams : (c.arena.definitionType d).params = [.int] := by
    rw [hd, Arena.definitionType_of_declared h.registered.unaryMinus]
    rfl
  obtain ⟨_, hargs, -⟩ : ∃ u, c₁.BroughtAll c u true args [.int] ∧ True := by
    cases ht with
    | function _ hargs => exact ⟨_, hargs, trivial⟩
    | value ht => cases ht
  have hmeets : c₃.Meets c₂ (unifiedNumber c₃.arena args [.float]) true args [.float] := by
    refine meets_of_nears (fun m param hm => ?_) fun m hm n hn =>
      (h.kept_rest hkind henlarged hparams hargs hrevisited hm n hn).1
    obtain ⟨args', rfl⟩ : ∃ args', args = m :: args' := by
      cases args <;> simp_all
    obtain rfl : param = .float := by simpa using hm
    have hbrought := (hargs.argument (show (m, Ty.int) ∈ _ by simp)).resolve_right (by simp)
    exact h.nears_float hr hversions hrevisited List.mem_cons_self hbrought
      (h.enlarged_follower hkind henlarged List.mem_cons_self hbrought
        (mem_followers (t := .int) (by simp [hparams]) (by simp [followsCall, hd])))
  exact (h.typed_as .float hr hversions hrevisited hmeets (by simp)).mono
    (fun _ _ h => h.2.1.of_kept h.2.2) fun _ _ h => by cases h.1

/-- **A generic call that was widened** becomes a float again if one of its arguments is one, and
otherwise takes back its integers. -/
theorem Called.retyped_number (hd : d ≠ c.builtins.unaryMinus)
    (hT : c.arena.definitionType d = .function params .number isPure)
    (ht : c₁.TypedOver c id args (.function params .number isPure)) (hr : P.Recalls k F₀ F' c₁ c₂)
    (henlarged : c.Enlarged c₂ id) (hrevisited : c₁.Revisited c₂ c₃ args) :
    Outcome (typeCall id (.function params .number isPure) args) c₃
      (fun _ c₄ => c₂.Alters (c.trees [id]) c₄ ∧
        ((∀ n ∈ c.trees [id], c₄.arena.expr n = c₂.arena.expr n) ∨
          ∀ n ∈ c.trees [id], c₄.arena.expr n = c.arena.expr n))
      fun _ _ => False := by
  have hkind := ht.kind.trans h.kind
  have hversions := h.versions (fun _ => ht.each) (.enlarged (by rw [hkind]; rfl) henlarged) hkind
  have hparams : (c.arena.definitionType d).params = params := by rw [hT]; rfl
  rw [h.trees_eq (fun _ => ht.each) hkind]
  -- A call is widened only if it was an integer, so its generic arguments were integers, too.
  obtain ⟨hargs, hroot⟩ : c₁.BroughtAll c .int true args params ∧
      c.arena.expr id = { c₁.arena.expr id with ty := .int } := by
    cases ht with
    | function _ hargs hroot =>
      rw [if_pos rfl] at hroot
      have hint : unifiedNumber c₁.arena args params = .int := by
        have hty := henlarged.ty
        rwa [hroot] at hty
      rw [hint] at hargs hroot
      exact ⟨hargs, hroot⟩
    | value ht => cases ht
  have hcallee : c₂.arena.expr id = { c.arena.expr id with kind := .call d args, ty := .float } := by
    rw [henlarged.root]
    simp [Compilation.widened, hkind, floatCallee?, hd, hT]
  rcases unifiedNumber_or c₃.arena args params with hint | hfloat
  · have hmeets := h.meets_ints hkind henlarged hparams hargs hd hr hversions hrevisited hint
    rw [← hint] at hmeets
    refine (h.typed_as .number hr hversions hrevisited hmeets ?_).mono
      (fun _ _ h => ⟨h.2.1, .inr h.2.2⟩) fun _ _ h => by cases h.1
    rw [hint, hcallee, hroot]
    simp [← hkind, hroot]
  · have hmeets := h.meets_floats hkind henlarged hparams hargs hd hr hversions hrevisited
    rw [← hfloat] at hmeets
    refine (h.typed_as .number hr hversions hrevisited hmeets ?_).mono
      (fun _ _ h => ⟨h.2.1, .inl h.2.2⟩) fun _ _ h => by cases h.1
    rw [hfloat, hcallee]
    simp

theorem Called.free (hr : P.Recalls k F F' c c₂) :
    ∀ b, (c₂.arena.definition d).body = .expression b → b ≠ id := by
  rintro b hb rfl
  rw [hr.definition] at hb
  exact h.after.free d h.rank b hb (c.mem_trees_self (List.mem_singleton_self b))

theorem Called.withheld_again (hr : P.Recalls k F F' c c₂) (hempty : args = []) :
    c₂.Withheld settings (.call d []) :=
  hr.withheld (h.withheld hempty) rfl h.rank fun b hb => h.later (h.finished b hb)

theorem Called.undeclared : (c.arena.expr id).declared = none :=
  (h.after.fits id (c.mem_trees_self (List.mem_singleton_self id))).declared

/-- A negation is dealt with at once, whatever it negates. -/
theorem Called.negations {d₂ : DefId} (hd : c.IsNegation d) (hd₂ : c.IsNegation d₂) :
    P.DefRecurs settings k F F₀ c d₂ := by
  intro next active henters c₂ hr hversions G hG
  have hagain := h.definition next active henters c₂ hr hversions G hG
  rw [outcome_visitDefinition_builtin (by rw [hr.definition]; exact h.negation d hd)] at hagain
  rwa [outcome_visitDefinition_builtin (by rw [hr.definition]; exact h.negation d₂ hd₂)]

/-- A call that was typed and not changed since is walked again. -/
theorem Called.recurs_same (ht : c₁.TypedOver c id args (c₁.arena.definitionType d))
    (honwards : P.Onwards settings k next child active) (hr : P.Recalls k F F' c c₂)
    (hsame : ∀ n ∈ c.trees [id], c₂.arena.expr n = c.arena.expr n) (hG : Resumes F F' G) :
    Outcome (visitKind settings next child active id (c₂.arena.expr id)) ⟨c₂, G⟩
      (fun _ w => c.Revisited c₂ w.unit [id] ∧ Resumed F F' G w.finished)
      fun stop _ => stop = .cyclic := by
  have hkind := ht.kind.trans h.kind
  have hid := hsame id (c.mem_trees_self (List.mem_singleton_self id))
  have hT := h.definitionType hr.steadfast
  refine h.outcome honwards hr hG (hid ▸ hkind) (hid ▸ h.undeclared) (hT ▸ h.full)
    (h.withheld_again hr) (h.free hr) h.definition
    (h.versions (fun _ => ht.each) (.same hsame) hkind) (fun c₃ G' hrevisited hresumed => ?_)
    fun _ => rfl
  rw [hT]
  exact (h.retyped ht (h.recalled hr) hsame hrevisited).mono
    (fun _ _ halters => ⟨halters.revisited c [id], hresumed⟩) fun _ _ => False.elim

/-- A call that was typed and widened since is walked again. -/
theorem Called.recurs_enlarged (ht : c₁.TypedOver c id args (c₁.arena.definitionType d))
    (honwards : P.Onwards settings k next child active) (hr : P.Recalls k F F' c c₂)
    (henlarged : c.Enlarged c₂ id) (hG : Resumes F F' G) :
    Outcome (visitKind settings next child active id (c₂.arena.expr id)) ⟨c₂, G⟩
      (fun _ w => c.Revisited c₂ w.unit [id] ∧ Resumed F F' G w.finished)
      fun stop _ => stop = .cyclic := by
  have hkind := ht.kind.trans h.kind
  have hvalue : (c.arena.expr id).kind.isValue = false := by rw [hkind]; rfl
  have hversions := h.versions (fun _ => ht.each) (.enlarged hvalue henlarged) hkind
  have hdeclared : (c₂.arena.expr id).declared = none := by
    rw [henlarged.root, declared_widened, h.undeclared]
  have hroot := henlarged.root
  have hwidens := henlarged.widens
  rw [Compilation.widens] at hwidens
  obtain ⟨d', _, hd', -⟩ := widensWithin_call hwidens henlarged.ty hkind
  simp only [Compilation.widened, hkind, hd', Option.getD_some] at hroot
  have hkind₂ : (c₂.arena.expr id).kind = .call d' args := by rw [hroot]
  simp only [floatCallee?] at hd'
  -- The callee was the negation of integers and is that of floats, or it is one over numbers.
  split_ifs at hd' with hd
  · obtain rfl := Option.some.inj hd'
    have hT : c₁.arena.definitionType d = Builtins.unaryMinusType :=
      Arena.definitionType_of_declared (by
        rw [← h.recalls.definition, hd]
        exact h.registered.unaryMinus)
    have hT₂ : c₂.arena.definitionType c.builtins.unaryMinusFloat = Builtins.unaryMinusFloatType :=
      Arena.definitionType_of_declared (by
        rw [hr.definition]
        exact h.registered.unaryMinusFloat)
    have hfull : 1 ≤ args.length := by
      have hfull := h.full
      rwa [hT] at hfull
    refine h.outcome honwards hr hG hkind₂ hdeclared (hT₂ ▸ hfull) ?_ ?_
      (h.negations (.inl hd) (.inr rfl)) hversions (fun c₃ G' hrevisited hresumed => ?_) fun _ => rfl
    · rintro rfl
      cases hfull
    · intro b hb
      rw [hr.definition, h.negation _ (.inr rfl)] at hb
      cases hb
    · rw [hT] at ht
      rw [hT₂]
      exact (h.retyped_negation hd ht (h.recalled hr) henlarged hrevisited).mono
        (fun _ _ halters => ⟨halters.revisited c [id], hresumed⟩) fun _ _ => False.elim
  · split at hd'
    · rename_i params isPure hT
      obtain rfl := Option.some.inj hd'
      have hT₁ := h.definitionType h.recalls.steadfast
      have hT₂ := h.definitionType hr.steadfast
      refine h.outcome honwards hr hG hkind₂ hdeclared (hT₂ ▸ h.full) (h.withheld_again hr)
        (h.free hr) h.definition hversions (fun c₃ G' hrevisited hresumed => ?_) fun _ => rfl
      rw [← hT₁, hT] at ht
      rw [hT₂, ← hT₁, hT]
      refine (h.retyped_number hd hT ht (h.recalled hr) henlarged hrevisited).mono
        (fun _ c₄ h => ⟨⟨h.1, ?_⟩, hresumed⟩) fun _ _ => False.elim
      rintro _ hid
      obtain rfl := List.mem_singleton.1 hid
      exact h.2.imp_right fun hback => ⟨hvalue, henlarged, hback⟩
    · cases hd'

/-- **A call that was typed** can be walked again. -/
theorem Called.recurs (ht : c₁.TypedOver c id args (c₁.arena.definitionType d)) :
    P.KindRecurs settings k F F' c id := by
  intro next child active honwards c₂ hr hversion G hG
  cases hversion with
  | same hsame => exact h.recurs_same ht honwards hr hsame hG
  | value hvalue =>
    rw [ht.kind, h.kind] at hvalue
    cases hvalue
  | enlarged _ henlarged => exact h.recurs_enlarged ht honwards hr henlarged hG

/-- **A call that could not be typed** cannot be typed now. -/
theorem Called.refails (hT : c₁.arena.definitionType d = .function params result isPure)
    (hm : c₁.Mistyped c id args params) : P.KindRefails settings k F F' c id := by
  intro next child active honwards c₂ hr hsame G hG
  have hkind : (c.arena.expr id).kind = .call d args := by rw [hm.root, h.kind]
  have hid := hsame id (c.mem_trees_self (List.mem_singleton_self id))
  have hT₂ := h.definitionType hr.steadfast
  have hversions := h.versions (fun _ => hm.args.each) (.same hsame) hkind
  refine h.outcome honwards hr (.inl hG) (hid ▸ hkind) (hid ▸ h.undeclared) (hT₂ ▸ h.full)
    (h.withheld_again hr) (h.free hr) h.definition hversions
    (fun c₃ G' hrevisited hresumed => ?_) fun _ => .inl rfl
  rw [h.trees_eq (fun _ => hm.args.each) hkind] at hsame
  have hbrought := hm.args.congr fun n hn => hsame n (Set.mem_insert_of_mem id hn)
  have hr₁ := h.recalled hr
  have hbetween : c₁.Between c₂ args c₃ := ⟨(h.again hr₁ hversions hrevisited).2, fun m hm => by
    rcases hrevisited.each m hm with hkept | ⟨-, -, hback⟩
    · exact .inr hkept
    · exact .inl hback⟩
  have hmeets := hbrought.meets hbetween h.rooted.1
  rw [← hbrought.unifiedNumber_again (a := c₃.arena)
    fun m hm => hrevisited.node (c₁.mem_trees_self hm)] at hmeets
  rw [hT₂, hT]
  refine (h.typed_as result hr₁ hversions hrevisited hmeets (by simp)).mono ?_ ?_
  · exact fun _ _ h => by cases h.1
  · exact fun _ _ h => .inr ⟨h.2.2.1.of_kept h.2.2.2, hresumed.start hG⟩

end

end Prospect

end Termwise
