import Termwise.Proofs.Concretization.Repetition

/-!
# Values and uses that are walked again

A value that has a native type is left alone. A use that was kept is kept again, since what kept it
is still there, and it has the type of its definition already. A use whose definition fails, or
which cannot be typed, fails again.

## Main definitions

* `Compilation.Keeps`, `Compilation.Withheld`: uses that are not replaced
* `Prospect.DefRecurs`, `Prospect.DefRefails`: definitions that are dealt with again
* `Prospect.Used`: a reference that was kept

## Main results

* `substitute_withheld`: a use is replaced unless it is withheld
* `KindRecurs.value`, `KindRecurs.use`: values and uses that are walked again
* `KindRefails.use`, `KindRefails.untypable`: uses that fail again
-/

namespace Termwise

open Compilation

variable {P : Prospect} {settings : Settings} {k k' : Nat} {c c' c'' c₁ c₂ c₃ g : Compilation}
  {F F' F₀ F₁ G G' G₁ : List DefId} {id n m : ExprId} {d : DefId} {ids args : List ExprId}
  {params : List Ty} {param result t u : Ty} {next : Visitor} {child : ExprId → WalkM Unit}
  {active : List DefId} {w : Walk} {S : Set ExprId} {ok : Bool} {kind : ExprKind}

/-! ## Values -/

/-- **A value that has a native type** is left alone. -/
theorem Prospect.KindRecurs.value (hvalue : (c.arena.expr id).kind.isValue = true)
    (hnative : (c.arena.expr id).ty.native = .yes) : P.KindRecurs settings k F F c id := by
  intro next child active _ c₂ _ hversion G _
  have hid := c.mem_trees_self (List.mem_singleton_self id)
  have hvalue₂ : (c₂.arena.expr id).kind.isValue = true ∧
      (c₂.arena.expr id).ty.native = .yes := by
    cases hversion with
    | same h =>
      rw [h id hid]
      exact ⟨hvalue, hnative⟩
    | value _ hvalue hnative => exact ⟨hvalue, hnative⟩
    | enlarged hnot => cases hvalue.symm.trans hnot
  obtain ⟨v, hk⟩ : ∃ v, (c₂.arena.expr id).kind = .value v := by
    cases hk : (c₂.arena.expr id).kind <;> simp_all [ExprKind.isValue]
  simp only [visitKind, hk, outcome_lift, concretizeValue_eq, outcome_bind, outcome_expr,
    if_pos hvalue₂.2]
  exact ⟨(Alters.refl ∅ c₂).revisited c [id], .refl F G⟩

/-- A value that cannot be settled. -/
theorem Prospect.KindRefails.value (hvalue : (c.arena.expr id).kind.isValue = true)
    (hnative : (c.arena.expr id).ty.native ≠ .yes)
    (hsettle : (c.arena.expr id).settle? (c.arena.expr id).ty = none) :
    P.KindRefails settings k F F c id := by
  intro next child active _ c₂ _ hsame G hG
  have hid := hsame id (c.mem_trees_self (List.mem_singleton_self id))
  obtain ⟨v, hk⟩ : ∃ v, (c.arena.expr id).kind = .value v := by
    cases hk : (c.arena.expr id).kind <;> simp_all [ExprKind.isValue]
  simp only [visitKind, hid, hk, outcome_lift, concretizeValue_eq, outcome_bind, outcome_expr,
    if_neg hnative, hsettle]
  split <;> exact .inr ⟨.refl ∅ c₂, hG⟩

/-! ## Uses that are kept -/

namespace Compilation

/-- **A definition whose references are kept**: it has no expression for a body, or it stands for a
function and is not used at its own type, or nothing can stand in for its body yet. -/
inductive Keeps (c : Compilation) (d : DefId) : Prop where
  | body (h : ∀ b, (c.arena.definition d).body ≠ .expression b)
  | function (h : (c.arena.definitionType d).isFunction = true)
    (hty : (c.arena.definitionType d).isPure = false ∨ (c.arena.definitionType d).arity ≠ 0)
  | unfit {b : ExprId} (h : (c.arena.definition d).body = .expression b)
    (hb : (c.arena.expr b).kind.isSubstitutable = false)

/-- **A use that is not replaced.** -/
inductive Withheld (settings : Settings) (c : Compilation) : ExprKind → Prop where
  | setting (h : settings.debugNoInline = true) (kind : ExprKind) : Withheld settings c kind
  | operator (d : DefId) : Withheld settings c (.operator d)
  | reference {d : DefId} (h : c.Keeps d) : Withheld settings c (.reference d)
  | call {d : DefId} (h : (c.arena.definitionType d).isPure = false ∨ c.Keeps d) :
    Withheld settings c (.call d [])

/-- What keeps the references of a definition is still there. -/
theorem Keeps.of_same (h : c.Keeps d) (hsame : c.SameProgram c')
    (hty : (c.arena.definitionType d).isFunction = true →
      c'.arena.definitionType d = c.arena.definitionType d)
    (hbody : ∀ b, (c.arena.definition d).body = .expression b →
      (c.arena.expr b).kind.isSubstitutable = false →
      (c'.arena.expr b).kind.isSubstitutable = false) : c'.Keeps d := by
  cases h with
  | body h => exact .body (by rwa [hsame.definition])
  | function h h' =>
    refine .function ?_ ?_ <;> rw [hty h]
    · exact h
    · exact h'
  | unfit h hb => exact .unfit (by rwa [hsame.definition]) (hbody _ h hb)

theorem Withheld.of_same (h : c.Withheld settings kind) (hd : kind.definition? = some d)
    (hsame : c.SameProgram c')
    (hty : (c.arena.definitionType d).isFunction = true →
      c'.arena.definitionType d = c.arena.definitionType d)
    (hbody : ∀ b, (c.arena.definition d).body = .expression b →
      (c.arena.expr b).kind.isSubstitutable = false →
      (c'.arena.expr b).kind.isSubstitutable = false) : c'.Withheld settings kind := by
  cases h with
  | setting h => exact .setting h kind
  | operator => exact .operator _
  | reference h =>
    cases hd
    exact .reference (h.of_same hsame hty hbody)
  | call h =>
    cases hd
    refine .call (h.imp (fun himpure => ?_) fun h => h.of_same hsame hty hbody)
    -- Nothing but a function is impure.
    rwa [hty]
    cases hT : c.arena.definitionType _ <;> rw [hT] at himpure <;> first | rfl | cases himpure

end Compilation

/-- **A reference** that declares no type is replaced unless its definition keeps it. -/
theorem substituteReference_keeps (hdeclared : (c.arena.expr id).declared = none) :
    Outcome (substituteReference id d) c (fun replaced _ => replaced = false ↔ c.Keeps d)
      fun _ _ => ¬ c.Keeps d := by
  simp only [substituteReference, outcome_bind, outcome_arena, hdeclared, declarationsDiffer]
  split
  · rename_i hb
    exact ⟨fun _ => .body (by simp [hb]), fun _ => rfl⟩
  · rename_i s hb
    exact ⟨fun _ => .body (by simp [hb]), fun _ => rfl⟩
  · rename_i hb
    exact ⟨fun _ => .body (by simp [hb]), fun _ => rfl⟩
  · rename_i b hb
    -- A body that can stand in for the reference does so.
    have hplace (hty : ¬ ((c.arena.definitionType d).isFunction = true ∧
        ((c.arena.definitionType d).isPure = false ∨ (c.arena.definitionType d).arity ≠ 0)))
        {replaced : Bool} (hreplaced : replaced = (c.arena.expr b).kind.isSubstitutable) :
        replaced = false ↔ c.Keeps d := by
      rw [hreplaced]
      refine ⟨.unfit hb, fun h => ?_⟩
      cases h with
      | body h => exact absurd hb (h b)
      | function h h' => exact absurd ⟨h, h'⟩ hty
      | unfit h h' =>
        cases hb.symm.trans h
        exact h'
    have hput (h : true = false ↔ c.Keeps d) : Outcome (do
        putCopy id b
        CheckM.emit (.substituted (c.arena.definition d).name)
        return true) c (fun replaced _ => replaced = false ↔ c.Keeps d) fun _ _ => ¬ c.Keeps d := by
      simp only [outcome_bind, outcome_putCopy]
      exact ⟨fun _ hkept => Bool.false_ne_true (h.2 hkept).symm, fun _ => h⟩
    split_ifs with hfunction hpure harity hunfit hunfit
    · exact ⟨fun _ => .function hfunction (.inl (by simpa using hpure)), fun _ => rfl⟩
    · exact ⟨fun _ => .function hfunction (.inr harity.2), fun _ => rfl⟩
    · exact hplace (by simp_all) (by simp_all)
    · exact hput (hplace (by simp_all) (by simp_all))
    · exact hplace (by simp_all) (by simp_all)
    · exact hput (hplace (by simp_all) (by simp_all))

/-- To read a call as a reference changes nothing about the definition. -/
theorem keeps_readAs (hfree : ∀ b, (c.arena.definition d).body = .expression b → b ≠ id) :
    (c.readAs id d).Keeps d ↔ c.Keeps d := by
  have hsame : c.SameProgram (c.readAs id d) := ⟨rfl, rfl, rfl, rfl⟩
  have hother {b : ExprId} (hb : (c.arena.definition d).body = .expression b) :
      (c.readAs id d).arena.expr b = c.arena.expr b :=
    Arena.expr_modifyExpr_of_ne (hfree b hb) _
  have hty : (c.readAs id d).arena.definitionType d = c.arena.definitionType d :=
    hsame.definitionType fun _ b hb => hother hb
  constructor
  · refine fun h => h.of_same hsame.symm (fun _ => hty.symm) fun b hb h => ?_
    rwa [← hother (by rwa [hsame.definition] at hb)]
  · refine fun h => h.of_same hsame (fun _ => hty) fun b hb h => ?_
    rwa [hother hb]

/-- **A call without arguments** that declares no type is replaced unless its definition is impure
or keeps its references. -/
theorem substituteCall_withheld (hdeclared : (c.arena.expr id).declared = none)
    (hfree : ∀ b, (c.arena.definition d).body = .expression b → b ≠ id) :
    Outcome (substituteCall id d []) c
      (fun replaced _ => replaced = false ↔ (c.arena.definitionType d).isPure = false ∨ c.Keeps d)
      fun _ _ => ¬ ((c.arena.definitionType d).isPure = false ∨ c.Keeps d) := by
  simp only [substituteCall, outcome_bind, outcome_definitionType]
  split
  · rename_i hpure
    exact ⟨fun _ => .inl (by simpa using hpure), fun _ => rfl⟩
  · rename_i hpure
    simp only [outcome_bind, outcome_expr, outcome_modifyExpr]
    have hdeclared' : ((c.readAs id d).arena.expr id).declared = none := by
      simp only [readAs, modifyArena, Arena.expr_modifyExpr]
      split <;> exact hdeclared
    refine (substituteReference_keeps hdeclared').mono (fun replaced c₂ h => ?_) fun _ _ h => ?_
    swap
    · rw [keeps_readAs hfree] at h
      simpa [h] using hpure
    rw [keeps_readAs hfree] at h
    cases replaced with
    | true =>
      have hnot : ¬ c.Keeps d := fun hkept => by cases h.2 hkept
      simp only [if_true, outcome_bind, outcome_definition, outcome_emit, outcome_pure]
      simpa [hnot] using hpure
    | false => exact ⟨fun _ => .inr (h.1 rfl), fun _ => rfl⟩

/-- **A use** that declares no type is replaced unless it is withheld. -/
theorem substitute_withheld (settings : Settings)
    (hdeclared : (c.arena.expr id).declared = none)
    (hd : (c.arena.expr id).kind.definition? = some d)
    (hleaf : (c.arena.expr id).kind.children = [])
    (hfree : ∀ b, (c.arena.definition d).body = .expression b → b ≠ id) :
    Outcome (substitute settings id) c
      (fun replaced _ => replaced = false ↔ c.Withheld settings (c.arena.expr id).kind)
      fun _ _ => ¬ c.Withheld settings (c.arena.expr id).kind := by
  simp only [substitute]
  split
  · rename_i h
    exact ⟨fun _ => .setting h _, fun _ => rfl⟩
  · rename_i hinline
    simp only [outcome_bind, outcome_expr]
    -- Only references and calls without arguments can be replaced.
    split <;> rename_i hk <;> try rw [hk] at hd hleaf; cases hd
    · have hiff : c.Keeps d ↔ c.Withheld settings (c.arena.expr id).kind := by
        rw [hk]
        refine ⟨.reference, fun h => ?_⟩
        cases h with
        | setting h => exact absurd h hinline
        | reference h => exact h
      exact (substituteReference_keeps hdeclared).mono (fun _ _ h => h.trans hiff)
        fun _ _ h => mt hiff.2 h
    · rename_i args
      obtain rfl : args = [] := hleaf
      have hiff : (c.arena.definitionType d).isPure = false ∨ c.Keeps d ↔
          c.Withheld settings (c.arena.expr id).kind := by
        rw [hk]
        refine ⟨.call, fun h => ?_⟩
        cases h with
        | setting h => exact absurd h hinline
        | call h => exact h
      exact (substituteCall_withheld hdeclared hfree).mono (fun _ _ h => h.trans hiff)
        fun _ _ h => mt hiff.2 h
    · rename_i href
      refine ⟨fun _ => ?_, fun _ => rfl⟩
      cases hkind : (c.arena.expr id).kind <;> rw [hkind] at hd <;> cases hd
      · exact (href d hkind).elim
      · exact .operator d
      · exact (hk d _ hkind).elim

theorem Compilation.Unchanged.alters (h : c.Unchanged c') : c.Alters ∅ c' :=
  ⟨h.toSameProgram, h.size, fun n _ => h.expr n⟩

/-- **A use that is withheld** is left alone. -/
theorem trySubstitute_withheld (h : c.Withheld settings (c.arena.expr id).kind)
    (hdeclared : (c.arena.expr id).declared = none)
    (hd : (c.arena.expr id).kind.definition? = some d)
    (hleaf : (c.arena.expr id).kind.children = [])
    (hfree : ∀ b, (c.arena.definition d).body = .expression b → b ≠ id) :
    Outcome (trySubstitute settings next active id d) ⟨c, G⟩
      (fun replaced w => replaced = false ∧ c.Alters ∅ w.unit ∧ w.finished = G)
      fun _ _ => False := by
  rw [trySubstitute]
  split
  · exact ⟨rfl, .refl ∅ c, rfl⟩
  · rw [outcome_bind, outcome_lift]
    refine ((substitute_withheld settings hdeclared hd hleaf hfree).and
      (substitute_outcome settings hd)).mono ?_ fun _ _ hstop => hstop.1 h
    rintro replaced c₂ ⟨hiff, hkept⟩
    obtain rfl := hiff.2 h
    exact ⟨rfl, (hkept.kept rfl).alters, rfl⟩

/-! ## References -/

namespace Prospect

/-- **A definition is dealt with again**, unless it is finished. -/
def DefRecurs (P : Prospect) (settings : Settings) (k : Nat) (F F' : List DefId) (c : Compilation)
    (d : DefId) : Prop :=
  ∀ next active, P.Enters settings k next active →
    P.Recurs k F F' c [] (visitDefinition next active d)

/-- A definition fails again. -/
def DefRefails (P : Prospect) (settings : Settings) (k : Nat) (F F' : List DefId) (c : Compilation)
    (d : DefId) : Prop :=
  ∀ next active, P.Enters settings k next active →
    P.Refails k F F' c [] (visitDefinition next active d)

theorem DefRecurs.outcome (h : P.DefRecurs settings k F F' c d)
    (henters : P.Enters settings k next active) (hr : P.Recalls k F F' c c₂)
    (hG : Resumes F F' G) :
    Outcome (visitDefinition next active d) ⟨c₂, G⟩
      (fun _ w => c₂.Alters ∅ w.unit ∧ Resumed F F' G w.finished) fun stop _ => stop = .cyclic :=
  (h next active henters c₂ hr nofun G hG).imp fun _ _ h =>
    ⟨h.1.still fun n hn => by simp [trees_nil] at hn, h.2⟩

/-- **A reference that was kept.** -/
structure Used (P : Prospect) (settings : Settings) (k : Nat) (F' : List DefId) (c : Compilation)
    (id : ExprId) (d : DefId) : Prop where
  kind : (c.arena.expr id).kind = .reference d ∨ (c.arena.expr id).kind = .operator d
  declared : (c.arena.expr id).declared = none
  rank : P.rank d < k
  finished : ∀ b, (c.arena.definition d).body = .expression b → d ∈ F'
  withheld : c.Withheld settings (c.arena.expr id).kind
  free : ∀ b, (c.arena.definition d).body = .expression b → b ≠ id

theorem Used.definition? (h : P.Used settings k F' c id d) :
    (c.arena.expr id).kind.definition? = some d := by
  rcases h.kind with hk | hk <;> rw [hk] <;> rfl

theorem Used.leaf (h : P.Used settings k F' c id d) : (c.arena.expr id).kind.children = [] := by
  rcases h.kind with hk | hk <;> rw [hk] <;> rfl

/-- A reference is no value and no call, so it was not changed. -/
theorem Used.same (h : P.Used settings k F' c id d) (hversion : c.Version c₂ id) :
    ∀ n ∈ c.trees [id], c₂.arena.expr n = c.arena.expr n := by
  cases hversion with
  | same h => exact h
  | value hvalue => rcases h.kind with hk | hk <;> rw [hk] at hvalue <;> cases hvalue
  | enlarged _ henlarged =>
    rcases henlarged.isValue_or_call with hvalue | ⟨_, _, hcall, -⟩
    · rcases h.kind with hk | hk <;> rw [hk] at hvalue <;> cases hvalue
    · rcases h.kind with hk | hk <;> cases hk.symm.trans hcall

/-- What keeps the uses of a definition that was finished is still there. -/
theorem Recalls.withheld (hr : P.Recalls k F F' c c₂) (h : c.Withheld settings kind)
    (hkind : kind.definition? = some d) (hd : P.rank d < k)
    (hfinished : ∀ b, (c.arena.definition d).body = .expression b → d ∈ F') :
    c₂.Withheld settings kind :=
  h.of_same hkind hr.toSameProgram (fun _ => hr.definitionType hd hfinished)
    fun b hb hunfit => by rwa [hr.heads d (hfinished b hb) hd b hb]

theorem Used.withheld_again (h : P.Used settings k F' c id d) (hr : P.Recalls k F F' c c₂) :
    c₂.Withheld settings (c.arena.expr id).kind :=
  hr.withheld h.withheld h.definition? h.rank h.finished

/-- What is done with a reference is to deal with its definition, and to type it. -/
theorem Used.outcome {ended : Unit → Walk → Prop} {stopped : Stop → Walk → Prop}
    (h : P.Used settings k F' c id d) (hr : P.Recalls k F F' c c₂)
    (hsame : c₂.arena.expr id = c.arena.expr id)
    (hrest : ∀ c₃, c₂.Alters ∅ c₃ → Outcome (visitDefinition next active d) ⟨c₃, G⟩
      (fun _ w => Outcome (typeReference id d) w.unit (fun _ c => ended () ⟨c, w.finished⟩)
        fun stop c => stopped stop ⟨c, w.finished⟩) stopped) :
    Outcome (visitKind settings next child active id (c₂.arena.expr id)) ⟨c₂, G⟩ ended stopped := by
  have hkind : visitKind settings next child active id (c₂.arena.expr id) =
      visitReference settings next active id d := by
    rw [hsame, visitKind]
    rcases h.kind with hk | hk <;> rw [hk]
  rw [hkind, visitReference, outcome_bind]
  refine (trySubstitute_withheld (hsame ▸ h.withheld_again hr) (hsame ▸ h.declared)
    (hsame ▸ h.definition?) (hsame ▸ h.leaf) fun b hb => h.free b ?_).mono ?_ fun _ _ => False.elim
  · rwa [hr.definition] at hb
  · rintro _ ⟨c₃, _⟩ ⟨rfl, hstill, rfl⟩
    simp only [Bool.false_eq_true, if_false, outcome_bind, outcome_lift]
    exact hrest c₃ hstill

/-- A reference has the type of its definition, where that can be. -/
def Typable (c : Compilation) (d : DefId) : Prop :=
  c.arena.definitionType d ≠ .absurd ∧
    ¬ ((c.arena.definition d).isUndefined = true ∧ c.arena.definitionType d = .hole)

theorem typeReference_again (hty : Typable c d) :
    Outcome (typeReference id d) c (fun _ c' => c' = c.modifyArena (·.modifyExpr id fun e =>
      { e with ty := c.arena.definitionType d })) fun _ _ => False := by
  simp only [typeReference, outcome_bind, outcome_definitionType, outcome_definition, outcome_expr,
    if_neg hty.1, if_neg hty.2, outcome_setType]

theorem typeReference_untypable (hty : ¬ Typable c d) :
    Outcome (typeReference id d) c (fun _ _ => False) fun stop c' => stop ≠ .cyclic ∧ c' = c := by
  rw [Typable, not_and_or, not_not, not_not] at hty
  simp only [typeReference, outcome_bind, outcome_definitionType, outcome_definition, outcome_expr]
  split
  · exact ⟨by simp, rfl⟩
  · rename_i habsurd
    rw [if_pos (hty.resolve_left habsurd)]
    exact ⟨by simp, rfl⟩

/-- **A reference that was typed** keeps its type. -/
theorem KindRecurs.use (h : P.Used settings k F' c id d) (hdef : P.DefRecurs settings k F F' c d)
    (htypable : Typable c d) (hty : (c.arena.expr id).ty = c.arena.definitionType d) :
    P.KindRecurs settings k F F' c id := by
  intro next child active honwards c₂ hr hversion G hG
  have hid := c.mem_trees_self (List.mem_singleton_self id)
  have hsame := h.same hversion id hid
  refine h.outcome hr hsame fun c₃ hstill => ?_
  have hr₃ := hr.still hstill
  refine (hdef.outcome honwards.toEnters hr₃ hG).imp ?_
  rintro - ⟨c₄, G₁⟩ ⟨hstill', hresumed⟩
  have hr₄ := hr₃.still hstill'
  have hty₄ := hr₄.definitionType h.rank h.finished
  have htypable₄ : Typable c₄ d := by
    rw [Typable, hty₄, hr₄.definition]
    exact htypable
  refine (typeReference_again htypable₄).mono ?_ fun _ _ => False.elim
  rintro _ _ rfl
  refine ⟨((hstill.trans hstill').trans (alters_of_eq ?_)).revisited c [id], hresumed⟩
  rw [hstill'.expr id (Set.notMem_empty id), hstill.expr id (Set.notMem_empty id), hsame, hty₄,
    ← hty]

/-- A reference whose definition fails. -/
theorem KindRefails.use (h : P.Used settings k F' c id d)
    (hdef : P.DefRefails settings k F F' c d) : P.KindRefails settings k F F' c id := by
  intro next child active honwards c₂ hr hsame G hG
  have hid := c.mem_trees_self (List.mem_singleton_self id)
  refine h.outcome hr (hsame id hid) fun c₃ hstill => ?_
  refine (hdef next active honwards.toEnters c₃ (hr.still hstill)
    (fun n hn => by simp [trees_nil] at hn) G hG).mono (fun _ _ => False.elim) fun _ _ => ?_
  exact Or.imp_right fun ⟨hstill', hfinished⟩ => ⟨hstill.trans hstill', hfinished⟩

/-- A reference that cannot be typed. -/
theorem KindRefails.untypable (h : P.Used settings k F' c id d)
    (hdef : P.DefRecurs settings k F F' c d) (htypable : ¬ Typable c d) :
    P.KindRefails settings k F F' c id := by
  intro next child active honwards c₂ hr hsame G hG
  have hid := c.mem_trees_self (List.mem_singleton_self id)
  refine h.outcome hr (hsame id hid) fun c₃ hstill => ?_
  have hr₃ := hr.still hstill
  refine (hdef.outcome honwards.toEnters hr₃ (.inl hG)).mono ?_ fun _ _ => .inl
  rintro - ⟨c₄, G₁⟩ ⟨hstill', hresumed⟩
  have hr₄ := hr₃.still hstill'
  rw [Typable, ← hr₄.definitionType h.rank h.finished, ← hr₄.definition] at htypable
  refine (typeReference_untypable htypable).mono (fun _ _ => False.elim) ?_
  rintro _ _ ⟨-, rfl⟩
  exact .inr ⟨hstill.trans hstill', hresumed.start hG⟩

end Prospect

end Termwise
