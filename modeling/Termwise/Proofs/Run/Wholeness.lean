import Mathlib.Tactic.FinCases
import Termwise.Proofs.Run.Mending
import Termwise.Proofs.Run.Reading

/-!
# No hole is left in a resolved run

A run whose terms have their types, up to those that resolution is there to find, is resolved into
a tree without a hole, a run or a minus sign. Two things could spoil this: a minus sign that is a
term and an argument at once, since it stays where it is an argument, and a definition that takes
its type from a run that is resolved, since that type may change into one with a hole.

## Main definitions

* `mending`: the account of a run whose nodes are mended
* `Compilation.Composed`: a run whose terms have their types
* `Compilation.Apart`, `Compilation.KeepsTypes`: nothing spoils its resolution

## Main results

* `resolveWithin_mends`: resolution keeps a compilation tidy
* `not_hole_of_resolve`: no hole, run or minus sign is left below a resolved run
-/

namespace Termwise

open Compilation Grouping

variable {c c' : Compilation} {nodes : Set ExprId} {named : Set DefId} {terms : List ExprId}
  {n : ExprId}

/-! ## Terms -/

/-- What resolves the runs among the terms mends them. -/
def MendsRuns (nodes : Set ExprId) (named : Set DefId) (resolveRun : ExprId → CheckM Unit) :
    Prop :=
  ∀ {c : Compilation} {t : ExprId} {ts : List ExprId}, c.Tidy nodes named → t ∈ nodes →
    (c.arena.expr t).kind = .run ts →
    Outcome (resolveRun t) c
      (fun _ c' => c.Mends nodes c' ∧ c'.Tidy nodes named ∧ (c'.arena.expr t).Ordinary)
      fun _ _ => True

/-- The terms of a run may be terms, and are looked after. -/
def Compilation.HasTerms (c : Compilation) (nodes : Set ExprId) (terms : List ExprId) : Prop :=
  ∀ t ∈ terms, t ∈ nodes ∧ t.index < c.arena.exprs.size ∧ (c.arena.expr t).MayBeTerm

theorem Compilation.HasTerms.mends (h : c.HasTerms nodes terms) (hm : c.Mends nodes c') :
    c'.HasTerms nodes terms := fun t ht =>
  have ⟨hmem, hlt, hterm⟩ := h t ht
  ⟨hmem, hlt.trans_le hm.size, hm.mayBeTerm hlt hterm⟩

section

variable {resolveRun : ExprId → CheckM Unit}

/-- **A classified term** is a minus sign or no hole. -/
theorem classify_restores (hres : ResolvesRuns resolveRun)
    (hmends : MendsRuns nodes named resolveRun) (hc : c.Tidy nodes named)
    (hterms : c.HasTerms nodes terms) {t : ExprId} (ht : t ∈ terms) :
    Outcome (classify resolveRun t) c
      (fun term c' => c.Restores nodes named terms c' ∧ c'.Settled t ∧ term.Plays c' t ∧
        ((c'.arena.expr t).kind = .minusSign ∨ (c'.arena.expr t).ty ≠ .hole))
      fun _ _ => True := by
  obtain ⟨hmem, hlt, hterm⟩ := hterms t ht
  -- Once the term is no run, only its type may be refreshed.
  have hrest : ∀ {c₁ : Compilation} (span : Span), c₁.Tidy nodes named → c.Mends nodes c₁ →
      (∀ ts, (c₁.arena.expr t).kind ≠ .run ts) →
      Outcome (classifyResolved t span) c₁
        (fun _ c' => c.Mends nodes c' ∧ c'.Tidy nodes named ∧
          ((c'.arena.expr t).kind = .minusSign ∨ (c'.arena.expr t).ty ≠ .hole))
        fun _ _ => True := by
    intro c₁ span hc₁ hmends₁ hrun
    refine (classifyResolved_outcome span hrun).mono ?_ fun _ _ _ => trivial
    rintro term c₂ ⟨rfl, -, -⟩
    obtain ⟨hmends₂, htidy⟩ := hc₁.refreshed hmem
    exact ⟨hmends₁.trans hmends₂, htidy, ty_refreshed_ne_hole hc₁ hmem
      (hlt.trans_le hmends₁.size) hrun (hmends₁.mayBeTerm hlt hterm)⟩
  have hclassify : Outcome (classify resolveRun t) c
      (fun _ c' => c.Mends nodes c' ∧ c'.Tidy nodes named ∧
        ((c'.arena.expr t).kind = .minusSign ∨ (c'.arena.expr t).ty ≠ .hole))
      fun _ _ => True := by
    simp only [classify, outcome_bind, outcome_expr]
    split
    · rename_i ts hk
      simp only [outcome_bind, outcome_attempt]
      refine (hmends hc hmem hk).mono ?_ ?_
      · rintro _ c₁ ⟨hmends₁, htidy, hordinary⟩
        exact hrest _ htidy hmends₁ hordinary.run
      · rintro (e | _) c₁ - <;> trivial
    · rename_i hrun
      exact hrest _ hc (.refl c nodes) hrun
  refine ((classify_unfolds hres c ht).and hclassify).mono ?_ fun _ _ _ => trivial
  rintro term c' ⟨⟨hunfolds, hsettled, hplays⟩, hmends', htidy, hready⟩
  exact ⟨⟨hunfolds, hmends', fun _ => htidy⟩, hsettled, hplays, hready⟩

/-- A classified term that is no minus sign needs no resolution. -/
theorem Compilation.HasTerms.proper (hterms : c.HasTerms nodes terms) {t : ExprId}
    (ht : t ∈ terms) (hsettled : c.Settled t) (hsign : (c.arena.expr t).kind ≠ .minusSign)
    (hready : (c.arena.expr t).kind = .minusSign ∨ (c.arena.expr t).ty ≠ .hole) :
    c.Proper nodes t := by
  obtain ⟨hmem, hlt, -⟩ := hterms t ht
  refine ⟨hmem, hlt, fun ts hk => ?_, hsign, hready.resolve_left hsign⟩
  simp [Settled, hk, ExprKind.isSettled] at hsettled

theorem normalizeOperand_restores (terms : List ExprId) (hc : c.Tidy nodes named) {t : ExprId}
    (ht : c.Proper nodes t) :
    Outcome (Arrangement.normalizeOperand t) c
      (fun n c' => c.Restores nodes named terms c' ∧ c'.Proper nodes n) fun _ _ => True := by
  simp only [Arrangement.normalizeOperand, outcome_bind, outcome_expr]
  split
  -- A minus sign with its operand becomes a call of a negation, which it names.
  · rename_i x hk
    simp only [outcome_bind, outcome_get]
    have hadmits := hc.node t ht.mem
    have hnamed := hadmits.names (c.negationFor x) <| by
      rcases c.isNegation_negationFor x with heq | heq <;> simp [hk, ExprKind.named, heq]
    refine allocCall_restores terms hc _ hnamed fun m hm => ?_
    have hchild : m ∈ (c.arena.expr t).kind.children := by simpa [hk, ExprKind.children] using hm
    exact (hadmits.proper ht.ordinary.run hchild).usable
  · exact ⟨.refl c nodes named terms, ht⟩

theorem mem_of_mem_fillOpen {isMissing : ExprId → Bool} {bound fresh : List ExprId} {m : ExprId}
    (hm : m ∈ Arrangement.fillOpen isMissing bound fresh) : m ∈ bound ∨ m ∈ fresh := by
  induction bound generalizing fresh with
  | nil => exact .inr hm
  | cons arg bound ih =>
    unfold Arrangement.fillOpen at hm
    split at hm
    · rcases List.mem_cons.1 hm with rfl | hm
      · exact .inr List.mem_cons_self
      · exact (ih hm).imp (List.mem_cons_of_mem _) (List.mem_cons_of_mem _)
    · rcases List.mem_cons.1 hm with rfl | hm
      · exact .inl List.mem_cons_self
      · exact (ih hm).imp_left (List.mem_cons_of_mem _)

theorem applyCollected_restores (terms : List ExprId) (hc : c.Tidy nodes named) {n : ExprId}
    {ns : List ExprId} (hn : c.Proper nodes n) (happ : c.Applicable n)
    (hargs : ∀ m ∈ ns, c.Usable nodes m) :
    Outcome (Arrangement.applyCollected n ns) c
      (fun m c' => c.Restores nodes named terms c' ∧ c'.Proper nodes m) fun _ _ => True := by
  have hadmits := hc.node n hn.mem
  unfold Arrangement.applyCollected
  split
  · exact ⟨.refl c nodes named terms, hn⟩
  · simp only [outcome_bind, outcome_arena]
    rcases happ with ⟨d, hk⟩ | ⟨d, bound, hk⟩
    · simp only [hk]
      exact allocCall_restores terms hc _ (hadmits.names d (by simp [hk, ExprKind.named])) hargs
    -- The arguments that a partial call has already are among its children.
    · simp only [hk]
      have hnamed : d ∈ named := hadmits.names d (by simp [hk, ExprKind.named])
      refine allocCall_restores terms hc _ hnamed fun m hm => ?_
      rcases mem_of_mem_fillOpen hm with hm | hm
      · have hchild : m ∈ (c.arena.expr n).kind.children := by
          simpa [hk, ExprKind.children] using hm
        exact (hadmits.proper hn.ordinary.run hchild).usable
      · exact hargs m hm

/-- The definition that an operator in front of an operand calls is named by that operator. -/
theorem mem_named_of_leads (hc : c.Tidy nodes named) {d : DefId} {t : ExprId} (ht : t ∈ nodes)
    (hleads : c.Leads d t) (operand : ExprId) :
    (if d = c.builtins.unaryMinus then c.negationFor operand else d) ∈ named := by
  have hnames := (hc.node t ht).names
  rcases hleads with ⟨hk, -⟩ | ⟨hk, rfl⟩
  · split <;> rename_i hd
    · subst hd
      rcases c.isNegation_negationFor operand with heq | heq <;> rw [heq]
      · exact hnames _ (hk ▸ ExprKind.mem_named_operator _ _)
      · exact hnames _ (by simp [hk, ExprKind.named])
    · exact hnames d (hk ▸ ExprKind.mem_named_operator _ d)
  · rw [if_pos rfl]
    refine hnames _ ?_
    rcases c.isNegation_negationFor operand with heq | heq <;> simp [hk, ExprKind.named, heq]

theorem mem_named_of_infixOf (hc : c.Tidy nodes named) {d : DefId} {o : ExprId} (ho : o ∈ nodes)
    (h : c.InfixOf d o) : d ∈ named := by
  have hnames := (hc.node o ho).names
  rcases h with ⟨p, a, hk, -⟩ | ⟨hk, rfl⟩
  · exact hnames d (hk ▸ ExprKind.mem_named_operator _ d)
  · exact hnames _ (by simp [hk, ExprKind.named])

end

/-! ## The account of a mended run -/

/-- A node stands for a part of a plan: it needs no resolution, unless it is the open side of an
operator. -/
structure Compilation.Supports (c : Compilation) (nodes : Set ExprId) (plan : Plan) (n : ExprId) :
    Prop extends c.Usable nodes n where
  whole : plan ≠ single none → (c.arena.expr n).Ordinary

theorem Compilation.Proper.supports (h : c.Proper nodes n) (plan : Plan) :
    c.Supports nodes plan n :=
  ⟨h.usable, fun _ => h.ordinary⟩

theorem Compilation.Supports.proper {p : Phrase} (h : c.Supports nodes (single (some p)) n) :
    c.Proper nodes n :=
  ⟨h.mem, h.lt, h.whole (by simp)⟩

/-- **The account of a run whose nodes are mended.** -/
def mending {resolveRun : ExprId → CheckM Unit} (hres : ResolvesRuns resolveRun)
    (hmends : MendsRuns nodes named resolveRun) (terms : List ExprId) :
    Account resolveRun terms where
  exact := False
  Valid c := c.Tidy nodes named ∧ c.HasTerms nodes terms
  Later c c' := c.Restores nodes named terms c'
  Holds c plan n := c.Supports nodes plan n
  Ready c t := (c.arena.expr t).kind = .minusSign ∨ (c.arena.expr t).ty ≠ .hole
  MayLead _ := True
  Halts _ _ := True
  refl c := .refl c nodes named terms
  trans h h' := h.trans h'
  toExtends h := h.toExtends
  valid hc h := ⟨h.tidy hc.1, hc.2.mends h.mends⟩
  halts _ _ := trivial
  holds hn h :=
    ⟨hn.toUsable.mends h.mends, fun hplan => h.mends.ordinary hn.lt (hn.whole hplan)⟩
  settled h := h.elim
  classify hc ht :=
    (classify_restores hres hmends hc.1 hc.2 ht).mono (fun _ _ => id) fun _ _ _ => not_false
  operand {c t} hc ht hsettled hready hrole := by
    have hsign : (c.arena.expr t).kind ≠ .minusSign := fun hk => by simp [role, hk] at hrole
    exact (normalizeOperand_restores terms hc.1 (hc.2.proper ht hsettled hsign hready)).mono
      (fun _ _ h => ⟨h.1, h.2.supports _, False.elim⟩) fun _ _ _ => not_false
  apply {c f n ts ns} _ hc hf happ _ hargs := by
    have husable : List.Forall₂ (fun n _ => c.Usable nodes n ∧ True) ns ts :=
      (hargs.imp fun _ _ h => ⟨h.toUsable, trivial⟩).flip
    exact (applyCollected_restores terms hc.1 hf.proper happ
      ((List.forall₂_and_left ns ts).1 husable).1).imp fun _ _ h => ⟨h.1, h.2.supports _⟩
  lead {c d t n p} span hc ht _ hleads htrails hp := by
    have hd := mem_named_of_leads hc.1 (hc.2 t ht).1 hleads n
    exact (allocCall_restores terms hc.1 span hd (by simpa using hp.toUsable)).mono
      (fun _ _ h => ⟨h.1, h.2.supports _⟩) fun _ _ _ => not_false
  trail {c d t n p} span hc ht hrefers hp := by
    have hd := (hc.1.node t (hc.2 t ht).1).names d (hrefers.1 ▸ ExprKind.mem_named_operator _ d)
    exact (allocCall_restores terms hc.1 span hd (by simpa using hp.toUsable)).mono
      (fun _ _ h => ⟨h.1, h.2.supports _⟩) fun _ _ _ => not_false
  missing {c} span hc := by
    have hadmits : c.Admits nodes named .missingArg :=
      ⟨by simp [ExprKind.children], by simp, by simp [ExprKind.children], fun d hd => by cases hd⟩
    have hrun : ∀ ts, (Expression.new .missingArg .hole span).kind ≠ .run ts := by
      simp [Expression.new]
    obtain ⟨hmends', htidy, hmem, hlt⟩ := hc.1.allocExpr hrun hadmits
    have hk := congrArg Expression.kind (c.arena.expr_allocExpr_self (.new .missingArg .hole span))
    exact ⟨⟨(steady_allocExpr c hrun).unfolds terms, hmends', fun _ => htidy⟩,
      ⟨hmem, hlt, .inr hk⟩, fun hplan => (hplan rfl).elim⟩
  combine {c o left right x y} span hc ht hjoins hleft hright := by
    have hd := mem_named_of_infixOf hc.1 (hc.2 _ ht).1 hjoins.infixOf
    exact (allocCall_restores terms hc.1 span hd
      (by simpa using ⟨hleft.toUsable, hright.toUsable⟩)).mono
      (fun _ _ h => ⟨h.1, h.2.supports _⟩) fun _ _ _ => False.elim

/-! ## Resolution -/

section

variable {resolveRun : ExprId → CheckM Unit}

/-- What an accepted list of terms comes to: an expression that needs no resolution and may stand
anywhere. -/
structure Whole (nodes : Set ExprId) (named : Set DefId) (c : Compilation) (e : Expression)
    (c' : Compilation) : Prop where
  mends : c.Mends nodes c'
  tidy : c'.Tidy nodes named
  ordinary : e.Ordinary
  admits : c'.Admits nodes named e.kind

theorem arrange_whole (hres : ResolvesRuns resolveRun)
    (hmends : MendsRuns nodes named resolveRun) (span : Span) (hc : c.Tidy nodes named)
    (hterms : c.HasTerms nodes terms) (hne : terms ≠ []) :
    Outcome (arrange resolveRun terms span) c (Whole nodes named c) fun _ _ => True := by
  refine ((mending hres hmends terms).arrange_outcome span ⟨hc, hterms⟩
    (.inl fun _ => trivial)).mono ?_ fun _ _ _ => trivial
  rintro e c' ⟨hrestores, -, plan, n, hplan, hn, rfl⟩
  have htidy := hrestores.tidy hc
  refine ⟨hrestores.mends, htidy, hn.whole ?_, htidy.node n hn.mem⟩
  -- The root is no open parameter, since the run has a term.
  rintro rfl
  exact hne hplan.terms_eq.symm

/-- An empty run comes to the sentinel of an earlier error, which has a type. -/
theorem sentinel_whole (span : Span) (hc : c.Tidy nodes named) :
    Whole nodes named c (.sentinel .empty span) c where
  mends := .refl c nodes
  tidy := hc
  ordinary := by constructor <;> simp [Expression.sentinel, Expression.new]
  admits := by
    refine ⟨?_, ?_, ?_, ?_⟩
    · simp [Expression.sentinel, Expression.new, ExprKind.children]
    · simp [Expression.sentinel, Expression.new]
    · simp [Expression.sentinel, Expression.new, ExprKind.children]
    · rintro d ⟨⟩

/-- A minus sign and a number come to a negated node, which names what the minus sign does. -/
theorem negatedOperand_whole {sign operand : ExprId} (span : Span) (hc : c.Tidy nodes named)
    (hsign : sign ∈ nodes) (hk : (c.arena.expr sign).kind = .minusSign)
    (hoperand : c.Proper nodes operand) :
    (negatedOperand c.arena operand span).Ordinary ∧
      c.Admits nodes named (negatedOperand c.arena operand span).kind := by
  refine ⟨?_, ?_, ?_, ?_, ?_⟩
  · constructor <;> simp only [negatedOperand, Expression.new]
    · simp
    · simp
    · split <;> simp
  · simpa [negatedOperand, Expression.new, ExprKind.children] using ⟨hoperand.mem, hoperand.lt⟩
  · simp [negatedOperand, Expression.new]
  · simpa [negatedOperand, Expression.new, ExprKind.children] using hoperand.ordinary
  · intro d hd
    have hd : d = c.builtins.unaryMinus ∨ d = c.builtins.unaryMinusFloat := by
      simpa [negatedOperand, Expression.new, ExprKind.named] using hd
    exact (hc.node sign hsign).names d (by rcases hd with rfl | rfl <;> simp [hk, ExprKind.named])

theorem resolveTerms_whole (hres : ResolvesRuns resolveRun)
    (hmends : MendsRuns nodes named resolveRun) (span : Span) (hc : c.Tidy nodes named)
    (hterms : c.HasTerms nodes terms) :
    Outcome (resolveTerms resolveRun terms span) c (Whole nodes named c) fun _ _ => True := by
  unfold resolveTerms
  split
  · exact sentinel_whole span hc
  -- A single term comes to itself, unless it is a minus sign.
  · rename_i only
    have hmem := List.mem_singleton_self only
    simp only [outcome_bind]
    refine (classify_restores hres hmends hc hterms hmem).mono ?_ fun _ _ => id
    rintro term c₁ ⟨hrestores, hsettled, hplays, hready⟩
    have htidy := hrestores.tidy hc
    split
    · trivial
    · rename_i hterm
      have honly := (hterms.mends hrestores.mends).proper hmem hsettled
        (hplays.ne_minusSign hterm) hready
      exact ⟨hrestores.mends, htidy, honly.ordinary, htidy.node only honly.mem⟩
  -- A minus sign in front of a number stays until the type of the number is known.
  · rename_i first second
    have hne : [first, second] ≠ [] := List.cons_ne_nil first [second]
    simp only [outcome_bind, outcome_expr]
    split
    · rename_i hminus
      have hmem : second ∈ [first, second] := by simp
      simp only [outcome_bind, outcome_arena]
      refine (classify_restores hres hmends hc hterms hmem).mono ?_ fun _ _ => id
      rintro term c₁ ⟨hrestores, hsettled, hplays, hready⟩
      have htidy := hrestores.tidy hc
      have hterms₁ := hterms.mends hrestores.mends
      have harrange : Outcome (arrange resolveRun [first, second] span) c₁
          (Whole nodes named c) fun _ _ => True :=
        (arrange_whole hres hmends span htidy hterms₁ hne).imp fun e c' h =>
          ⟨hrestores.mends.trans h.mends, h.tidy, h.ordinary, h.admits⟩
      split
      · rename_i operand
        obtain ⟨rfl, hrole⟩ := hplays
        have hsign : (c₁.arena.expr operand).kind ≠ .minusSign := fun hk => by
          simp [role, hk] at hrole
        have hoperand := hterms₁.proper hmem hsettled hsign hready
        split
        · obtain ⟨hordinary, hadmits⟩ := negatedOperand_whole span htidy
            (hterms₁ first (by simp)).1 (hrestores.mends.kind_eq hminus rfl) hoperand
          exact ⟨hrestores.mends, htidy, hordinary, hadmits⟩
        · exact harrange
      · exact harrange
    · exact arrange_whole hres hmends span hc hterms hne
  · rename_i hempty _ _
    exact arrange_whole hres hmends span hc hterms hempty

theorem resolveNode_mends (hres : ResolvesRuns resolveRun)
    (hmends : MendsRuns nodes named resolveRun) :
    MendsRuns nodes named (resolveNode resolveRun) := by
  intro c id terms hc hid hk
  have hadmits := hc.node id hid
  have hterms : c.HasTerms nodes terms := fun t ht =>
    have hchild : t ∈ (c.arena.expr id).kind.children := by simpa [hk, ExprKind.children] using ht
    ⟨(hadmits.inside t hchild).1, (hadmits.inside t hchild).2, hadmits.term terms hk t ht⟩
  have hbuilt : ∀ n : ExprId, 0 ≤ n.index → (fun _ => True) n := fun _ _ => trivial
  simp only [resolveNode, outcome_bind, outcome_expr, hk, outcome_attempt]
  refine ((resolveTerms_accepted hres hbuilt terms (c.arena.expr id).span (Nat.zero_le _)).and
    (resolveTerms_whole hres hmends (c.arena.expr id).span hc hterms)).mono ?_ ?_
  · rintro e c₁ ⟨haccepted, hmends₁, htidy, hordinary, hadmits₁⟩
    simp only [outcome_modifyExpr, outcome_emit]
    -- The run itself is still there when its terms are settled.
    have hrun := haccepted.unfolds.run_self hk
    obtain ⟨hmends₂, htidy₂, hid₂⟩ := htidy.resolved hid hrun hordinary hadmits₁
    have hemit := fun event => htidy₂.of_arena_eq
      ((c₁.modifyArena (·.modifyExpr id (·.replaceBy e))).emit event) rfl rfl
    exact ⟨(hmends₁.trans hmends₂).trans (hemit _).1, (hemit _).2, hid₂⟩
  · rintro (error | _) c₁ -
    · exact outcome_trivial.mono (fun _ _ _ => trivial) fun _ _ _ => trivial
    · trivial

end

/-- **Resolution** keeps a compilation tidy, and what it resolves needs no resolution. -/
theorem resolveWithin_mends (depth : Nat) : MendsRuns nodes named (resolveWithin depth) := by
  -- On the depth of nesting: a run is resolved with what resolves the runs among its terms.
  induction depth with
  | zero => exact fun _ _ _ => trivial
  | succ depth ih => exact resolveNode_mends (resolveWithin_outcome depth) ih

/-! ## Resolved runs -/

/-- A node lies at or below another one. -/
def Compilation.Below (c : Compilation) : (root n : ExprId) → Prop :=
  Relation.ReflTransGen fun n m => m ∈ (c.arena.expr n).kind.children

/-- A minus sign or a reference that is a term at or below a node. -/
def Compilation.EarlyTerm (c : Compilation) (root t : ExprId) : Prop :=
  ((c.arena.expr t).kind = .minusSign ∨
      ∃ d, (c.arena.expr t).kind = .reference d ∨ (c.arena.expr t).kind = .operator d) ∧
    ∃ n ts, c.Below root n ∧ (c.arena.expr n).kind = .run ts ∧ t ∈ ts

/-- **A run whose terms have their types**: below it, only runs and terms that are minus signs or
references may be holes, only such terms may be minus signs, runs are terms of runs only, and no
hole occurs in the type of a definition that is named. -/
structure Compilation.Composed (c : Compilation) (root : ExprId) : Prop where
  inside : ∀ n, c.Below root n → n.index < c.arena.exprs.size
  bodies : ∀ n d b, c.Below root n → d ∈ (c.arena.expr n).kind.named c.builtins →
    (c.arena.definition d).body = .expression b → b.index < c.arena.exprs.size
  ordinary : ∀ n, c.Below root n → (∀ ts, (c.arena.expr n).kind ≠ .run ts) →
    ¬ c.EarlyTerm root n → (c.arena.expr n).Ordinary
  nested : ∀ n m ts, c.Below root n → m ∈ (c.arena.expr n).kind.children →
    (c.arena.expr m).kind = .run ts → ∃ us, (c.arena.expr n).kind = .run us
  known : ∀ n d, c.Below root n → d ∈ (c.arena.expr n).kind.named c.builtins →
    (c.arena.definitionType d).Known

/-- A term that is a minus sign or a hole is not shared with a call. -/
def Compilation.Apart (c : Compilation) (root : ExprId) : Prop :=
  ∀ n m, c.Below root n → (∀ ts, (c.arena.expr n).kind ≠ .run ts) →
    m ∈ (c.arena.expr n).kind.children → c.EarlyTerm root m → (c.arena.expr m).Ordinary

/-- No definition that is named takes its type from a run that is resolved. -/
def Compilation.KeepsTypes (c : Compilation) (root : ExprId) : Prop :=
  ∀ n d b, c.Below root n → d ∈ (c.arena.expr n).kind.named c.builtins →
    (c.arena.definition d).declared = none → (c.arena.definition d).body = .expression b →
    c.Below root b → ∀ ts, (c.arena.expr b).kind ≠ .run ts

section

variable {root id : ExprId}

/-- What lies below a run, and all that is not there yet, may be looked after. -/
theorem Compilation.Composed.tidy (h : c.Composed root) (happart : c.Apart root)
    (hkeeps : c.KeepsTypes root) :
    c.Tidy {n | c.Below root n ∨ c.arena.exprs.size ≤ n.index}
      {d | ∃ n, c.Below root n ∧ d ∈ (c.arena.expr n).kind.named c.builtins} where
  fresh n hn := .inr hn
  node n hn := by
    rcases hn with hn | hn
    · have hbelow : ∀ m ∈ (c.arena.expr n).kind.children, c.Below root m := fun m hm => hn.tail hm
      refine ⟨fun m hm => ⟨.inl (hbelow m hm), h.inside m (hbelow m hm)⟩, fun ts hk t ht => ?_,
        fun hrun m hm => ?_, fun d hd => ⟨n, hn, hd⟩⟩
      · have hbelow' := hbelow t (by rw [hk]; exact ht)
        by_cases hearly : c.EarlyTerm root t
        · exact .inr (hearly.1.imp_right .inl)
        · by_cases hrun : ∃ us, (c.arena.expr t).kind = .run us
          · exact .inl hrun
          · exact .inr (.inr (.inr (h.ordinary t hbelow' (not_exists.1 hrun) hearly).ty))
      · by_cases hearly : c.EarlyTerm root m
        · exact happart n m hn hrun hm hearly
        · refine h.ordinary m (hbelow m hm) (fun ts hk => ?_) hearly
          obtain ⟨us, hus⟩ := h.nested n m ts hn hm hk
          exact hrun us hus
    · rw [Arena.expr_of_size_le hn]
      exact ⟨by simp [Expression.tombstone, Expression.sentinel, Expression.new, ExprKind.children],
        by simp [Expression.tombstone, Expression.sentinel, Expression.new],
        by simp [Expression.tombstone, Expression.sentinel, Expression.new, ExprKind.children],
        by rintro d ⟨⟩⟩
  known := by
    rintro d ⟨n, hn, hd⟩
    exact h.known n d hn hd
  body := by
    rintro d ⟨n, hn, hd⟩ hdecl b hb
    have hlt := h.bodies n d b hn hd hb
    refine ⟨hlt, ?_⟩
    rintro (hbelow | hle)
    · exact hkeeps n d b hn hd hdecl hb hbelow
    · exact (Nat.not_lt_of_le hle hlt).elim

/-- What lies below a node that needs no resolution needs none. -/
theorem Compilation.Tidy.ordinary_of_below (hc : c.Tidy nodes named) (hroot : c.Proper nodes root)
    (hn : c.Below root n) : c.Proper nodes n := by
  induction hn with
  | refl => exact hroot
  | tail _ hm ih => exact (hc.node _ ih.mem).proper ih.ordinary.run hm

/-- **No hole is left in a resolved run**, and no run or minus sign either. -/
theorem not_hole_of_resolve (hk : (c.arena.expr id).kind = .run terms) (hc : c.Composed id)
    (happart : c.Apart id) (hkeeps : c.KeepsTypes id) (hok : resolve id c = .ok () c')
    (hn : c'.Below id n) :
    (c'.arena.expr n).ty ≠ .hole ∧ (∀ ts, (c'.arena.expr n).kind ≠ .run ts) ∧
      (c'.arena.expr n).kind ≠ .minusSign := by
  have htidy := hc.tidy happart hkeeps
  have houtcome := resolveWithin_mends (c.arena.exprs.size + 1) htidy (.inl .refl) hk
  obtain ⟨hmends, htidy', hordinary⟩ := houtcome.of_ok hok
  have hroot : c'.Proper {n | c.Below id n ∨ c.arena.exprs.size ≤ n.index} id :=
    ⟨.inl .refl, (hc.inside id .refl).trans_le hmends.size, hordinary⟩
  have hproper := htidy'.ordinary_of_below hroot hn
  exact ⟨hproper.ordinary.ty, hproper.ordinary.run, hproper.ordinary.sign⟩

/-- The section `(- 1) +`, where the operand is a run in parentheses. -/
def nestedSection : Compilation :=
  { Compilation.new with
    arena :=
      { Builtins.arena with
        exprs := #[.new .minusSign .hole .origin, .new (.value (.int 1)) .int .origin,
          .new (.run [⟨0⟩, ⟨1⟩]) .hole .origin, .new (.operator ⟨1⟩) .hole .origin,
          .new (.run [⟨2⟩, ⟨3⟩]) .hole .origin] } }

/-- What lies below a node is in every list that holds it and is closed. -/
theorem Compilation.Below.mem (h : c.Below root n) {ids : List ExprId} (hroot : root ∈ ids)
    (hclosed : ∀ n ∈ ids, (c.arena.expr n).kind.children ⊆ ids) : n ∈ ids := by
  induction h with
  | refl => exact hroot
  | tail _ hm ih => exact hclosed _ ih hm

/-- The nodes of a program of five expressions. -/
def fiveNodes : List ExprId := (List.range 5).map ExprId.mk

theorem mem_of_below_nestedSection (h : nestedSection.Below ⟨4⟩ n) : n ∈ fiveNodes :=
  h.mem (by decide) (by decide)

/-- The types that are known from the start, as far as sections need them. -/
theorem Builtins.known_of_mem {ty : Ty}
    (h : ty ∈ [arithmeticType, unaryMinusType, unaryMinusFloatType]) : ty.Known := by
  simp only [List.mem_cons, List.not_mem_nil, or_false] at h
  rcases h with rfl | rfl | rfl <;>
    simp [Ty.Known, arithmeticType, unaryMinusType, unaryMinusFloatType]

theorem body_of_named_nestedSection {d : DefId} (hn : nestedSection.Below ⟨4⟩ n)
    (hd : d ∈ (nestedSection.arena.expr n).kind.named nestedSection.builtins) :
    (nestedSection.arena.definition d).body = .builtin :=
  (by decide : ∀ n ∈ fiveNodes,
    ∀ d ∈ (nestedSection.arena.expr n).kind.named nestedSection.builtins,
      (nestedSection.arena.definition d).body = .builtin) n (mem_of_below_nestedSection hn) d hd

theorem nestedSection_composed : nestedSection.Composed ⟨4⟩ where
  inside n hn :=
    (by decide : ∀ n ∈ fiveNodes, n.index < nestedSection.arena.exprs.size) n
      (mem_of_below_nestedSection hn)
  bodies n d b hn hd hb := by cases hb.symm.trans (body_of_named_nestedSection hn hd)
  ordinary n hn hrun hearly := by
    have hmem := mem_of_below_nestedSection hn
    fin_cases hmem
    · exact (hearly ⟨.inl rfl, ⟨2⟩, _, .single (by decide), rfl, by decide⟩).elim
    · decide
    · exact (hrun _ rfl).elim
    · exact (hearly ⟨.inr ⟨_, .inr rfl⟩, ⟨4⟩, _, .refl, rfl, by decide⟩).elim
    · exact (hrun _ rfl).elim
  nested n m ts hn hm hk := by
    have hmem := mem_of_below_nestedSection hn
    fin_cases hmem
    · cases hm
    · cases hm
    · exact ⟨_, rfl⟩
    · cases hm
    · exact ⟨_, rfl⟩
  known n d hn hd :=
    Builtins.known_of_mem <| (by decide : ∀ n ∈ fiveNodes,
      ∀ d ∈ (nestedSection.arena.expr n).kind.named nestedSection.builtins,
        nestedSection.arena.definitionType d ∈ [Builtins.arithmeticType,
          Builtins.unaryMinusType, Builtins.unaryMinusFloatType]) n
      (mem_of_below_nestedSection hn) d hd

/-- The section becomes a call with an open side, and nothing in it is a hole. -/
theorem not_hole_nestedSection :
    ∃ c', resolve ⟨4⟩ nestedSection = .ok () c' ∧ ∀ n, c'.Below ⟨4⟩ n →
      (c'.arena.expr n).ty ≠ .hole ∧ (∀ ts, (c'.arena.expr n).kind ≠ .run ts) ∧
        (c'.arena.expr n).kind ≠ .minusSign := by
  have happart : nestedSection.Apart ⟨4⟩ := by
    intro n m hn hrun hm
    have hmem := mem_of_below_nestedSection hn
    fin_cases hmem
    · cases hm
    · cases hm
    · exact (hrun _ rfl).elim
    · cases hm
    · exact (hrun _ rfl).elim
  have hkeeps : nestedSection.KeepsTypes ⟨4⟩ := by
    intro n d b hn hd _ hb
    cases hb.symm.trans (body_of_named_nestedSection hn hd)
  obtain ⟨⟨⟩, c', hok, -⟩ :=
    exists_ok_of_check (resolve ⟨4⟩) nestedSection (fun _ _ => true) (by decide +kernel)
  exact ⟨c', hok, fun n => not_hole_of_resolve rfl nestedSection_composed happart hkeeps hok⟩

/-- The application of a function to two terms, the first of which is its own body. That body is a
run, and it becomes a value of another type. -/
def lateType : Compilation :=
  let signature : Ty := .function [.int, .int] .int true
  { Compilation.new with
    arena :=
      { Builtins.arena with
        exprs := #[.new (.value (.int 5)) (.function [.hole, .int] .hole true) .origin,
          .new (.run [⟨0⟩]) signature .origin, .new (.reference ⟨9⟩) signature .origin,
          .new (.value (.int 1)) .int .origin, .new (.run [⟨2⟩, ⟨1⟩, ⟨3⟩]) .hole .origin]
        defs := Builtins.arena.defs.push ⟨"d", .expression ⟨1⟩, none, none, .origin⟩ } }

theorem mem_of_below_lateType (h : lateType.Below ⟨4⟩ n) : n ∈ fiveNodes :=
  h.mem (by decide) (by decide)

theorem eq_of_named_lateType {d : DefId} (hn : lateType.Below ⟨4⟩ n)
    (hd : d ∈ (lateType.arena.expr n).kind.named lateType.builtins) : d = ⟨9⟩ :=
  (by decide : ∀ n ∈ fiveNodes, ∀ d ∈ (lateType.arena.expr n).kind.named lateType.builtins,
    d = ⟨9⟩) n (mem_of_below_lateType hn) d hd

theorem lateType_composed : lateType.Composed ⟨4⟩ where
  inside n hn :=
    (by decide : ∀ n ∈ fiveNodes, n.index < lateType.arena.exprs.size) n
      (mem_of_below_lateType hn)
  bodies n d b hn hd hb := by
    obtain rfl := eq_of_named_lateType hn hd
    cases hb
    decide
  ordinary n hn hrun _ := by
    have hmem := mem_of_below_lateType hn
    fin_cases hmem
    · decide
    · exact (hrun _ rfl).elim
    · decide
    · decide
    · exact (hrun _ rfl).elim
  nested n m ts hn hm hk := by
    have hmem := mem_of_below_lateType hn
    fin_cases hmem
    · cases hm
    · exact ⟨_, rfl⟩
    · cases hm
    · cases hm
    · exact ⟨_, rfl⟩
  known n d hn hd := by
    obtain rfl := eq_of_named_lateType hn hd
    have hty : lateType.arena.definitionType ⟨9⟩ = .function [.int, .int] .int true := rfl
    simp [hty, Ty.Known]

/-- The run `- f (-)` whose two minus signs are one node. -/
def sharedSign : Compilation :=
  { Compilation.new with
    arena :=
      { Builtins.arena with
        exprs := #[.new .minusSign .hole .origin, .new (.call ⟨9⟩ [⟨0⟩]) .int .origin,
          .new (.run [⟨0⟩, ⟨1⟩]) .hole .origin]
        defs := Builtins.arena.defs.push
          ⟨"f", .builtin, some Builtins.unaryMinusType, none, .origin⟩ } }

theorem mem_of_below_sharedSign (h : sharedSign.Below ⟨2⟩ n) :
    n ∈ (List.range 3).map ExprId.mk :=
  h.mem (by decide) (by decide)

theorem body_of_named_sharedSign {d : DefId} (hn : sharedSign.Below ⟨2⟩ n)
    (hd : d ∈ (sharedSign.arena.expr n).kind.named sharedSign.builtins) :
    (sharedSign.arena.definition d).body = .builtin :=
  (by decide : ∀ n ∈ (List.range 3).map ExprId.mk,
    ∀ d ∈ (sharedSign.arena.expr n).kind.named sharedSign.builtins,
      (sharedSign.arena.definition d).body = .builtin) n (mem_of_below_sharedSign hn) d hd

theorem sharedSign_composed : sharedSign.Composed ⟨2⟩ where
  inside n hn :=
    (by decide : ∀ n ∈ (List.range 3).map ExprId.mk, n.index < sharedSign.arena.exprs.size) n
      (mem_of_below_sharedSign hn)
  bodies n d b hn hd hb := by cases hb.symm.trans (body_of_named_sharedSign hn hd)
  ordinary n hn hrun hearly := by
    have hmem := mem_of_below_sharedSign hn
    fin_cases hmem
    · exact (hearly ⟨.inl rfl, ⟨2⟩, _, .refl, rfl, by decide⟩).elim
    · decide
    · exact (hrun _ rfl).elim
  nested n m ts hn hm hk := by
    have hmem := mem_of_below_sharedSign hn
    fin_cases hmem
    · cases hm
    · obtain rfl := List.mem_singleton.1 hm
      cases hk
    · exact ⟨_, rfl⟩
  known n d hn hd :=
    Builtins.known_of_mem <| (by decide : ∀ n ∈ (List.range 3).map ExprId.mk,
      ∀ d ∈ (sharedSign.arena.expr n).kind.named sharedSign.builtins,
        sharedSign.arena.definitionType d ∈ [Builtins.arithmeticType,
          Builtins.unaryMinusType, Builtins.unaryMinusFloatType]) n
      (mem_of_below_sharedSign hn) d hd

/-- **Holes and minus signs are left** if a definition takes its type from a run that is resolved,
or if a minus sign is a term and an argument at once. -/
theorem resolve_lateType_sharedSign :
    (lateType.Composed ⟨4⟩ ∧ lateType.Apart ⟨4⟩ ∧
      ∃ c', resolve ⟨4⟩ lateType = .ok () c' ∧ (c'.arena.expr ⟨4⟩).ty = .hole) ∧
    (sharedSign.Composed ⟨2⟩ ∧ sharedSign.KeepsTypes ⟨2⟩ ∧
      ∃ c', resolve ⟨2⟩ sharedSign = .ok () c' ∧ c'.Below ⟨2⟩ ⟨0⟩ ∧
        (c'.arena.expr ⟨0⟩).ty = .hole ∧ (c'.arena.expr ⟨0⟩).kind = .minusSign) := by
  have happart : lateType.Apart ⟨4⟩ := by
    intro n m hn hrun hm
    have hmem := mem_of_below_lateType hn
    fin_cases hmem
    · cases hm
    · exact (hrun _ rfl).elim
    · cases hm
    · cases hm
    · exact (hrun _ rfl).elim
  have hkeeps : sharedSign.KeepsTypes ⟨2⟩ := by
    intro n d b hn hd _ hb
    cases hb.symm.trans (body_of_named_sharedSign hn hd)
  obtain ⟨⟨⟩, c', hlate, hty⟩ := exists_ok_of_check (resolve ⟨4⟩) lateType
    (fun _ c' => decide ((c'.arena.expr ⟨4⟩).ty = .hole)) (by decide +kernel)
  obtain ⟨⟨⟩, c'', hshared, hcheck⟩ := exists_ok_of_check (resolve ⟨2⟩) sharedSign
    (fun _ c' => decide (⟨1⟩ ∈ (c'.arena.expr ⟨2⟩).kind.children ∧
      ⟨0⟩ ∈ (c'.arena.expr ⟨1⟩).kind.children ∧ (c'.arena.expr ⟨0⟩).ty = .hole ∧
      (c'.arena.expr ⟨0⟩).kind = .minusSign)) (by decide +kernel)
  obtain ⟨hone, hzero, hhole, hsign⟩ := of_decide_eq_true hcheck
  exact ⟨⟨lateType_composed, happart, c', hlate, of_decide_eq_true hty⟩,
    sharedSign_composed, hkeeps, c'', hshared, .tail (.single hone) hzero, hhole, hsign⟩

end

end Termwise
