import Termwise.Proofs.Run.Failures

/-!
# Groups among the terms of a run

A term of a run may be a group, that is a run of its own. It is resolved in place when the run
around it comes to it, and then it is read again as what it has become. So a group in which there
is nothing but an operator is taken for that operator, as if nothing were around it. Every other
group that can be resolved is an operand, wherever it stands and whatever else becomes of the run.

What a term comes to can be told beforehand, and resolution does not change it.

## Main definitions

* `Compilation.Lone`: a term that comes to an operator
* `Compilation.Tracks`: a change after which the same terms come to the same operators
* `Compilation.Passes`: the states that a run goes through while it is read
* `Compilation.OperandOf`: a term is an operand of what was built

## Main results

* `resolveWithin_tracks`: resolution does not change which terms come to operators
* `group_is_operand`: a group that does not come to an operator is one operand
-/

namespace Termwise

open Compilation

namespace Compilation

variable {c c' c'' : Compilation} {t x n id : ExprId} {r : Role} {ts terms : List ExprId}

/-! ## Terms that come to operators -/

/-- **A term that comes to an operator**: it is one, or it is a group with nothing else in it. -/
inductive Lone (c : Compilation) : (t : ExprId) → (r : Role) → Prop where
  | itself {t : ExprId} {r : Role} (hrole : c.role t = r) (hr : r ≠ .operand) : Lone c t r
  | group {t x : ExprId} {r : Role} (hk : (c.arena.expr t).kind = .run [x]) (hx : Lone c x r) :
    Lone c t r

/-- The same terms come to the same operators. -/
def Tracks (c c' : Compilation) : Prop := ∀ n r, c'.Lone n r ↔ c.Lone n r

theorem Tracks.refl (c : Compilation) : c.Tracks c := fun _ _ => .rfl

theorem Tracks.trans (h : c.Tracks c') (h' : c'.Tracks c'') : c.Tracks c'' :=
  fun n r => (h' n r).trans (h n r)

theorem role_of_run (hk : (c.arena.expr t).kind = .run ts) : c.role t = .operand := by
  simp only [role, hk]

/-- A term that is no group comes to what it is. -/
theorem lone_iff_of_settled (ht : c.Settled t) : c.Lone t r ↔ c.role t = r ∧ r ≠ .operand := by
  constructor
  · rintro (⟨hrole, hr⟩ | ⟨hk, -⟩)
    · exact ⟨hrole, hr⟩
    · simp [Settled, hk, ExprKind.isSettled] at ht
  · exact fun h => .itself h.1 h.2

/-- **A term has one role.** Whatever it has come to in one state it has come to in the other. -/
theorem Tracks.role_eq (h : c.Tracks c') (h' : c.Tracks c'') (ht : c'.Settled t)
    (ht' : c''.Settled t) : c''.role t = c'.role t := by
  have hiff (r : Role) (hr : r ≠ .operand) : c''.role t = r ↔ c'.role t = r := by
    have := ((lone_iff_of_settled ht').symm.trans (h' t r)).trans
      ((h t r).symm.trans (lone_iff_of_settled ht))
    simpa [hr] using this
  by_cases hr : c'.role t = .operand
  · by_contra hne
    exact hne (((hiff _ (hr ▸ hne)).1 rfl).symm)
  · exact (hiff _ hr).2 rfl

/-! ## Steps -/

/-- What a node is decides its role. -/
theorem role_congr (hbuiltins : c'.builtins = c.builtins) (hdefs : c'.arena.defs = c.arena.defs)
    (hk : (c'.arena.expr n).kind = (c.arena.expr t).kind) : c'.role n = c.role t := by
  simp only [role, hk, hbuiltins, Arena.definition, hdefs]

theorem tracks_of_role (hrole : ∀ n, c'.role n = c.role n)
    (hrun : ∀ n ts, (c'.arena.expr n).kind = .run ts ↔ (c.arena.expr n).kind = .run ts) :
    c.Tracks c' := by
  intro n r
  constructor
  · intro h
    induction h with
    | itself h hr => exact .itself (hrole _ ▸ h) hr
    | group hk _ ih => exact .group ((hrun _ _).1 hk) ih
  · intro h
    induction h with
    | itself h hr => exact .itself ((hrole _).trans h) hr
    | group hk _ ih => exact .group ((hrun _ _).2 hk) ih

/-- What changes no kind of thing and appends nothing. -/
theorem Steady.tracks (h : c.Steady c') (hsize : c'.arena.exprs.size = c.arena.exprs.size) :
    c.Tracks c' := by
  refine tracks_of_role (fun n => ?_) fun n ts => ⟨h.run n ts, fun hk => ?_⟩
  · rcases Nat.lt_or_ge n.index c.arena.exprs.size with hlt | hge
    · by_cases hv : (c.arena.expr n).kind.isValue = true
      · rw [role_of_isValue hv, role_of_isValue (h.value n hv)]
      · exact role_congr h.builtins h.defs (h.kind n hlt (by simpa using hv))
    · refine role_congr h.builtins h.defs ?_
      rw [Arena.expr_of_size_le hge, Arena.expr_of_size_le (hsize.trans_le hge)]
  · have hlt : n.index < c.arena.exprs.size := Arena.lt_size_of_kind_ne (by simp [hk])
    exact (h.kind n hlt (by simp [hk, ExprKind.isValue])).trans hk

/-- What is appended is neither an operator nor a group. -/
theorem tracks_allocExpr (c : Compilation) {e : Expression}
    (he : e.kind = .missingArg ∨ ∃ d args, e.kind = .call d args) :
    c.Tracks (c.allocExpr e).2 := by
  have hnew {n : ExprId} (hn : n.index = c.arena.exprs.size) :
      ((c.allocExpr e).2.arena.expr n).kind = e.kind ∧ (c.arena.expr n).kind = .deleted := by
    rw [Arena.expr_of_size_le hn.ge]
    simp [allocExpr, Arena.expr_allocExpr, hn, Expression.tombstone, Expression.sentinel,
      Expression.new]
  have hold {n : ExprId} (hn : n.index ≠ c.arena.exprs.size) :
      ((c.allocExpr e).2.arena.expr n).kind = (c.arena.expr n).kind := by
    simp [allocExpr, Arena.expr_allocExpr, hn]
  refine tracks_of_role (fun n => ?_) fun n ts => ?_
  · by_cases hn : n.index = c.arena.exprs.size
    · obtain ⟨hk, hk'⟩ := hnew hn
      rcases he with he | ⟨d, args, he⟩ <;> simp only [role, hk, hk', he]
    · exact role_congr rfl rfl (hold hn)
  · by_cases hn : n.index = c.arena.exprs.size
    · obtain ⟨hk, hk'⟩ := hnew hn
      rcases he with he | ⟨d, args, he⟩ <;> simp [hk, hk', he]
    · rw [hold hn]

theorem allocCall_tracks (d : DefId) (args : List ExprId) (span : Span) :
    Outcome (allocCall d args span) c (fun _ => c.Tracks) fun _ _ => True := by
  simp only [allocCall, outcome_bind, outcome_allocExpr]
  refine (createCall_steady d args span).mono ?_ fun _ _ _ => trivial
  rintro e c₁ ⟨hsteady, hsize, hk⟩
  exact (hsteady.tracks hsize).trans (tracks_allocExpr c₁ (.inr ⟨d, args, hk⟩))

theorem tracks_refreshed (c : Compilation) (id : ExprId) : c.Tracks (c.refreshed id) := by
  refine (steady_refreshed c id).tracks ?_
  unfold refreshed
  split <;> simp [modifyArena]

/-- What resolves the runs among the terms does not change which terms come to operators. -/
def TracksRuns (resolveRun : ExprId → CheckM Unit) : Prop :=
  ∀ c id, Outcome (resolveRun id) c (fun _ => c.Tracks) fun _ _ => True

variable {resolveRun : ExprId → CheckM Unit}

theorem classify_tracks (hres : ResolvesRuns resolveRun) (htracks : TracksRuns resolveRun)
    (t : ExprId) : Outcome (classify resolveRun t) c (fun _ => c.Tracks) fun _ _ => True := by
  have hrest {c₁ : Compilation} (h₁ : c.Tracks c₁) (hrun : ∀ ts, (c₁.arena.expr t).kind ≠ .run ts)
      (span : Span) :
      Outcome (classifyResolved t span) c₁ (fun _ => c.Tracks) fun _ _ => True := by
    refine (classifyResolved_outcome span hrun).mono ?_ fun _ _ _ => trivial
    rintro term _ ⟨rfl, -, -⟩
    exact h₁.trans (tracks_refreshed c₁ t)
  simp only [classify, outcome_bind, outcome_expr]
  split
  · simp only [outcome_bind, outcome_attempt]
    refine ((htracks c t).and (hres c t)).mono (fun _ c₁ h => hrest h.1 h.2.2 _) ?_
    rintro (e | _) c₁ - <;> trivial
  · exact hrest (.refl c) ‹_› _

/-- That the same terms come to the same operators, as a watch. -/
def tracking (hres : ResolvesRuns resolveRun) (htracks : TracksRuns resolveRun)
    (terms : List ExprId) : Watch resolveRun terms where
  Rel := Tracks
  Stops _ _ _ := True
  refl := .refl
  trans := .trans
  later _ _ := trivial
  refuse _ _ _ _ := trivial
  call _ := allocCall_tracks
  missing c _ := tracks_allocExpr c (.inl rfl)
  classify _ _ _ := classify_tracks hres htracks _

/-! ## Runs -/

/-- What several terms come to is no operator, and what one comes to has its role. -/
theorem role_of_becomes {e : Expression} (he : Becomes c terms e)
    (hbuiltins : c'.builtins = c.builtins) (hdefs : c'.arena.defs = c.arena.defs)
    (hk : (c'.arena.expr n).kind = e.kind) :
    (∀ t, terms ≠ [t]) ∧ c'.role n = .operand ∨ ∃ t, terms = [t] ∧ c'.role n = c.role t := by
  cases he with
  | empty he => exact .inl ⟨nofun, by simp only [role, hk, he]⟩
  | call hlength he | negated hlength he =>
    exact .inl ⟨by rintro t rfl; simp at hlength, by simp only [role, hk, he]⟩
  | single => exact .inr ⟨_, rfl, role_congr hbuiltins hdefs hk⟩

/-- **A run is replaced** by what its terms come to, and the same terms come to operators. -/
theorem tracks_resolved {e : Expression} (hk : (c.arena.expr id).kind = .run terms)
    (hsettled : ∀ t ∈ terms, c.Settled t) (he : Becomes c terms e) :
    c.Tracks (c.modifyArena (·.modifyExpr id (·.replaceBy e))) := by
  have hlt : id.index < c.arena.exprs.size := Arena.lt_size_of_kind_ne (by simp [hk])
  let c' := c.modifyArena (·.modifyExpr id (·.replaceBy e))
  have hself : (c'.arena.expr id).kind = e.kind := by
    simp only [c', modifyArena, Arena.expr_modifyExpr_self hlt]
    rfl
  have hother {n : ExprId} (hn : n ≠ id) : (c'.arena.expr n).kind = (c.arena.expr n).kind := by
    simp only [c', modifyArena, Arena.expr_modifyExpr_of_ne hn]
  have hrole {n : ExprId} (hn : n ≠ id) : c'.role n = c.role n := role_congr rfl rfl (hother hn)
  have hrole' : (∀ t, terms ≠ [t]) ∧ c'.role id = .operand ∨
      ∃ t, terms = [t] ∧ c'.role id = c.role t := role_of_becomes he rfl rfl hself
  have hrun (ts : List ExprId) : e.kind ≠ .run ts := by
    intro hk
    have hset := he.isSettled hsettled
    simp [hk, ExprKind.isSettled] at hset
  intro n r
  constructor
  -- What the node has come to, the group in it comes to.
  · intro h
    induction h with
    | @itself n r hr hne =>
      by_cases hn : n = id
      · subst hn
        rcases hrole' with ⟨-, hoperand⟩ | ⟨t, rfl, ht⟩
        · exact (hne (hr.symm.trans hoperand)).elim
        · exact .group hk (.itself (ht.symm.trans hr) hne)
      · exact .itself ((hrole hn).symm.trans hr) hne
    | @group n x r hx _ ih =>
      have hn : n ≠ id := by
        rintro rfl
        exact hrun _ (hself.symm.trans hx)
      exact .group ((hother hn).symm.trans hx) ih
  -- What the group in it comes to, the node has come to.
  · intro h
    induction h with
    | @itself n r hr hne =>
      have hn : n ≠ id := by
        rintro rfl
        exact hne (hr.symm.trans (role_of_run hk))
      exact .itself ((hrole hn).trans hr) hne
    | @group n x r hx hlone ih =>
      by_cases hn : n = id
      · subst hn
        cases hk.symm.trans hx
        obtain ⟨hr, hne⟩ := (lone_iff_of_settled (hsettled x (List.mem_singleton_self x))).1 hlone
        rcases hrole' with ⟨hlength, -⟩ | ⟨t, ht, hrole'⟩
        · exact (hlength x rfl).elim
        · cases ht
          exact .itself (hrole'.trans hr) hne
      · exact .group ((hother hn).trans hx) ih

/-- **Resolving a run** does not change which terms come to operators. -/
theorem resolveWithin_tracks (depth : Nat) : TracksRuns (resolveWithin depth) := by
  -- On the depth of nesting: a run is resolved with what resolves the runs among its terms.
  induction depth with
  | zero => exact fun _ _ => trivial
  | succ depth ih =>
    intro c id
    simp only [resolveWithin, resolveNode, outcome_bind, outcome_expr]
    split
    · rename_i terms hk
      have hres := resolveWithin_outcome depth
      simp only [outcome_bind, outcome_attempt]
      refine (((tracking hres ih terms).goes_resolveTerms (c.arena.expr id).span c).and
        (resolveTerms_becomes hres terms (c.arena.expr id).span)).mono ?_ ?_
      · rintro e c₁ ⟨htracks, hunfolds, hsettled, he⟩
        simp only [outcome_modifyExpr, outcome_expr, outcome_emit]
        have htracks : c.Tracks c₁ := htracks
        have hlast := tracks_resolved (hunfolds.run_self hk) hsettled he
        refine (htracks.trans hlast).trans ((steady_emit _ _).tracks rfl)
      · rintro (error | _) c₁ -
        · exact outcome_trivial.mono (fun _ _ _ => trivial) fun _ _ _ => trivial
        · trivial
    · exact .refl c

/-- **A group that is accepted** plays a role, and is no minus sign. -/
theorem resolve_settled (hk : (c.arena.expr t).kind = .run ts) :
    Outcome (resolve t) c (fun _ c' => c'.Settled t ∧ (c'.arena.expr t).kind ≠ .minusSign)
      fun _ _ => True := by
  simp only [resolve, outcome_bind, outcome_arena]
  refine (resolveNode_becomes (resolveWithin_outcome _) hk).imp ?_
  rintro _ c' ⟨hsettled, e, he, hkind⟩
  unfold Settled
  rw [hkind]
  exact ⟨he.isSettled hsettled, he.ne_minusSign⟩

theorem resolve_tracks (t : ExprId) :
    Outcome (resolve t) c (fun _ => c.Tracks) fun _ _ => True := by
  simp only [resolve, outcome_bind, outcome_arena]
  exact resolveWithin_tracks _ c t

/-! ## Reading a run -/

/-- **The states that a run goes through** while its terms are classified and read, whether it is
accepted in the end or not. -/
inductive Passes (resolveRun : ExprId → CheckM Unit) (span : Span) (terms : List ExprId)
    (c : Compilation) : Compilation → Prop where
  | start : Passes resolveRun span terms c c
  | classify {c₁ c₂ : Compilation} {t : ExprId} {term : Term}
    (h : Passes resolveRun span terms c c₁) (ht : t ∈ terms)
    (hok : Termwise.classify resolveRun t c₁ = .ok term c₂) : Passes resolveRun span terms c c₂
  | advance {c₁ c₂ : Compilation} {t : ExprId} {s s' : Arrangement}
    (h : Passes resolveRun span terms c c₁) (ht : t ∈ terms)
    (hok : Arrangement.advance resolveRun span s t c₁ = .ok s' c₂) :
    Passes resolveRun span terms c c₂

theorem Passes.tracks {span : Span} (hres : ResolvesRuns resolveRun)
    (htracks : TracksRuns resolveRun) (h : c.Passes resolveRun span terms c') : c.Tracks c' := by
  induction h with
  | start => exact .refl c
  | classify _ _ hok ih => exact ih.trans ((classify_tracks hres htracks _).of_ok hok)
  | @advance c₁ _ _ s _ _ ht hok ih =>
    have hgoes := Watch.goes_advance (W := tracking hres htracks terms) span s ht c₁
    exact ih.trans (hgoes.of_ok hok)

/-- What plays the role of an operand is one. -/
theorem eq_operand_of_plays {term : Term} (h : term.Plays c t) (hrole : c.role t = .operand) :
    term = .operand t := by
  cases term with
  | operand n => exact congrArg _ h.1
  | minusSign => simp [role, show (c.arena.expr t).kind = .minusSign from h] at hrole
  | leading | trailing => simp [role_of_refersTo h] at hrole
  | binary =>
    obtain ⟨_, -, hrefers⟩ := h
    simp [role_of_refersTo hrefers] at hrole

/-- **A term plays the role that it comes to on its own**, wherever in a run it is read. -/
theorem role_of_passes {span : Span} {term : Term} (hres : ResolvesRuns resolveRun)
    (htracks : TracksRuns resolveRun) (halone : c.Tracks c') (hsettled : c'.Settled t)
    (hpasses : c.Passes resolveRun span terms c'') {c₁ : Compilation}
    (hok : Termwise.classify resolveRun t c'' = .ok term c₁) :
    term.Plays c₁ t ∧ c₁.role t = c'.role t := by
  obtain ⟨-, hsettled₁, hplays⟩ :=
    (classify_unfolds hres c'' (List.mem_singleton_self t)).of_ok hok
  have htracks₁ := (hpasses.tracks hres htracks).trans ((classify_tracks hres htracks t).of_ok hok)
  exact ⟨hplays, halone.role_eq htracks₁ hsettled hsettled₁⟩

/-! ## Operands of what was built -/

/-- **A term is an operand of what was built**: it stands there itself, or it is the function that
is called there, or it is an operand of an argument. -/
inductive OperandOf (c : Compilation) (Built : ExprId → Prop) (terms : List ExprId) :
    (n t : ExprId) → Prop where
  | term {n t : ExprId} (h : StandsFor c Built terms n t) : OperandOf c Built terms n t
  | function {n f t : ExprId} {d : DefId} {fresh args : List ExprId} (hn : Built n)
    (hk : (c.arena.expr n).kind = .call d args) (hf : StandsFor c Built terms f t)
    (happ : Applied c f d fresh args) : OperandOf c Built terms n t
  | argument {n m t : ExprId} {d : DefId} {args : List ExprId} (hn : Built n)
    (hk : (c.arena.expr n).kind = .call d args) (hm : m ∈ args)
    (h : OperandOf c Built terms m t) : OperandOf c Built terms n t
  | negated {n t : ExprId} (hn : Built n) (hk : (c.arena.expr n).kind = .negated t) :
    OperandOf c Built terms n t

theorem InfixOf.role_ne {d : DefId} (h : c.InfixOf d t) : c.role t ≠ .operand := by
  rcases h with ⟨p, a, h⟩ | ⟨hk, -⟩
  · simp [role_of_refersTo h]
  · simp [role, hk]

theorem SignOf.role_ne {d : DefId} (h : c.SignOf d t) : c.role t ≠ .operand := by
  have hleads : ∃ d, c.Leads d t := h.elim (fun h => ⟨d, h⟩) fun h => ⟨_, h.1⟩
  obtain ⟨d, hleads⟩ := hleads
  intro hrole
  have hsign := hleads.isSign
  rw [hrole] at hsign
  cases hsign

theorem mem_of_fills {bound fresh args : List ExprId} (h : Fills c bound fresh args) {m : ExprId}
    (hm : m ∈ fresh) : m ∈ args := by
  induction h with
  | rest => exact hm
  | keep arg _ ih => exact List.mem_cons_of_mem _ (ih hm)
  | fill new _ _ ih =>
    rcases List.mem_cons.1 hm with rfl | hm
    · exact List.mem_cons_self
    · exact List.mem_cons_of_mem _ (ih hm)

theorem mem_of_applied {f m : ExprId} {d : DefId} {fresh args : List ExprId}
    (h : Applied c f d fresh args) (hm : m ∈ fresh) : m ∈ args := by
  cases h with
  | reference => exact hm
  | call _ hfills => exact mem_of_fills hfills hm

/-- **A term that plays the role of an operand** is one of what reads as the run. -/
theorem operandOf_of_reads {Built : ExprId → Prop} {read : List ExprId}
    (h : Reads c Built terms n read) (ht : t ∈ read) (hrole : c.role t = .operand) :
    c.OperandOf Built terms n t := by
  induction h with
  | term h => exact .term (List.mem_singleton.1 ht ▸ h)
  | missing => cases ht
  | binary hn hk ho _ _ ihl ihr =>
    rcases List.mem_append.1 ht with ht | ht
    · exact .argument hn hk (by simp) (ihl ht)
    · rcases List.mem_cons.1 ht with rfl | ht
      · exact (InfixOf.role_ne ho hrole).elim
      · exact .argument hn hk (by simp) (ihr ht)
  | leading hn hk hs _ ih =>
    rcases List.mem_cons.1 ht with rfl | ht
    · exact (SignOf.role_ne hs hrole).elim
    · exact .argument hn hk (by simp) (ih ht)
  | trailing hn hk hs _ ih =>
    rcases List.mem_append.1 ht with ht | ht
    · exact .argument hn hk (by simp) (ih ht)
    · obtain rfl := List.mem_singleton.1 ht
      simp [role_of_refersTo hs] at hrole
  | @juxtaposed _ _ _ _ fresh args _ hn hk hf happ hargs =>
    rcases List.mem_cons.1 ht with rfl | ht
    · exact .function hn hk hf happ
    · obtain ⟨i, hi, rfl⟩ := List.getElem_of_mem ht
      have hstands := hargs.get (hargs.length_eq ▸ hi) hi
      exact .argument hn hk (mem_of_applied happ (List.get_mem fresh _)) (.term hstands)
  | negated hn hk hs =>
    rcases List.mem_cons.1 ht with rfl | ht
    · simp [role, hs] at hrole
    · exact .negated hn (List.mem_singleton.1 ht ▸ hk)

end Compilation

/-- **A group is one operand.** Take a term of a run that is a group, that can be resolved on its
own, and that does not come to a bare operator. Whether the run is accepted or not, wherever the
group is read it is taken for an operand. If the run is accepted, then it reads as its terms, the
group as one of them, and the group is an operand there; a run with nothing but the group in it
becomes what the group is. -/
theorem group_is_operand {c c₁ : Compilation} {id t : ExprId} {terms ts : List ExprId}
    (hk : (c.arena.expr id).kind = .run terms) (ht : t ∈ terms)
    (hgroup : (c.arena.expr t).kind = .run ts) (halone : resolve t c = .ok () c₁)
    (hvalue : ∀ d, (c₁.arena.expr t).kind = .operator d →
      (c₁.arena.definition d).operator = none) :
    (∀ depth span c₂ term c₃, c.Passes (resolveWithin depth) span terms c₂ →
      classify (resolveWithin depth) t c₂ = .ok term c₃ → term = .operand t) ∧
    ∀ c', resolve id c = .ok () c' →
      (terms = [t] → (c'.arena.expr id).kind = (c'.arena.expr t).kind) ∧
      (2 ≤ terms.length →
        Reads c' (fun n => n = id ∨ c.arena.exprs.size ≤ n.index) terms id terms ∧
        c'.OperandOf (fun n => n = id ∨ c.arena.exprs.size ≤ n.index) terms id t) := by
  obtain ⟨hsettled, hminus⟩ := (resolve_settled hgroup).of_ok halone
  have htracks : c.Tracks c₁ := (resolve_tracks t).of_ok halone
  have hrole : c₁.role t = .operand := by
    unfold role
    split <;> rename_i hkind
    · exact (hminus hkind).elim
    · simp only [hvalue _ hkind]
    · rfl
  -- Whatever was done before, the group comes to a term of the role that it has on its own.
  constructor
  · intro depth span c₂ term c₃ hpasses hok
    obtain ⟨hplays, hrole₃⟩ := role_of_passes (resolveWithin_outcome depth)
      (resolveWithin_tracks depth) htracks hsettled hpasses hok
    exact eq_operand_of_plays hplays (hrole₃.trans hrole)
  · intro c' hok
    have htracks' : c.Tracks c' := (resolve_tracks id).of_ok hok
    have hrun : Outcome (resolve id) c (fun _ c' => ((∀ t ∈ terms, c'.Settled t) ∧
        ∃ e, Becomes c' terms e ∧ (c'.arena.expr id).kind = e.kind) ∧
        (2 ≤ terms.length →
          Reads c' (fun n => n = id ∨ c.arena.exprs.size ≤ n.index) terms id terms))
        fun _ _ => True := by
      simp only [resolve, outcome_bind, outcome_arena]
      have hres := resolveWithin_outcome c.arena.exprs.size
      exact ((resolveNode_becomes hres hk).and (resolveNode_outcome hres (fun n => .inr) le_rfl hk
        (.inl rfl))).mono (fun _ _ h => ⟨h.1, h.2.2.2⟩) fun _ _ _ => trivial
    obtain ⟨⟨hsettled', e, he, hkind⟩, hreads⟩ := hrun.of_ok hok
    refine ⟨?_, fun hlength => ⟨hreads hlength, ?_⟩⟩
    · rintro rfl
      cases he with
      | single => exact hkind
      | call hlength | negated hlength => simp at hlength
    · have hrole' := htracks.role_eq htracks' hsettled (hsettled' t ht)
      exact operandOf_of_reads (hreads hlength) ht (hrole'.trans hrole)

/-- The run `2 * (1 + 3)`. -/
def scaledSum : Compilation :=
  { Compilation.new with
    arena :=
      { Arena.empty with
        exprs := #[.new (.value (.int 2)) .int .origin, .new (.operator ⟨3⟩) .hole .origin,
          .new (.value (.int 1)) .int .origin, .new (.operator ⟨1⟩) .hole .origin,
          .new (.value (.int 3)) .int .origin, .new (.run [⟨2⟩, ⟨3⟩, ⟨4⟩]) .hole .origin,
          .new (.run [⟨0⟩, ⟨1⟩, ⟨5⟩]) .hole .origin]
        defs := Builtins.definitions.toArray } }

theorem group_is_operand_scaledSum :
    (∃ c₁, resolve ⟨5⟩ scaledSum = .ok () c₁ ∧
      (c₁.arena.expr ⟨5⟩).kind = .call ⟨1⟩ [⟨2⟩, ⟨4⟩]) ∧
    ∃ c', resolve ⟨6⟩ scaledSum = .ok () c' ∧ (c'.arena.expr ⟨6⟩).kind = .call ⟨3⟩ [⟨0⟩, ⟨5⟩] ∧
      c'.OperandOf (fun n => n = ⟨6⟩ ∨ 7 ≤ n.index) [⟨0⟩, ⟨1⟩, ⟨5⟩] ⟨6⟩ ⟨5⟩ := by
  refine ⟨⟨_, rfl, rfl⟩, _, rfl, rfl, ?_⟩
  have hrun : (scaledSum.arena.expr ⟨6⟩).kind = .run [⟨0⟩, ⟨1⟩, ⟨5⟩] := rfl
  have hgroup : (scaledSum.arena.expr ⟨5⟩).kind = .run [⟨2⟩, ⟨3⟩, ⟨4⟩] := rfl
  have hoperand := group_is_operand hrun (by decide) hgroup rfl nofun
  exact ((hoperand.2 _ rfl).2 (by decide)).2

/-- The run `f (!)`, where `f` takes a function like logical negation. -/
def passedOperator : Compilation :=
  let f : Definition :=
    ⟨"f", .builtin, some (.function [Builtins.notType] .int true), none, .origin⟩
  { Compilation.new with
    arena :=
      { Arena.empty with
        exprs := #[.new (.reference ⟨9⟩) .hole .origin, .new (.operator ⟨6⟩) .hole .origin,
          .new (.run [⟨1⟩]) .hole .origin, .new (.run [⟨0⟩, ⟨2⟩]) .hole .origin]
        defs := (Builtins.definitions ++ [f]).toArray } }

/-- **A group around a bare operator is no operand**: on its own it comes to a reference of the
type that the function takes, but behind the function it is taken for the operator. -/
theorem group_not_operand :
    passedOperator.arena.definitionType ⟨9⟩ = .function [Builtins.notType] .int true ∧
    (∃ c₁, resolve ⟨2⟩ passedOperator = .ok () c₁ ∧
      (c₁.arena.expr ⟨2⟩).kind = .operator ⟨6⟩ ∧ (c₁.arena.expr ⟨2⟩).ty = Builtins.notType) ∧
    ∃ c', resolve ⟨3⟩ passedOperator =
      .error (.error ⟨.unexpectedTerm "prefix operator", .origin⟩) c' :=
  ⟨rfl, ⟨_, rfl, rfl, rfl⟩, _, rfl⟩

end Termwise
