import Termwise.Proofs.Concretization.Soundness
import Termwise.Proofs.Run.Binding

/-!
# Applying a function in stages

A function may be applied to all of its arguments in one run, or to some of them in a group that is
the first term of the run around it, and so on. In each stage but the last one a partial call is
built, which the next stage fills up: its arguments are brought into the types of their parameters
once more, and behind them the new ones.

That makes no difference as long as the arguments are apart. Each of them is taken for the same as
it is on its own, and bringing an argument into the type of its parameter twice is the same as once.
So the stages together accept the arguments that one run accepts, and leave them the same.

## Main definitions

* `Application`, `Compilation.LaysOut`: a function and its arguments, in a compilation
* `Application.Reached`: the stage that has been reached
* `Compilation.stagedRun`: the arguments, handed over in stages

## Main results

* `resolveWithin_stage`: one stage
* `Application.Staged.resolve`: the stages come to the call, or some argument is not accepted
* `resolve_staged`: two ways to hand over the same arguments come to the same
* `stages_matter`: not so if an argument depends on another one
-/

namespace Termwise

open Compilation

variable {c k s s' : Compilation} {g h x : ExprId} {d : DefId} {e e' : Expression}
  {params : List Ty} {args bound taken xs ys : List ExprId} {param result : Ty} {isPure : Bool}

/-! ## Applications -/

/-- A function and its arguments. -/
structure Application where
  function : ExprId
  callee : DefId
  params : List Ty
  result : Ty
  isPure : Bool
  args : List ExprId

/-- **A compilation lays out an application**: a reference to a function of a declared type, and as
many arguments as that has parameters, at least one, all of them apart from each other. An argument
that is a run is judged by what it comes to. -/
structure Compilation.LaysOut (c : Compilation) (A : Application) : Prop
    extends Independent c (A.function :: A.args) where
  reference : (c.arena.expr A.function).kind = .reference A.callee
  signature : (c.arena.definition A.callee).declared = some (.function A.params A.result A.isPure)
  length : A.args.length = A.params.length
  nonempty : A.args ≠ []
  argument : ∀ x ∈ A.args, Outcome (resolve x) c (fun _ c' => c'.IsArgument x) fun _ _ => True

/-- A function with some of its arguments: a reference without any, or a call. -/
def ExprKind.Applies (kind : ExprKind) (d : DefId) (bound : List ExprId) : Prop :=
  kind = .reference d ∧ bound = [] ∨ kind = .call d bound

namespace Application

/-- An expression stands for the function with some of its arguments. -/
structure Applied (A : Application) (bound : List ExprId) (e : Expression) : Prop where
  kind : e.kind.Applies A.callee bound
  ty : bound.length = A.params.length → e.ty = A.result

/-- **How far the stages have come** since the first run was entered: some arguments are bound, some
more were taken, and no run above the one at hand has changed. -/
structure Progress (A : Application) (c k : Compilation) (h : ExprId) (bound taken : List ExprId)
    (s : Compilation) : Prop where
  keeps : c.KeepsTo (c.trees (A.function :: (bound ++ taken))) s
  fits : ∀ pair ∈ bound.zip A.params, c.Bound s pair.1 pair.2
  taken : ∀ x ∈ taken, ∃ e, c.TakenAs x e ∧ e.Akin (s.arena.expr x)
  size : k.arena.exprs.size ≤ s.arena.exprs.size
  above : ∀ n : ExprId, c.arena.exprs.size ≤ n.index → h.index < n.index →
    n.index < k.arena.exprs.size → s.arena.expr n = k.arena.expr n

/-- **The stage that has been reached**: a node stands for the function with the arguments that are
bound. -/
structure Reached (A : Application) (c k : Compilation) (h : ExprId) (bound taken : List ExprId)
    (s : Compilation) : Prop extends Progress A c k h bound taken s where
  applied : A.Applied bound (s.arena.expr h)

end Application

namespace ExprKind

variable {kind : ExprKind}

theorem Applies.ne_negated (h : kind.Applies d bound) (n : ExprId) : kind ≠ .negated n := by
  rcases h with ⟨rfl, -⟩ | rfl <;> exact nofun

theorem Applies.ne_deleted (h : kind.Applies d bound) : kind ≠ .deleted := by
  rcases h with ⟨rfl, -⟩ | rfl <;> exact nofun

end ExprKind

namespace Compilation.LaysOut

variable {A : Application} (hA : c.LaysOut A)
include hA

theorem nodup : (A.function :: A.args).Nodup := by
  refine hA.apart.imp ?_
  rintro r _ hapart rfl
  exact hapart r .refl .refl

/-- The arguments before one of them are apart from it. -/
theorem apart_of_front (hfront : bound ++ [x] <+: A.args) {r : ExprId}
    (hr : r ∈ A.function :: bound) {n : ExprId} (hn : c.Below r n) : ¬ c.Below x n := by
  have hsub : A.function :: (bound ++ [x]) <+: A.function :: A.args :=
    List.cons_prefix_cons.2 ⟨rfl, hfront⟩
  have hnodup : (A.function :: bound ++ [x]).Nodup := hA.nodup.sublist hsub.sublist
  have hx : x ∈ A.function :: A.args := hsub.subset (by simp)
  refine hA.disjoint (hsub.subset ?_) hx ?_ hn
  · rcases List.mem_cons.1 hr with rfl | hr
    · exact List.mem_cons_self
    · exact List.mem_cons_of_mem _ (List.mem_append_left _ hr)
  · rintro rfl
    exact (List.nodup_append.1 hnodup).2.2 r hr r (List.mem_singleton_self r) rfl

theorem lt_size_of_mem (hx : x ∈ A.args) : x.index < c.arena.exprs.size :=
  hA.inside x (List.mem_cons_of_mem _ hx) x .refl

/-- Without any argument, the call is not complete. -/
theorem length_nil_ne : ([] : List ExprId).length ≠ A.params.length := by
  rw [← hA.length]
  exact fun hlength => hA.nonempty (List.length_eq_zero_iff.1 hlength.symm)

/-- The function has its type all along. -/
theorem definitionType {S : Set ExprId} (hs : c.KeepsTo S s) :
    s.arena.definitionType A.callee = .function A.params A.result A.isPure := by
  refine Arena.definitionType_of_declared ?_
  rw [hs.definition, hA.signature]

end Compilation.LaysOut

/-- **An application is laid out in stages**: a run starts with the function, or with the run before
it, and some arguments follow. -/
inductive Application.Staged (A : Application) (c k : Compilation) : ExprId → List ExprId → Prop
  | function : Staged A c k A.function []
  | stage {g h : ExprId} {bound ys : List ExprId} : Staged A c k h bound →
    (k.arena.expr g).kind = .run (h :: ys) → c.arena.exprs.size ≤ g.index → h.index < g.index →
    Staged A c k g (bound ++ ys)

namespace Application.Staged

variable {A : Application} {depth : Nat}

/-- The function, or a run that was appended. -/
theorem function_or (hg : A.Staged c k g bound) :
    g = A.function ∨ c.arena.exprs.size ≤ g.index := by
  cases hg with
  | function => exact .inl rfl
  | stage _ _ hfloor => exact .inr hfloor

/-- What is appended later changes nothing. -/
theorem mono {k' : Compilation} (hg : A.Staged c k g bound) (hkeeps : k.KeepsTo ∅ k') :
    A.Staged c k' g bound := by
  induction hg with
  | function => exact .function
  | stage _ hk hfloor hlt ih =>
    refine .stage ih ?_ hfloor hlt
    rw [hkeeps.expr _ (Arena.lt_size_of_kind_ne (by simp [hk])) id, hk]

variable (hA : c.LaysOut A) (hkeeps : c.KeepsTo ∅ k)
include hA

/-- The function and the runs are apart from the arguments. -/
theorem not_below (hg : A.Staged c k g bound) (hx : x ∈ A.args) : ¬ c.Below x g := by
  intro hbelow
  have hx' : x ∈ A.function :: A.args := List.mem_cons_of_mem _ hx
  rcases hg.function_or with rfl | hfloor
  · refine hA.disjoint List.mem_cons_self hx' ?_ .refl hbelow
    rintro rfl
    exact (List.nodup_cons.1 hA.nodup).1 hx
  · exact absurd (hA.inside x hx' g hbelow) (Nat.not_lt.2 hfloor)

include hkeeps

theorem ne_minusSign (hg : A.Staged c k g bound) : (k.arena.expr g).kind ≠ .minusSign := by
  cases hg with
  | function =>
    rw [hkeeps.expr _ (Arena.lt_size_of_kind_ne (by simp [hA.reference])) id, hA.reference]
    exact nofun
  | stage _ hk => simp [hk]

end Application.Staged

/-! ## Collecting the arguments of a stage -/

namespace Application.Reached

variable {A : Application} {depth : Nat}

theorem lt_size (hs : A.Reached c k h bound taken s) : h.index < s.arena.exprs.size :=
  Arena.lt_size_of_kind_ne hs.applied.kind.ne_deleted

/-- What is bound is not missing. -/
theorem given (hs : A.Reached c k h bound taken s) (hle : bound.length ≤ A.params.length) :
    ∀ x ∈ bound, s.arena.isMissing x = false := by
  intro x hx
  obtain ⟨param, hpair⟩ := exists_mem_zip hle hx
  exact (hs.fits _ hpair).isMissing

/-- What is bound and what was taken is ready to be bound. -/
theorem ready (hs : A.Reached c k h bound taken s) :
    ∀ pair ∈ (bound ++ taken).zip A.params, c.Ready s pair.1 pair.2 := by
  intro pair hpair
  rcases mem_zip_append hpair with hbound | htaken
  · exact .inr (hs.fits pair hbound)
  · exact .inl (hs.taken _ htaken)

/-- What was taken is an ordinary operand. -/
theorem ne_negated (hs : A.Reached c k h bound taken s) (hx : x ∈ taken) (n : ExprId) :
    (s.arena.expr x).kind ≠ .negated n := by
  obtain ⟨e, ⟨_, _, _, _, hwhole⟩, hakin⟩ := hs.taken x hx
  exact hakin.ne_negated hwhole n

/-- What was reached does not depend on the log. -/
theorem emit (hs : A.Reached c k h bound taken s) (event : Event) :
    A.Reached c k h bound taken (s.emit event) :=
  ⟨⟨⟨⟨hs.keeps.builtins, hs.keeps.defs, hs.keeps.stmts, hs.keeps.roots⟩, hs.keeps.size,
    hs.keeps.expr⟩, hs.fits, hs.taken, hs.size, hs.above⟩, hs.applied⟩

/-- **One argument more is taken**, or it is not accepted. -/
theorem classify (hA : c.LaysOut A) (hs : A.Reached c k h bound taken s)
    (hfront : bound ++ taken ++ [x] <+: A.args) (hh : ∀ y ∈ A.args, ¬ c.Below y h)
    (hdepth : c.arena.exprs.size ≤ depth) :
    Outcome (Termwise.classify (resolveWithin depth) x) s
      (fun term s' => term = .operand x ∧ A.Reached c k h bound (taken ++ [x]) s')
      fun _ _ => ¬ c.AcceptsAll A.args A.params := by
  have hx : x ∈ A.args := hfront.subset (by simp)
  have hx' : x ∈ A.function :: A.args := List.mem_cons_of_mem _ hx
  have hroots : A.function :: (bound ++ taken) ⊆ A.function :: A.args :=
    List.cons_subset_cons _ fun y hy => hfront.subset (List.mem_append_left _ hy)
  have hS : ∀ n ∈ c.trees (A.function :: (bound ++ taken)),
      n ∈ c.trees (A.function :: A.args) ∧ ¬ c.Below x n := by
    rintro n ⟨r, hr, hn⟩
    exact ⟨⟨r, hroots hr, hn⟩, hA.apart_of_front hfront hr hn⟩
  refine (hA.classify_elsewhere hx' (hA.argument x hx) hs.keeps hS hdepth).mono ?_ ?_
  · rintro term s' ⟨rfl, hkeeps, e, htaken, hakin⟩
    -- What was bound or taken before is no part of the tree of this argument.
    have hsame (y : ExprId) (hy : y ∈ bound ++ taken) : s'.arena.expr y = s.arena.expr y := by
      have hlt := hA.inside y (hroots (List.mem_cons_of_mem _ hy)) y .refl
      refine hkeeps.expr y (hlt.trans_le hs.keeps.size) ?_
      exact hA.apart_of_front hfront (List.mem_cons_of_mem _ hy) .refl
    have hsub : A.function :: (bound ++ taken) ⊆ A.function :: (bound ++ (taken ++ [x])) := by
      rw [← List.append_assoc]
      exact List.cons_subset_cons _ (List.subset_append_left _ _)
    have hkeeps' : c.KeepsTo (c.trees (A.function :: (bound ++ (taken ++ [x])))) s' := by
      refine (hs.keeps.mono fun n hn _ => trees_mono hsub hn).trans hkeeps ?_
      intro n hn _
      exact ⟨x, by simp, hn⟩
    have hfits : ∀ pair ∈ bound.zip A.params, c.Bound s' pair.1 pair.2 := by
      intro pair hpair
      exact (hs.fits pair hpair).congr (hsame _ (List.mem_append_left _ (List.of_mem_zip hpair).1))
    have htaken' : ∀ y ∈ taken ++ [x], ∃ e, c.TakenAs y e ∧ e.Akin (s'.arena.expr y) := by
      intro y hy
      rcases List.mem_append.1 hy with hy | hy
      · rw [hsame y (List.mem_append_right _ hy)]
        exact hs.taken y hy
      · cases List.mem_singleton.1 hy
        exact ⟨e, htaken, hakin⟩
    refine ⟨rfl, ⟨hkeeps', hfits, htaken', hs.size.trans hkeeps.size, ?_⟩, ?_⟩
    -- The runs are no part of it either: they were appended behind all the trees.
    · intro n hle habove hlt
      rw [← hs.above n hle habove hlt]
      refine hkeeps.expr n (hlt.trans_le hs.size) fun hn => ?_
      exact absurd (hA.inside x hx' n hn) (Nat.not_lt.2 hle)
    · rw [hkeeps.expr h hs.lt_size (hh x hx)]
      exact hs.applied
  · exact fun _ _ hnot hall => hnot (hall.takenAs hA.length hx)

end Application.Reached

section

variable {stopped : Stop → Compilation → Prop}

theorem outcome_normalizeOperand {ended : ExprId → Compilation → Prop}
    (hk : ∀ n, (s.arena.expr x).kind ≠ .negated n) :
    Outcome (Arrangement.normalizeOperand x) s ended stopped ↔ ended x s := by
  simp only [Arrangement.normalizeOperand, outcome_bind, outcome_expr, outcome_pure]

/-- The one function of a run is applied to the arguments collected for it, and the run ends. -/
theorem outcome_finish_collecting {ended : Expression → Compilation → Prop} (slots : Nat)
    (span : Span) :
    Outcome (Arrangement.finish ⟨[], [], [], .collecting h slots args⟩ span) s ended stopped ↔
      Outcome (Arrangement.applyCollected h args) s (fun r s' => ended (s'.arena.expr r) s')
        stopped := by
  simp only [Arrangement.finish, Arrangement.pushOperand, Arrangement.applyLeading, outcome_bind,
    outcome_pure, Arrangement.reduceAll, outcome_expr]

/-- So it is if it was applied as it had all the arguments that it takes. -/
theorem outcome_finish_pushed {ended : Expression → Compilation → Prop} (slots : Nat)
    (span : Span) :
    Outcome (Arrangement.pushOperand ⟨[], [], [], .collecting h slots taken⟩ h args) s
        (fun a s' => Outcome (a.finish span) s' ended stopped) stopped ↔
      Outcome (Arrangement.applyCollected h args) s (fun r s' => ended (s'.arena.expr r) s')
        stopped := by
  simp only [Arrangement.finish, Arrangement.pushOperand, Arrangement.applyLeading, outcome_bind,
    outcome_pure, Arrangement.reduceAll, outcome_expr]

end

/-- **The arguments of a stage are collected**, and the function of the stage is applied to them. -/
theorem Application.Reached.collect {A : Application} {depth slots : Nat} (hA : c.LaysOut A)
    {ended : Expression → Compilation → Prop} (span : Span) (hs : A.Reached c k h bound taken s)
    (hfront : bound ++ (taken ++ ys) <+: A.args)
    (hslots : bound.length + slots = A.params.length) (hh : ∀ y ∈ A.args, ¬ c.Below y h)
    (hdepth : c.arena.exprs.size ≤ depth)
    (hended : ∀ s', A.Reached c k h bound (taken ++ ys) s' →
      Outcome (Arrangement.applyCollected h (taken ++ ys)) s'
        (fun r s'' => ended (s''.arena.expr r) s'') fun _ _ => ¬ c.AcceptsAll A.args A.params) :
    Outcome (do
      let a ← ys.foldlM (Arrangement.advance (resolveWithin depth) span)
        ⟨[], [], [], .collecting h slots taken⟩
      a.finish span) s ended fun _ _ => ¬ c.AcceptsAll A.args A.params := by
  -- On the arguments that are left; those before them are bound or taken.
  induction ys generalizing taken s with
  | nil =>
    rw [List.foldlM_nil, outcome_bind, outcome_pure, outcome_finish_collecting]
    simpa using hended s (by simpa using hs)
  | cons y ys ih =>
    rw [List.append_cons] at hfront hended
    have hy : bound ++ taken ++ [y] <+: A.args := by
      rw [List.append_assoc]
      exact (List.prefix_append_right_inj bound).2 (List.prefix_append _ ys) |>.trans hfront
    simp only [List.foldlM_cons, Arrangement.advance, outcome_bind]
    refine (hs.classify hA hy hh hdepth).imp ?_
    rintro _ s₁ ⟨rfl, hs₁⟩
    have hlast : y ∈ taken ++ [y] := List.mem_append_right _ (List.mem_singleton_self y)
    simp only [outcome_bind, outcome_normalizeOperand (hs₁.ne_negated hlast)]
    split <;> rename_i hfull
    -- The function has all the arguments that it takes, so none are left.
    · have hle := hfront.length_le
      have hlength := hA.length
      have hnil : ys = [] := by
        rw [← List.length_eq_zero_iff]
        simp only [List.length_append] at hle hfull
        omega
      subst hnil
      rw [List.append_nil] at hended
      simp only [List.foldlM_nil, outcome_pure]
      exact (outcome_finish_pushed slots span).2 (hended s₁ hs₁)
    · have hrest := ih hs₁ hfront hended
      rw [outcome_bind] at hrest
      exact hrest

/-! ## Applying the function of a stage -/

/-- Arguments none of which is missing stay in front. -/
theorem fillOpen_of_given {isMissing : ExprId → Bool} (hgiven : ∀ x ∈ bound, isMissing x = false)
    (fresh : List ExprId) : Arrangement.fillOpen isMissing bound fresh = bound ++ fresh := by
  induction bound with
  | nil => rfl
  | cons x bound ih =>
    obtain ⟨hx, hrest⟩ := List.forall_mem_cons.1 hgiven
    simp only [Arrangement.fillOpen, hx, ih hrest, List.cons_append]

section

variable {stopped : Stop → Compilation → Prop}

/-- What is applied takes as many arguments as it has open parameters. -/
theorem ExprKind.Applies.openSlots (hs : (s.arena.expr h).kind.Applies d bound)
    (hty : s.arena.definitionType d = .function params result isPure)
    (hgiven : ∀ x ∈ bound, s.arena.isMissing x = false) (hlt : bound.length < params.length) :
    bound.length + s.arena.openSlots h = params.length := by
  have harity : (s.arena.definitionType d).arity = params.length := by rw [hty]; rfl
  rcases hs with ⟨hk, rfl⟩ | hk
  · simp only [Arena.openSlots, hk, harity, List.length_nil, Nat.zero_add]
  · have hcount : bound.countP s.arena.isMissing = 0 := by
      rw [List.countP_eq_zero]
      intro x hx
      rw [hgiven x hx]
      exact Bool.false_ne_true
    have hpartial : s.arena.isPartialCall h = true := by
      simp only [Arena.isPartialCall, hk, harity, hlt, decide_true, Bool.true_or]
    simp only [Arena.openSlots, hk, hpartial, if_true, harity, hcount]
    omega

/-- It is applied to more arguments by a call of all of them. -/
theorem ExprKind.Applies.applyCollected {ended : ExprId → Compilation → Prop}
    (hs : (s.arena.expr h).kind.Applies d bound)
    (hgiven : ∀ x ∈ bound, s.arena.isMissing x = false) (hargs : args ≠ [])
    (hcall : ∀ span, Outcome (allocCall d (bound ++ args) span) s ended stopped) :
    Outcome (Arrangement.applyCollected h args) s ended stopped := by
  have hempty : args.isEmpty = false := by simpa using hargs
  simp only [Arrangement.applyCollected, hempty, Bool.false_eq_true, if_false, outcome_bind,
    outcome_arena]
  rcases hs with ⟨hk, rfl⟩ | hk
  · simp only [hk]
    exact hcall _
  · simp only [hk, fillOpen_of_given hgiven]
    exact hcall _

/-- A run that starts with an operand and goes on is arranged. -/
theorem resolveTerms_of_operand {ended : Expression → Compilation → Prop}
    {resolveRun : ExprId → CheckM Unit} {span : Span} (hys : ys ≠ [])
    (hsign : (s.arena.expr h).kind ≠ .minusSign)
    (harrange : Outcome (arrange resolveRun (h :: ys) span) s ended stopped) :
    Outcome (resolveTerms resolveRun (h :: ys) span) s ended stopped := by
  match ys, hys with
  | [y], _ => simpa only [resolveTerms, outcome_bind, outcome_expr, hsign, if_false] using harrange
  | _ :: _ :: _, _ => exact harrange

end

section

variable {A : Application} {depth : Nat} (hA : c.LaysOut A)
include hA

/-- A function that was reached is applied to what was taken. -/
theorem Application.Reached.apply (hs : A.Reached c k h bound ys s) (hys : ys ≠ [])
    (hfront : bound ++ ys <+: A.args) :
    Outcome (Arrangement.applyCollected h ys) s
      (fun r s' => A.Progress c k h (bound ++ ys) [] s' ∧
        A.Applied (bound ++ ys) (s'.arena.expr r))
      fun _ _ => ¬ c.AcceptsAll A.args A.params := by
  have hle : (bound ++ ys).length ≤ A.params.length := hA.length ▸ hfront.length_le
  have hle' : bound.length ≤ A.params.length := by
    rw [List.length_append] at hle
    omega
  have hinside (x : ExprId) (hx : x ∈ bound ++ ys) : x.index < c.arena.exprs.size :=
    hA.lt_size_of_mem (hfront.subset hx)
  have hnodup : (bound ++ ys).Nodup := hA.nodup.of_cons.sublist hfront.sublist
  -- The call of a stage has all arguments so far; those that were bound before are bound again.
  refine hs.applied.kind.applyCollected (hs.given hle') hys fun span => ?_
  refine (allocCall_ready (hA.definitionType hs.keeps) hle hnodup
    (fun x hx => (hinside x hx).trans_le hs.keeps.size) hs.ready span).mono ?_ ?_
  · rintro r s' ⟨hkeeps, hbound, hkind, htype⟩
    refine ⟨⟨?_, hbound, nofun, hs.size.trans hkeeps.size, ?_⟩, .inr hkind, htype⟩
    · rw [List.append_nil]
      exact hs.keeps.trans hkeeps fun n hn _ => ⟨n, List.mem_cons_of_mem _ hn, .refl⟩
    · intro n hge habove hlt
      rw [← hs.above n hge habove hlt]
      refine hkeeps.expr n (hlt.trans_le hs.size) fun hn => ?_
      exact absurd (hinside n hn) (Nat.not_lt.2 hge)
  · intro _ _ hnot hall
    exact hnot fun pair hpair => hall pair (mem_zip_mono hfront hpair)

/-- **The terms of a stage** come to the function with the arguments so far. -/
theorem resolveTerms_stage (span : Span) (hkeeps : c.KeepsTo ∅ k) (hh : A.Staged c k h bound)
    (hfront : bound ++ ys <+: A.args) (hdepth : c.arena.exprs.size ≤ depth)
    (hhead : Outcome (classify (resolveWithin depth) h) k
      (fun term s => term = .operand h ∧ A.Reached c k h bound [] s)
      fun _ _ => ¬ c.AcceptsAll A.args A.params) :
    Outcome (resolveTerms (resolveWithin depth) (h :: ys) span) k
      (fun e s => A.Progress c k h (bound ++ ys) [] s ∧ A.Applied (bound ++ ys) e)
      fun _ _ => ¬ c.AcceptsAll A.args A.params := by
  -- A run of one term is that term, so a pair of parentheses is a stage without arguments.
  by_cases hys : ys = []
  · subst hys
    simp only [resolveTerms, outcome_bind]
    refine hhead.imp ?_
    rintro _ s ⟨rfl, hs⟩
    rw [List.append_nil]
    exact ⟨hs.toProgress, hs.applied⟩
  · have hle : (bound ++ ys).length ≤ A.params.length := hA.length ▸ hfront.length_le
    have hopen : bound.length < A.params.length := by
      have hpos := List.length_pos_iff.2 hys
      rw [List.length_append] at hle
      omega
    refine resolveTerms_of_operand hys (hh.ne_minusSign hA hkeeps) ?_
    simp only [arrange, List.foldlM_cons, Arrangement.advance, Arrangement.start, outcome_bind]
    refine hhead.imp ?_
    rintro _ s ⟨rfl, hs⟩
    have hslots := hs.applied.kind.openSlots (hA.definitionType hs.keeps) (hs.given hopen.le) hopen
    have hne : s.arena.openSlots h ≠ 0 := by omega
    simp only [Arrangement.placeOperandDue, outcome_bind,
      outcome_normalizeOperand hs.applied.kind.ne_negated, outcome_arena, hne, if_false,
      outcome_pure]
    exact outcome_bind.1 (hs.collect hA span hfront hslots (fun y hy => hh.not_below hA hy) hdepth
      fun s' hs' => hs'.apply hA hys hfront)

/-- The run of a stage becomes what its terms came to. -/
theorem Application.Progress.replaced (hs : A.Progress c k h bound [] s)
    (happlied : A.Applied bound e) (hg : g.index < k.arena.exprs.size)
    (hfloor : c.arena.exprs.size ≤ g.index) (hlt : h.index < g.index) (hfront : bound <+: A.args) :
    A.Reached c k g bound [] (s.modifyArena (·.modifyExpr g (·.replaceBy e))) := by
  have hself : (s.arena.modifyExpr g (·.replaceBy e)).expr g = (s.arena.expr g).replaceBy e :=
    Arena.expr_modifyExpr_self (hg.trans_le hs.size) _
  have hother (n : ExprId) (hn : n ≠ g) :
      (s.arena.modifyExpr g (·.replaceBy e)).expr n = s.arena.expr n :=
    Arena.expr_modifyExpr_of_ne hn _
  have hmodified := keepsTo_modifyExpr (c := s) (Set.mem_singleton g) (·.replaceBy e)
  refine ⟨⟨?_, ?_, nofun, hs.size.trans hmodified.size, ?_⟩, ?_⟩
  -- The run was appended, so it is no part of the trees.
  · refine hs.keeps.trans hmodified ?_
    intro n hn hlt'
    rw [Set.mem_singleton_iff.1 hn] at hlt'
    exact absurd hlt' (Nat.not_lt.2 hfloor)
  · intro pair hpair
    refine (hs.fits pair hpair).congr (hother _ ?_)
    have hinside := hA.lt_size_of_mem (hfront.subset (List.of_mem_zip hpair).1)
    rintro heq
    rw [heq] at hinside
    exact absurd hinside (Nat.not_lt.2 hfloor)
  · intro n hge habove hn
    rw [← hs.above n hge (hlt.trans habove) hn]
    refine hother n ?_
    rintro rfl
    exact lt_irrefl _ habove
  · rw [modifyArena, hself]
    exact ⟨happlied.kind, happlied.ty⟩

/-- **A stage is resolved**: its run becomes the function with the arguments so far. -/
theorem resolveWithin_stage (hkeeps : c.KeepsTo ∅ k) (hh : A.Staged c k h bound)
    (hk : (k.arena.expr g).kind = .run (h :: ys)) (hfloor : c.arena.exprs.size ≤ g.index)
    (hlt : h.index < g.index) (hfront : bound ++ ys <+: A.args)
    (hdepth : c.arena.exprs.size ≤ depth)
    (hhead : Outcome (classify (resolveWithin depth) h) k
      (fun term s => term = .operand h ∧ A.Reached c k h bound [] s)
      fun _ _ => ¬ c.AcceptsAll A.args A.params) :
    Outcome (resolveWithin (depth + 1) g) k (fun _ s => A.Reached c k g (bound ++ ys) [] s)
      fun _ _ => ¬ c.AcceptsAll A.args A.params := by
  simp only [resolveWithin, resolveNode, outcome_bind, outcome_expr, hk, outcome_attempt]
  refine (resolveTerms_stage hA _ hkeeps hh hfront hdepth hhead).mono ?_ ?_
  · rintro e s ⟨hs, happlied⟩
    simp only [outcome_modifyExpr, outcome_emit]
    have hg : g.index < k.arena.exprs.size := Arena.lt_size_of_kind_ne (by simp [hk])
    exact (hs.replaced hA happlied hg hfloor hlt hfront).emit _
  · rintro (error | _) s hnot
    · simp only [markFailed, outcome_bind, outcome_modifyExpr, outcome_modify, outcome_throw]
      exact hnot
    · exact hnot

/-- A node that stands for the function is typed anew. -/
theorem Application.Reached.refreshed (hs : A.Reached c k h bound [] s)
    (hh : h = A.function ∨ c.arena.exprs.size ≤ h.index) :
    A.Reached c k h bound [] (s.refreshed h) := by
  rcases hs.applied.kind with ⟨hk, rfl⟩ | hk
  · have hkeeps := keepsTo_refreshed s h
    have hkind : ((s.refreshed h).arena.expr h).kind.Applies A.callee [] :=
      .inl ⟨(kind_refreshed s h h).trans hk, rfl⟩
    refine ⟨⟨?_, nofun, nofun, hs.size.trans hkeeps.size, ?_⟩, hkind, ?_⟩
    · refine hs.keeps.trans hkeeps ?_
      intro n hn hlt
      cases Set.mem_singleton_iff.1 hn
      rcases hh with rfl | hh
      · exact ⟨_, List.mem_cons_self, .refl⟩
      · exact absurd hlt (Nat.not_lt.2 hh)
    · intro n hge habove hlt
      rw [← hs.above n hge habove hlt]
      refine hkeeps.expr n (hlt.trans_le hs.size) ?_
      rintro rfl
      exact lt_irrefl _ habove
    -- The type is that of the function, but there are parameters, and none has its argument yet.
    · exact fun hlength => absurd hlength hA.length_nil_ne
  · have hself : s.refreshed h = s := by simp only [Compilation.refreshed, hk]
    rwa [hself]

/-- So it is as it is classified. -/
theorem Application.Reached.classifyResolved (hs : A.Reached c k h bound [] s)
    (hh : h = A.function ∨ c.arena.exprs.size ≤ h.index) (span : Span) :
    Outcome (Termwise.classifyResolved h span) s
      (fun term s => term = .operand h ∧ A.Reached c k h bound [] s)
      fun _ _ => ¬ c.AcceptsAll A.args A.params := by
  have hrefreshed := hs.refreshed hA hh
  simp only [Termwise.classifyResolved, outcome_bind, outcome_refreshReference, outcome_expr]
  rcases hrefreshed.applied.kind with ⟨hk, -⟩ | hk <;> simp only [hk] <;> exact ⟨rfl, hrefreshed⟩

/-! ## All stages -/

/-- **Stage after stage**, the function takes the arguments, or one of them is not accepted. -/
theorem Application.Staged.classify (hg : A.Staged c k g bound) (hkeeps : c.KeepsTo ∅ k)
    (hfront : bound <+: A.args) (hdepth : g.index < depth) :
    Outcome (Termwise.classify (resolveWithin depth) g) k
      (fun term s => term = .operand g ∧ A.Reached c k g bound [] s)
      fun _ _ => ¬ c.AcceptsAll A.args A.params := by
  -- On the stages: the first term of a run is the run of the stage before it.
  induction hg generalizing depth with
  | function =>
    have hf : (k.arena.expr A.function).kind = .reference A.callee := by
      rw [hkeeps.expr _ (Arena.lt_size_of_kind_ne (by simp [hA.reference])) id, hA.reference]
    have hstart : A.Reached c k A.function [] [] k := by
      refine ⟨⟨hkeeps.mono nofun, nofun, nofun, le_rfl, fun _ _ _ _ => rfl⟩, .inl ⟨hf, rfl⟩, ?_⟩
      exact fun hlength => absurd hlength hA.length_nil_ne
    simp only [Termwise.classify, outcome_bind, outcome_expr, hf]
    exact hstart.classifyResolved hA (.inl rfl) _
  | stage hh hk hfloor hlt ih =>
    obtain ⟨depth, rfl⟩ := Nat.exists_eq_succ_of_ne_zero (Nat.ne_zero_of_lt hdepth)
    have hle := Nat.le_of_lt_succ hdepth
    have hhead := ih ((List.prefix_append _ _).trans hfront) (hlt.trans_le hle)
    have hresolved := resolveWithin_stage hA hkeeps hh hk hfloor hlt hfront (hfloor.trans hle) hhead
    simp only [Termwise.classify, outcome_bind, outcome_expr, hk, outcome_attempt]
    refine hresolved.mono (fun _ s hs => hs.classifyResolved hA (.inr hfloor) _) ?_
    rintro (error | _) s hnot
    · exact hnot
    · exact hnot

/-- **The stages come to the call** of the function with all arguments, or one of the arguments is
not accepted by its parameter. -/
theorem Application.Staged.resolve (hg : A.Staged c k g A.args) (hkeeps : c.KeepsTo ∅ k) :
    Outcome (Termwise.resolve g) k (fun _ s => A.Reached c k g A.args [] s)
      fun _ _ => ¬ c.AcceptsAll A.args A.params := by
  generalize hargs : A.args = args at hg
  cases hg with
  | function => exact absurd hargs hA.nonempty
  | stage hh hk hfloor hlt =>
    have hg : g.index < k.arena.exprs.size := Arena.lt_size_of_kind_ne (by simp [hk])
    have hhead := hh.classify hA hkeeps (hargs ▸ List.prefix_append _ _) (hlt.trans hg)
    have hresolved := resolveWithin_stage hA hkeeps hh hk hfloor hlt (hargs ▸ List.prefix_rfl)
      hkeeps.size hhead
    simp only [Termwise.resolve, outcome_bind, outcome_arena]
    rw [← hargs] at hresolved ⊢
    exact hresolved

end

/-- **The arguments of a function, handed over in stages**: the function and some arguments are a
run, this run and some more arguments are another one, and so on. -/
def Compilation.stagedRun (c : Compilation) (function : ExprId) :
    List (List ExprId × Span) → ExprId × Compilation
  | [] => (function, c)
  | (args, span) :: stages =>
    let (run, c) := c.allocExpr (.new (.run (function :: args)) .hole span)
    c.stagedRun run stages

theorem Application.Staged.stagedRun {A : Application} (hg : A.Staged c k g bound)
    (hkeeps : c.KeepsTo ∅ k) (hlt : g.index < k.arena.exprs.size)
    (stages : List (List ExprId × Span)) :
    A.Staged c (k.stagedRun g stages).2 (k.stagedRun g stages).1
        (bound ++ stages.flatMap Prod.fst) ∧
      c.KeepsTo ∅ (k.stagedRun g stages).2 := by
  induction stages generalizing k g bound with
  | nil => exact ⟨by simpa [Compilation.stagedRun] using hg, hkeeps⟩
  | cons stage stages ih =>
    obtain ⟨args, span⟩ := stage
    have happended := keepsTo_allocExpr ∅ k (.new (.run (g :: args)) .hole span)
    have hrun := Arena.expr_allocExpr_self k.arena (.new (.run (g :: args)) .hole span)
    have hstage := (hg.mono happended).stage (congrArg Expression.kind hrun) hkeeps.size hlt
    rw [List.flatMap_cons, ← List.append_assoc]
    refine ih hstage (hkeeps.trans happended fun _ hn => hn.elim) ?_
    simp

namespace Compilation.LaysOut

variable {A : Application} {stages : List (List ExprId × Span)} (hA : c.LaysOut A)
  (hstages : stages.flatMap Prod.fst = A.args)
include hA hstages

theorem resolve_stages :
    Outcome (resolve (c.stagedRun A.function stages).1) (c.stagedRun A.function stages).2
      (fun _ s => A.Reached c (c.stagedRun A.function stages).2
        (c.stagedRun A.function stages).1 A.args [] s)
      fun _ _ => ¬ c.AcceptsAll A.args A.params := by
  have hfunction : A.function.index < c.arena.exprs.size :=
    Arena.lt_size_of_kind_ne (by simp [hA.reference])
  have hstaged : A.Staged c c A.function [] := .function
  obtain ⟨hg, hkeeps⟩ := hstaged.stagedRun (.refl ∅ c) hfunction stages
  rw [List.nil_append, hstages] at hg
  exact hg.resolve hA hkeeps

/-- **The stages come to an end** exactly if every argument is accepted by its parameter. -/
theorem resolve_stages_iff :
    (∃ c', resolve (c.stagedRun A.function stages).1 (c.stagedRun A.function stages).2 =
      .ok () c') ↔ c.AcceptsAll A.args A.params := by
  have houtcome := hA.resolve_stages hstages
  constructor
  · rintro ⟨c', hok⟩ pair hpair
    obtain ⟨e, haccepts, -⟩ := (houtcome.of_ok hok).fits pair hpair
    exact ⟨e, haccepts⟩
  · intro hall
    obtain ⟨_, c', hok, -⟩ := (houtcome.mono (fun _ _ h => h) fun _ _ hnot => hnot hall).exists_ok
    exact ⟨c', hok⟩

end Compilation.LaysOut

/-- **Applying a function in stages is applying it at once.** Two ways to hand over the same
arguments come to the call both or none of them does, and then the call is the same, of the same
type, and each argument has the same type and value. -/
theorem resolve_staged {A : Application} (hA : c.LaysOut A)
    (stages stages' : List (List ExprId × Span))
    (hstages : stages.flatMap Prod.fst = A.args) (hstages' : stages'.flatMap Prod.fst = A.args) :
    let g := (c.stagedRun A.function stages).1
    let k := (c.stagedRun A.function stages).2
    let g' := (c.stagedRun A.function stages').1
    let k' := (c.stagedRun A.function stages').2
    ((∃ c₁, resolve g k = .ok () c₁) ↔ ∃ c₂, resolve g' k' = .ok () c₂) ∧
      ∀ c₁ c₂, resolve g k = .ok () c₁ → resolve g' k' = .ok () c₂ →
        (c₁.arena.expr g).kind = .call A.callee A.args ∧ (c₁.arena.expr g).ty = A.result ∧
        (c₂.arena.expr g').kind = .call A.callee A.args ∧ (c₂.arena.expr g').ty = A.result ∧
        ∀ x ∈ A.args, (c₂.arena.expr x).ty = (c₁.arena.expr x).ty ∧
          (c₂.arena.expr x).value? = (c₁.arena.expr x).value? := by
  intro g k g' k'
  refine ⟨(hA.resolve_stages_iff hstages).trans (hA.resolve_stages_iff hstages').symm, ?_⟩
  intro c₁ c₂ hok₁ hok₂
  have hs₁ := (hA.resolve_stages hstages).of_ok hok₁
  have hs₂ := (hA.resolve_stages hstages').of_ok hok₂
  have hcall {e : Expression} (he : A.Applied A.args e) : e.kind = .call A.callee A.args :=
    he.kind.resolve_left fun hnil => hA.nonempty hnil.2
  refine ⟨hcall hs₁.applied, hs₁.applied.ty hA.length, hcall hs₂.applied,
    hs₂.applied.ty hA.length, fun x hx => ?_⟩
  obtain ⟨param, hpair⟩ := exists_mem_zip hA.length.le hx
  obtain ⟨e, haccepts, hakin⟩ := hs₁.fits _ hpair
  obtain ⟨e', haccepts', hakin'⟩ := hs₂.fits _ hpair
  cases haccepts.unique haccepts'
  exact ⟨hakin'.ty.trans hakin.ty.symm, hakin'.value?.trans hakin.value?.symm⟩

/-- A function `f` of an integer and a text, and a literal for each of them; that for the text is
in a group. -/
def literalArguments : Compilation :=
  { Compilation.new with
    arena :=
      { Builtins.arena with
        defs := Builtins.arena.defs.push
          ⟨"f", .builtin, some (.function [.int, .string] .int true), none, .origin⟩
        exprs := #[.new (.reference ⟨9⟩) .hole .origin,
          .new (.value (.string "1")) .numberLiteral .origin,
          .new (.value (.string "2")) .numberLiteral .origin, .new (.run [⟨2⟩]) .hole .origin] } }

theorem below_literalArguments {r n : ExprId} (h : literalArguments.Below r n) :
    n = r ∨ r = ⟨3⟩ ∧ n = ⟨2⟩ := by
  have hinside : ∀ i < 4, ∀ m ∈ (literalArguments.arena.expr ⟨i⟩).kind.children,
      i = 3 ∧ m = ⟨2⟩ := by decide
  induction h with
  | refl => exact .inl rfl
  | @tail p m _ hm ih =>
    have hp : p.index < 4 := by
      refine Nat.lt_of_not_le fun hle => ?_
      rw [Arena.expr_of_size_le (a := literalArguments.arena) hle] at hm
      cases hm
    obtain ⟨hp, rfl⟩ := hinside _ hp _ hm
    cases (ExprId.ext hp : p = ⟨3⟩)
    rcases ih with rfl | ⟨-, h⟩
    · exact .inr ⟨rfl, rfl⟩
    · cases h

/-- Both arguments are apart from each other and from `f`. -/
theorem laysOut_literalArguments :
    literalArguments.LaysOut ⟨⟨0⟩, ⟨9⟩, [.int, .string], .int, true, [⟨1⟩, ⟨3⟩]⟩ where
  inside r hr n hn := by
    rcases below_literalArguments hn with rfl | ⟨-, rfl⟩
    · fin_cases hr <;> decide
    · decide
  apart := by
    have hpairs : ([⟨0⟩, ⟨1⟩, ⟨3⟩] : List ExprId).Pairwise fun r r' =>
        r ≠ r' ∧ r ≠ ⟨3⟩ ∧ r ≠ ⟨2⟩ := by decide
    refine hpairs.imp ?_
    rintro r r' ⟨hne, hrun, hterm⟩ n hn hn'
    rcases below_literalArguments hn with rfl | ⟨rfl, -⟩
    · rcases below_literalArguments hn' with rfl | ⟨-, rfl⟩
      · exact hne rfl
      · exact hterm rfl
    · exact hrun rfl
  bodies r _ t _ d _ _ b hb := by
    have hbody : (literalArguments.arena.definition d).body ≠ .expression b :=
      Arena.forall_definition (p := fun x => x.body ≠ .expression b)
        (by simp [literalArguments, Builtins.arena, Builtins.definitions, Builtins.entry])
        (fun h => by cases h) d
    exact (hbody hb).elim
  reference := rfl
  signature := rfl
  length := rfl
  nonempty := by simp
  argument x hx := by
    fin_cases hx
    · have hvalue : (literalArguments.arena.expr ⟨1⟩).kind = .value (.string "1") := rfl
      rw [outcome_of_eq_ok (resolve_of_ne_run (by simp [hvalue]))]
      exact isArgument_of_value hvalue
    · obtain ⟨⟨⟩, c', hok, hcheck⟩ := exists_ok_of_check (resolve ⟨3⟩) literalArguments
        (fun _ c' => (c'.arena.expr ⟨3⟩).kind == .value (.string "2")) (by decide +kernel)
      rw [outcome_of_eq_ok hok]
      exact isArgument_of_value (beq_iff_eq.1 hcheck)

/-- The call comes out of one run, and of a run in a run. -/
theorem resolve_literalArguments :
    ∃ c₁ c₂, resolve ⟨4⟩ (literalArguments.stagedRun ⟨0⟩ [([⟨1⟩, ⟨3⟩], .origin)]).2 = .ok () c₁ ∧
      resolve ⟨5⟩ (literalArguments.stagedRun ⟨0⟩ [([⟨1⟩], .origin), ([⟨3⟩], .origin)]).2 =
        .ok () c₂ ∧
      (c₁.arena.expr ⟨4⟩).kind = .call ⟨9⟩ [⟨1⟩, ⟨3⟩] ∧
      (c₂.arena.expr ⟨5⟩).kind = .call ⟨9⟩ [⟨1⟩, ⟨3⟩] ∧
      (c₂.arena.expr ⟨1⟩).value? = (c₁.arena.expr ⟨1⟩).value? := by
  obtain ⟨hiff, hsame⟩ := resolve_staged laysOut_literalArguments
    [([⟨1⟩, ⟨3⟩], .origin)] [([⟨1⟩], .origin), ([⟨3⟩], .origin)] rfl rfl
  obtain ⟨c₁, hok₁⟩ : ∃ c₁, resolve ⟨4⟩
      (literalArguments.stagedRun ⟨0⟩ [([⟨1⟩, ⟨3⟩], .origin)]).2 = .ok () c₁ :=
    exists_ok_of_eq (by decide +kernel)
  obtain ⟨c₂, hok₂⟩ := hiff.1 ⟨c₁, hok₁⟩
  obtain ⟨hkind₁, -, hkind₂, -, hargs⟩ := hsame c₁ c₂ hok₁ hok₂
  exact ⟨c₁, c₂, hok₁, hok₂, hkind₁, hkind₂, (hargs ⟨1⟩ List.mem_cons_self).2⟩

/-- A function `f` of an integer, a float and an integer, and two literals. -/
def twoLiterals : Compilation :=
  { Compilation.new with
    arena :=
      { Builtins.arena with
        defs := Builtins.arena.defs.push
          ⟨"f", .builtin, some (.function [.int, .float, .int] .int true), none, .origin⟩
        exprs := #[.new (.reference ⟨9⟩) .hole .origin,
          .new (.value (.string "1")) .numberLiteral .origin,
          .new (.value (.string "2")) .numberLiteral .origin] } }

/-- A function `f` of two integers, a literal, and a reference to a definition of that literal. -/
def namedLiteral : Compilation :=
  { Compilation.new with
    arena :=
      { Builtins.arena with
        defs := (Builtins.arena.defs.push
          ⟨"f", .builtin, some (.function [.int, .int] .int true), none, .origin⟩).push
          ⟨"g", .expression ⟨1⟩, none, none, .origin⟩
        exprs := #[.new (.reference ⟨9⟩) .hole .origin,
          .new (.value (.string "1")) .numberLiteral .origin,
          .new (.reference ⟨10⟩) .hole .origin] } }

/-- **Stages matter where an argument depends on another one.** A literal that is an argument twice
becomes an integer and then a float, which is no integer any more when the next stage brings it into
the type of its first parameter again. And a definition of a literal is an integer only after the
literal was bound, so one stage each is accepted and both in one stage are not. -/
theorem stages_matter :
    ((∃ c', resolve ⟨3⟩ (twoLiterals.stagedRun ⟨0⟩ [([⟨1⟩, ⟨1⟩, ⟨2⟩], .origin)]).2 = .ok () c') ∧
      ∃ c', resolve ⟨4⟩
        (twoLiterals.stagedRun ⟨0⟩ [([⟨1⟩, ⟨1⟩], .origin), ([⟨2⟩], .origin)]).2 =
          .error (.error ⟨.castFailure .float .int, .origin⟩) c') ∧
    (∃ c', resolve ⟨3⟩ (namedLiteral.stagedRun ⟨0⟩ [([⟨1⟩, ⟨2⟩], .origin)]).2 =
      .error (.error ⟨.typeMismatch .int .numberLiteral, .origin⟩) c') ∧
      ∃ c', resolve ⟨4⟩
        (namedLiteral.stagedRun ⟨0⟩ [([⟨1⟩], .origin), ([⟨2⟩], .origin)]).2 = .ok () c' := by
  refine ⟨⟨exists_ok_of_eq (by decide +kernel), exists_error_of_eq (by decide +kernel)⟩,
    exists_error_of_eq (by decide +kernel), exists_ok_of_eq (by decide +kernel)⟩

end Termwise
