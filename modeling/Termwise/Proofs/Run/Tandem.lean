import Termwise.Proofs.Run.Mirror

/-!
# Resolving a run twice

Two compilations that mirror each other resolve two runs that correspond in the same steps: terms
are classified alike, the stacks hold operands that correspond, the same calls are built, and what
is refused is refused for the same reason. How the two go on at a term that is a run itself is left
open: it is asked of whatever resolves the runs among the terms.

## Main definitions

* `Tandem`: two actions keep two compilations in step
* `Classifies`: terms that correspond are classified alike

## Main results

* `tandem_allocCall`: a call of operands that correspond
* `tandem_resolveTerms`, `tandem_resolveNode`: lists of terms and runs that correspond
-/

namespace Termwise

open Compilation

variable {lenient : Prop} {Z : Extent} {O : Set Outset} {R R' : ExprId → ExprId → Prop}
  {c k : Compilation} {α α' β β' : Type} {n m : ExprId} {d : DefId} {e e' : Expression}

/-- Two compilations mirror each other, and they keep to one of some outsets. -/
def InStep (Z : Extent) (O : Set Outset) (R : ExprId → ExprId → Prop) (c k : Compilation) : Prop :=
  Alike Z R c k ∧ ∃ F ∈ O, F.Leads R c k

/-- **Two actions keep compilations in step**: what corresponds still does, and more may. -/
def Tandem (lenient : Prop) (Z : Extent) (O : Set Outset) (R : ExprId → ExprId → Prop)
    (first : CheckM α) (second : CheckM β) (ended : (ExprId → ExprId → Prop) → α → β → Prop) :
    Prop :=
  ∀ c k, InStep Z O R c k → Coupled lenient first second c k
    (fun a b c' k' => ∃ R', R ≤ R' ∧ InStep Z O R' c' k' ∧ ended R' a b)
    fun _ c' k' => ∃ R', R ≤ R' ∧ InStep Z O R' c' k'

/-! ## Steps -/

section

variable {ended ended' : (ExprId → ExprId → Prop) → α → β → Prop}

theorem Tandem.mono {first : CheckM α} {second : CheckM β}
    (h : Tandem lenient Z O R first second ended)
    (hended : ∀ R', R ≤ R' → ∀ a b, ended R' a b → ended' R' a b) :
    Tandem lenient Z O R first second ended' := by
  intro c k hck
  refine (h c k hck).mono ?_ fun _ _ _ h => h
  rintro a b c' k' ⟨R', hR', hck', hab⟩
  exact ⟨R', hR', hck', hended R' hR' a b hab⟩

theorem tandem_pure {a : α} {b : β} (h : ended R a b) :
    Tandem lenient Z O R (pure a) (pure b) ended :=
  fun _ _ hck => coupled_ok rfl rfl ⟨R, le_rfl, hck, h⟩

theorem tandem_throw (error : CompileError) :
    Tandem lenient Z O R (throw (.error error) : CheckM α) (throw (.error error) : CheckM β)
      ended :=
  fun _ _ hck => coupled_throw error ⟨R, le_rfl, hck⟩

theorem tandem_fail (cause : Cause) (span : Span) :
    Tandem lenient Z O R (CheckM.fail cause span : CheckM α) (CheckM.fail cause span : CheckM β)
      ended := tandem_throw ⟨cause, span⟩

/-- **Actions in sequence** keep in step if their parts do. -/
theorem Tandem.bind {first : CheckM α'} {second : CheckM β'} {rest : α' → CheckM α}
    {rest' : β' → CheckM β} {mid : (ExprId → ExprId → Prop) → α' → β' → Prop}
    (h : Tandem lenient Z O R first second mid)
    (hrest : ∀ R', R ≤ R' → ∀ a b, mid R' a b →
      Tandem lenient Z O R' (rest a) (rest' b) ended) :
    Tandem lenient Z O R (first >>= rest) (second >>= rest') ended := by
  intro c k hck
  refine (h c k hck).bind ?_
  rintro a b c' k' ⟨R', hR', hck', hab⟩
  refine (hrest R' hR' a b hab c' k' hck').mono ?_ ?_
  · rintro a b c' k' ⟨R'', hR'', hck'', hab⟩
    exact ⟨R'', hR'.trans hR'', hck'', hab⟩
  · rintro e c' k' ⟨R'', hR'', hck''⟩
    exact ⟨R'', hR'.trans hR'', hck''⟩

end

/-- What follows a failure does not happen. -/
theorem tandem_fail_bind {ended : (ExprId → ExprId → Prop) → α → β → Prop} (cause : Cause)
    (span : Span) (rest : α' → CheckM α) (rest' : β' → CheckM β) :
    Tandem lenient Z O R (CheckM.fail cause span >>= rest) (CheckM.fail cause span >>= rest')
      ended := by
  have hfail : Tandem lenient Z O R (CheckM.fail cause span : CheckM α')
      (CheckM.fail cause span : CheckM β') fun _ _ _ => False := tandem_fail cause span
  exact hfail.bind fun _ _ _ _ => False.elim

/-- Two values were read off compilations that mirror each other. -/
def Read (Z : Extent) {α β : Type} (f : Compilation → α) (g : Compilation → β)
    (R : ExprId → ExprId → Prop) (a : α) (b : β) : Prop :=
  ∃ c k, Alike Z R c k ∧ a = f c ∧ b = g k

theorem tandem_get : Tandem lenient Z O R get get (Alike Z) :=
  fun _ _ hck => coupled_ok rfl rfl ⟨R, le_rfl, hck, hck.1⟩

theorem tandem_arena :
    Tandem lenient Z O R CheckM.arena CheckM.arena (Read Z Compilation.arena Compilation.arena) :=
  fun c k hck => coupled_ok rfl rfl ⟨R, le_rfl, hck, c, k, hck.1, rfl, rfl⟩

theorem tandem_expr (n m : ExprId) :
    Tandem lenient Z O R (CheckM.expr n) (CheckM.expr m)
      (Read Z (·.arena.expr n) (·.arena.expr m)) :=
  fun c k hck => coupled_ok rfl rfl ⟨R, le_rfl, hck, c, k, hck.1, rfl, rfl⟩

theorem tandem_definition (d : DefId) :
    Tandem lenient Z O R (CheckM.definition d) (CheckM.definition d) fun _ a b => b = a :=
  fun _ _ hck => coupled_ok rfl rfl ⟨R, le_rfl, hck, hck.1.definition d⟩

theorem tandem_definitionType (hd : d ∈ Z.names) :
    Tandem lenient Z O R (CheckM.definitionType d) (CheckM.definitionType d) fun _ a b => b = a :=
  fun _ _ hck => coupled_ok rfl rfl ⟨R, le_rfl, hck, hck.1.definitionType hd⟩

/-- Changes beside the tables keep compilations in step if the same is reported. -/
theorem tandem_modify {f g : Compilation → Compilation} (hf : ∀ c, (f c).arena = c.arena)
    (hg : ∀ k, (g k).arena = k.arena) (hf' : ∀ c, (f c).builtins = c.builtins)
    (hg' : ∀ k, (g k).builtins = k.builtins)
    (hbooks : ∀ c k : Compilation,
      ∃ added valid, c.Grown added valid (f c) ∧ k.Grown added valid (g k)) :
    Tandem lenient Z O R (modify f) (modify g) fun _ _ _ => True := by
  rintro c k ⟨halike, F, hF, hleads⟩
  refine coupled_ok rfl rfl ⟨R, le_rfl, ⟨?_, F, hF, ?_⟩, trivial⟩
  · exact halike.of_arena_eq (hf c) (hf' c) (hg k) (hg' k)
  · exact hleads.of_arena_eq (hf c) (hf' c) (hg k) (hg' k) (hbooks c k)

theorem tandem_emit (event event' : Event) :
    Tandem lenient Z O R (CheckM.emit event) (CheckM.emit event') fun _ _ _ => True :=
  tandem_modify (fun _ => rfl) (fun _ => rfl) (fun _ => rfl) (fun _ => rfl)
    fun c k => ⟨0, true, c.grown_refl, k.grown_refl⟩

/-- The function type of a signature does not depend on what is in the store. -/
theorem tandem_functionType (params : List Ty) (result : Ty) (isPure : Bool) :
    Tandem lenient Z O R (CheckM.functionType params result isPure)
      (CheckM.functionType params result isPure) fun _ a b => b = a := by
  rintro c k ⟨halike, F, hF, hleads⟩
  refine coupled_ok rfl rfl ⟨R, le_rfl, ⟨?_, F, hF, ?_⟩, ?_⟩
  · exact halike.of_arena_eq rfl rfl rfl rfl
  · exact hleads.of_arena_eq rfl rfl rfl rfl ⟨0, true, c.grown_refl, k.grown_refl⟩
  · exact (k.types.functionType_ty params result isPure).trans
      (c.types.functionType_ty params result isPure).symm

/-- **The same change** of two nodes that correspond. -/
theorem tandem_modifyExpr (hR : R n m) {f g : Expression → Expression}
    (h : ∀ c k, Alike Z R c k →
      (f (c.arena.expr n)).Mirrors (Z.Among R) R (g (k.arena.expr m)) ∧
        Z.Admits n (f (c.arena.expr n)).kind) :
    Tandem lenient Z O R (CheckM.modifyExpr n f) (CheckM.modifyExpr m g) fun _ _ _ => True := by
  rintro c k ⟨halike, F, hF, hleads⟩
  obtain ⟨he, hadmits⟩ := h c k halike
  exact coupled_ok rfl rfl ⟨R, le_rfl,
    ⟨halike.modifyExpr hR he hadmits, F, hF, hleads.modifyExpr hR f g⟩, trivial⟩

/-- Two nodes that correspond and may be terms. -/
def Extent.Operand (Z : Extent) (R : ExprId → ExprId → Prop) (n m : ExprId) : Prop :=
  R n m ∧ n ∈ Z.terms

theorem Extent.Operand.mono (h : Z.Operand R n m) (hR : R ≤ R') : Z.Operand R' n m :=
  ⟨hR n m h.1, h.2⟩

theorem forall₂_operand_mono {ns ms : List ExprId} (h : List.Forall₂ (Z.Operand R) ns ms)
    (hR : R ≤ R') : List.Forall₂ (Z.Operand R') ns ms := h.imp fun _ _ h => h.mono hR

/-- **The same node** appended on both sides. -/
theorem tandem_allocExpr (he : e.Mirrors (Z.Among R) R e')
    (hadmits : ∀ n, Z.Admits n e.kind) :
    Tandem lenient Z O R (CheckM.allocExpr e) (CheckM.allocExpr e') (Z.Operand) := by
  rintro c k ⟨halike, F, hF, hleads⟩
  refine coupled_ok rfl rfl ⟨_, fun _ _ => .inl,
    ⟨halike.allocExpr he (hadmits _), F, hF, hleads.allocExpr e e'⟩, .inr ⟨rfl, rfl⟩, ?_⟩
  exact Z.terms_of_le _ halike.floor

/-- Two attempts hand over values that are alike, or the same error. -/
inductive Attempted (ended : (ExprId → ExprId → Prop) → α → β → Prop)
    (R : ExprId → ExprId → Prop) : Except CompileError α → Except CompileError β → Prop
  | ok {a : α} {b : β} : ended R a b → Attempted ended R (.ok a) (.ok b)
  | error (e : CompileError) : Attempted ended R (.error e) (.error e)

/-- Attempts keep in step if what is attempted does. -/
theorem Tandem.attempt {first : CheckM α} {second : CheckM β}
    {ended : (ExprId → ExprId → Prop) → α → β → Prop}
    (h : Tandem lenient Z O R first second ended) :
    Tandem lenient Z O R (CheckM.attempt first) (CheckM.attempt second) (Attempted ended) := by
  intro c k hck
  refine Coupled.attempt ((h c k hck).mono ?_ ?_)
  · rintro a b c' k' ⟨R', hR', hck', hab⟩
    exact ⟨R', hR', hck', .ok hab⟩
  · rintro e c' k' ⟨R', hR', hck'⟩
    exact ⟨R', hR', hck', .error e⟩

/-! ## Calls -/

theorem Extent.Admits.coerce (h : Z.Admits n e.kind) {x : Expression} {param : Ty}
    (hx : e.coerce param = .ok x) : Z.Admits n x.kind := by
  rcases Expression.coerce_kind hx with hk | ⟨-, hv⟩
  · rwa [hk]
  · cases hk : x.kind with
    | value v => exact ⟨fun _ _ hd => (List.not_mem_nil hd).elim, nofun⟩
    | _ => simp [hk, ExprKind.isValue] at hv

theorem tandem_coerceArg (hR : R n m) (param : Ty) :
    Tandem lenient Z O R (coerceArg n param) (coerceArg m param) fun _ _ _ => True := by
  rintro c k ⟨halike, F, hF, hleads⟩
  simp only [coerceArg_eq, coupled_expr]
  rcases (halike.expr hR).coerce param with ⟨cause, hc, hc'⟩ | ⟨x, x', hx, hx', hmirrors⟩
  · rw [hc, hc', (halike.expr hR).span]
    exact tandem_fail cause _ c k ⟨halike, F, hF, hleads⟩
  · rw [hx, hx']
    have halike' := halike.modifyExpr hR (f := fun _ => x) (g := fun _ => x') hmirrors
      ((halike.admits hR).coerce hx)
    exact coupled_ok rfl rfl ⟨R, le_rfl, ⟨halike', F, hF, hleads.modifyExpr hR _ _⟩, trivial⟩

theorem tandem_coerceArgs {args args' : List ExprId} (h : List.Forall₂ R args args')
    (params : List Ty) :
    Tandem lenient Z O R (coerceArgs args params) (coerceArgs args' params)
      fun _ _ _ => True := by
  induction args generalizing args' params R with
  | nil =>
    cases h
    exact tandem_pure trivial
  | cons arg args ih =>
    cases h with
    | cons hR hargs =>
      cases params with
      | nil => exact tandem_pure trivial
      | cons param params =>
        exact (tandem_coerceArg hR param).bind fun R' hR' _ _ _ => ih (hargs.imp hR') params

theorem unboundParams_congr {isMissing isMissing' : ExprId → Bool} {args args' : List ExprId}
    (h : List.Forall₂ (fun n m => isMissing' m = isMissing n) args args') (params : List Ty) :
    unboundParams isMissing' params args' = unboundParams isMissing params args := by
  induction h generalizing params with
  | nil => cases params <;> rfl
  | cons hmissing _ ih =>
    cases params with
    | nil => rfl
    | cons param params => simp only [unboundParams, hmissing, ih]

/-- **A call** of operands that correspond is built on both sides or on none. -/
theorem tandem_createCall (hd : d ∈ Z.names) {args args' : List ExprId}
    (hargs : List.Forall₂ R args args') (span : Span) :
    Tandem lenient Z O R (createCall d args span) (createCall d args' span)
      fun R' e e' => e.Mirrors (Z.Among R') R' e' ∧ e.kind = .call d args := by
  have hlength : args'.length = args.length := hargs.length_eq.symm
  have hempty : args'.isEmpty = args.isEmpty := by cases hargs <;> rfl
  have hcall {R' : ExprId → ExprId → Prop} (hR' : R ≤ R') (ty : Ty) :
      (Expression.new (.call d args) ty span).Mirrors (Z.Among R') R'
        (.new (.call d args') ty span) ∧
      (Expression.new (.call d args) ty span).kind = .call d args :=
    ⟨⟨.call d (hargs.imp hR'), rfl, rfl, rfl⟩, rfl⟩
  unfold createCall
  refine (tandem_definitionType hd).bind fun R₁ hR₁ ty _ h => ?_
  subst h
  split
  · rw [hlength]
    split
    · refine (tandem_definition d).bind fun _ _ _ _ h => ?_
      rw [h]
      exact tandem_fail_bind _ _ _ _
    · rename_i params result isPure _
      refine (tandem_coerceArgs (hargs.imp hR₁) params).bind fun R₂ hR₂ _ _ _ => ?_
      refine tandem_arena.bind fun R₃ hR₃ _ _ hread => ?_
      obtain ⟨c, k, halike, rfl, rfl⟩ := hread
      have hR := (hR₁.trans hR₂).trans hR₃
      have hunbound : unboundParams k.arena.isMissing params args' =
          unboundParams c.arena.isMissing params args :=
        unboundParams_congr (hargs.imp fun n m h => halike.isMissing (hR n m h)) params
      dsimp only
      -- The same parameters stay open on both sides, so the types of the two calls are the same.
      rw [hunbound]
      split
      · exact tandem_pure (hcall hR _)
      · refine (tandem_functionType _ _ _).bind fun R₄ hR₄ _ _ h => ?_
        rw [h]
        exact tandem_pure (hcall (hR.trans hR₄) _)
  · rw [hempty]
    split
    · exact tandem_pure (hcall hR₁ _)
    · refine (tandem_definition d).bind fun _ _ _ _ h => ?_
      rw [h]
      exact tandem_fail_bind _ _ _ _

/-- **A call is appended** on both sides or on none. -/
theorem tandem_allocCall (hd : d ∈ Z.names) {args args' : List ExprId}
    (hargs : List.Forall₂ R args args') (span : Span) :
    Tandem lenient Z O R (allocCall d args span) (allocCall d args' span) Z.Operand := by
  refine (tandem_createCall hd hargs span).bind fun R' _ e e' h => tandem_allocExpr h.1 fun n => ?_
  rw [h.2]
  exact ⟨fun _ d' hd' => List.mem_singleton.1 hd' ▸ hd, nofun⟩

/-! ## Stacks -/

/-- A definition may be named as an operator. -/
def Extent.Lists (Z : Extent) (d : DefId) : Prop :=
  ∀ d' ∈ (ExprKind.operator d).named Z.builtins, d' ∈ Z.names

/-- What the reader of a run expects next on both sides. -/
inductive Phase.Mirrors (Z : Extent) (R : ExprId → ExprId → Prop) : Phase → Phase → Prop
  | operandDue : Mirrors Z R .operandDue .operandDue
  | collecting {callee callee' : ExprId} (slots : Nat) {args args' : List ExprId} :
    Z.Operand R callee callee' → List.Forall₂ (Z.Operand R) args args' →
    Mirrors Z R (.collecting callee slots args) (.collecting callee' slots args')
  | operatorDue : Mirrors Z R .operatorDue .operatorDue

/-- **Two runs read so far** are the same up to the operands. -/
structure Arrangement.Mirrors (Z : Extent) (R : ExprId → ExprId → Prop) (s s' : Arrangement) :
    Prop where
  operands : List.Forall₂ (Z.Operand R) s.operands s'.operands
  operators : s'.operators = s.operators
  listed : ∀ op ∈ s.operators, op.definition ∈ Z.names
  leading : s'.leading = s.leading
  signs : ∀ entry ∈ s.leading, Z.Lists entry.1
  phase : s.phase.Mirrors Z R s'.phase

/-- Two classified terms are the same up to the operands. -/
inductive Term.Mirrors (Z : Extent) (R : ExprId → ExprId → Prop) : Term → Term → Prop
  | operand {n m : ExprId} : Z.Operand R n m → Mirrors Z R (.operand n) (.operand m)
  | leading {d : DefId} (span : Span) : Z.Lists d → Mirrors Z R (.leading d span) (.leading d span)
  | trailing {d : DefId} (span : Span) :
    d ∈ Z.names → Mirrors Z R (.trailing d span) (.trailing d span)
  | binary {op : PendingOperator} :
    op.definition ∈ Z.names → Mirrors Z R (.binary op) (.binary op)
  | minusSign (span : Span) : (∀ d ∈ ExprKind.minusSign.named Z.builtins, d ∈ Z.names) →
    Mirrors Z R (.minusSign span) (.minusSign span)

theorem Phase.Mirrors.mono {p p' : Phase} (h : p.Mirrors Z R p') (hR : R ≤ R') :
    p.Mirrors Z R' p' := by
  cases h with
  | operandDue => exact .operandDue
  | collecting slots hcallee hargs =>
    exact .collecting slots (hcallee.mono hR) (forall₂_operand_mono hargs hR)
  | operatorDue => exact .operatorDue

theorem Arrangement.Mirrors.mono {s s' : Arrangement} (h : s.Mirrors Z R s') (hR : R ≤ R') :
    s.Mirrors Z R' s' :=
  { h with operands := forall₂_operand_mono h.operands hR, phase := h.phase.mono hR }

/-! ## Arranging a run -/

/-- A negation is listed if what names it is. -/
theorem Alike.negationFor_mem (h : Alike Z R c k) {x : ExprId}
    (hnames : ∀ d ∈ (ExprKind.negated x).named Z.builtins, d ∈ Z.names) (operand : ExprId) :
    c.negationFor operand ∈ Z.names := by
  refine hnames _ ?_
  rcases c.isNegation_negationFor operand with hd | hd <;>
    simp [ExprKind.named, hd, h.builtins]

theorem tandem_normalizeOperand (hn : Z.Operand R n m) :
    Tandem lenient Z O R (Arrangement.normalizeOperand n) (Arrangement.normalizeOperand m)
      Z.Operand := by
  unfold Arrangement.normalizeOperand
  refine (tandem_expr n m).bind fun R₁ hR₁ _ _ hread => ?_
  obtain ⟨c, k, halike, rfl, rfl⟩ := hread
  have hn := hn.mono hR₁
  have hnames := (halike.admits hn.1).names hn.2
  obtain ⟨hkind, -, -, hspan⟩ := halike.expr hn.1
  dsimp only
  generalize (c.arena.expr n).kind = kind at hkind hnames ⊢
  generalize (k.arena.expr m).kind = kind' at hkind ⊢
  cases hkind with
  | negated hxy =>
    refine tandem_get.bind fun R₂ hR₂ c₂ k₂ halike₂ => ?_
    rw [hspan, halike₂.negationFor (hR₂ _ _ hxy)]
    exact tandem_allocCall (halike₂.negationFor_mem hnames _) (.cons (hR₂ _ _ hxy) .nil) _
  | leaf hleaf =>
    cases kind with
    | run | call | negated => cases hleaf
    | _ => exact tandem_pure hn
  | run | call => exact tandem_pure hn

theorem forall₂_fillOpen {isMissing isMissing' : ExprId → Bool}
    {bound bound' fresh fresh' : List ExprId} (hbound : List.Forall₂ R bound bound')
    (hfresh : List.Forall₂ R fresh fresh')
    (hmissing : ∀ n m, R n m → isMissing' m = isMissing n) :
    List.Forall₂ R (Arrangement.fillOpen isMissing bound fresh)
      (Arrangement.fillOpen isMissing' bound' fresh') := by
  induction hbound generalizing fresh fresh' with
  | nil => exact hfresh
  | @cons arg arg' bound bound' hR _ ih =>
    simp only [Arrangement.fillOpen, hmissing arg arg' hR]
    cases hfresh with
    | nil => cases isMissing arg <;> exact .cons hR (ih .nil)
    | cons hnew hfresh =>
      cases isMissing arg
      · exact .cons hR (ih (.cons hnew hfresh))
      · exact .cons hnew (ih hfresh)

theorem foldl_merge_congr {place place' : ExprId → Span} {args args' : List ExprId}
    (h : List.Forall₂ (fun n m => place' m = place n) args args') (span : Span) :
    args'.foldl (fun span arg => span.merge (place' arg)) span =
      args.foldl (fun span arg => span.merge (place arg)) span := by
  induction h generalizing span with
  | nil => rfl
  | cons hplace _ ih => rw [List.foldl_cons, List.foldl_cons, hplace, ih]

theorem tandem_applyCollected (hn : Z.Operand R n m) {args args' : List ExprId}
    (hargs : List.Forall₂ (Z.Operand R) args args') :
    Tandem lenient Z O R (Arrangement.applyCollected n args) (Arrangement.applyCollected m args')
      Z.Operand := by
  have hempty : args'.isEmpty = args.isEmpty := by cases hargs <;> rfl
  unfold Arrangement.applyCollected
  rw [hempty]
  split
  · exact tandem_pure hn
  · refine tandem_arena.bind fun R₁ hR₁ _ _ hread => ?_
    obtain ⟨c, k, halike, rfl, rfl⟩ := hread
    have hn := hn.mono hR₁
    have hargs : List.Forall₂ R₁ args args' := hargs.imp fun n m h => hR₁ n m h.1
    have hnames := (halike.admits hn.1).names hn.2
    obtain ⟨hkind, -, -, hspan⟩ := halike.expr hn.1
    dsimp only
    rw [hspan, foldl_merge_congr (hargs.imp fun n m h => (halike.expr h).span)]
    generalize (c.arena.expr n).kind = kind at hkind hnames ⊢
    generalize (k.arena.expr m).kind = kind' at hkind ⊢
    cases hkind with
    | call d hbound =>
      have hfill := forall₂_fillOpen hbound hargs fun n m h => halike.isMissing h
      exact tandem_allocCall (hnames d (List.mem_singleton_self d)) hfill _
    | leaf hleaf =>
      cases kind with
      | run | call | negated => cases hleaf
      | reference d => exact tandem_allocCall (hnames d (List.mem_singleton_self d)) hargs _
      | _ => exact tandem_pure hn
    | run | negated => exact tandem_pure hn

theorem Extent.Lists.mem (h : Z.Lists d) : d ∈ Z.names := h d (ExprKind.mem_named_operator _ d)

theorem tandem_applyLeading (hn : Z.Operand R n m) {leading : List (DefId × Span)}
    (hleading : ∀ entry ∈ leading, Z.Lists entry.1) :
    Tandem lenient Z O R (Arrangement.applyLeading n leading) (Arrangement.applyLeading m leading)
      Z.Operand := by
  induction leading generalizing n m R with
  | nil => exact tandem_pure hn
  | cons entry leading ih =>
    obtain ⟨hlists, hleading⟩ := List.forall_mem_cons.1 hleading
    unfold Arrangement.applyLeading
    refine tandem_get.bind fun R₁ hR₁ c k halike => ?_
    have hR := hR₁ n m hn.1
    simp only [halike.builtins, halike.builtins', halike.negationFor hR, (halike.expr hR).span]
    have hcallee : (if entry.1 = Z.builtins.unaryMinus then c.negationFor n else entry.1) ∈
        Z.names := by
      split
      · rename_i hsign
        refine hlists _ ?_
        rcases c.isNegation_negationFor n with hd | hd <;>
          simp [ExprKind.named, hsign, hd, halike.builtins]
      · exact hlists.mem
    exact (tandem_allocCall hcallee (.cons hR .nil) _).bind fun R₂ _ a b hab => ih hab hleading

theorem tandem_pushOperand {s s' : Arrangement} (hs : s.Mirrors Z R s') (hn : Z.Operand R n m)
    {args args' : List ExprId} (hargs : List.Forall₂ (Z.Operand R) args args') :
    Tandem lenient Z O R (s.pushOperand n args) (s'.pushOperand m args')
      (Arrangement.Mirrors Z) := by
  unfold Arrangement.pushOperand
  refine (tandem_applyCollected hn hargs).bind fun R₁ hR₁ a b hab => ?_
  rw [hs.leading]
  refine (tandem_applyLeading hab hs.signs).bind fun R₂ hR₂ x y hxy => tandem_pure ?_
  have hs := (hs.mono hR₁).mono hR₂
  exact ⟨.cons hxy hs.operands, hs.operators, hs.listed, rfl, nofun, .operatorDue⟩

theorem tandem_popOperand (span : Span) {operands operands' : List ExprId}
    (h : List.Forall₂ (Z.Operand R) operands operands') :
    Tandem lenient Z O R (Arrangement.popOperand span operands)
      (Arrangement.popOperand span operands')
      fun R' a b => Z.Operand R' a.1 b.1 ∧ List.Forall₂ (Z.Operand R') a.2 b.2 := by
  cases h with
  | nil => exact tandem_fail _ span
  | cons hn hrest => exact tandem_pure ⟨hn, hrest⟩

theorem tandem_reduce (span : Span) {op : PendingOperator} (hop : op.definition ∈ Z.names)
    {operands operands' : List ExprId} (h : List.Forall₂ (Z.Operand R) operands operands') :
    Tandem lenient Z O R (Arrangement.reduce span op operands)
      (Arrangement.reduce span op operands') fun R' => List.Forall₂ (Z.Operand R') := by
  unfold Arrangement.reduce
  refine (tandem_popOperand span h).bind fun R₁ _ a a' ha => ?_
  refine (tandem_popOperand span ha.2).bind fun R₂ hR₂ b b' hb => ?_
  refine tandem_arena.bind fun R₃ hR₃ _ _ hread => ?_
  obtain ⟨c, k, halike, rfl, rfl⟩ := hread
  have hright := hR₃ _ _ (hR₂ _ _ ha.1.1)
  have hleft := hR₃ _ _ hb.1.1
  rw [(halike.expr hright).span, (halike.expr hleft).span]
  refine (tandem_allocCall hop (.cons hleft (.cons hright .nil)) _).bind fun R₄ hR₄ x y hxy => ?_
  exact tandem_pure (.cons hxy (forall₂_operand_mono hb.2 (hR₃.trans hR₄)))

theorem tandem_reduceBefore (span : Span) (next : BindingPower) {operators : List PendingOperator}
    (hops : ∀ op ∈ operators, op.definition ∈ Z.names) {operands operands' : List ExprId}
    (h : List.Forall₂ (Z.Operand R) operands operands') :
    Tandem lenient Z O R (Arrangement.reduceBefore span next operators operands)
      (Arrangement.reduceBefore span next operators operands')
      fun R' a b => b.1 = a.1 ∧ (∀ op ∈ a.1, op.definition ∈ Z.names) ∧
        List.Forall₂ (Z.Operand R') a.2 b.2 := by
  induction operators generalizing operands operands' R with
  | nil => exact tandem_pure ⟨rfl, nofun, h⟩
  | cons top rest ih =>
    obtain ⟨htop, hrest⟩ := List.forall_mem_cons.1 hops
    unfold Arrangement.reduceBefore
    split
    · exact tandem_pure ⟨rfl, hops, h⟩
    · exact (tandem_reduce span htop h).bind fun R₁ _ _ _ h => ih hrest h

theorem tandem_reduceAll (span : Span) {operators : List PendingOperator}
    (hops : ∀ op ∈ operators, op.definition ∈ Z.names) {operands operands' : List ExprId}
    (h : List.Forall₂ (Z.Operand R) operands operands') :
    Tandem lenient Z O R (Arrangement.reduceAll span operators operands)
      (Arrangement.reduceAll span operators operands') fun R' => List.Forall₂ (Z.Operand R') := by
  induction operators generalizing operands operands' R with
  | nil => exact tandem_pure h
  | cons top rest ih =>
    obtain ⟨htop, hrest⟩ := List.forall_mem_cons.1 hops
    exact (tandem_reduce span htop h).bind fun R₁ _ _ _ h => ih hrest h

theorem tandem_pushBinary {s s' : Arrangement} (hs : s.Mirrors Z R s') (span : Span)
    {op : PendingOperator} (hop : op.definition ∈ Z.names) :
    Tandem lenient Z O R (s.pushBinary span op) (s'.pushBinary span op)
      (Arrangement.Mirrors Z) := by
  unfold Arrangement.pushBinary
  rw [hs.operators]
  refine (tandem_reduceBefore span op.power hs.listed hs.operands).bind fun R₁ hR₁ a b h => ?_
  obtain ⟨hoperators, hlisted, hoperands⟩ := h
  refine tandem_pure ⟨hoperands, by rw [hoperators], ?_, hs.leading, hs.signs, .operandDue⟩
  exact List.forall_mem_cons.2 ⟨hop, hlisted⟩

theorem tandem_allocMissing (span : Span) :
    Tandem lenient Z O R (Arrangement.allocMissing span) (Arrangement.allocMissing span)
      Z.Operand :=
  tandem_allocExpr ⟨.leaf rfl, rfl, rfl, rfl⟩ fun _ =>
    ⟨fun _ _ hd => (List.not_mem_nil hd).elim, nofun⟩

/-! ## Terms -/

theorem any_eq_of_forall₂ {p q : ExprId → Bool} {args args' : List ExprId}
    (h : List.Forall₂ (fun n m => q m = p n) args args') : args'.any q = args.any p := by
  induction h with
  | nil => rfl
  | cons hhead _ ih => rw [List.any_cons, List.any_cons, hhead, ih]

theorem countP_eq_of_forall₂ {p q : ExprId → Bool} {args args' : List ExprId}
    (h : List.Forall₂ (fun n m => q m = p n) args args') : args'.countP q = args.countP p := by
  induction h with
  | nil => rfl
  | cons hhead _ ih => rw [List.countP_cons, List.countP_cons, hhead, ih]

/-- An operand takes as many further arguments on both sides. -/
theorem Alike.openSlots (h : Alike Z R c k) (hn : Z.Operand R n m) :
    k.arena.openSlots m = c.arena.openSlots n := by
  have hnames := (h.admits hn.1).names hn.2
  have hkind := (h.expr hn.1).kind
  unfold Arena.openSlots Arena.isPartialCall
  generalize (c.arena.expr n).kind = kind at hkind hnames ⊢
  generalize (k.arena.expr m).kind = kind' at hkind ⊢
  cases hkind with
  | @call d args args' hargs =>
    have hmissing := hargs.imp fun n m hR => h.isMissing hR
    have hany := any_eq_of_forall₂ hmissing
    have hcount := countP_eq_of_forall₂ hmissing
    simp only [h.definitionType (hnames d (List.mem_singleton_self d)), ← hargs.length_eq, hany,
      hcount]
  | leaf hleaf =>
    cases kind with
    | run | call | negated => cases hleaf
    | reference d => simp only [h.definitionType (hnames d (List.mem_singleton_self d))]
    | _ => rfl
  | run | negated => rfl

theorem tandem_placeOperandDue {s s' : Arrangement} (hs : s.Mirrors Z R s') (span : Span)
    {t t' : Term} (ht : t.Mirrors Z R t') :
    Tandem lenient Z O R (s.placeOperandDue span t) (s'.placeOperandDue span t')
      (Arrangement.Mirrors Z) := by
  cases ht with
  | operand hn =>
    unfold Arrangement.placeOperandDue
    refine (tandem_normalizeOperand hn).bind fun R₁ hR₁ x y hxy => ?_
    refine tandem_arena.bind fun R₂ hR₂ _ _ hread => ?_
    obtain ⟨c, k, halike, rfl, rfl⟩ := hread
    have hs := (hs.mono hR₁).mono hR₂
    have hxy := hxy.mono hR₂
    dsimp only
    -- How many slots are open says whether it collects, and that is the same on both sides.
    rw [halike.openSlots hxy]
    split
    · exact tandem_pushOperand hs hxy .nil
    · exact tandem_pure { hs with phase := .collecting _ hxy .nil }
  | minusSign place hsign =>
    unfold Arrangement.placeOperandDue
    refine tandem_get.bind fun R₁ hR₁ c k halike => ?_
    have hs := hs.mono hR₁
    simp only [halike.builtins, halike.builtins', hs.leading]
    refine tandem_pure { hs with leading := rfl, signs := List.forall_mem_cons.2 ⟨?_, hs.signs⟩ }
    intro d hd
    refine hsign d ?_
    simp only [ExprKind.named, if_true] at hd ⊢
    exact List.mem_cons_of_mem _ hd
  | leading place hlists =>
    unfold Arrangement.placeOperandDue
    rw [hs.leading]
    exact tandem_pure
      { hs with leading := rfl, signs := List.forall_mem_cons.2 ⟨hlists, hs.signs⟩ }
  | trailing place hd => exact tandem_fail _ place
  | @binary op hop =>
    have hempty : s'.operands.isEmpty = s.operands.isEmpty := by
      have := hs.operands
      generalize s.operands = ns at this ⊢
      generalize s'.operands = ms at this ⊢
      cases this <;> rfl
    simp only [Arrangement.placeOperandDue, hempty, hs.operators, hs.leading]
    split
    · refine (tandem_allocMissing op.span).bind fun R₁ hR₁ x y hxy => ?_
      have hs : Arrangement.Mirrors Z R₁ { s with operands := [x] }
          { s' with operands := [y], operators := s.operators, leading := s.leading } :=
        ⟨.cons hxy .nil, rfl, hs.listed, rfl, hs.signs, (hs.mono hR₁).phase⟩
      exact tandem_pushBinary hs span hop
    · exact tandem_fail _ _

theorem Definition.pending?_definition {definition : Definition} {span : Span}
    {op : PendingOperator} (h : definition.pending? d span = some op) : op.definition = d := by
  unfold pending? at h
  split at h
  · cases h
    rfl
  · cases h

theorem tandem_placeOperatorDue {s s' : Arrangement} (hs : s.Mirrors Z R s') (span : Span)
    {t t' : Term} (ht : t.Mirrors Z R t') :
    Tandem lenient Z O R (s.placeOperatorDue span t) (s'.placeOperatorDue span t')
      (Arrangement.Mirrors Z) := by
  cases ht with
  | operand hn =>
    refine (tandem_expr _ _).bind fun R₁ hR₁ _ _ hread => ?_
    obtain ⟨c, k, halike, rfl, rfl⟩ := hread
    rw [(halike.expr (hR₁ _ _ hn.1)).span]
    exact tandem_fail _ _
  | minusSign place hsign =>
    refine tandem_get.bind fun R₁ hR₁ c k halike => ?_
    rw [halike.builtins, halike.builtins']
    refine (tandem_definition _).bind fun R₂ hR₂ definition _ h => ?_
    subst h
    split
    · rename_i op hop
      refine tandem_pushBinary ((hs.mono hR₁).mono hR₂) span ?_
      rw [Definition.pending?_definition hop]
      exact hsign _ List.mem_cons_self
    · exact tandem_fail _ place
  | leading place hlists => exact tandem_fail _ place
  | trailing place hd =>
    refine (tandem_popOperand span hs.operands).bind fun R₁ hR₁ a b hab => ?_
    refine (tandem_allocCall hd (.cons hab.1.1 .nil) place).bind fun R₂ hR₂ x y hxy => ?_
    have hs := (hs.mono hR₁).mono hR₂
    exact tandem_pure { hs with operands := .cons hxy (forall₂_operand_mono hab.2 hR₂) }
  | binary hop => exact tandem_pushBinary hs span hop

/-- What the runs among the terms are resolved with keeps compilations in step. -/
def Resolves (lenient : Prop) (Z : Extent) (O : Set Outset)
    (resolveRun resolveRun' : ExprId → CheckM Unit) : Prop :=
  ∀ R n m, R n m → Tandem lenient Z O R (resolveRun n) (resolveRun' m) fun _ _ _ => True

/-- **Terms that correspond are classified alike**, those that lag included. Those lag no longer
then, and none of them is a minus sign. -/
structure Classifies (lenient : Prop) (Z : Extent) (O : Set Outset)
    (resolveRun resolveRun' : ExprId → CheckM Unit) : Prop where
  classify : ∀ R t t', Z.Among R t t' → t ∈ Z.terms →
    Tandem lenient Z O R (classify resolveRun t) (classify resolveRun' t')
      fun R' a b => a.Mirrors Z R' b ∧ Z.Operand R' t t'
  late : ∀ R c k t t', InStep Z O R c k → Z.late t t' → R t t' ∨
    (c.arena.expr t).kind ≠ .minusSign ∧ (k.arena.expr t').kind ≠ .minusSign

theorem tandem_refreshReference (hn : Z.Operand R n m) :
    Tandem lenient Z O R (refreshReference n) (refreshReference m) fun _ _ _ => True := by
  have hset {R₁ : ExprId → ExprId → Prop} (hR₁ : R ≤ R₁) {d : DefId} (hd : d ∈ Z.names) :
      Tandem lenient Z O R₁ (do let ty ← CheckM.definitionType d; CheckM.setType n ty)
        (do let ty ← CheckM.definitionType d; CheckM.setType m ty) fun _ _ _ => True := by
    refine (tandem_definitionType hd).bind fun R₂ hR₂ ty _ h => ?_
    subst h
    refine tandem_modifyExpr (hR₂ _ _ (hR₁ _ _ hn.1)) fun c k halike => ?_
    have hR := hR₂ _ _ (hR₁ _ _ hn.1)
    have he := halike.expr hR
    exact ⟨⟨he.kind, rfl, he.declared, he.span⟩, halike.admits hR⟩
  unfold refreshReference
  refine (tandem_expr n m).bind fun R₁ hR₁ _ _ hread => ?_
  obtain ⟨c, k, halike, rfl, rfl⟩ := hread
  have hR := hR₁ n m hn.1
  have hnames := (halike.admits hR).names hn.2
  have hkind := (halike.expr hR).kind
  dsimp only
  generalize (c.arena.expr n).kind = kind at hkind hnames ⊢
  generalize (k.arena.expr m).kind = kind' at hkind ⊢
  cases hkind with
  | leaf hleaf =>
    cases kind with
    | run | call | negated => cases hleaf
    | reference d => exact hset hR₁ (hnames d (List.mem_singleton_self d))
    | operator d => exact hset hR₁ (hnames d (ExprKind.mem_named_operator _ d))
    | _ => exact tandem_pure trivial
  | run | call | negated => exact tandem_pure trivial

theorem tandem_operatorTerm (hn : Z.Operand R n m) (hd : Z.Lists d) (span : Span) :
    Tandem lenient Z O R (operatorTerm n d span) (operatorTerm m d span) (Term.Mirrors Z) := by
  unfold operatorTerm
  refine (tandem_definition d).bind fun R₁ hR₁ definition _ h => ?_
  subst h
  split
  · exact tandem_pure (.leading span hd)
  · exact tandem_pure (.trailing span hd.mem)
  · exact tandem_pure (.binary hd.mem)
  · exact tandem_pure (.operand (hn.mono hR₁))

theorem tandem_classifyResolved (hn : Z.Operand R n m) (span : Span) :
    Tandem lenient Z O R (classifyResolved n span) (classifyResolved m span)
      (Term.Mirrors Z) := by
  unfold classifyResolved
  refine (tandem_refreshReference hn).bind fun R₁ hR₁ _ _ _ => ?_
  refine (tandem_expr n m).bind fun R₂ hR₂ _ _ hread => ?_
  obtain ⟨c, k, halike, rfl, rfl⟩ := hread
  have hn := (hn.mono hR₁).mono hR₂
  have hnames := (halike.admits hn.1).names hn.2
  have hkind := (halike.expr hn.1).kind
  dsimp only
  generalize (c.arena.expr n).kind = kind at hkind hnames ⊢
  generalize (k.arena.expr m).kind = kind' at hkind ⊢
  cases hkind with
  | leaf hleaf =>
    cases kind with
    | run | call | negated => cases hleaf
    | syntaxError | notImplemented | deleted => exact tandem_fail _ span
    | minusSign => exact tandem_pure (.minusSign span hnames)
    | operator d => exact tandem_operatorTerm hn hnames span
    | _ => exact tandem_pure (.operand hn)
  | run | call | negated => exact tandem_pure (.operand hn)

/-- **Two terms that correspond** are classified alike if the runs among them are resolved in
step. -/
theorem Resolves.classify {resolveRun resolveRun' : ExprId → CheckM Unit}
    (hres : Resolves lenient Z O resolveRun resolveRun') (hn : Z.Operand R n m) :
    Tandem lenient Z O R (classify resolveRun n) (classify resolveRun' m)
      fun R' a b => a.Mirrors Z R' b ∧ Z.Operand R' n m := by
  refine Tandem.mono ?_ fun R' hR' a b hab => ⟨hab, hn.mono hR'⟩
  unfold Termwise.classify
  refine (tandem_expr n m).bind fun R₁ hR₁ _ _ hread => ?_
  obtain ⟨c, k, halike, rfl, rfl⟩ := hread
  have hn := hn.mono hR₁
  obtain ⟨hkind, -, -, hspan⟩ := halike.expr hn.1
  dsimp only
  rw [hspan]
  generalize (c.arena.expr n).kind = kind at hkind ⊢
  generalize (k.arena.expr m).kind = kind' at hkind ⊢
  cases hkind with
  | leaf hleaf =>
    cases kind with
    | run | call | negated => cases hleaf
    | _ => exact tandem_classifyResolved hn _
  | run =>
    refine (hres R₁ n m hn.1).attempt.bind fun R₂ hR₂ a b hab => ?_
    cases hab with
    | ok => exact tandem_classifyResolved (hn.mono hR₂) _
    | error e => exact tandem_fail_bind _ _ _ _
  | call | negated => exact tandem_classifyResolved hn _

section

variable {resolveRun resolveRun' : ExprId → CheckM Unit}
  (hclassifies : Classifies lenient Z O resolveRun resolveRun')
include hclassifies

theorem tandem_advance (span : Span) {s s' : Arrangement} (hs : s.Mirrors Z R s') {t t' : ExprId}
    (ht : Z.Among R t t') (hterm : t ∈ Z.terms) :
    Tandem lenient Z O R (Arrangement.advance resolveRun span s t)
      (Arrangement.advance resolveRun' span s' t') (Arrangement.Mirrors Z) := by
  unfold Arrangement.advance
  refine (hclassifies.classify R t t' ht hterm).bind fun R₁ hR₁ a b hab => ?_
  have hab := hab.1
  have hs := hs.mono hR₁
  have hphase := hs.phase
  generalize hp : s.phase = phase at hphase ⊢
  generalize hp' : s'.phase = phase' at hphase ⊢
  cases hphase with
  | operandDue => exact tandem_placeOperandDue hs span hab
  | operatorDue => exact tandem_placeOperatorDue hs span hab
  | @collecting callee callee' slots args args' hcallee hargs =>
    -- Anything but an operand ends the arguments and is classified again behind them.
    have hend : Tandem lenient Z O R₁
        (do
          let s ← s.pushOperand callee args
          let term ← classify resolveRun t
          s.placeOperatorDue span term)
        (do
          let s ← s'.pushOperand callee' args'
          let term ← classify resolveRun' t'
          s.placeOperatorDue span term) (Arrangement.Mirrors Z) := by
      refine (tandem_pushOperand hs hcallee hargs).bind fun R₂ hR₂ s₂ s₂' hs₂ => ?_
      have ht := (ht.mono hR₁).mono hR₂
      refine (hclassifies.classify R₂ t t' ht hterm).bind fun R₃ hR₃ a b hab => ?_
      exact tandem_placeOperatorDue (hs₂.mono hR₃) span hab.1
    cases hab with
    | operand hn =>
      refine (tandem_normalizeOperand hn).bind fun R₂ hR₂ x y hxy => ?_
      have hargs := List.rel_append (forall₂_operand_mono hargs hR₂) (.cons hxy .nil)
      have hs := hs.mono hR₂
      dsimp only
      rw [← hargs.length_eq]
      split
      · exact tandem_pushOperand hs (hcallee.mono hR₂) hargs
      · exact tandem_pure { hs with phase := .collecting slots (hcallee.mono hR₂) hargs }
    | _ => exact hend

theorem tandem_foldlM_advance (span : Span) {s s' : Arrangement} (hs : s.Mirrors Z R s')
    {ts ts' : List ExprId} (hts : List.Forall₂ (Z.Among R) ts ts')
    (hterms : ∀ t ∈ ts, t ∈ Z.terms) :
    Tandem lenient Z O R (ts.foldlM (Arrangement.advance resolveRun span) s)
      (ts'.foldlM (Arrangement.advance resolveRun' span) s') (Arrangement.Mirrors Z) := by
  induction ts generalizing ts' s s' R with
  | nil =>
    cases hts
    exact tandem_pure hs
  | cons t ts ih =>
    cases hts with
    | cons ht hts =>
      obtain ⟨hterm, hterms⟩ := List.forall_mem_cons.1 hterms
      rw [List.foldlM_cons, List.foldlM_cons]
      refine (tandem_advance hclassifies span hs ht hterm).bind fun R₁ hR₁ s₁ s₁' hs₁ => ?_
      exact ih hs₁ (hts.imp fun _ _ h => h.mono hR₁) hterms

end

/-- What a run comes to is the same on both sides up to the nodes below. -/
def Result (Z : Extent) (R : ExprId → ExprId → Prop) (e e' : Expression) : Prop :=
  e.Mirrors (Z.Among R) R e' ∧ ∀ n, Z.Admits n e.kind

theorem tandem_result (hn : Z.Operand R n m) :
    Tandem lenient Z O R (CheckM.expr n) (CheckM.expr m) (Result Z) := by
  refine (tandem_expr n m).mono fun R₁ hR₁ _ _ hread => ?_
  obtain ⟨c, k, halike, rfl, rfl⟩ := hread
  have hn := hn.mono hR₁
  have hadmits := halike.admits hn.1
  exact ⟨halike.expr hn.1, fun _ => ⟨fun _ => hadmits.names hn.2, hadmits.terms⟩⟩

theorem tandem_finish {s s' : Arrangement} (hs : s.Mirrors Z R s') (span : Span) :
    Tandem lenient Z O R (s.finish span) (s'.finish span) (Result Z) := by
  unfold Arrangement.finish
  extract_lets last
  have hlast : ∀ R, ∀ s s' : Arrangement, s.Mirrors Z R s' →
      Tandem lenient Z O R (last s) (last s') (Result Z) := by
    intro R s s' hs
    dsimp -zeta only [last]
    rw [hs.operators, hs.leading]
    extract_lets reduced
    -- One operand must be left, and the two lists have the same length.
    have hreduced : ∀ R, ∀ ns ms, List.Forall₂ (Z.Operand R) ns ms →
        Tandem lenient Z O R (reduced ns) (reduced ms) (Result Z) := by
      intro R ns ms hnodes
      refine (tandem_reduceAll span hs.listed hnodes).bind fun R₁ _ ns ms hnodes => ?_
      cases hnodes with
      | nil => exact tandem_fail _ span
      | cons hn hrest =>
        cases hrest with
        | nil => exact tandem_result hn
        | cons hn' hrest =>
          simp only [List.length_cons, hrest.length_eq]
          exact tandem_fail _ span
    have hphase := hs.phase
    generalize s.phase = phase at hphase ⊢
    generalize s'.phase = phase' at hphase ⊢
    cases hphase with
    | operandDue =>
      cases s.leading with
      | cons => exact tandem_fail_bind _ _ _ _
      | nil =>
        cases s.operators with
        | nil => exact tandem_fail_bind _ span _ _
        | cons op _ =>
          refine (tandem_allocMissing op.span).bind fun R₁ hR₁ x y hxy => ?_
          exact hreduced R₁ _ _ (.cons hxy (forall₂_operand_mono hs.operands hR₁))
    | operatorDue | collecting => exact hreduced R _ _ hs.operands
  have hphase := hs.phase
  generalize hp : s.phase = phase at hphase ⊢
  generalize hp' : s'.phase = phase' at hphase ⊢
  cases hphase with
  | operandDue | operatorDue => exact (tandem_pure hs).bind fun R₁ _ s s' hs => hlast R₁ s s' hs
  | collecting slots hcallee hargs =>
    exact (tandem_pushOperand hs hcallee hargs).bind fun R₁ _ s s' hs => hlast R₁ s s' hs

/-! ## Runs -/

section

variable {resolveRun resolveRun' : ExprId → CheckM Unit} {ts ts' : List ExprId}
  (hclassifies : Classifies lenient Z O resolveRun resolveRun')
include hclassifies

theorem tandem_arrange (span : Span) (hts : List.Forall₂ (Z.Among R) ts ts')
    (hterms : ∀ t ∈ ts, t ∈ Z.terms) :
    Tandem lenient Z O R (arrange resolveRun ts span) (arrange resolveRun' ts' span)
      (Result Z) := by
  have hstart : Arrangement.start.Mirrors Z R .start :=
    ⟨.nil, rfl, nofun, rfl, nofun, .operandDue⟩
  exact (tandem_foldlM_advance hclassifies span hstart hts hterms).bind
    fun R₁ _ s s' hs => tandem_finish hs span

/-- Whether a term is a minus sign is the same on both sides, and what a minus sign names is
listed. -/
theorem tandem_isMinusSign {t t' : ExprId} (ht : Z.Among R t t') (hterm : t ∈ Z.terms) :
    Tandem lenient Z O R (CheckM.expr t) (CheckM.expr t')
      fun _ e e' => (e'.kind = .minusSign ↔ e.kind = .minusSign) ∧
        (e.kind = .minusSign → ∀ d ∈ ExprKind.minusSign.named Z.builtins, d ∈ Z.names) := by
  intro c k hck
  refine coupled_ok rfl rfl ⟨R, le_rfl, hck, ?_⟩
  have hsame : R t t' → ((k.arena.expr t').kind = .minusSign ↔ (c.arena.expr t).kind = .minusSign) ∧
      ((c.arena.expr t).kind = .minusSign →
        ∀ d ∈ ExprKind.minusSign.named Z.builtins, d ∈ Z.names) := by
    intro hR
    have hkind := (hck.1.expr hR).kind
    refine ⟨?_, fun hk => hk ▸ (hck.1.admits hR).names hterm⟩
    generalize (c.arena.expr t).kind = kind at hkind ⊢
    generalize (k.arena.expr t').kind = kind' at hkind ⊢
    cases hkind <;> simp
  rcases ht with hR | hlate
  · exact hsame hR
  · rcases hclassifies.late R c k t t' hck hlate with hR | ⟨hn, hn'⟩
    · exact hsame hR
    · exact ⟨iff_of_false hn' hn, fun hk => (hn hk).elim⟩

/-- **Two lists of terms that correspond** come to the same. -/
theorem tandem_resolveTerms (span : Span) (hts : List.Forall₂ (Z.Among R) ts ts')
    (hterms : ∀ t ∈ ts, t ∈ Z.terms) :
    Tandem lenient Z O R (resolveTerms resolveRun ts span) (resolveTerms resolveRun' ts' span)
      (Result Z) := by
  have harrange (R' : ExprId → ExprId → Prop) (hR' : R ≤ R') :=
    tandem_arrange hclassifies span (hts.imp fun _ _ h => h.mono hR') hterms
  cases hts with
  | nil =>
    exact tandem_pure ⟨⟨.leaf rfl, rfl, rfl, rfl⟩, fun _ =>
      ⟨fun _ _ hd => (List.not_mem_nil hd).elim, nofun⟩⟩
  | @cons first first' rest rest' hfirst hrest =>
    obtain ⟨hterm, hterms⟩ := List.forall_mem_cons.1 hterms
    cases hrest with
    | nil =>
      refine (hclassifies.classify R first first' hfirst hterm).bind fun R₁ hR₁ a b hab => ?_
      obtain ⟨hab, hn⟩ := hab
      cases hab with
      | minusSign place => exact tandem_fail _ place
      | _ => exact tandem_result hn
    | @cons second second' rest rest' hsecond hrest =>
      cases hrest with
      | cons => exact harrange R le_rfl
      | nil =>
        refine (tandem_isMinusSign hclassifies hfirst hterm).bind fun R₁ hR₁ e e' he => ?_
        simp only [he.1]
        split
        · rename_i hminus
          have hnames := he.2 hminus
          refine (hclassifies.classify R₁ second second' (hsecond.mono hR₁)
            (hterms second List.mem_cons_self)).bind fun R₂ hR₂ a b hab => ?_
          obtain ⟨hab, -⟩ := hab
          refine tandem_arena.bind fun R₃ hR₃ _ _ hread => ?_
          obtain ⟨c, k, halike, rfl, rfl⟩ := hread
          -- A sign before what is no number is arranged like any run of two.
          have hrest := harrange R₃ ((hR₁.trans hR₂).trans hR₃)
          cases hab with
          | operand hn =>
            have hn := hn.mono hR₃
            have hty := (halike.expr hn.1).ty
            dsimp only
            rw [hty]
            split
            · refine tandem_pure ⟨⟨.negated hn.1, ?_, rfl, rfl⟩, fun _ => ⟨fun _ d hd => ?_, nofun⟩⟩
              · simp only [negatedOperand, Expression.new, hty]
              · exact hnames d (List.mem_cons_of_mem _ hd)
            · exact hrest
          | _ => exact hrest
        · exact harrange R₁ hR₁

end

/-- An error that is new is reported, and the program is invalid in any case. -/
theorem Compilation.grown_reportNew (error : CompileError) : ∃ added, ∀ c : Compilation,
    c.Grown added false (Compilation.reportNew { c with isValid := false } error) := by
  cases hnew : error.isAlreadyReported with
  | true =>
    refine ⟨0, fun c => ?_⟩
    simp only [reportNew, hnew, if_true]
    exact ⟨(Multiset.add_zero _).symm, (Bool.and_false _).symm⟩
  | false =>
    refine ⟨{⟨.error, error⟩}, fun c => ?_⟩
    simp only [reportNew, hnew, Bool.false_eq_true, if_false]
    exact ⟨(Multiset.coe_add _ _).symm, (Bool.and_false _).symm⟩

theorem Compilation.program_reportNew (c : Compilation) (error : CompileError) :
    (c.reportNew error).arena = c.arena ∧ (c.reportNew error).builtins = c.builtins := by
  unfold reportNew
  split <;> exact ⟨rfl, rfl⟩

/-- **A run that failed** is marked on both sides, and the same is reported. -/
theorem tandem_markFailed (hR : R n m) (error : CompileError) :
    Tandem lenient Z O R (markFailed n error) (markFailed m error) fun _ _ _ => True := by
  unfold markFailed
  refine (tandem_modifyExpr hR fun c k halike => ?_).bind fun R₁ _ _ _ _ => ?_
  · have he := halike.expr hR
    exact ⟨⟨.leaf rfl, rfl, he.declared, he.span⟩,
      ⟨fun _ _ hd => (List.not_mem_nil hd).elim, nofun⟩⟩
  · obtain ⟨added, hgrown⟩ := grown_reportNew error
    have harena (c : Compilation) := { c with isValid := false }.program_reportNew error
    exact tandem_modify (fun c => (harena c).1) (fun k => (harena k).1) (fun c => (harena c).2)
      (fun k => (harena k).2) fun c k => ⟨added, false, hgrown c, hgrown k⟩

/-- **Two nodes that correspond** are resolved in step if their terms are classified alike. -/
theorem tandem_resolveNode {resolveRun resolveRun' : ExprId → CheckM Unit}
    (hclassifies : Classifies lenient Z O resolveRun resolveRun') :
    Resolves lenient Z O (resolveNode resolveRun) (resolveNode resolveRun') := by
  intro R n m hR
  unfold resolveNode
  refine (tandem_expr n m).bind fun R₁ hR₁ _ _ hread => ?_
  obtain ⟨c, k, halike, rfl, rfl⟩ := hread
  have hR := hR₁ n m hR
  have hterms := (halike.admits hR).terms
  obtain ⟨hkind, -, -, hspan⟩ := halike.expr hR
  dsimp only
  generalize (c.arena.expr n).kind = kind at hkind hterms ⊢
  generalize (k.arena.expr m).kind = kind' at hkind ⊢
  cases hkind with
  | run hts =>
    rw [hspan]
    refine (tandem_resolveTerms hclassifies _ hts (hterms _ rfl)).attempt.bind
      fun R₂ hR₂ a b hab => ?_
    have hR := hR₂ n m hR
    cases hab with
    | @ok e e' hresult =>
      refine (tandem_modifyExpr hR fun c k halike => ?_).bind fun R₃ hR₃ _ _ _ => ?_
      · have he := halike.expr hR
        exact ⟨⟨hresult.1.kind, hresult.1.ty, he.declared, he.span⟩, hresult.2 n⟩
      · exact (tandem_expr n m).bind fun _ _ _ _ _ => tandem_emit _ _
    | error error =>
      exact (tandem_markFailed hR error).bind fun _ _ _ _ _ => tandem_throw error
  | leaf hleaf =>
    cases kind with
    | run | call | negated => cases hleaf
    | _ => exact tandem_pure trivial
  | call | negated => exact tandem_pure trivial

end Termwise
