import Termwise.Proofs.Outcome

/-!
# What a run may take and build

A run takes its terms and builds calls of what it has taken. A custody says what it may take, what
it may then call or pass on as an argument, and in which state all that is left. It owes one clause
for every way in which a node is built, with the place in the text at which that is done; whatever
is kept, the run then comes to something that the custody yields, or stops as the custody allows.

Unlike an account, a custody does not follow the plan of a run. It says what is done to the tables
however the terms are grouped, and also when the run is refused.

## Main definitions

* `Custody`: what a run may take and build
* `Custody.Keeps`: an action stays within a custody

## Main results

* `Custody.keeps_arrange`: a run is arranged within a custody
* `Custody.keeps_resolveTerms`: terms are resolved within a custody
-/

namespace Termwise

/-- **What a run may take and build.** -/
structure Custody (resolveRun : ExprId → CheckM Unit) (terms : List ExprId) (span : Span) where
  Valid : Compilation → Prop
  Later : Compilation → Compilation → Prop
  Stops : Compilation → Stop → Compilation → Prop
  /-- A term that the run may take. -/
  Takes : Compilation → Term → Prop
  /-- An operand that may be called with arguments. -/
  Opens : Compilation → ExprId → Prop
  /-- An operand that may be an argument. -/
  Holds : Compilation → ExprId → Prop
  /-- What the terms may come to. -/
  Yields : Compilation → Expression → Prop
  refl (c : Compilation) : Later c c
  trans {c c' c'' : Compilation} : Later c c' → Later c' c'' → Later c c''
  later {c c' c'' : Compilation} {stop : Stop} : Later c c' → Stops c' stop c'' → Stops c stop c''
  /-- A term is refused where it stands, for a reason of its own. -/
  refuse (c : Compilation) {cause : Cause} (place : Span) : cause ≠ .containsError →
    Stops c (.error ⟨cause, place⟩) c
  valid {c c' : Compilation} : Valid c → Later c c' → Valid c'
  takes {c c' : Compilation} {term : Term} : Takes c term → Later c c' → Takes c' term
  opens {c c' : Compilation} {n : ExprId} : Opens c n → Later c c' → Opens c' n
  holds {c c' : Compilation} {n : ExprId} : Holds c n → Later c c' → Holds c' n
  closes {c : Compilation} {n : ExprId} : Opens c n → Holds c n
  classify {c : Compilation} {t : ExprId} : Valid c → t ∈ terms →
    Outcome (classify resolveRun t) c (fun term c' => Later c c' ∧ Takes c' term) (Stops c)
  /-- A minus sign may lead an operand. -/
  sign {c : Compilation} {place : Span} : Valid c → Takes c (.minusSign place) →
    Takes c (.leading c.builtins.unaryMinus place)
  /-- A minus sign may stand between two operands. -/
  minus {c : Compilation} {place : Span} {op : PendingOperator} : Valid c →
    Takes c (.minusSign place) →
    (c.arena.definition c.builtins.minus).pending? c.builtins.minus place = some op →
    Takes c (.binary op)
  operand {c : Compilation} {t : ExprId} : Valid c → Takes c (.operand t) →
    Outcome (Arrangement.normalizeOperand t) c (fun n c' => Later c c' ∧ Opens c' n) (Stops c)
  apply {c : Compilation} {f : ExprId} {args : List ExprId} : Valid c → Opens c f →
    (∀ m ∈ args, Opens c m) →
    Outcome (Arrangement.applyCollected f args) c (fun n c' => Later c c' ∧ Opens c' n) (Stops c)
  lead {c : Compilation} {d : DefId} {place : Span} {x : ExprId} : Valid c →
    Takes c (.leading d place) → Opens c x →
    Outcome (allocCall (if d = c.builtins.unaryMinus then c.negationFor x else d) [x]
        (place.merge (c.arena.expr x).span)) c
      (fun n c' => Later c c' ∧ Opens c' n) (Stops c)
  trail {c : Compilation} {d : DefId} {place : Span} {x : ExprId} : Valid c →
    Takes c (.trailing d place) → Holds c x →
    Outcome (allocCall d [x] place) c (fun n c' => Later c c' ∧ Holds c' n) (Stops c)
  missing {c : Compilation} {op : PendingOperator} : Valid c → Takes c (.binary op) →
    Outcome (Arrangement.allocMissing op.span) c (fun n c' => Later c c' ∧ Holds c' n) (Stops c)
  combine {c : Compilation} {op : PendingOperator} {x y : ExprId} : Valid c →
    Takes c (.binary op) → Holds c x → Holds c y →
    Outcome (allocCall op.definition [x, y] ((c.arena.expr x).span.merge (c.arena.expr y).span)) c
      (fun n c' => Later c c' ∧ Holds c' n) (Stops c)
  empty {c : Compilation} : Valid c → Yields c (.sentinel .empty span)
  only {c : Compilation} {t : ExprId} : Valid c → t ∈ terms → Yields c (c.arena.expr t)
  negated {c : Compilation} {x : ExprId} : Valid c → Takes c (.operand x) →
    Yields c (negatedOperand c.arena x span)
  whole {c : Compilation} {n : ExprId} : Valid c → Holds c n → Yields c (c.arena.expr n)

namespace Custody

variable {resolveRun : ExprId → CheckM Unit} {terms : List ExprId} {span : Span}
  (K : Custody resolveRun terms span)

/-- **An action stays within a custody**, whether it ends or stops. -/
def Keeps {α : Type} (c : Compilation) (action : CheckM α) (ended : α → Compilation → Prop) :
    Prop :=
  Outcome action c (fun a c' => K.Later c c' ∧ ended a c') (K.Stops c)

/-- The stacks of an arrangement hold what may be taken and built. -/
structure Stocks (c : Compilation) (s : Arrangement) : Prop where
  operands : ∀ n ∈ s.operands, K.Holds c n
  operators : ∀ op ∈ s.operators, K.Takes c (.binary op)
  leading : ∀ entry ∈ s.leading, K.Takes c (.leading entry.1 entry.2)
  phase : ∀ callee slots args, s.phase = .collecting callee slots args →
    K.Opens c callee ∧ ∀ n ∈ args, K.Opens c n

variable {K} {c c' : Compilation}

section

variable {α β : Type} {ended : α → Compilation → Prop} {mid : β → Compilation → Prop}

theorem keeps_pure (a : α) (h : ended a c) : K.Keeps c (pure a) ended := ⟨K.refl c, h⟩

theorem keeps_fail {cause : Cause} (place : Span) (h : cause ≠ .containsError) :
    K.Keeps c (CheckM.fail cause place : CheckM α) ended := K.refuse c place h

/-- **Actions in sequence** stay within a custody if each does. -/
theorem Keeps.bind {first : CheckM β} {rest : β → CheckM α} (h : K.Keeps c first mid)
    (hrest : ∀ b c', K.Later c c' → mid b c' → K.Keeps c' (rest b) ended) :
    K.Keeps c (first >>= rest) ended := by
  rw [Keeps, outcome_bind]
  refine Outcome.imp h ?_
  rintro b c' ⟨hlater, hmid⟩
  refine Outcome.mono (hrest b c' hlater hmid) ?_ fun _ _ => K.later hlater
  exact fun a c'' h' => ⟨K.trans hlater h'.1, h'.2⟩

@[simp] theorem keeps_get {rest : Compilation → CheckM α} :
    K.Keeps c (get >>= rest) ended ↔ K.Keeps c (rest c) ended := Iff.rfl

@[simp] theorem keeps_arena {rest : Arena → CheckM α} :
    K.Keeps c (CheckM.arena >>= rest) ended ↔ K.Keeps c (rest c.arena) ended := Iff.rfl

@[simp] theorem keeps_expr {rest : Expression → CheckM α} (n : ExprId) :
    K.Keeps c (CheckM.expr n >>= rest) ended ↔ K.Keeps c (rest (c.arena.expr n)) ended := Iff.rfl

@[simp] theorem keeps_definition {rest : Definition → CheckM α} (d : DefId) :
    K.Keeps c (CheckM.definition d >>= rest) ended ↔
      K.Keeps c (rest (c.arena.definition d)) ended := Iff.rfl

end

theorem Stocks.later {s : Arrangement} (hs : K.Stocks c s) (h : K.Later c c') : K.Stocks c' s where
  operands n hn := K.holds (hs.operands n hn) h
  operators op hop := K.takes (hs.operators op hop) h
  leading entry hentry := K.takes (hs.leading entry hentry) h
  phase callee slots args hphase :=
    have ⟨hcallee, hargs⟩ := hs.phase callee slots args hphase
    ⟨K.opens hcallee h, fun n hn => K.opens (hargs n hn) h⟩

/-! ## Operands -/

theorem keeps_applyLeading {n : ExprId} {leading : List (DefId × Span)} (hc : K.Valid c)
    (hn : K.Opens c n) (hleading : ∀ entry ∈ leading, K.Takes c (.leading entry.1 entry.2)) :
    K.Keeps c (Arrangement.applyLeading n leading) fun m c' => K.Opens c' m := by
  induction leading generalizing c n with
  | nil => exact keeps_pure n hn
  | cons entry leading ih =>
    obtain ⟨hentry, hleading⟩ := List.forall_mem_cons.1 hleading
    simp only [Arrangement.applyLeading, keeps_get]
    refine Keeps.bind (K.lead hc hentry hn) fun m c₁ h₁ hm => ?_
    exact ih (K.valid hc h₁) hm fun entry hentry => K.takes (hleading entry hentry) h₁

theorem keeps_pushOperand {s : Arrangement} {n : ExprId} {args : List ExprId} (hc : K.Valid c)
    (hs : K.Stocks c s) (hn : K.Opens c n) (hargs : ∀ m ∈ args, K.Opens c m) :
    K.Keeps c (s.pushOperand n args) fun s' c' => K.Stocks c' s' := by
  refine Keeps.bind (K.apply hc hn hargs) fun m c₁ h₁ hm => ?_
  have hs₁ := hs.later h₁
  refine (keeps_applyLeading (K.valid hc h₁) hm hs₁.leading).bind fun x c₂ h₂ hx => ?_
  have hs₂ := hs₁.later h₂
  exact keeps_pure _
    ⟨List.forall_mem_cons.2 ⟨K.closes hx, hs₂.operands⟩, hs₂.operators, nofun, nofun⟩

/-! ## Stacks -/

theorem keeps_popOperand (place : Span) {operands : List ExprId}
    (hoperands : ∀ n ∈ operands, K.Holds c n) :
    K.Keeps c (Arrangement.popOperand place operands) fun popped c' =>
      K.Holds c' popped.1 ∧ ∀ n ∈ popped.2, K.Holds c' n := by
  cases operands with
  | nil => exact keeps_fail _ nofun
  | cons top rest => exact keeps_pure _ (List.forall_mem_cons.1 hoperands)

theorem keeps_reduce (place : Span) {op : PendingOperator} {operands : List ExprId}
    (hc : K.Valid c) (hop : K.Takes c (.binary op)) (hoperands : ∀ n ∈ operands, K.Holds c n) :
    K.Keeps c (Arrangement.reduce place op operands) fun reduced c' =>
      ∀ n ∈ reduced, K.Holds c' n := by
  refine (keeps_popOperand place hoperands).bind fun ⟨right, _⟩ c₁ h₁ ⟨hright, hrest⟩ => ?_
  refine (keeps_popOperand place hrest).bind fun ⟨left, _⟩ c₂ h₂ ⟨hleft, hrest⟩ => ?_
  have h := K.trans h₁ h₂
  simp only [keeps_arena]
  refine Keeps.bind (K.combine (K.valid hc h) (K.takes hop h) hleft (K.holds hright h₂))
    fun n c₃ h₃ hn => ?_
  exact keeps_pure _ (List.forall_mem_cons.2 ⟨hn, fun m hm => K.holds (hrest m hm) h₃⟩)

theorem keeps_reduceBefore (place : Span) (next : BindingPower) {operators : List PendingOperator}
    {operands : List ExprId} (hc : K.Valid c)
    (hoperators : ∀ op ∈ operators, K.Takes c (.binary op))
    (hoperands : ∀ n ∈ operands, K.Holds c n) :
    K.Keeps c (Arrangement.reduceBefore place next operators operands) fun reduced c' =>
      (∀ op ∈ reduced.1, K.Takes c' (.binary op)) ∧ ∀ n ∈ reduced.2, K.Holds c' n := by
  induction operators generalizing c operands with
  | nil => exact keeps_pure _ ⟨hoperators, hoperands⟩
  | cons top rest ih =>
    obtain ⟨htop, hrest⟩ := List.forall_mem_cons.1 hoperators
    unfold Arrangement.reduceBefore
    split
    · exact keeps_pure _ ⟨hoperators, hoperands⟩
    · refine (keeps_reduce place hc htop hoperands).bind fun reduced c₁ h₁ hreduced => ?_
      exact ih (K.valid hc h₁) (fun op hop => K.takes (hrest op hop) h₁) hreduced

theorem keeps_reduceAll (place : Span) {operators : List PendingOperator} {operands : List ExprId}
    (hc : K.Valid c) (hoperators : ∀ op ∈ operators, K.Takes c (.binary op))
    (hoperands : ∀ n ∈ operands, K.Holds c n) :
    K.Keeps c (Arrangement.reduceAll place operators operands) fun reduced c' =>
      ∀ n ∈ reduced, K.Holds c' n := by
  induction operators generalizing c operands with
  | nil => exact keeps_pure _ hoperands
  | cons top rest ih =>
    obtain ⟨htop, hrest⟩ := List.forall_mem_cons.1 hoperators
    refine (keeps_reduce place hc htop hoperands).bind fun reduced c₁ h₁ hreduced => ?_
    exact ih (K.valid hc h₁) (fun op hop => K.takes (hrest op hop) h₁) hreduced

theorem keeps_pushBinary {s : Arrangement} (place : Span) {op : PendingOperator} (hc : K.Valid c)
    (hs : K.Stocks c s) (hop : K.Takes c (.binary op)) :
    K.Keeps c (s.pushBinary place op) fun s' c' => K.Stocks c' s' := by
  refine (keeps_reduceBefore place op.power hc hs.operators hs.operands).bind ?_
  rintro ⟨operators, operands⟩ c₁ h₁ ⟨hoperators, hoperands⟩
  exact keeps_pure _ ⟨hoperands, List.forall_mem_cons.2 ⟨K.takes hop h₁, hoperators⟩,
    (hs.later h₁).leading, nofun⟩

/-! ## Terms -/

theorem keeps_placeOperandDue {s : Arrangement} {term : Term} (place : Span) (hc : K.Valid c)
    (hs : K.Stocks c s) (hterm : K.Takes c term) :
    K.Keeps c (s.placeOperandDue place term) fun s' c' => K.Stocks c' s' := by
  cases term with
  | operand id =>
    refine Keeps.bind (K.operand hc hterm) fun n c₁ h₁ hn => ?_
    have hs₁ := hs.later h₁
    simp only [keeps_arena]
    split
    · exact keeps_pushOperand (K.valid hc h₁) hs₁ hn nofun
    · refine keeps_pure _ ⟨hs₁.operands, hs₁.operators, hs₁.leading, ?_⟩
      rintro _ _ _ ⟨⟩
      exact ⟨hn, nofun⟩
  | minusSign sign =>
    simp only [Arrangement.placeOperandDue, keeps_get]
    exact keeps_pure _ ⟨hs.operands, hs.operators,
      List.forall_mem_cons.2 ⟨K.sign hc hterm, hs.leading⟩, hs.phase⟩
  | leading d sign =>
    exact keeps_pure _ ⟨hs.operands, hs.operators, List.forall_mem_cons.2 ⟨hterm, hs.leading⟩,
      hs.phase⟩
  | trailing d sign => exact keeps_fail _ nofun
  | binary op =>
    rw [Arrangement.placeOperandDue]
    split
    · refine Keeps.bind (K.missing hc hterm) fun missing c₁ h₁ hmissing => ?_
      have hs₁ := hs.later h₁
      refine keeps_pushBinary place (K.valid hc h₁) ?_ (K.takes hterm h₁)
      exact ⟨by simpa using hmissing, hs₁.operators, hs₁.leading, hs₁.phase⟩
    · exact keeps_fail _ nofun

theorem keeps_placeOperatorDue {s : Arrangement} {term : Term} (place : Span) (hc : K.Valid c)
    (hs : K.Stocks c s) (hterm : K.Takes c term) :
    K.Keeps c (s.placeOperatorDue place term) fun s' c' => K.Stocks c' s' := by
  cases term with
  | operand id => exact K.refuse c _ nofun
  | minusSign sign =>
    simp only [Arrangement.placeOperatorDue, keeps_get, keeps_definition]
    split
    · exact keeps_pushBinary place hc hs (K.minus hc hterm ‹_›)
    · exact keeps_fail _ nofun
  | leading d sign => exact keeps_fail _ nofun
  | trailing d sign =>
    refine (keeps_popOperand place hs.operands).bind ?_
    rintro ⟨operand, operands⟩ c₁ h₁ ⟨hoperand, hoperands⟩
    refine Keeps.bind (K.trail (K.valid hc h₁) (K.takes hterm h₁) hoperand) fun n c₂ h₂ hn => ?_
    have hs₂ := hs.later (K.trans h₁ h₂)
    exact keeps_pure _ ⟨List.forall_mem_cons.2 ⟨hn, fun m hm => K.holds (hoperands m hm) h₂⟩,
      hs₂.operators, hs₂.leading, hs₂.phase⟩
  | binary op => exact keeps_pushBinary place hc hs hterm

/-- **Reading one term** stays within a custody. -/
theorem keeps_advance {s : Arrangement} {t : ExprId} (place : Span) (hc : K.Valid c)
    (hs : K.Stocks c s) (ht : t ∈ terms) :
    K.Keeps c (Arrangement.advance resolveRun place s t) fun s' c' => K.Stocks c' s' := by
  refine Keeps.bind (K.classify hc ht) fun term c₁ h₁ hterm => ?_
  have hc₁ := K.valid hc h₁
  have hs₁ := hs.later h₁
  split
  · exact keeps_placeOperandDue place hc₁ hs₁ hterm
  · exact keeps_placeOperatorDue place hc₁ hs₁ hterm
  · rename_i callee slots args arg hcollecting
    refine Keeps.bind (K.operand hc₁ hterm) fun n c₂ h₂ hn => ?_
    have hs₂ := hs₁.later h₂
    obtain ⟨hcallee, hargs⟩ := hs₂.phase _ _ _ hcollecting
    have hargs : ∀ m ∈ args ++ [n], K.Opens c₂ m :=
      List.forall_mem_append.2 ⟨hargs, by simpa using hn⟩
    dsimp only
    split
    · exact keeps_pushOperand (K.valid hc₁ h₂) hs₂ hcallee hargs
    · refine keeps_pure _ ⟨hs₂.operands, hs₂.operators, hs₂.leading, ?_⟩
      rintro _ _ _ ⟨⟩
      exact ⟨hcallee, hargs⟩
  -- The function is applied to what it has, and the term is read again behind it.
  · rename_i callee slots args hcollecting _
    obtain ⟨hcallee, hargs⟩ := hs₁.phase _ _ _ hcollecting
    refine (keeps_pushOperand hc₁ hs₁ hcallee hargs).bind fun s₂ c₂ h₂ hs₂ => ?_
    have hc₂ := K.valid hc₁ h₂
    refine Keeps.bind (K.classify hc₂ ht) fun term c₃ h₃ hterm => ?_
    exact keeps_placeOperatorDue place (K.valid hc₂ h₃) (hs₂.later h₃) hterm

/-! ## Whole runs -/

theorem keeps_foldlM_advance {s : Arrangement} {ts : List ExprId} (place : Span)
    (hts : ts ⊆ terms) (hc : K.Valid c) (hs : K.Stocks c s) :
    K.Keeps c (ts.foldlM (Arrangement.advance resolveRun place) s) fun s' c' =>
      K.Stocks c' s' := by
  induction ts generalizing c s with
  | nil => exact keeps_pure s hs
  | cons t ts ih =>
    obtain ⟨ht, hts⟩ := List.cons_subset.1 hts
    rw [List.foldlM_cons]
    refine (keeps_advance place hc hs ht).bind fun s₁ c₁ h₁ hs₁ => ?_
    exact ih hts (K.valid hc h₁) hs₁

theorem keeps_finish {s : Arrangement} (place : Span) (hc : K.Valid c) (hs : K.Stocks c s) :
    K.Keeps c (s.finish place) fun e c' => K.Yields c' e := by
  unfold Arrangement.finish
  extract_lets last
  have hlast : ∀ (c : Compilation) (s' : Arrangement), K.Valid c → K.Stocks c s' →
      K.Keeps c (last s') fun e c' => K.Yields c' e := by
    intro c s' hc hs
    dsimp -zeta only [last]
    extract_lets reduced
    have hreduced : ∀ (c : Compilation) (operands : List ExprId), K.Valid c →
        (∀ op ∈ s'.operators, K.Takes c (.binary op)) → (∀ n ∈ operands, K.Holds c n) →
        K.Keeps c (reduced operands) fun e c' => K.Yields c' e := by
      intro c operands hc hoperators hoperands
      refine (keeps_reduceAll place hc hoperators hoperands).bind fun rest c₁ h₁ hrest => ?_
      split
      · exact ⟨K.refl c₁, K.whole (K.valid hc h₁) (hrest _ (by simp))⟩
      · exact keeps_fail _ nofun
    split
    · exact K.refuse c _ nofun
    -- A binary operator without a right side leaves it open.
    · rename_i op ops _ _ hoperators
      have hop : K.Takes c (.binary op) := hs.operators op (by simp [hoperators])
      refine Keeps.bind (K.missing hc hop) fun missing c₁ h₁ hmissing => ?_
      have hs₁ := hs.later h₁
      exact hreduced c₁ _ (K.valid hc h₁) hs₁.operators
        (List.forall_mem_cons.2 ⟨hmissing, hs₁.operands⟩)
    · exact K.refuse c _ nofun
    · exact hreduced c _ hc hs.operators hs.operands
  split
  · rename_i callee slots args hcollecting
    obtain ⟨hcallee, hargs⟩ := hs.phase _ _ _ hcollecting
    refine (keeps_pushOperand hc hs hcallee hargs).bind fun s₁ c₁ h₁ hs₁ => ?_
    exact hlast c₁ s₁ (K.valid hc h₁) hs₁
  · exact hlast c s hc hs

/-- **A run is arranged** within a custody. -/
theorem keeps_arrange (place : Span) (hc : K.Valid c) :
    K.Keeps c (arrange resolveRun terms place) fun e c' => K.Yields c' e := by
  have hstart : K.Stocks c .start := ⟨nofun, nofun, nofun, nofun⟩
  refine (keeps_foldlM_advance place (List.Subset.refl terms) hc hstart).bind fun s c₁ h₁ hs => ?_
  exact keeps_finish place (K.valid hc h₁) hs

/-- **Terms are resolved** within a custody. -/
theorem keeps_resolveTerms (K : Custody resolveRun terms span) (hc : K.Valid c) :
    K.Keeps c (resolveTerms resolveRun terms span) fun e c' => K.Yields c' e := by
  unfold resolveTerms
  split
  · exact keeps_pure _ (K.empty hc)
  · rename_i only
    have honly := List.mem_singleton_self only
    refine Keeps.bind (K.classify hc honly) fun term c₁ h₁ _ => ?_
    split
    · exact keeps_fail _ nofun
    · exact ⟨K.refl c₁, K.only (K.valid hc h₁) honly⟩
  · rename_i first second
    simp only [keeps_expr]
    split
    · have hsecond : second ∈ [first, second] := by simp
      refine Keeps.bind (K.classify hc hsecond) fun term c₁ h₁ hterm => ?_
      have harrange := keeps_arrange span (K.valid hc h₁)
      simp only [keeps_arena]
      split
      · split
        · exact keeps_pure _ (K.negated (K.valid hc h₁) hterm)
        · exact harrange
      · exact harrange
    · exact keeps_arrange span hc
  · exact keeps_arrange span hc

end Custody

end Termwise
