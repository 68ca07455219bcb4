import Termwise.Proofs.Run.Account
import Termwise.Proofs.Run.Nested

/-!
# Reading a resolved run back

The calls that a run is resolved into can be read from left to right again. A call of a binary
operator reads as its left argument, the operator and its right argument; an operator in front of
or behind an operand reads at its place; a function reads before its arguments; an open parameter
reads as nothing, and a term as itself. What is read is the run: no term is lost, duplicated or
moved, whatever operators the program declares.

A tree does not say which of several terms with the same operator built a call, so reading is a
relation: a call reads as any term that refers to its operator.

## Main definitions

* `Reads`: a node reads as a list of terms
* `reading`: the account of a run that reads its nodes back

## Main results

* `resolveWithin_outcome`: a run whose terms are accepted is replaced by no run
* `reads_of_resolve`: an accepted run reads as its terms
-/

namespace Termwise

open Compilation Grouping

/-- A term stands between two operands, as a call of a definition. -/
def Compilation.InfixOf (c : Compilation) (d : DefId) (o : ExprId) : Prop :=
  (∃ precedence associativity, c.RefersTo o d (.binary precedence associativity)) ∨
    (c.arena.expr o).kind = .minusSign ∧ d = c.builtins.minus

/-- A term stands in front of an operand, as a call of a definition: negation may turn out to be
that of floats. -/
def Compilation.SignOf (c : Compilation) (d : DefId) (s : ExprId) : Prop :=
  c.Leads d s ∨ c.Leads c.builtins.unaryMinus s ∧ d = c.builtins.unaryMinusFloat

/-- Arguments put into the open places among bound ones, in order, and the rest behind them. -/
inductive Fills (c : Compilation) : (bound fresh args : List ExprId) → Prop where
  | rest (fresh : List ExprId) : Fills c [] fresh fresh
  | keep {bound fresh args : List ExprId} (arg : ExprId) (h : Fills c bound fresh args) :
    Fills c (arg :: bound) fresh (arg :: args)
  | fill {bound fresh args : List ExprId} {arg : ExprId} (new : ExprId)
    (hk : (c.arena.expr arg).kind = .missingArg) (h : Fills c bound fresh args) :
    Fills c (arg :: bound) (new :: fresh) (new :: args)

/-- Arguments of a call are those of its function, if it had some, and fresh ones. -/
inductive Applied (c : Compilation) (f : ExprId) (d : DefId) :
    (fresh args : List ExprId) → Prop where
  | reference {fresh : List ExprId} (hk : (c.arena.expr f).kind = .reference d) :
    Applied c f d fresh fresh
  | call {bound fresh args : List ExprId} (hk : (c.arena.expr f).kind = .call d bound)
    (h : Fills c bound fresh args) : Applied c f d fresh args

/-- A node stands for a term: it is the term, or the negation built for one that is a minus sign
with its operand. `Built` says which nodes the resolver made. -/
inductive StandsFor (c : Compilation) (Built : ExprId → Prop) (terms : List ExprId) :
    (n t : ExprId) → Prop where
  | itself {t : ExprId} (ht : t ∈ terms) : StandsFor c Built terms t t
  | negation {n t x : ExprId} {d : DefId} (ht : t ∈ terms) (hn : Built n)
    (hneg : c.IsNegation d) (hkt : (c.arena.expr t).kind = .negated x)
    (hk : (c.arena.expr n).kind = .call d [x]) : StandsFor c Built terms n t

/-- **A node reads as a list of terms** of a run. -/
inductive Reads (c : Compilation) (Built : ExprId → Prop) (terms : List ExprId) :
    (n : ExprId) → (read : List ExprId) → Prop where
  | term {n t : ExprId} (h : StandsFor c Built terms n t) : Reads c Built terms n [t]
  | missing {n : ExprId} (hn : Built n) (hk : (c.arena.expr n).kind = .missingArg) :
    Reads c Built terms n []
  | binary {n l r o : ExprId} {d : DefId} {ls rs : List ExprId} (hn : Built n)
    (hk : (c.arena.expr n).kind = .call d [l, r]) (ho : c.InfixOf d o)
    (hl : Reads c Built terms l ls) (hr : Reads c Built terms r rs) :
    Reads c Built terms n (ls ++ o :: rs)
  | leading {n x s : ExprId} {d : DefId} {xs : List ExprId} (hn : Built n)
    (hk : (c.arena.expr n).kind = .call d [x]) (hs : c.SignOf d s)
    (hx : Reads c Built terms x xs) : Reads c Built terms n (s :: xs)
  | trailing {n x s : ExprId} {d : DefId} {xs : List ExprId} (hn : Built n)
    (hk : (c.arena.expr n).kind = .call d [x]) (hs : c.RefersTo s d .trailing)
    (hx : Reads c Built terms x xs) : Reads c Built terms n (xs ++ [s])
  | juxtaposed {n f t : ExprId} {d : DefId} {fresh args ts : List ExprId} (hn : Built n)
    (hk : (c.arena.expr n).kind = .call d args) (hf : StandsFor c Built terms f t)
    (happ : Applied c f d fresh args) (hargs : List.Forall₂ (StandsFor c Built terms) fresh ts) :
    Reads c Built terms n (t :: ts)
  | negated {n x s : ExprId} (hn : Built n) (hk : (c.arena.expr n).kind = .negated x)
    (hs : (c.arena.expr s).kind = .minusSign) (hx : x ∈ terms) : Reads c Built terms n [s, x]

variable {c c' : Compilation} {Built : ExprId → Prop} {terms : List ExprId}

/-! ## Reading is stable -/

theorem Compilation.Extends.kind_eq (h : c.Extends c') {n : ExprId} {k : ExprKind}
    (hk : (c.arena.expr n).kind = k) (hfixed : k.isFixed = true) :
    (c'.arena.expr n).kind = k :=
  (h.kind n (hk ▸ hfixed)).trans hk

theorem Compilation.Extends.isNegation (h : c.Extends c') {d : DefId} (hd : c.IsNegation d) :
    c'.IsNegation d := by
  unfold IsNegation
  rwa [h.builtins]

theorem Compilation.Extends.infixOf (h : c.Extends c') {d : DefId} {o : ExprId}
    (ho : c.InfixOf d o) : c'.InfixOf d o := by
  rcases ho with ⟨p, a, ho⟩ | ⟨ho, hd⟩
  · exact .inl ⟨p, a, h.refersTo ho⟩
  · exact .inr ⟨h.kind_eq ho rfl, by rw [hd, h.builtins]⟩

theorem Compilation.Extends.signOf (h : c.Extends c') {d : DefId} {s : ExprId}
    (hs : c.SignOf d s) : c'.SignOf d s := by
  unfold SignOf
  rw [h.builtins]
  exact hs.imp h.leads fun hs => ⟨h.leads hs.1, hs.2⟩

theorem Fills.extends {bound fresh args : List ExprId} (h : c.Extends c')
    (hfills : Fills c bound fresh args) : Fills c' bound fresh args := by
  induction hfills with
  | rest fresh => exact .rest fresh
  | keep arg _ ih => exact .keep arg ih
  | fill new hk _ ih => exact .fill new (h.kind_eq hk rfl) ih

theorem Applied.extends {f : ExprId} {d : DefId} {fresh args : List ExprId} (h : c.Extends c')
    (happ : Applied c f d fresh args) : Applied c' f d fresh args := by
  cases happ with
  | reference hk => exact .reference (h.kind_eq hk rfl)
  | call hk hfills => exact .call (h.kind_eq hk rfl) (hfills.extends h)

theorem StandsFor.extends {n t : ExprId} (h : c.Extends c')
    (hn : StandsFor c Built terms n t) : StandsFor c' Built terms n t := by
  cases hn with
  | itself ht => exact .itself ht
  | negation ht hn hneg hkt hk =>
    exact .negation ht hn (h.isNegation hneg) (h.kind_eq hkt rfl) (h.kind_eq hk rfl)

/-- What a node reads as stays, whatever is resolved later. -/
theorem Reads.extends {n : ExprId} {read : List ExprId} (h : c.Extends c')
    (hreads : Reads c Built terms n read) : Reads c' Built terms n read := by
  induction hreads with
  | term hn => exact .term (hn.extends h)
  | missing hn hk => exact .missing hn (h.kind_eq hk rfl)
  | binary hn hk ho _ _ ihl ihr =>
    exact .binary hn (h.kind_eq hk rfl) (h.infixOf ho) ihl ihr
  | leading hn hk hs _ ih => exact .leading hn (h.kind_eq hk rfl) (h.signOf hs) ih
  | trailing hn hk hs _ ih => exact .trailing hn (h.kind_eq hk rfl) (h.refersTo hs) ih
  | juxtaposed hn hk hf happ hargs =>
    exact .juxtaposed hn (h.kind_eq hk rfl) (hf.extends h) (happ.extends h)
      (hargs.imp fun _ _ => StandsFor.extends h)
  | negated hn hk hs hx => exact .negated hn (h.kind_eq hk rfl) (h.kind_eq hs rfl) hx

/-- A node of the resolver that becomes of the kind of another one reads as that one did, unless
that one read as a single term because it was one. -/
theorem Reads.of_kind_eq {n m : ExprId} {read : List ExprId} (hreads : Reads c Built terms n read)
    (hlength : 2 ≤ read.length) (h : c.Extends c') (hm : Built m)
    (hk : (c'.arena.expr m).kind = (c.arena.expr n).kind) : Reads c' Built terms m read := by
  cases hreads with
  | term | missing => simp at hlength
  | binary _ hkn ho hl hr =>
    exact .binary hm (hk.trans hkn) (h.infixOf ho) (hl.extends h) (hr.extends h)
  | leading _ hkn hs hx => exact .leading hm (hk.trans hkn) (h.signOf hs) (hx.extends h)
  | trailing _ hkn hs hx => exact .trailing hm (hk.trans hkn) (h.refersTo hs) (hx.extends h)
  | juxtaposed _ hkn hf happ hargs =>
    exact .juxtaposed hm (hk.trans hkn) (hf.extends h) (happ.extends h)
      (hargs.imp fun _ _ => StandsFor.extends h)
  | negated _ hkn hs hx => exact .negated hm (hk.trans hkn) (h.kind_eq hs rfl) hx

theorem fills_fillOpen (c : Compilation) (bound fresh : List ExprId) :
    Fills c bound fresh (Arrangement.fillOpen c.arena.isMissing bound fresh) := by
  -- On the bound arguments, since the fresh ones are used up as places are found.
  induction bound generalizing fresh with
  | nil => exact .rest fresh
  | cons arg bound ih =>
    cases hmissing : c.arena.isMissing arg with
    | false =>
      simp only [Arrangement.fillOpen, hmissing]
      exact .keep arg (ih fresh)
    | true =>
      -- An open place stays open once the fresh arguments have run out.
      cases fresh with
      | nil =>
        simp only [Arrangement.fillOpen, hmissing]
        exact .keep arg (ih [])
      | cons new fresh =>
        simp only [Arrangement.fillOpen, hmissing]
        refine .fill new ?_ (ih fresh)
        unfold Arena.isMissing at hmissing
        cases hk : (c.arena.expr arg).kind <;> simp [hk, ExprKind.isMissingArg] at hmissing
        rfl

/-! ## The account of a reading -/

/-- Resolving a run, if it succeeds, resolves runs at or below it only, and leaves no run. -/
def ResolvesRuns (resolveRun : ExprId → CheckM Unit) : Prop :=
  ∀ (c : Compilation) (t : ExprId), Outcome (resolveRun t) c
    (fun _ c' => c.Unfolds c' [t] ∧ ∀ ts, (c'.arena.expr t).kind ≠ .run ts) fun _ _ => True

theorem classify_unfolds {resolveRun : ExprId → CheckM Unit} (hres : ResolvesRuns resolveRun)
    (c : Compilation) {t : ExprId} (ht : t ∈ terms) :
    Outcome (classify resolveRun t) c
      (fun term c' => c.Unfolds c' terms ∧ c'.Settled t ∧ term.Plays c' t) fun _ _ => True := by
  have hsub : [t] ⊆ terms := List.cons_subset.2 ⟨ht, List.nil_subset terms⟩
  -- Once the term is no run, it is classified as it is.
  have hrest : ∀ {c₁ : Compilation} (span : Span), c.Unfolds c₁ [t] →
      (∀ ts, (c₁.arena.expr t).kind ≠ .run ts) →
      Outcome (classifyResolved t span) c₁
        (fun term c' => c.Unfolds c' terms ∧ c'.Settled t ∧ term.Plays c' t)
        fun _ _ => True := by
    intro c₁ span hunfolds hrun
    refine (classifyResolved_outcome span hrun).mono ?_ fun _ _ _ => trivial
    rintro term c₂ ⟨rfl, hsettled, hterm⟩
    have hsteady := steady_refreshed c₁ t
    exact ⟨(hunfolds.mono hsub).trans (hsteady.unfolds terms),
      hsteady.extends.settled hsettled, hterm⟩
  simp only [classify, outcome_bind, outcome_expr]
  split
  -- A nested run is resolved first; one that fails makes the whole run fail.
  · simp only [outcome_bind, outcome_attempt]
    refine (hres c t).mono ?_ ?_
    · rintro _ c₁ ⟨hunfolds, hrun⟩
      exact hrest _ hunfolds hrun
    · rintro (e | _) c₁ - <;> trivial
  · rename_i hrun
    exact hrest _ ((Steady.refl c).unfolds [t]) hrun

theorem Compilation.Joins.infixOf {o : Joint} (h : c.Joins o) : c.InfixOf o.callee o.term := by
  obtain ⟨-, hjoint⟩ := h
  unfold role at hjoint
  split at hjoint
  -- A minus sign between operands is a call of the builtin one.
  · rename_i hk
    cases hb : (c.arena.definition c.builtins.minus).binding? with
    | none => simp [hb, Role.joint?] at hjoint
    | some binding =>
      have heq : (⟨o.term, c.builtins.minus, binding⟩ : Joint) = o := by
        simpa [hb, Role.joint?] using hjoint
      exact .inr ⟨hk, by rw [← heq]⟩
  -- An operator that is no minus sign joins by what it is declared to be.
  · rename_i d hk
    split at hjoint <;> try cases hjoint
    rename_i p a hop
    refine .inl ⟨p, a, ?_⟩
    have heq : (⟨o.term, d, ⟨p, a⟩⟩ : Joint) = o := Option.some.inj hjoint
    rw [← heq]
    exact ⟨hk, hop⟩
  · cases hjoint

/-- A node stands for a part of a plan if it reads as the terms of that part. -/
structure ReadsPlan (c : Compilation) (Built : ExprId → Prop) (terms : List ExprId) (plan : Plan)
    (n : ExprId) : Prop where
  kind : ∀ ts, (c.arena.expr n).kind ≠ .run ts
  reads : Reads c Built terms n plan.terms
  atom : ∀ t, plan = single (some (.atom t)) → StandsFor c Built terms n t

section

variable {size : Nat} (hbuilt : ∀ n : ExprId, size ≤ n.index → Built n)

include hbuilt in
theorem allocCall_built (terms : List ExprId) {d : DefId} {args : List ExprId} (span : Span)
    (hc : size ≤ c.arena.exprs.size) :
    Outcome (allocCall d args span) c
      (fun n c' => c.Unfolds c' terms ∧ Built n ∧ (c'.arena.expr n).kind = .call d args)
      fun _ _ => True := by
  refine (allocCall_steady d args span).mono ?_ fun _ _ _ => trivial
  rintro n c' ⟨hsteady, hn, hk⟩
  exact ⟨hsteady.unfolds terms, hbuilt n (hn ▸ hc), hk⟩

include hbuilt in
theorem normalizeOperand_reads {t : ExprId} (hc : size ≤ c.arena.exprs.size) (ht : t ∈ terms)
    (hsettled : c.Settled t) :
    Outcome (Arrangement.normalizeOperand t) c
      (fun n c' => c.Unfolds c' terms ∧ ReadsPlan c' Built terms (single (some (.atom t))) n)
      fun _ _ => True := by
  -- The only plan of a single operand is that operand.
  have hplan : ∀ {c' : Compilation} {n : ExprId}, StandsFor c' Built terms n t →
      (∀ ts, (c'.arena.expr n).kind ≠ .run ts) →
      ReadsPlan c' Built terms (single (some (.atom t))) n := by
    refine fun hn hrun => ⟨hrun, .term hn, fun u hu => ?_⟩
    have htu : t = u := by simpa [Phrase.atom] using hu
    exact htu ▸ hn
  simp only [Arrangement.normalizeOperand, outcome_bind, outcome_expr]
  split
  -- A minus sign with its operand becomes the call of the negation of that operand's type.
  · rename_i x hk
    simp only [outcome_bind, outcome_get]
    refine (allocCall_built hbuilt terms _ hc).imp ?_
    rintro n c' ⟨hunfolds, hn, hkn⟩
    have hext := hunfolds.toExtends
    have hneg := hext.isNegation (c.isNegation_negationFor x)
    exact ⟨hunfolds, hplan (.negation ht hn hneg (hext.kind_eq hk rfl) hkn) (by simp [hkn])⟩
  · refine ⟨(Steady.refl c).unfolds terms, hplan (.itself ht) fun ts hk => ?_⟩
    simp [Settled, hk, ExprKind.isSettled] at hsettled

include hbuilt in
theorem applyCollected_reads {f n : ExprId} {ts ns : List ExprId}
    (hc : size ≤ c.arena.exprs.size) (hf : StandsFor c Built terms n f) (happ : c.Applicable n)
    (hts : ts ≠ []) (hargs : List.Forall₂ (StandsFor c Built terms) ns ts) :
    Outcome (Arrangement.applyCollected n ns) c
      (fun m c' => c.Unfolds c' terms ∧
        ReadsPlan c' Built terms (single (some ⟨[], f, ts, []⟩)) m) fun _ _ => True := by
  have hns : ns.isEmpty = false := by
    cases hargs with
    | nil => exact (hts rfl).elim
    | cons => rfl
  -- Whatever is called, the arguments are applied to the function.
  have hcall : ∀ {d : DefId} {args : List ExprId} (span : Span), Applied c n d ns args →
      Outcome (allocCall d args span) c
        (fun m c' => c.Unfolds c' terms ∧
          ReadsPlan c' Built terms (single (some ⟨[], f, ts, []⟩)) m) fun _ _ => True := by
    intro d args span happlied
    refine (allocCall_built hbuilt terms span hc).imp ?_
    rintro m c' ⟨hunfolds, hm, hk⟩
    have hext := hunfolds.toExtends
    refine ⟨hunfolds, by simp [hk], ?_, ?_⟩
    · have hreads : Reads c' Built terms m (f :: ts) :=
        .juxtaposed hm hk (hf.extends hext) (happlied.extends hext)
          (hargs.imp fun _ _ => StandsFor.extends hext)
      simpa [Phrase.terms] using hreads
    · intro t ht
      cases ht
      exact (hts rfl).elim
  simp only [Arrangement.applyCollected, hns, Bool.false_eq_true, if_false, outcome_bind,
    outcome_arena]
  -- A plain reference takes all arguments; a partial call fills its open places first.
  rcases happ with ⟨d, hk⟩ | ⟨d, bound, hk⟩
  · simp only [hk]
    exact hcall _ (.reference hk)
  · simp only [hk]
    exact hcall _ (.call hk (fills_fillOpen c bound ns))

theorem ReadsPlan.later {plan : Plan} {n : ExprId} (hn : ReadsPlan c Built terms plan n)
    (h : c.Unfolds c' terms) : ReadsPlan c' Built terms plan n where
  kind ts hk := hn.kind ts (h.run n ts hk)
  reads := hn.reads.extends h.toExtends
  atom t ht := (hn.atom t ht).extends h.toExtends

/-- **The account of a run that reads its nodes back.** -/
def reading {resolveRun : ExprId → CheckM Unit} (hres : ResolvesRuns resolveRun)
    (terms : List ExprId) : Account resolveRun terms where
  exact := False
  Valid c := size ≤ c.arena.exprs.size
  Later c c' := c.Unfolds c' terms
  Holds c plan n := ReadsPlan c Built terms plan n
  Ready _ _ := True
  MayLead _ := True
  Halts _ _ := True
  refl c := (Steady.refl c).unfolds terms
  trans h h' := h.trans h'
  toExtends h := h.toExtends
  valid hc h := hc.trans h.size
  halts _ _ := trivial
  holds hn h := hn.later h
  settled h := h.elim
  classify _ ht :=
    (classify_unfolds hres _ ht).mono (fun _ _ h => ⟨h.1, h.2.1, h.2.2, trivial⟩)
      fun _ _ _ => not_false
  operand hc ht hsettled _ _ :=
    (normalizeOperand_reads hbuilt hc ht hsettled).mono (fun _ _ h => ⟨h.1, h.2, False.elim⟩)
      fun _ _ _ => not_false
  apply _ hc hf happ hts hargs :=
    applyCollected_reads hbuilt hc (hf.atom _ rfl) happ hts
      (hargs.imp fun _ _ h => h.atom _ rfl).flip
  lead {c d t n p} span hc ht _ hleads htrails hp := by
    refine (allocCall_built hbuilt terms span hc).mono ?_ fun _ _ _ => not_false
    rintro m c' ⟨hunfolds, hm, hk⟩
    have hext := hunfolds.toExtends
    -- A minus sign leads as the negation of integers, whichever negation is called in the end.
    have hsign : c.SignOf (if d = c.builtins.unaryMinus then c.negationFor n else d) t := by
      split <;> rename_i hd
      · subst hd
        rcases c.isNegation_negationFor n with heq | heq
        · exact .inl (heq ▸ hleads)
        · exact .inr ⟨hleads, heq⟩
      · exact .inl hleads
    refine ⟨hunfolds, by simp [hk], ?_, by simp [Phrase.atom]⟩
    have hreads : Reads c' Built terms m (t :: p.terms) :=
      .leading hm hk (hext.signOf hsign) (hp.reads.extends hext)
    simpa [Phrase.terms] using hreads
  trail {c d t n p} span hc ht hrefers hp := by
    refine (allocCall_built hbuilt terms span hc).mono ?_ fun _ _ _ => not_false
    rintro m c' ⟨hunfolds, hm, hk⟩
    have hext := hunfolds.toExtends
    refine ⟨hunfolds, by simp [hk], ?_, by simp [Phrase.atom]⟩
    have hreads : Reads c' Built terms m (p.terms ++ [t]) :=
      .trailing hm hk (hext.refersTo hrefers) (hp.reads.extends hext)
    simpa [Phrase.terms] using hreads
  missing {c} span hc := by
    refine (allocMissing_steady span).imp ?_
    rintro n c' ⟨hsteady, hn, hk⟩
    exact ⟨hsteady.unfolds terms, by simp [hk], .missing (hbuilt n (hn ▸ hc)) hk, by simp⟩
  combine {c o left right x y} span hc _ hjoins hleft hright := by
    refine (allocCall_built hbuilt terms span hc).mono ?_ fun _ _ _ => False.elim
    rintro m c' ⟨hunfolds, hm, hk⟩
    have hext := hunfolds.toExtends
    refine ⟨hunfolds, by simp [hk], ?_, by simp⟩
    exact .binary hm hk (hext.infixOf hjoins.infixOf) (hleft.reads.extends hext)
      (hright.reads.extends hext)

end

/-! ## Resolution -/

section

variable {resolveRun : ExprId → CheckM Unit} {size : Nat}

/-- What an accepted list of terms comes to: the terms are settled, and a node that becomes what
they came to reads as them. -/
structure Accepted (Built : ExprId → Prop) (terms : List ExprId) (c : Compilation)
    (e : Expression) (c' : Compilation) : Prop where
  unfolds : c.Unfolds c' terms
  settled : ∀ t ∈ terms, c'.Settled t
  kind : ∀ ts, e.kind ≠ .run ts
  reads : 2 ≤ terms.length → ∀ (c'' : Compilation) (n : ExprId), c'.Extends c'' → Built n →
    (c''.arena.expr n).kind = e.kind → Reads c'' Built terms n terms

theorem arrange_accepted (hres : ResolvesRuns resolveRun)
    (hbuilt : ∀ n : ExprId, size ≤ n.index → Built n) (terms : List ExprId) (span : Span)
    (hc : size ≤ c.arena.exprs.size) :
    Outcome (arrange resolveRun terms span) c (Accepted Built terms c) fun _ _ => True := by
  refine ((reading hbuilt hres terms).arrange_outcome span hc
    (.inl fun _ => trivial)).mono ?_ fun _ _ _ => trivial
  rintro e c' ⟨hunfolds, hsettled, plan, n, hplan, hn, rfl⟩
  refine ⟨hunfolds, hsettled, hn.kind, fun hlength c'' m hext hm hk => ?_⟩
  have hreads : Reads c' Built terms n terms := hplan.terms_eq ▸ hn.reads
  exact hreads.of_kind_eq hlength hext hm hk

theorem resolveTerms_accepted (hres : ResolvesRuns resolveRun)
    (hbuilt : ∀ n : ExprId, size ≤ n.index → Built n) (terms : List ExprId) (span : Span)
    (hc : size ≤ c.arena.exprs.size) :
    Outcome (resolveTerms resolveRun terms span) c (Accepted Built terms c)
      fun _ _ => True := by
  unfold resolveTerms
  split
  -- No terms come to the sentinel of an earlier error.
  · exact ⟨(Steady.refl c).unfolds [], by simp, by simp [Expression.sentinel, Expression.new],
      by simp⟩
  -- A single term comes to itself, and nothing has to be read.
  · rename_i only
    simp only [outcome_bind]
    refine (classify_unfolds hres c (List.mem_singleton_self only)).mono ?_ fun _ _ => id
    rintro term c₁ ⟨hunfolds, hsettled, -⟩
    split
    · trivial
    · refine ⟨hunfolds, by simpa using hsettled, fun ts hk => ?_, by simp⟩
      simp [Settled, hk, ExprKind.isSettled] at hsettled
  -- Two terms may be a minus sign and a number, which stay uncalled until a type is known.
  · rename_i first second
    simp only [outcome_bind, outcome_expr]
    split
    · rename_i hminus
      simp only [outcome_bind]
      have hmem : second ∈ [first, second] := by simp
      refine (classify_unfolds hres c hmem).mono ?_ fun _ _ => id
      rintro term c₁ ⟨hunfolds, hsettled, hterm⟩
      have hfirst : (c₁.arena.expr first).kind = .minusSign :=
        hunfolds.toExtends.kind_eq hminus rfl
      -- Anything but a number behind the sign is arranged from where its classification ends.
      have harrange : Outcome (arrange resolveRun [first, second] span) c₁
          (Accepted Built [first, second] c) fun _ _ => True := by
        refine (arrange_accepted hres hbuilt [first, second] span
          (hc.trans hunfolds.size)).imp fun e c' h => ?_
        exact ⟨hunfolds.trans h.unfolds, h.settled, h.kind, h.reads⟩
      simp only [outcome_arena]
      split
      · rename_i operand
        obtain ⟨rfl, -⟩ := hterm
        split
        · refine ⟨hunfolds, ?_, by simp [negatedOperand, Expression.new], ?_⟩
          · simpa [Settled, hfirst, ExprKind.isSettled] using hsettled
          · intro _ c'' n hext hn hk
            exact .negated hn hk (hext.kind_eq hfirst rfl) hmem
        · exact harrange
      · exact harrange
    · exact arrange_accepted hres hbuilt _ span hc
  · exact arrange_accepted hres hbuilt _ span hc

/-- A run that is accepted reads as its terms, and is the last one to be resolved. -/
theorem resolveNode_outcome (hres : ResolvesRuns resolveRun)
    (hbuilt : ∀ n : ExprId, size ≤ n.index → Built n) {id : ExprId} {terms : List ExprId}
    (hc : size ≤ c.arena.exprs.size) (hk : (c.arena.expr id).kind = .run terms) (hid : Built id) :
    Outcome (resolveNode resolveRun id) c
      (fun _ c' => c.Unfolds c' [id] ∧ (∀ ts, (c'.arena.expr id).kind ≠ .run ts) ∧
        (2 ≤ terms.length → Reads c' Built terms id terms)) fun _ _ => True := by
  simp only [resolveNode, outcome_bind, outcome_expr, hk, outcome_attempt]
  refine (resolveTerms_accepted hres hbuilt terms (c.arena.expr id).span hc).mono ?_ ?_
  · rintro e c₁ ⟨hunfolds, hsettled, he, hreads⟩
    simp only [outcome_modifyExpr, outcome_emit]
    have hrun := hunfolds.run_self hk
    have hlt : id.index < c₁.arena.exprs.size := Arena.lt_size_of_kind_ne (by simp [hrun])
    have hkind : ((c₁.modifyArena (·.modifyExpr id (·.replaceBy e))).arena.expr id).kind =
        e.kind := by
      simp only [modifyArena, Arena.expr_modifyExpr_self hlt]
      rfl
    -- Nothing but the run itself changes in the last step.
    have hlast : c₁.Unfolds (c₁.modifyArena (·.modifyExpr id (·.replaceBy e))) [id] :=
      ((Steady.refl c₁).unfolds terms).resolved hrun hsettled he
    refine ⟨((hunfolds.resolved hk hsettled he).trans ((steady_emit _ _).unfolds [id])),
      fun ts hts => he ts (hkind.symm.trans hts), fun hlength => ?_⟩
    exact hreads hlength _ id (hlast.toExtends.trans (steady_emit _ _).extends) hid hkind
  -- A run that is not accepted succeeds with nothing to prove, since no outcome of it is `ok`.
  · rintro (error | _) c₁ -
    · exact outcome_trivial.mono (fun _ _ _ => trivial) fun _ _ _ => trivial
    · trivial

end

/-- **A run whose terms are accepted** is replaced by no run, and no run but it and those below it
changes. -/
theorem resolveWithin_outcome (depth : Nat) : ResolvesRuns (resolveWithin depth) := by
  -- On the depth of nesting: a run is resolved with what resolves the runs among its terms.
  induction depth with
  | zero => exact fun c t => trivial
  | succ depth ih =>
    intro c t
    by_cases hk : ∃ terms, (c.arena.expr t).kind = .run terms
    · obtain ⟨terms, hk⟩ := hk
      have hbuilt : ∀ n : ExprId, 0 ≤ n.index → (fun _ => True) n := fun _ _ => trivial
      exact (resolveNode_outcome ih hbuilt (Nat.zero_le _) hk trivial).imp
        fun _ _ h => ⟨h.1, h.2.1⟩
    · have hne : ∀ ts, (c.arena.expr t).kind ≠ .run ts := fun ts hts => hk ⟨ts, hts⟩
      simp only [resolveWithin, resolveNode, outcome_bind, outcome_expr]
      exact ⟨(Steady.refl c).unfolds [t], hne⟩

/-- **An accepted run reads as its terms**: none is lost, duplicated or moved. -/
theorem reads_of_resolve {id : ExprId} (hk : (c.arena.expr id).kind = .run terms)
    (hlength : 2 ≤ terms.length) (hok : resolve id c = .ok () c') :
    Reads c' (fun n => n = id ∨ c.arena.exprs.size ≤ n.index) terms id terms := by
  have houtcome : Outcome (resolve id) c (fun _ c' =>
      Reads c' (fun n => n = id ∨ c.arena.exprs.size ≤ n.index) terms id terms)
      fun _ _ => True := by
    simp only [resolve, outcome_bind, outcome_arena]
    exact (resolveNode_outcome (resolveWithin_outcome _) (fun n => .inr) le_rfl hk
      (.inl rfl)).imp fun _ _ h => h.2.2 hlength
  exact houtcome.of_ok hok

/-- The run `- f 1 * 2`, where `f` takes an integer. -/
def negatedApplication : Compilation :=
  .ofRun [⟨"f", .builtin, some Builtins.unaryMinusType, none, .origin⟩]
    [.new .minusSign .hole .origin, .new (.reference ⟨9⟩) .hole .origin,
      .new (.value (.int 1)) .int .origin, .new (.operator ⟨3⟩) .hole .origin,
      .new (.value (.int 2)) .int .origin]

theorem reads_negatedApplication :
    ∃ c', resolve ⟨5⟩ negatedApplication = .ok () c' ∧
      Reads c' (fun n => n = ⟨5⟩ ∨ 6 ≤ n.index) [⟨0⟩, ⟨1⟩, ⟨2⟩, ⟨3⟩, ⟨4⟩] ⟨5⟩
        [⟨0⟩, ⟨1⟩, ⟨2⟩, ⟨3⟩, ⟨4⟩] := by
  refine ⟨_, rfl, ?_⟩
  exact reads_of_resolve (c := negatedApplication) rfl (by decide) rfl

end Termwise
