import Termwise.Proofs.Run.Grouping

/-!
# Sketches of a run

Where the terms of a run end up is decided by their roles and by how the binary operators bind,
before anything is known of types. A sketch is what that much knowledge makes of the first terms
of a run: the operators that wait for their right side, each with the plan of its left side, and
what stands behind the last of them. One term more takes a sketch to the next one, if the run may
go on with it at all.

The plan of a run is what its sketch closes to at the end. It has the terms of the run in their
order, and it is well bound, because an operator that comes in closes the waiting ones exactly up
to the place where the grouping of the run takes it.

## Main definitions

* `Role`: what a term does in a run
* `Phrase`, `Plan`: an operand with what is applied to it, and a run grouped into phrases
* `Sketch`, `Sketch.Step`, `Sketch.Steps`: a run read so far, by one term more, by several
* `Planned`: the plan of a run
* `Plan.OpenAtRoot`: an operator without one of its operands is the last one applied

## Main results

* `Planned.terms_eq`, `Planned.wellBound`: the terms of a plan, and how it is bound
* `Planned.unique`: a run has one plan at most
-/

namespace Termwise

/-- What a term does in a run. -/
inductive Role where
  | operand
  | leading
  | trailing
  | binary (callee : DefId) (binding : Binding)
  /-- A minus sign leads an operand. Behind one it is a binary operator, if subtraction is. -/
  | minusSign (infix? : Option (DefId × Binding))
deriving DecidableEq

namespace Role

/-- Whether a term with this role may stand in front of an operand. -/
def isSign : Role → Bool
  | leading | minusSign _ => true
  | _ => false

/-- The binary operator that a term with this role may be. -/
def joint? (term : ExprId) : Role → Option Joint
  | binary callee binding => some ⟨term, callee, binding⟩
  | minusSign infix? => infix?.map fun (callee, binding) => ⟨term, callee, binding⟩
  | _ => none

theorem term_of_joint? {r : Role} {t : ExprId} {o : Joint} (h : r.joint? t = some o) :
    o.term = t := by
  cases r with
  | binary callee binding => cases h; rfl
  | minusSign infix? =>
    obtain ⟨_, -, rfl⟩ := Option.map_eq_some_iff.1 h
    rfl
  | operand | leading | trailing => cases h

end Role

/-- An operand of a run and what binds tighter than any binary operator: the signs in front of it,
the arguments that it takes and the operators behind it. -/
structure Phrase where
  signs : List ExprId
  head : ExprId
  args : List ExprId
  trails : List ExprId
deriving DecidableEq

namespace Phrase

/-- The terms of a phrase, in their order. -/
def terms (p : Phrase) : List ExprId := p.signs ++ p.head :: p.args ++ p.trails

/-- An operand with nothing applied to it. -/
def atom (t : ExprId) : Phrase := ⟨[], t, [], []⟩

@[simp] theorem terms_atom (t : ExprId) : (atom t).terms = [t] := rfl

end Phrase

/-- A run grouped into phrases, some of which may be missing. -/
abbrev Plan := Grouping (Option Phrase)

open Grouping

namespace Plan

/-- The terms of a plan, in their order. -/
def terms (t : Plan) : List ExprId := t.flatten fun p => p.elim [] Phrase.terms

@[simp] theorem terms_single (p : Option Phrase) :
    terms (single p) = p.elim [] Phrase.terms := rfl

@[simp] theorem terms_join (left : Plan) (o : Joint) (right : Plan) :
    terms (join left o right) = left.terms ++ o.term :: right.terms := rfl

/-- No phrase is missing. -/
def Whole : Plan → Prop
  | single p => p.isSome = true
  | join left _ right => Whole left ∧ Whole right

/-- A missing phrase is an operand of the operator that is applied last. -/
def OpenAtRoot : Plan → Prop
  | single _ => True
  | join left _ right => (Whole left ∨ left = single none) ∧ (Whole right ∨ right = single none)

/-- A plan that comes of phrases is whole. -/
theorem whole_map {α : Type} (f : α → Phrase) (t : Grouping α) :
    Whole (t.map fun a => some (f a)) := by
  induction t with
  | single => rfl
  | join left o right ihl ihr => exact ⟨ihl, ihr⟩

theorem Whole.openAtRoot {t : Plan} (h : Whole t) : OpenAtRoot t := by
  cases t with
  | single => trivial
  | join left o right => exact ⟨.inl h.1, .inl h.2⟩

theorem OpenAtRoot.left {left right : Plan} {o : Joint} (h : OpenAtRoot (join left o right)) :
    OpenAtRoot left :=
  h.1.elim Whole.openAtRoot fun h => h ▸ trivial

theorem OpenAtRoot.right {left right : Plan} {o : Joint} (h : OpenAtRoot (join left o right)) :
    OpenAtRoot right :=
  h.2.elim Whole.openAtRoot fun h => h ▸ trivial

end Plan

/-! ## Operators that wait -/

/-- A binary operator that waits for its right side, with the plan of its left side. -/
abbrev Frame := Plan × Joint

/-- The terms up to the operator that waits on top. -/
def frameTerms : List Frame → List ExprId
  | [] => []
  | (left, o) :: fs => frameTerms fs ++ left.terms ++ [o.term]

/-- Lets an operator wait behind a plan. It takes the plan together with the waiting operators
that give way to it, from the top. -/
def close : List Frame → Plan → Joint → List Frame
  | [], t, p => [(t, p)]
  | (left, o) :: fs, t, p =>
    if o.Reduces p then close fs (join left o t) p else (t, p) :: (left, o) :: fs

/-- Applies all that waits. -/
def closeAll : List Frame → Plan → Plan
  | [], t => t
  | (left, o) :: fs, t => closeAll fs (join left o t)

theorem close_ne_nil (fs : List Frame) (t : Plan) (p : Joint) : close fs t p ≠ [] := by
  induction fs generalizing t with
  | nil => exact List.cons_ne_nil _ _
  | cons f fs ih =>
    unfold close
    split
    · exact ih _
    · exact List.cons_ne_nil _ _

theorem frameTerms_close (fs : List Frame) (t : Plan) (p : Joint) :
    frameTerms (close fs t p) = frameTerms fs ++ t.terms ++ [p.term] := by
  induction fs generalizing t with
  | nil => rfl
  | cons f fs ih =>
    obtain ⟨left, o⟩ := f
    unfold close
    split
    · simp [ih, frameTerms]
    · rfl

theorem terms_closeAll (fs : List Frame) (t : Plan) :
    (closeAll fs t).terms = frameTerms fs ++ t.terms := by
  induction fs generalizing t with
  | nil => rfl
  | cons f fs ih => simp [closeAll, ih, frameTerms]

/-- An operator that some waiting one keeps its operand from goes below all that waits. -/
theorem append_closeAll {fs : List Frame} {t : Plan} {p : Joint}
    (h : ∃ q ∈ t.rightSpine, ¬ q.Reduces p) (x : Option Phrase) :
    (closeAll fs t).append p x = closeAll fs (t.append p x) := by
  induction fs generalizing t with
  | nil => rfl
  | cons f fs ih =>
    obtain ⟨left, o⟩ := f
    obtain ⟨q, hq, hqp⟩ := h
    have hmem : ∃ q ∈ rightSpine (join left o t), ¬ q.Reduces p :=
      ⟨q, List.mem_cons_of_mem o hq, hqp⟩
    have hnot : ¬ ∀ q ∈ o :: t.rightSpine, q.Reduces p :=
      fun hall => hqp (hall q (List.mem_cons_of_mem o hq))
    rw [closeAll, closeAll, ih hmem, Grouping.append, if_neg hnot]

/-- **An operator that comes in** takes the place that the grouping of the run gives it. -/
theorem closeAll_close (fs : List Frame) {t : Plan} {p : Joint}
    (h : ∀ q ∈ t.rightSpine, q.Reduces p) (x : Option Phrase) :
    closeAll (close fs t p) (single x) = (closeAll fs t).append p x := by
  induction fs generalizing t with
  | nil => exact (append_of_reduces h x).symm
  | cons f fs ih =>
    obtain ⟨left, o⟩ := f
    unfold close
    split <;> rename_i ho
    · exact ih (List.forall_mem_cons.2 ⟨ho, h⟩)
    · have hnot : ¬ ∀ q ∈ o :: t.rightSpine, q.Reduces p :=
        fun hall => ho (hall o List.mem_cons_self)
      have hmem : ∃ q ∈ rightSpine (join left o t), ¬ q.Reduces p :=
        ⟨o, List.mem_cons_self, ho⟩
      simp only [closeAll, append_closeAll hmem, Grouping.append, if_neg hnot,
        append_of_reduces h]

/-- What is open only at the root of a plan is so in all that the plan was closed from. -/
theorem Plan.OpenAtRoot.of_closeAll {fs : List Frame} {t : Plan}
    (h : OpenAtRoot (closeAll fs t)) : OpenAtRoot t ∧ ∀ f ∈ fs, OpenAtRoot f.1 := by
  induction fs generalizing t with
  | nil => exact ⟨h, by simp⟩
  | cons f fs ih =>
    obtain ⟨hjoin, hfs⟩ := ih h
    exact ⟨hjoin.right, List.forall_mem_cons.2 ⟨hjoin.left, hfs⟩⟩

theorem Plan.OpenAtRoot.of_close {fs : List Frame} {t : Plan} {p : Joint}
    (h : ∀ f ∈ close fs t p, OpenAtRoot f.1) : OpenAtRoot t ∧ ∀ f ∈ fs, OpenAtRoot f.1 := by
  induction fs generalizing t with
  | nil => exact ⟨h (t, p) List.mem_cons_self, by simp⟩
  | cons f fs ih =>
    obtain ⟨left, o⟩ := f
    unfold close at h
    split at h
    · obtain ⟨hjoin, hfs⟩ := ih h
      exact ⟨hjoin.right, List.forall_mem_cons.2 ⟨hjoin.left, hfs⟩⟩
    · exact ⟨h (t, p) List.mem_cons_self, fun f hf => h f (List.mem_cons_of_mem _ hf)⟩

/-! ## Reading terms -/

/-- What stands behind the last binary operator of a run read so far. -/
inductive Point where
  /-- Signs of an operand that is due. -/
  | due (signs : List ExprId)
  | past (phrase : Phrase)
deriving DecidableEq

/-- A run read so far: the operators that wait, the last one first, and what stands behind. -/
structure Sketch where
  frames : List Frame
  point : Point
deriving DecidableEq

namespace Sketch

/-- Nothing read yet. -/
def start : Sketch := ⟨[], .due []⟩

/-- The terms read so far. -/
def terms (s : Sketch) : List ExprId :=
  frameTerms s.frames ++
    match s.point with
    | .due signs => signs
    | .past p => p.terms

/-- Every missing phrase so far may still be an operand of the operator that is applied last. -/
def OpenAtRoot (s : Sketch) : Prop := ∀ f ∈ s.frames, Plan.OpenAtRoot f.1

/-- One term more. `applies` says whether an operand may be an argument of the one before. -/
inductive Step (applies : Prop) : Sketch → ExprId → Role → Sketch → Prop where
  | operand (fs : List Frame) (signs : List ExprId) (t : ExprId) :
    Step applies ⟨fs, .due signs⟩ t .operand ⟨fs, .past ⟨signs, t, [], []⟩⟩
  | sign (fs : List Frame) (signs : List ExprId) (t : ExprId) {r : Role}
    (h : r.isSign = true) : Step applies ⟨fs, .due signs⟩ t r ⟨fs, .due (signs ++ [t])⟩
  /-- A binary operator at the start of a run has no left side. -/
  | first (t : ExprId) (callee : DefId) (binding : Binding) :
    Step applies start t (.binary callee binding)
      ⟨[(single none, ⟨t, callee, binding⟩)], .due []⟩
  | argument (fs : List Frame) (signs : List ExprId) (f : ExprId) (args : List ExprId)
    (t : ExprId) (h : applies) :
    Step applies ⟨fs, .past ⟨signs, f, args, []⟩⟩ t .operand
      ⟨fs, .past ⟨signs, f, args ++ [t], []⟩⟩
  | trailing (fs : List Frame) (p : Phrase) (t : ExprId) :
    Step applies ⟨fs, .past p⟩ t .trailing ⟨fs, .past { p with trails := p.trails ++ [t] }⟩
  | joint (fs : List Frame) (p : Phrase) (t : ExprId) {r : Role} {o : Joint}
    (h : r.joint? t = some o) :
    Step applies ⟨fs, .past p⟩ t r ⟨close fs (single (some p)) o, .due []⟩

/-- Several terms more, each in its role. -/
inductive Steps (applies : Prop) (role : ExprId → Role) : Sketch → List ExprId → Sketch → Prop where
  | nil (s : Sketch) : Steps applies role s [] s
  | cons {s s' s'' : Sketch} {t : ExprId} {ts : List ExprId} (h : Step applies s t (role t) s')
    (rest : Steps applies role s' ts s'') : Steps applies role s (t :: ts) s''

/-- The plan that a sketch closes to at the end of a run. A binary operator at the end has no
right side. -/
inductive Ends : Sketch → Plan → Prop where
  | past (fs : List Frame) (p : Phrase) : Ends ⟨fs, .past p⟩ (closeAll fs (single (some p)))
  | due (f : Frame) (fs : List Frame) : Ends ⟨f :: fs, .due []⟩ (closeAll (f :: fs) (single none))

variable {applies : Prop} {role : ExprId → Role} {s s' s'' : Sketch} {t : ExprId} {r : Role}
  {ts : List ExprId} {plan plan' : Plan}

theorem Step.terms_eq (h : Step applies s t r s') : s'.terms = s.terms ++ [t] := by
  cases h with
  | operand fs signs => simp [terms, Phrase.terms]
  | sign fs signs h => simp [terms]
  | first => rfl
  | argument fs signs f args => simp [terms, Phrase.terms]
  | trailing fs p => simp [terms, Phrase.terms]
  | joint fs p t h => simp [terms, frameTerms_close, Role.term_of_joint? h]

theorem Steps.terms_eq (h : Steps applies role s ts s') : s'.terms = s.terms ++ ts := by
  induction h with
  | nil => simp
  | cons h _ ih => rw [ih, h.terms_eq, List.append_assoc, List.singleton_append]

theorem Ends.terms_eq (h : s.Ends plan) : plan.terms = s.terms := by
  cases h with
  | past fs p => exact terms_closeAll fs _
  | due f fs => exact terms_closeAll (f :: fs) _

/-- Reading a term is deterministic. -/
theorem Step.unique (h : Step applies s t r s') (h' : Step applies s t r s'') : s' = s'' := by
  cases h with
  | operand fs signs =>
    cases h' with
    | operand => rfl
    | sign _ _ _ h => cases h
  | sign fs signs _ h =>
    cases h' with
    | operand => cases h
    | sign => rfl
    | first => cases h
  | first =>
    cases h' with
    | sign _ _ _ h => cases h
    | first => rfl
  | argument fs signs f args _ h =>
    cases h' with
    | argument => rfl
    | joint _ _ _ h => cases h
  | trailing fs p =>
    cases h' with
    | trailing => rfl
    | joint _ _ _ h => cases h
  | joint fs p _ h =>
    cases h' with
    | argument => cases h
    | trailing => cases h
    | joint _ _ _ h' => cases h.symm.trans h'; rfl

theorem Steps.unique (h : Steps applies role s ts s') (h' : Steps applies role s ts s'') :
    s' = s'' := by
  induction h with
  | nil => cases h'; rfl
  | cons h _ ih =>
    cases h' with
    | cons h' rest' => exact ih (h.unique h' ▸ rest')

theorem Ends.unique (h : s.Ends plan) (h' : s.Ends plan') : plan = plan' := by
  cases h <;> cases h' <;> rfl

theorem Steps.append {us : List ExprId} (h : Steps applies role s ts s')
    (h' : Steps applies role s' us s'') : Steps applies role s (ts ++ us) s'' := by
  induction h with
  | nil => exact h'
  | cons h _ ih => exact .cons h (ih h')

theorem Steps.congr {role' : ExprId → Role} (h : Steps applies role s ts s')
    (hrole : ∀ t ∈ ts, role t = role' t) : Steps applies role' s ts s' := by
  induction h with
  | nil => exact .nil _
  | cons h _ ih =>
    rw [List.forall_mem_cons] at hrole
    exact .cons (hrole.1 ▸ h) (ih hrole.2)

theorem Steps.single (h : Step applies s t (role t) s') : Steps applies role s [t] s' :=
  .cons h (.nil _)

/-- What is open only at the root after a term was so before it. -/
theorem Step.openAtRoot (h : Step applies s t r s') (hopen : s'.OpenAtRoot) : s.OpenAtRoot := by
  cases h with
  | first => simp [OpenAtRoot, start]
  | joint fs p t h => exact (Plan.OpenAtRoot.of_close hopen).2
  | operand | sign | argument | trailing => exact hopen

theorem Steps.openAtRoot (h : Steps applies role s ts s') (hopen : s'.OpenAtRoot) :
    s.OpenAtRoot := by
  induction h with
  | nil => exact hopen
  | cons h _ ih => exact h.openAtRoot (ih hopen)

theorem Ends.openAtRoot (h : s.Ends plan) (hopen : plan.OpenAtRoot) : s.OpenAtRoot := by
  cases h with
  | past fs p => exact (Plan.OpenAtRoot.of_closeAll hopen).2
  | due f fs => exact (Plan.OpenAtRoot.of_closeAll hopen).2

/-- Whatever leads an operand while the terms are read may do so. -/
def SignsAre (May : ExprId → Prop) (applies : Prop) (role : ExprId → Role) (s : Sketch)
    (ts : List ExprId) : Prop :=
  ∀ us t vs s' signs, ts = us ++ t :: vs → Steps applies role s us s' → s'.point = .due signs →
    (role t).isSign = true → May t

theorem SignsAre.head {May : ExprId → Prop} {signs : List ExprId}
    (h : SignsAre May applies role s (t :: ts)) (hs : s.point = .due signs)
    (hsign : (role t).isSign = true) : May t :=
  h [] t ts s signs rfl (.nil s) hs hsign

theorem SignsAre.tail {May : ExprId → Prop} (h : SignsAre May applies role s (t :: ts))
    (hstep : Step applies s t (role t) s') : SignsAre May applies role s' ts :=
  fun us u vs s'' signs hts hsteps =>
    h (t :: us) u vs s'' signs (by rw [hts]; rfl) (.cons hstep hsteps)

theorem SignsAre.cons {May : ExprId → Prop}
    (head : ∀ signs, s.point = .due signs → (role t).isSign = true → May t)
    (tail : ∀ s', Step applies s t (role t) s' → SignsAre May applies role s' ts) :
    SignsAre May applies role s (t :: ts) := by
  intro us u vs s' signs hts hsteps hs hsign
  cases hsteps with
  | nil =>
    obtain ⟨rfl, rfl⟩ := List.cons.inj hts
    exact head signs hs hsign
  | cons h hrest =>
    obtain ⟨rfl, rfl⟩ := List.cons.inj hts
    exact tail _ h _ u vs s' signs rfl hrest hs hsign

theorem SignsAre.congr {May : ExprId → Prop} {role' : ExprId → Role}
    (h : SignsAre May applies role s ts) (hrole : ∀ t ∈ ts, role t = role' t) :
    SignsAre May applies role' s ts := by
  rintro us t vs s' signs rfl hsteps hs hsign
  have ht : role t = role' t := hrole t (by simp)
  exact h us t vs s' signs rfl (hsteps.congr fun u hu => (hrole u (by simp [hu])).symm) hs
    (ht ▸ hsign)

/-! ## Well bound sketches -/

/-- Whatever phrase comes next, closing the sketch behind it gives a well bound plan. -/
def WellBound (s : Sketch) : Prop := ∀ x, (closeAll s.frames (single x)).WellBound

/-- **One term more** keeps a sketch well bound. -/
theorem Step.wellBound (h : Step applies s t r s') (hs : s.WellBound) : s'.WellBound := by
  cases h with
  | first =>
    intro x
    simp [closeAll, Grouping.WellBound, rightSpine, leftSpine]
  | joint fs p t h =>
    intro x
    rw [closeAll_close fs (by simp [rightSpine])]
    exact (hs (some p)).append _ _
  | operand | sign | argument | trailing => exact hs

theorem Steps.wellBound (h : Steps applies role s ts s') (hs : s.WellBound) : s'.WellBound := by
  induction h with
  | nil => exact hs
  | cons h _ ih => exact ih (h.wellBound hs)

theorem Ends.wellBound (h : s.Ends plan) (hs : s.WellBound) : plan.WellBound := by
  cases h with
  | past fs p => exact hs _
  | due f fs => exact hs _

/-- No term leads an operand while operands with binary operators between them are read. -/
theorem signsAre_alternating {May : ExprId → Prop} (fs : List Frame) {first : ExprId}
    {rest : List (ExprId × ExprId)} (hfirst : role first = .operand)
    (hrest : ∀ x ∈ rest, (∃ o, (role x.1).joint? x.1 = some o) ∧ role x.2 = .operand) :
    SignsAre May applies role ⟨fs, .due []⟩ (first :: rest.flatMap fun x => [x.1, x.2]) := by
  induction rest generalizing fs first with
  | nil =>
    refine .cons (fun _ _ hsign => by simp [hfirst, Role.isSign] at hsign) fun s' hstep => ?_
    intro us u vs s'' signs hts
    simp at hts
  | cons x rest ih =>
    obtain ⟨⟨⟨o, ho⟩, hx⟩, hrest⟩ := List.forall_mem_cons.1 hrest
    refine .cons (fun _ _ hsign => by simp [hfirst, Role.isSign] at hsign) fun s' hstep => ?_
    -- Behind the operand the operator is read, and then an operand is due again.
    rw [hfirst] at hstep
    cases hstep with
    | sign _ _ _ h => cases h
    | operand =>
      refine .cons (fun _ hs => by simp at hs) fun s'' hstep => ?_
      generalize role x.1 = r at hstep ho
      cases hstep with
      | argument => cases ho
      | trailing => cases ho
      | joint => exact ih _ hx hrest

end Sketch

/-! ## The plan of a run -/

/-- A run has a plan: it can be read to its end, and its sketch closes to that plan. -/
def Planned (applies : Prop) (role : ExprId → Role) (terms : List ExprId) (plan : Plan) : Prop :=
  ∃ s, Sketch.Steps applies role .start terms s ∧ s.Ends plan

namespace Planned

variable {applies : Prop} {role : ExprId → Role} {terms : List ExprId} {plan plan' : Plan}

/-- **The terms of a plan** are those of the run, in their order. -/
theorem terms_eq (h : Planned applies role terms plan) : plan.terms = terms := by
  obtain ⟨s, hsteps, hends⟩ := h
  rw [hends.terms_eq, hsteps.terms_eq]
  rfl

/-- **A plan is well bound.** -/
theorem wellBound (h : Planned applies role terms plan) : plan.WellBound := by
  obtain ⟨s, hsteps, hends⟩ := h
  exact hends.wellBound (hsteps.wellBound fun _ => trivial)

theorem congr {role' : ExprId → Role} (h : Planned applies role terms plan)
    (hrole : ∀ t ∈ terms, role t = role' t) : Planned applies role' terms plan := by
  obtain ⟨s, hsteps, hends⟩ := h
  exact ⟨s, hsteps.congr hrole, hends⟩

theorem unique (h : Planned applies role terms plan) (h' : Planned applies role terms plan') :
    plan = plan' := by
  obtain ⟨s, hsteps, hends⟩ := h
  obtain ⟨s', hsteps', hends'⟩ := h'
  obtain rfl := hsteps.unique hsteps'
  exact hends.unique hends'

end Planned

/-! ## Runs that have a plan -/

/-- The terms of a phrase play the roles that its shape asks for, and nothing is an argument. -/
structure Phrase.Fits (role : ExprId → Role) (p : Phrase) : Prop where
  signs : ∀ t ∈ p.signs, (role t).isSign = true
  head : role p.head = .operand
  args : p.args = []
  trails : ∀ t ∈ p.trails, role t = .trailing

namespace Sketch

variable {applies : Prop} {role : ExprId → Role} {p : Phrase}

theorem steps_signs (fs : List Frame) (before : List ExprId) {signs : List ExprId}
    (h : ∀ t ∈ signs, (role t).isSign = true) :
    Steps applies role ⟨fs, .due before⟩ signs ⟨fs, .due (before ++ signs)⟩ := by
  induction signs generalizing before with
  | nil => simpa using Steps.nil _
  | cons t signs ih =>
    obtain ⟨ht, hsigns⟩ := List.forall_mem_cons.1 h
    refine .cons (.sign fs before t ht) ?_
    simpa using ih (before ++ [t]) hsigns

theorem steps_trails (fs : List Frame) (p : Phrase) {trails : List ExprId}
    (h : ∀ t ∈ trails, role t = .trailing) :
    Steps applies role ⟨fs, .past p⟩ trails
      ⟨fs, .past { p with trails := p.trails ++ trails }⟩ := by
  induction trails generalizing p with
  | nil => simpa using Steps.nil _
  | cons t trails ih =>
    obtain ⟨ht, htrails⟩ := List.forall_mem_cons.1 h
    have hstep : Step applies ⟨fs, .past p⟩ t (role t)
        ⟨fs, .past { p with trails := p.trails ++ [t] }⟩ := by
      rw [ht]
      exact .trailing fs p t
    refine .cons hstep ?_
    simpa using ih { p with trails := p.trails ++ [t] } htrails

/-- Where an operand is due, a phrase is read as a whole. -/
theorem steps_phrase (fs : List Frame) (h : p.Fits role) :
    Steps applies role ⟨fs, .due []⟩ p.terms ⟨fs, .past p⟩ := by
  obtain ⟨signs, head, args, trails⟩ := p
  obtain ⟨hsigns, hhead, rfl, htrails⟩ := h
  have hoperand : Step applies ⟨fs, .due signs⟩ head (role head)
      ⟨fs, .past ⟨signs, head, [], []⟩⟩ := by
    rw [show role head = .operand from hhead]
    exact .operand fs signs head
  have hfirst : Steps applies role ⟨fs, .due []⟩ (signs ++ [head]) _ :=
    (steps_signs fs [] hsigns).append (.single hoperand)
  simpa [Phrase.terms] using hfirst.append (steps_trails fs ⟨signs, head, [], []⟩ htrails)

/-- Behind a phrase, binary operators with a phrase behind each are read one after the other. -/
theorem steps_rest (fs : List Frame) (p : Phrase) {rest : List (Joint × Phrase)}
    (h : ∀ x ∈ rest, (role x.1.term).joint? x.1.term = some x.1 ∧ x.2.Fits role) :
    ∃ fs' p', Steps applies role ⟨fs, .past p⟩ (rest.flatMap fun x => x.1.term :: x.2.terms)
        ⟨fs', .past p'⟩ ∧
      closeAll fs' (single (some p')) =
        (closeAll fs (single (some p))).appendAll (rest.map fun x => (x.1, some x.2)) := by
  induction rest generalizing fs p with
  | nil => exact ⟨fs, p, .nil _, rfl⟩
  | cons x rest ih =>
    obtain ⟨⟨hjoint, hphrase⟩, hrest⟩ := List.forall_mem_cons.1 h
    obtain ⟨fs', p', hsteps, hclose⟩ := ih (close fs (single (some p)) x.1) x.2 hrest
    have hjoin : Step applies ⟨fs, .past p⟩ x.1.term (role x.1.term) _ :=
      .joint fs p x.1.term hjoint
    refine ⟨fs', p', .cons hjoin ((steps_phrase _ hphrase).append hsteps), ?_⟩
    rw [hclose, closeAll_close fs (by simp [rightSpine])]
    rfl

end Sketch

/-- **A run of phrases with binary operators between them** has its grouping as its plan. -/
theorem planned_ofRun {applies : Prop} {role : ExprId → Role} {first : Phrase}
    {rest : List (Joint × Phrase)} (hfirst : first.Fits role)
    (hrest : ∀ x ∈ rest, (role x.1.term).joint? x.1.term = some x.1 ∧ x.2.Fits role) :
    Planned applies role (first.terms ++ rest.flatMap fun x => x.1.term :: x.2.terms)
      (ofRun (some first) (rest.map fun x => (x.1, some x.2))) := by
  obtain ⟨fs, p, hsteps, hclose⟩ := Sketch.steps_rest [] first hrest
  refine ⟨⟨fs, .past p⟩, (Sketch.steps_phrase [] hfirst).append hsteps, ?_⟩
  have hends := Sketch.Ends.past fs p
  rwa [hclose] at hends

end Termwise
