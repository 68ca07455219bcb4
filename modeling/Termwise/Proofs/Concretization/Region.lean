import Termwise.Proofs.Concretization.Discipline
import Termwise.Proofs.Concretization.Forest

/-!
# Regions that a walk cannot leave

A walk changes only what it can get to: what lies below an expression, the bodies of the definitions
in use, the statements in these, and the expressions that it appends. A set of places that leads
nowhere else, and that has room for what will be appended, is a closed region; a walk within it
leaves every other expression as it was, changes no definition and no statement, and never makes an
invalid program valid.

## Main definitions

* `Compilation.Closed`: a region that a walk cannot leave
* `Compilation.Roams`: what may happen outside a region and to it
* `Compilation.Behind`, `Compilation.Surroundings`: what lies behind the definitions that an
  expression leads to
* `Compilation.Replaced`: a use was replaced by a copy of a body

## Main results

* `substitute_copies`: what is put at the place of a use
* `roaming`: to stay within a region is a discipline
-/

namespace Termwise

open Compilation

/-! ## Closed regions -/

namespace Compilation

/-- A region that a walk cannot leave. Whatever will be appended belongs to it. -/
structure Closed (c : Compilation) (R : Set Place) : Prop where
  onward : ∀ p ∈ R, ∀ q, c.Onward p q → q ∈ R
  fresh : ∀ n : ExprId, c.arena.exprs.size ≤ n.index → .expr n ∈ R

/-- A walk stayed within a region: all else is as it was, and the region is closed if it was. -/
structure Roams (R : Set Place) (c c' : Compilation) : Prop extends SameProgram c c' where
  isValid : c'.isValid = true → c.isValid = true
  size : c.arena.exprs.size ≤ c'.arena.exprs.size
  outside : ∀ n, .expr n ∉ R → c'.arena.expr n = c.arena.expr n
  closed : c.Closed R → c'.Closed R

variable {c c' c'' : Compilation} {R : Set Place} {id n : ExprId} {d : DefId} {p q : Place}

theorem Roams.refl (R : Set Place) (c : Compilation) : c.Roams R c :=
  ⟨.refl c, id, le_rfl, fun _ _ => rfl, id⟩

theorem Roams.trans (h : c.Roams R c') (h' : c'.Roams R c'') : c.Roams R c'' where
  toSameProgram := h.toSameProgram.trans h'.toSameProgram
  isValid hvalid := h.isValid (h'.isValid hvalid)
  size := h.size.trans h'.size
  outside n hn := (h'.outside n hn).trans (h.outside n hn)
  closed hc := h'.closed (h.closed hc)

/-- A region is closed if its expressions lead on within it, and all else is as it was. -/
theorem Closed.of_leadsTo (hc : c.Closed R) (h : c.SameProgram c')
    (hsize : c.arena.exprs.size ≤ c'.arena.exprs.size)
    (hkind : ∀ n q, .expr n ∈ R → (c'.arena.expr n).kind.LeadsTo c.builtins q → q ∈ R) :
    c'.Closed R where
  onward p hp q ho := by
    cases ho with
    | expr hq => exact hkind _ q hp (h.builtins ▸ hq)
    | body hb => exact hc.onward _ hp _ (.body (by rwa [← h.definition]))
    | program hb => exact hc.onward _ hp _ (.program (by rwa [← h.definition]))
    | shown hk => exact hc.onward _ hp _ (.shown (by rwa [← h.stmt]))
    | result hk => exact hc.onward _ hp _ (.result (by rwa [← h.stmt]))
    | bind hk => exact hc.onward _ hp _ (.bind (by rwa [← h.stmt]))
    | block hk ht => exact hc.onward _ hp _ (.block (by rwa [← h.stmt]) ht)
  fresh n hn := hc.fresh n (hsize.trans hn)

theorem Closed.leadsTo (hc : c.Closed R) (hn : .expr n ∈ R)
    (hq : (c.arena.expr n).kind.LeadsTo c.builtins q) : q ∈ R :=
  hc.onward _ hn _ (.expr hq)

theorem Closed.child (hc : c.Closed R) (hn : .expr n ∈ R) {m : ExprId}
    (hm : m ∈ (c.arena.expr n).kind.children) : .expr m ∈ R :=
  hc.leadsTo hn (.child hm)

/-! ## What lies behind definitions -/

/-- What lies behind the definitions that an expression leads to. -/
def Behind (c : Compilation) (id : ExprId) : Set Place :=
  { q | ∃ d, Relation.ReflTransGen c.Onward (.expr id) (.definition d) ∧
    Relation.ReflTransGen c.Onward (.definition d) q }

/-- What lies behind the definitions that an expression leads to, and what will be appended. -/
def Surroundings (c : Compilation) (id : ExprId) : Set Place :=
  c.Behind id ∪ { q | ∃ n : ExprId, q = .expr n ∧ c.arena.exprs.size ≤ n.index }

/-- An expression outside the table leads nowhere. -/
theorem not_onward_of_size_le (h : c.arena.exprs.size ≤ n.index) : ¬ c.Onward (.expr n) q := by
  intro ho
  cases ho with
  | expr hq =>
    rw [Arena.expr_of_size_le h] at hq
    cases hq with
    | child hm => cases hm
    | use hd => cases hd

theorem closed_surroundings (c : Compilation) (id : ExprId) : c.Closed (c.Surroundings id) where
  onward p hp q ho := by
    rcases hp with ⟨d, hd, hp⟩ | ⟨n, rfl, hn⟩
    · exact .inl ⟨d, hd, hp.tail ho⟩
    · exact (not_onward_of_size_le hn ho).elim
  fresh n hn := .inr ⟨n, rfl, hn⟩

/-- An expression of the table is part of the surroundings only if it lies behind a definition. -/
theorem not_mem_surroundings (h : .expr n ∉ c.Behind id) (hlt : n.index < c.arena.exprs.size) :
    .expr n ∉ c.Surroundings id := by
  rintro (hmem | ⟨m, heq, hm⟩)
  · exact h hmem
  · cases heq
    exact hm.not_gt hlt

/-- A tree leads to its nodes. -/
theorem reaches_of_forest {xs : List ExprId} (h : c.arena.Forest [id] xs) (hn : n ∈ xs) :
    Relation.ReflTransGen c.Onward (.expr id) (.expr n) := by
  obtain ⟨m, hm, hpath⟩ := h.exists_root hn
  obtain rfl := List.mem_singleton.1 hm
  exact hpath.lift Place.expr fun _ _ => onward_child

/-- The definitions that an expression leads to are behind it. -/
theorem mem_surroundings (h : Relation.ReflTransGen c.Onward (.expr id) (.definition d)) :
    .definition d ∈ c.Surroundings id :=
  .inl ⟨d, h, .refl⟩

/-! ## Steps -/

/-- An expression of the region is rewritten into one that leads on within it. -/
theorem roams_modifyExpr (hid : .expr id ∈ R) (f : Expression → Expression)
    (h : c.Closed R → ∀ q, (f (c.arena.expr id)).kind.LeadsTo c.builtins q → q ∈ R) :
    c.Roams R (c.modifyArena (·.modifyExpr id f)) := by
  have hsame : c.SameProgram (c.modifyArena (·.modifyExpr id f)) := ⟨rfl, rfl, rfl, rfl⟩
  have hsize : c.arena.exprs.size ≤ (c.modifyArena (·.modifyExpr id f)).arena.exprs.size := by
    simp [modifyArena]
  refine ⟨hsame, fun hvalid => hvalid, hsize, fun n hn => ?_, fun hc => ?_⟩
  · have hne : n ≠ id := fun heq => hn (heq ▸ hid)
    simp only [modifyArena, Arena.expr_modifyExpr_of_ne hne]
  · refine hc.of_leadsTo hsame hsize fun n q hn hq => ?_
    simp only [modifyArena, Arena.expr_modifyExpr] at hq
    split at hq <;> rename_i heq
    · rw [heq.1] at hq
      exact h hc q hq
    · exact hc.leadsTo hn hq

/-- An expression of the region takes another type, or another value if it is one. -/
theorem roams_retouch (hid : .expr id ∈ R) {f : Expression → Expression}
    (h : (f (c.arena.expr id)).kind = (c.arena.expr id).kind ∨
      (f (c.arena.expr id)).kind.isValue = true) :
    c.Roams R (c.modifyArena (·.modifyExpr id f)) := by
  refine roams_modifyExpr hid f fun hc q hq => ?_
  rcases h with heq | hvalue
  · rw [heq] at hq
    exact hc.leadsTo hid hq
  · -- A value leads nowhere.
    cases hk : (f (c.arena.expr id)).kind <;> simp only [hk, ExprKind.isValue] at hvalue hq <;>
      try cases hvalue
    cases hq with
    | child hm => cases hm
    | use hd => cases hd

theorem Unchanged.roams (h : c.Unchanged c') (R : Set Place) : c.Roams R c' :=
  ⟨h.toSameProgram, fun hvalid => h.isValid ▸ hvalid, h.size.ge, fun n _ => h.expr n,
    fun hc => hc.of_leadsTo h.toSameProgram h.size.ge fun n _ hn hq =>
      hc.leadsTo hn (h.expr n ▸ hq)⟩

theorem roams_emit (R : Set Place) (c : Compilation) (event : Event) : c.Roams R (c.emit event) :=
  ⟨⟨rfl, rfl, rfl, rfl⟩, fun h => h, le_rfl, fun _ _ => rfl,
    fun hc => hc.of_leadsTo ⟨rfl, rfl, rfl, rfl⟩ le_rfl fun _ _ hn hq => hc.leadsTo hn hq⟩

theorem roams_types (R : Set Place) (c : Compilation) (types : TypeStore) :
    c.Roams R { c with types } :=
  ⟨⟨rfl, rfl, rfl, rfl⟩, fun h => h, le_rfl, fun _ _ => rfl,
    fun hc => hc.of_leadsTo ⟨rfl, rfl, rfl, rfl⟩ le_rfl fun _ _ hn hq => hc.leadsTo hn hq⟩

theorem arena_reportNew (c : Compilation) (e : CompileError) :
    (c.reportNew e).arena = c.arena := by
  unfold reportNew
  split <;> rfl

theorem sameProgram_reportNew (c : Compilation) (e : CompileError) :
    c.SameProgram (c.reportNew e) := by
  unfold reportNew
  split <;> exact ⟨rfl, rfl, rfl, rfl⟩

theorem roams_reportNew (R : Set Place) (c : Compilation) (e : CompileError) :
    c.Roams R (c.reportNew e) := by
  have harena := c.arena_reportNew e
  have hsame := c.sameProgram_reportNew e
  refine ⟨hsame, fun h => (isValid_reportNew h).1, by rw [harena], fun _ _ => by rw [harena],
    fun hc => ?_⟩
  exact hc.of_leadsTo hsame (by rw [harena]) fun n q hn hq => hc.leadsTo hn (harena ▸ hq)

end Compilation

/-! ## Copies -/

/-- A kind that is another one up to the expressions directly below. -/
inductive ExprKind.Resembles : ExprKind → ExprKind → Prop where
  | refl (k : ExprKind) : Resembles k k
  | call (d : DefId) {args args' : List ExprId} (h : args'.length = args.length) :
    Resembles (.call d args) (.call d args')
  | negated (x x' : ExprId) : Resembles (.negated x) (.negated x')
  | run {ts ts' : List ExprId} (h : ts'.length = ts.length) : Resembles (.run ts) (.run ts')

/-- What resembles a kind leads on to where that does, and to the expressions below. -/
theorem ExprKind.Resembles.leadsTo {k k' : ExprKind} {b : Builtins} {q : Place}
    (h : k.Resembles k') (hq : k'.LeadsTo b q) :
    (∃ m ∈ k'.children, q = .expr m) ∨ k.LeadsTo b q := by
  cases h with
  | refl => exact .inr hq
  | call d hlength =>
    cases hq with
    | child hm => exact .inl ⟨_, hm, rfl⟩
    | use hd => exact .inr (.use hd)
    | widening => exact .inr (.widening _)
  | negated x x' =>
    cases hq with
    | child hm => exact .inl ⟨_, hm, rfl⟩
    | use hd => cases hd
    | negation _ hd => exact .inr (.negation x hd)
  | run hlength =>
    cases hq with
    | child hm => exact .inl ⟨_, hm, rfl⟩
    | use hd => cases hd

/-- No expression leads to a statement. -/
theorem ExprKind.LeadsTo.ne_statement {k : ExprKind} {b : Builtins} {q : Place} {s : StmtId}
    (h : k.LeadsTo b q) : q ≠ .statement s := by
  rintro rfl
  cases h

namespace Arena

variable {a a' a'' : Arena} {b : Builtins} {R : Set Place} {id : ExprId} {Z : Set ExprId}
  {K : ExprKind → Prop}

/-- Expressions were appended, and nothing else changed. -/
structure Appends (a a' : Arena) : Prop where
  defs : a'.defs = a.defs
  stmts : a'.stmts = a.stmts
  roots : a'.roots = a.roots
  size : a.exprs.size ≤ a'.exprs.size
  expr : ∀ n : ExprId, n.index < a.exprs.size → a'.expr n = a.expr n

theorem Appends.refl (a : Arena) : a.Appends a := ⟨rfl, rfl, rfl, le_rfl, fun _ _ => rfl⟩

theorem Appends.trans (h : a.Appends a') (h' : a'.Appends a'') : a.Appends a'' where
  defs := h'.defs.trans h.defs
  stmts := h'.stmts.trans h.stmts
  roots := h'.roots.trans h.roots
  size := h.size.trans h'.size
  expr n hn := (h'.expr n (hn.trans_le h.size)).trans (h.expr n hn)

theorem appends_allocExpr (a : Arena) (e : Expression) : a.Appends (a.allocExpr e).2 where
  defs := rfl
  stmts := rfl
  roots := rfl
  size := by simp
  expr _ hn := expr_allocExpr_of_lt hn e

/-- The expressions of a region lead on within it, and what will be appended belongs to it. -/
structure Within (a : Arena) (b : Builtins) (R : Set Place) : Prop where
  leadsTo : ∀ n q, .expr n ∈ R → (a.expr n).kind.LeadsTo b q → q ∈ R
  fresh : ∀ n : ExprId, a.exprs.size ≤ n.index → .expr n ∈ R

theorem length_copyEach (copy : ExprId → StateM Arena Expression) (ids : List ExprId) (a : Arena) :
    (copyEach copy ids a).1.length = ids.length := by
  induction ids generalizing a with
  | nil => rfl
  | cons id ids ih =>
    rw [copyEach_cons, List.length_cons, List.length_cons]
    exact congrArg (· + 1) (ih _)

/-- A set of expressions that nothing below leaves and in which every expression is of some kind.
There is room in it for what will be appended. -/
structure Encloses (a : Arena) (Z : Set ExprId) (K : ExprKind → Prop) : Prop where
  children : ∀ n ∈ Z, ∀ m ∈ (a.expr n).kind.children, m ∈ Z
  kind : ∀ n ∈ Z, K (a.expr n).kind
  fresh : ∀ n : ExprId, a.exprs.size ≤ n.index → n ∈ Z

theorem Encloses.allocExpr (h : a.Encloses Z K) {e : Expression}
    (hchildren : ∀ m ∈ e.kind.children, m ∈ Z) (hkind : K e.kind) :
    (a.allocExpr e).2.Encloses Z K where
  children n hn m hm := by
    rw [expr_allocExpr] at hm
    split at hm
    · exact hchildren m hm
    · exact h.children n hn m hm
  kind n hn := by
    rw [expr_allocExpr]
    split
    · exact hkind
    · exact h.kind n hn
  fresh n hn := h.fresh n (by simp at hn; omega)

/-- A copy was made without leaving a set of expressions. -/
structure CopiesWithin (Z : Set ExprId) (K : ExprKind → Prop) (a : Arena)
    (copied : Expression × Arena) : Prop where
  appends : a.Appends copied.2
  encloses : copied.2.Encloses Z K
  children : ∀ m ∈ copied.1.kind.children, m ∈ Z
  kind : K copied.1.kind

/-- Copies of trees that a set encloses belong to it. -/
theorem copyEach_encloses {copy : ExprId → StateM Arena Expression}
    (hcopy : ∀ id a, Arena.Encloses a Z K → id ∈ Z → CopiesWithin Z K a (copy id a))
    (ids : List ExprId) (ha : a.Encloses Z K) (hids : ∀ n ∈ ids, n ∈ Z) :
    a.Appends (copyEach copy ids a).2 ∧ (copyEach copy ids a).2.Encloses Z K ∧
      ∀ m ∈ (copyEach copy ids a).1, m ∈ Z := by
  induction ids generalizing a with
  | nil => exact ⟨.refl a, ha, List.forall_mem_nil _⟩
  | cons id ids ih =>
    obtain ⟨hid, hids⟩ := List.forall_mem_cons.1 hids
    have hcopied := hcopy id a ha hid
    have halloc := hcopied.appends.trans (appends_allocExpr _ (copy id a).1)
    obtain ⟨hrest, hencloses, hmem⟩ :=
      ih (hcopied.encloses.allocExpr hcopied.children hcopied.kind) hids
    rw [copyEach_cons]
    refine ⟨halloc.trans hrest, hencloses, List.forall_mem_cons.2 ⟨?_, hmem⟩⟩
    exact ha.fresh _ hcopied.appends.size

/-- **A copy** of a tree resembles it. -/
theorem copyWithin_resembles (depth : Nat) (id : ExprId) (a : Arena) :
    (copyWithin depth id a).1.ty = (a.expr id).ty ∧
      (a.expr id).kind.Resembles (copyWithin depth id a).1.kind := by
  cases depth with
  | zero => exact ⟨rfl, .refl _⟩
  | succ depth =>
    rw [copyWithin_succ]
    split <;> rename_i hk
    · exact ⟨rfl, hk ▸ .call _ (length_copyEach ..)⟩
    · exact ⟨rfl, hk ▸ .negated _ _⟩
    · exact ⟨rfl, hk ▸ .run (length_copyEach ..)⟩
    · exact ⟨rfl, .refl _⟩

/-- **A copy** of a tree that a set encloses belongs to it, if a kind is as good as what it
resembles. -/
theorem copyWithin_encloses (hK : ∀ k k' : ExprKind, k.Resembles k' → K k → K k') (depth : Nat)
    (id : ExprId) (a : Arena) (ha : a.Encloses Z K) (hid : id ∈ Z) :
    CopiesWithin Z K a (copyWithin depth id a) := by
  induction depth generalizing id a with
  | zero => exact ⟨.refl a, ha, ha.children id hid, ha.kind id hid⟩
  | succ depth ih =>
    have hchild := ha.children id hid
    have hkind := hK _ _ (copyWithin_resembles (depth + 1) id a).2 (ha.kind id hid)
    suffices h : a.Appends (copyWithin (depth + 1) id a).2 ∧
        (copyWithin (depth + 1) id a).2.Encloses Z K ∧
        ∀ m ∈ (copyWithin (depth + 1) id a).1.kind.children, m ∈ Z from
      ⟨h.1, h.2.1, h.2.2, hkind⟩
    rw [copyWithin_succ]
    split <;> rename_i hk
    · exact copyEach_encloses ih _ ha (by rwa [hk] at hchild)
    · rename_i x
      have hcopied := ih x a ha (hchild x (by rw [hk]; simp [ExprKind.children]))
      refine ⟨hcopied.appends.trans (appends_allocExpr _ _),
        hcopied.encloses.allocExpr hcopied.children hcopied.kind, ?_⟩
      simp only [ExprKind.children, List.mem_singleton, forall_eq]
      exact ha.fresh _ hcopied.appends.size
    · exact copyEach_encloses ih _ ha (by rwa [hk] at hchild)
    · exact ⟨.refl a, ha, hchild⟩

/-- The expressions of a region that lead on within it, as an enclosing set. -/
theorem within_iff_encloses :
    a.Within b R ↔ a.Encloses { n | .expr n ∈ R }
      fun k => ∀ d, k.LeadsTo b (.definition d) → .definition d ∈ R := by
  constructor
  · exact fun h => ⟨fun n hn m hm => h.leadsTo n _ hn (.child hm),
      fun n hn d hd => h.leadsTo n _ hn hd, h.fresh⟩
  · refine fun h => ⟨fun n q hn hq => ?_, h.fresh⟩
    cases q with
    | expr m => exact h.children n hn m hq.mem_children
    | definition d => exact h.kind n hn d hq
    | statement s => exact (hq.ne_statement rfl).elim

/-- **A copy** of a tree of a region leads on within the region. -/
theorem copyWithin_within (depth : Nat) (id : ExprId) (a : Arena) (ha : a.Within b R)
    (hid : .expr id ∈ R) :
    a.Appends (copyWithin depth id a).2 ∧ (copyWithin depth id a).2.Within b R ∧
      ∀ q, (copyWithin depth id a).1.kind.LeadsTo b q → q ∈ R := by
  have hcopied := copyWithin_encloses (fun k k' hk hdefs d hd => ?_) depth id a
    (within_iff_encloses.1 ha) hid
  · refine ⟨hcopied.appends, within_iff_encloses.2 hcopied.encloses, fun q hq => ?_⟩
    cases q with
    | expr m => exact hcopied.children m hq.mem_children
    | definition d => exact hcopied.kind d hq
    | statement s => exact (hq.ne_statement rfl).elim
  · -- A copy leads on to the definitions that the original does.
    rcases hk.leadsTo hd with ⟨m, -, heq⟩ | hd
    · cases heq
    · exact hdefs d hd

end Arena

/-! ## Replaced uses -/

/-- A use of `d` was replaced by a copy of its body `b`, read as a plain reference. -/
structure Compilation.Replaced (id : ExprId) (d : DefId) (b : ExprId) (c c' : Compilation) :
    Prop where
  body : (c.arena.definition d).body = .expression b
  use : (c.arena.expr id).kind = .reference d ∨ (c.arena.expr id).kind = .call d []
  builtins : c'.builtins = c.builtins
  isValid : c'.isValid = c.isValid
  arena : ∃ read, read = c.arena.modifyExpr id (fun e => { e with kind := .reference d }) ∧
    (read.expr b).kind.isSubstitutable = true ∧
    c'.arena = (read.copy b).2.replaceExpr id (read.copy b).1

variable {c c' : Compilation} {settings : Settings} {R : Set Place} {id : ExprId} {d : DefId}

theorem Compilation.Replaced.definition? {b : ExprId} (h : c.Replaced id d b c') :
    (c.arena.expr id).kind.definition? = some d := by
  rcases h.use with hk | hk <;> rw [hk] <;> rfl

/-- A reference is replaced by a copy of the body. -/
theorem substituteReference_copies (id : ExprId) (d : DefId) :
    Outcome (substituteReference id d) c
      (fun replaced c' => replaced = true → ∃ b, (c.arena.definition d).body = .expression b ∧
        (c.arena.expr b).kind.isSubstitutable = true ∧
        c'.arena = (c.arena.copy b).2.replaceExpr id (c.arena.copy b).1 ∧
        c'.builtins = c.builtins ∧ c'.isValid = c.isValid)
      fun _ _ => True := by
  simp only [substituteReference, outcome_bind, outcome_arena]
  split
  · exact fun h => by cases h
  · exact fun h => by cases h
  · exact fun h => by cases h
  · rename_i b hb
    have hput (h : ¬ (!(c.arena.expr b).kind.isSubstitutable) = true) :
        Outcome (do
            putCopy id b
            CheckM.emit (.substituted (c.arena.definition d).name)
            return true) c
          (fun replaced c' => replaced = true → ∃ b,
            (c.arena.definition d).body = .expression b ∧
            (c.arena.expr b).kind.isSubstitutable = true ∧
            c'.arena = (c.arena.copy b).2.replaceExpr id (c.arena.copy b).1 ∧
            c'.builtins = c.builtins ∧ c'.isValid = c.isValid)
          fun _ _ => True := by
      rw [outcome_bind]
      exact outcome_putCopy.2
        ⟨fun _ => trivial, fun _ _ => ⟨b, hb, by simpa using h, rfl, rfl, rfl⟩⟩
    split
    · exact fun h => by cases h
    · split_ifs with _ _ _ h h
      · exact fun h => by cases h
      · exact fun h => by cases h
      · exact fun h => by cases h
      · exact hput h
      · exact fun h => by cases h
      · exact hput h

/-- **A use that is replaced** takes a copy of the body of its definition. -/
theorem substitute_copies (settings : Settings)
    (hd : (c.arena.expr id).kind.definition? = some d) :
    Outcome (substitute settings id) c
      (fun replaced c' => replaced = true → ∃ b, c.Replaced id d b c') fun _ _ => True := by
  simp only [substitute]
  split
  · exact fun h => by cases h
  · simp only [outcome_bind, outcome_expr]
    split <;> rename_i hk <;> try rw [hk] at hd; cases hd
    · refine (substituteReference_copies id d).imp fun replaced c' h hreplaced => ?_
      obtain ⟨b, hb, hsubst, harena, hbuiltins, hvalid⟩ := h hreplaced
      have hread : c.arena.modifyExpr id (fun e => { e with kind := .reference d }) = c.arena :=
        Arena.modifyExpr_eq_self (by rw [← hk])
      exact ⟨b, hb, .inl hk, hbuiltins, hvalid, c.arena, hread.symm, hsubst, harena⟩
    · rename_i args
      simp only [substituteCall, outcome_bind, outcome_definitionType]
      split
      · exact fun h => by cases h
      · rename_i hpure
        have hargs : args = [] := by
          simp only [Bool.or_eq_true, Bool.not_eq_true', not_or, Bool.not_eq_false] at hpure
          exact List.isEmpty_iff.1 hpure.2
        simp only [outcome_bind, outcome_expr, outcome_modifyExpr]
        refine (substituteReference_copies id d).imp fun replaced c₂ h => ?_
        cases replaced with
        | true =>
          obtain ⟨b, hb, hsubst, harena, hbuiltins, hvalid⟩ := h rfl
          simp only [if_true, outcome_bind, outcome_definition, outcome_emit]
          have huse := hk.trans (by rw [hargs])
          exact fun _ => ⟨b, hb, .inr huse, hbuiltins, hvalid, _, rfl, hsubst, harena⟩
        | false => exact fun h => by cases h
    · exact fun h => by cases h

theorem Compilation.Closed.within (hc : c.Closed R) : c.arena.Within c.builtins R :=
  ⟨fun _ _ hn hq => hc.leadsTo hn hq, hc.fresh⟩

/-- A copy of a tree of the region is put at a place of it. -/
theorem roams_copy {b : ExprId} (hc : c.Closed R) (hid : .expr id ∈ R) (hb : .expr b ∈ R)
    (harena : c'.arena = (c.arena.copy b).2.replaceExpr id (c.arena.copy b).1)
    (hbuiltins : c'.builtins = c.builtins) (hvalid : c'.isValid = c.isValid) : c.Roams R c' := by
  obtain ⟨hcopied, hwithin, hkind⟩ := Arena.copyWithin_within c.arena.exprs.size b _ hc.within hb
  have hsame : c.SameProgram c' := by
    refine ⟨hbuiltins, ?_, ?_, ?_⟩ <;> rw [harena]
    · exact hcopied.defs
    · exact hcopied.stmts
    · exact hcopied.roots
  have hsize : c.arena.exprs.size ≤ c'.arena.exprs.size := by
    rw [harena, Arena.replaceExpr, Arena.size_modifyExpr]
    exact hcopied.size
  refine ⟨hsame, fun h => hvalid ▸ h, hsize, fun n hn => ?_, fun _ => ?_⟩
  · have hne : n ≠ id := fun heq => hn (heq ▸ hid)
    have hlt : n.index < c.arena.exprs.size := Nat.lt_of_not_le fun hle => hn (hc.fresh n hle)
    rw [harena, Arena.replaceExpr, Arena.expr_modifyExpr_of_ne hne]
    exact hcopied.expr n hlt
  · refine hc.of_leadsTo hsame hsize fun n q hn hq => ?_
    rw [harena, Arena.replaceExpr, Arena.expr_modifyExpr] at hq
    split at hq
    · exact hkind q hq
    · exact hwithin.leadsTo n q hn hq

/-- A use that is read as a reference stays within its region. -/
theorem roams_readAs (hc : c.Closed R) (hid : .expr id ∈ R)
    (huse : (c.arena.expr id).kind.definition? = some d) : c.Roams R (c.readAs id d) := by
  have hd : .definition d ∈ R := hc.leadsTo hid (.use huse)
  refine roams_modifyExpr hid _ fun _ q hq => ?_
  cases hq with
  | child hm => cases hm
  | use hd' =>
    cases hd'
    exact hd

theorem Compilation.CutOff.definition? {stop : Stop} (h : c.CutOff id d stop c') :
    (c.arena.expr id).kind.definition? = some d := by
  rcases h.use with hk | hk <;> rw [hk] <;> rfl

/-- **A use that is replaced** stays within its region. -/
theorem Compilation.Replaced.roams {b : ExprId} (h : c.Replaced id d b c') (hc : c.Closed R)
    (hid : .expr id ∈ R) : c.Roams R c' := by
  obtain ⟨read, rfl, -, harena⟩ := h.arena
  have hread := roams_readAs hc hid h.definition?
  refine hread.trans (roams_copy (hread.closed hc) hid ?_ harena h.builtins h.isValid)
  exact hc.onward _ (hc.leadsTo hid (.use h.definition?)) _ (.body h.body)

/-! ## Actions of the walk -/

theorem ExprKind.Alike.isValue {k k' : ExprKind} (h : k.Alike k') : k'.isValue = k.isValue := by
  cases h <;> rfl

/-- The callee of a widened call is the one before, or the negation of floats. -/
theorem Compilation.leadsTo_of_floatCallee? {callee floatCallee : DefId} {args : List ExprId}
    {q : Place} (h : c.floatCallee? callee = some floatCallee)
    (hq : (ExprKind.call floatCallee args).LeadsTo c.builtins q) :
    (ExprKind.call callee args).LeadsTo c.builtins q := by
  unfold floatCallee? at h
  split at h
  · rename_i hcallee
    subst hcallee
    obtain rfl := Option.some.inj h
    have hfloat : (ExprKind.call c.builtins.unaryMinus args).LeadsTo c.builtins
        (.definition c.builtins.unaryMinusFloat) := .widening args
    generalize c.builtins.unaryMinusFloat = d at hq hfloat
    cases hq with
    | child hm => exact .child hm
    | use hd =>
      cases hd
      exact hfloat
    | widening => exact .widening args
  · split at h
    · cases h
      exact hq
    · cases h

/-- Expressions of a region get into other types. -/
theorem retypingLaw_roams (R : Set Place) :
    RetypingLaw (fun c n => c.Closed R ∧ .expr n ∈ R) (Roams R) where
  refl := .refl R
  trans := .trans
  stays h hn := ⟨h.closed hn.1, hn.2⟩
  operand hn hk hm := ⟨hn.1, hn.1.child hn.2 (by rw [hk]; exact hm)⟩
  value hn h := roams_retouch hn.2 (.inr h.isValue.2)
  call {c c₁ n d d' args} hn hk hcallee h₁ := by
    -- Where the widened call leads on to was read off before its arguments were widened.
    refine h₁.trans (roams_modifyExpr hn.2 _ fun _ q hq => ?_)
    refine hn.1.leadsTo hn.2 (q := q) ?_
    rw [hk]
    exact leadsTo_of_floatCallee? hcallee (h₁.builtins ▸ hq)
  emit := roams_emit R

/-- What is done for a call roams the places of its arguments. -/
theorem callLaw_roams {args : List ExprId} (hargs : ∀ n ∈ args, .expr n ∈ R) :
    CallLaw args (Roams R) where
  refl := .refl R
  trans := .trans
  coerced harg h := roams_retouch (hargs _ harg) ((Expression.coerce_kind h).imp_right And.right)
  issued c _ _ _ := roams_types R c _

theorem createCall_roams (d : DefId) (args : List ExprId) (span : Span)
    (hargs : ∀ n ∈ args, .expr n ∈ R) :
    Outcome (createCall d args span) c (fun e c' => c.Roams R c' ∧ e.kind = .call d args)
      fun _ => c.Roams R :=
  ((callLaw_roams hargs).outcome_createCall d span c).mono (fun _ _ h => ⟨h.1, h.2.1⟩)
    fun _ _ => And.right

theorem callNegation_roams {x : ExprId} (hid : .expr id ∈ R) (hx : .expr x ∈ R)
    (hneg : ∀ d, c.IsNegation d → .definition d ∈ R) :
    Outcome (callNegation id x) c (fun _ => c.Roams R) fun _ => c.Roams R := by
  simp only [callNegation, outcome_bind, outcome_get, outcome_expr]
  refine (createCall_roams _ [x] _ (by simpa using hx)).imp ?_
  rintro call c₁ ⟨h₁, hcall⟩
  refine h₁.trans (roams_modifyExpr hid _ fun _ q hq => ?_)
  simp only [Expression.replaceBy, hcall] at hq
  generalize hd : c.negationFor x = d at hq
  cases hq with
  | child hm =>
    obtain rfl := List.mem_singleton.1 hm
    exact hx
  | use hd' =>
    cases hd'
    exact hneg _ (hd ▸ c.isNegation_negationFor x)
  | widening => exact hneg _ (h₁.builtins ▸ .inr rfl)

/-- **To stay within a region** is a discipline. -/
def roaming (settings : Settings) (R : Set Place) : Discipline settings where
  region := R
  Valid c := c.Closed R
  Rel _ c c' := c.Roams R c'
  refl _ c := .refl R c
  trans := Roams.trans
  inner h := h
  valid hc h := h.closed hc
  onward hc hp ho := hc.onward _ hp _ ho
  report _ e _ := roams_reportNew R _ e
  value _ hc hid _ := ((retypingLaw_roams R).outcome_concretizeValue ⟨hc, hid⟩).mono
    (fun _ _ h => h) fun _ _ => (retypingLaw_roams R).rel_of_refuses
  coerce _ target hc hid _ := ((retypingLaw_roams R).outcome_coerceTo target ⟨hc, hid⟩).mono
    (fun _ _ h => h) fun _ _ => (retypingLaw_roams R).rel_of_refuses
  retype _ _ _ hid _ _ _ := roams_retouch hid (.inl rfl)
  replace {c active id d} hc hid hd _ := by
    refine ((substitute_outcome settings hd).and (substitute_copies settings hd)).mono ?_
      fun _ _ h => h.1.read ▸ roams_readAs hc hid hd
    rintro (_ | _) c' ⟨hkept, hcopied⟩
    · exact (hkept.kept rfl).roams R
    · obtain ⟨b, hreplaced⟩ := hcopied rfl
      exact hreplaced.roams hc hid
  negate {c c' active id x} hc hid hk h _ := by
    refine callNegation_roams hid (hc.child hid (by rw [hk]; simp [ExprKind.children]))
      fun d hd => hc.leadsTo hid ?_
    rw [hk]
    exact .negation x (by rwa [IsNegation, h.builtins] at hd)

end Termwise
