import Mathlib.Data.Set.Insert
import Termwise.Proofs.Run.Steady

/-!
# The gate of concretization

While a program is valid, concretization walks trees that it also changes: it substitutes bodies
for their uses, casts values, widens integer trees and types calls. A node that was walked keeps a
native type through all this, and what lies below it was walked as well. Only nodes whose walk is
still going on may be in any state; such a node is *pending*.

As long as no failed term is in the tables and no expression but one without a value is typed
`Ty.absurd`, an error is silent only where another one was reported before. So a walk that leaves
the program valid has walked everything.

## Main definitions

* `ExprKind.isConcrete`, `Compilation.Concrete`: what code can be generated for
* `Compilation.Moves`: a step of the walk
* `Compilation.Evolves`: what became of the expressions of a program
* `Compilation.Gate`: what holds of a valid program while it is walked

## Main results

* `Compilation.Gate.moves`: a step of the walk keeps the gate
* `Compilation.Gate.definitionType_ne_absurd`: a definition that can be used has a type
-/

namespace Termwise

/-! ## Types without anything open -/

/-- A type occurs in another one. -/
inductive Ty.Occurs (s : Ty) : Ty → Prop where
  | itself : Occurs s s
  | param {params : List Ty} {param result : Ty} {isPure : Bool} (hmem : param ∈ params)
    (h : Occurs s param) : Occurs s (.function params result isPure)
  | result {params : List Ty} {result : Ty} {isPure : Bool} (h : Occurs s result) :
    Occurs s (.function params result isPure)

@[simp] theorem Ty.occurs_builtin {s : Ty} {b : Builtin} :
    s.Occurs (.builtin b) ↔ s = .builtin b := by
  constructor
  · rintro ⟨⟩
    rfl
  · rintro rfl
    exact .itself

@[simp] theorem Ty.occurs_function {s : Ty} {params : List Ty} {result : Ty} {isPure : Bool} :
    s.Occurs (.function params result isPure) ↔
      s = .function params result isPure ∨ (∃ param ∈ params, s.Occurs param) ∨
        s.Occurs result := by
  constructor
  · intro h
    cases h with
    | itself => exact .inl rfl
    | param hmem h => exact .inr (.inl ⟨_, hmem, h⟩)
    | result h => exact .inr (.inr h)
  · rintro (rfl | ⟨param, hmem, h⟩ | h)
    · exact .itself
    · exact .param hmem h
    · exact .result h

/-- **What occurs in a native type** is native. -/
theorem Ty.Occurs.native {s t : Ty} (h : s.Occurs t) (ht : t.native = .yes) : s.native = .yes := by
  induction h with
  | itself => exact ht
  | param hmem _ ih =>
    rw [Ty.native, nativeList_eq_map, Deferred.all_eq_yes] at ht
    exact ih (ht _ (List.mem_cons_of_mem _ (List.mem_map_of_mem hmem)))
  | result _ ih =>
    rw [Ty.native, Deferred.all_eq_yes] at ht
    exact ih (ht _ List.mem_cons_self)

theorem Ty.ne_absurd_of_native {ty : Ty} (h : ty.native = .yes) : ty ≠ .absurd := by
  rintro rfl
  cases h

/-! ## Kinds -/

namespace ExprKind

/-- The kinds that code can be generated for. -/
def isConcrete : ExprKind → Bool
  | .value _ | .reference _ | .operator _ | .call .. => true
  | _ => false

/-- Kinds that are alike up to a value or a callee. -/
inductive Alike : ExprKind → ExprKind → Prop where
  | refl (k : ExprKind) : Alike k k
  | value (v v' : Value) : Alike (.value v) (.value v')
  | call (d d' : DefId) (args : List ExprId) : Alike (.call d args) (.call d' args)

variable {k k' k'' : ExprKind}

theorem Alike.trans (h : Alike k k') (h' : Alike k' k'') : Alike k k'' := by
  cases h with
  | refl => exact h'
  | value v v' =>
    cases h' with
    | refl => exact .value v v'
    | value _ v'' => exact .value v v''
  | call d d' args =>
    cases h' with
    | refl => exact .call d d' args
    | call _ d'' => exact .call d d'' args

theorem Alike.exists_call {d : DefId} {args : List ExprId} (h : Alike (.call d args) k) :
    ∃ d', k = .call d' args := by
  cases h with
  | refl => exact ⟨d, rfl⟩
  | call _ d' => exact ⟨d', rfl⟩

theorem Alike.isSentinel (h : Alike k k') : k'.isSentinel = k.isSentinel := by
  cases h <;> rfl

theorem Alike.isConcrete (h : Alike k k') : k'.isConcrete = k.isConcrete := by
  cases h <;> rfl

theorem Alike.children (h : Alike k k') : k'.children = k.children := by
  cases h <;> rfl

theorem isSentinel_of_isConcrete (h : k.isConcrete = true) : k.isSentinel = false := by
  cases k <;> first | rfl | cases h

end ExprKind

/-- An expression that is no failed term, and typed `Ty.absurd` only if it has no value. -/
structure Expression.Sane (e : Expression) : Prop where
  kind : e.kind ≠ .syntaxError
  ty : e.ty = .absurd → e.kind.isSentinel = true

/-- Every expression is sane. -/
def Arena.Sound (a : Arena) : Prop := ∀ n, (a.expr n).Sane

/-- What a conversion makes of an expression: a known value of a type that values are converted to,
or a call that was widened. -/
def Expression.Converted (e : Expression) : Prop :=
  e.kind.isValue = true ∧ (e.ty = .int ∨ e.ty = .float ∨ e.ty = .string) ∨
    (∃ d args, e.kind = .call d args) ∧ e.ty = .float

/-- An expression with another value or callee and a native type, which was converted if that is
another type. -/
structure Expression.Recast (e e' : Expression) : Prop where
  kind : e.kind.Alike e'.kind
  concrete : e.kind.isConcrete = true
  ty : e'.ty.native = .yes
  declared : e'.declared = e.declared
  converted : e'.kind = e.kind ∧ e'.ty = e.ty ∨ e'.Converted

/-- An expression has a type, or it is a known value that does not fit its own type, which is not
converted. -/
def Expression.Holds (e : Expression) (ty : Ty) : Prop :=
  e.ty = ty ∨ ∃ v, e.kind = .value v ∧ ¬ v.Fits e.ty

namespace Expression

variable {e e' e'' : Expression}

theorem Recast.trans (h : e.Recast e') (h' : e'.Recast e'') : e.Recast e'' where
  kind := h.kind.trans h'.kind
  concrete := h.concrete
  ty := h'.ty
  declared := h'.declared.trans h.declared
  converted := by
    rcases h'.converted with ⟨hkind', hty'⟩ | hconverted'
    · rw [hkind', hty']
      simpa only [Converted, hkind', hty'] using h.converted
    · exact .inr hconverted'

/-- What was converted stays so. -/
theorem Recast.converted_of_converted (h : e.Recast e') (he : e.Converted) : e'.Converted := by
  rcases h.converted with ⟨hkind, hty⟩ | hconverted
  · simpa only [Converted, hkind, hty] using he
  · exact hconverted

/-- An expression that holds a type holds it still, or it was converted. -/
theorem Recast.holds {ty : Ty} (h : e.Recast e') (he : e.Holds ty) : e'.Holds ty ∨ e'.Converted := by
  rcases h.converted with ⟨hkind, hty⟩ | hconverted
  · refine .inl ?_
    simpa only [Holds, hkind, hty] using he
  · exact .inr hconverted

theorem Recast.sane (h : e.Recast e') : e'.Sane where
  kind hk := by
    have hconcrete := h.kind.isConcrete.trans h.concrete
    rw [hk] at hconcrete
    cases hconcrete
  ty hty := (Ty.ne_absurd_of_native h.ty hty).elim

end Expression

namespace Compilation

/-! ## Steps -/

/-- The program is the same, up to its expressions. -/
structure SameProgram (c c' : Compilation) : Prop where
  builtins : c'.builtins = c.builtins
  defs : c'.arena.defs = c.arena.defs
  stmts : c'.arena.stmts = c.arena.stmts
  roots : c'.arena.roots = c.arena.roots

/-- An expression lies directly below another one. -/
def Operand (c : Compilation) (n : ExprId) : Prop := ∃ p, n ∈ (c.arena.expr p).kind.children

/-- What lies directly below an expression stays there. -/
def Retains (c c' : Compilation) : Prop :=
  ∀ p, (c.arena.expr p).kind.children = [] ∨
    (c'.arena.expr p).kind.children = (c.arena.expr p).kind.children

/-- Some expressions took another value or callee, and a native type: some of `S`, or operands of
others. -/
structure Casts (S : Set ExprId) (c c' : Compilation) : Prop extends SameProgram c c' where
  isValid : c'.isValid = c.isValid
  size : c.arena.exprs.size ≤ c'.arena.exprs.size
  expr : ∀ n, c'.arena.expr n = c.arena.expr n ∨
    (c.arena.expr n).Recast (c'.arena.expr n) ∧ (n ∈ S ∨ c'.Operand n)

/-- One expression was rewritten, others were cast as operands, and some were appended. -/
structure Moves (id : ExprId) (c c' : Compilation) : Prop extends SameProgram c c' where
  isValid : c'.isValid = c.isValid
  size : c.arena.exprs.size ≤ c'.arena.exprs.size
  expr : ∀ n, c'.arena.expr n = c.arena.expr n ∨
    (c.arena.expr n).Recast (c'.arena.expr n) ∧ (n = id ∨ c'.Operand n) ∨
    (n = id ∨ c.arena.exprs.size ≤ n.index) ∧ (c'.arena.expr n).Sane
  alive : (c'.arena.expr id).kind.isSentinel = (c.arena.expr id).kind.isSentinel
  retains : c.Retains c'

variable {c c' c'' : Compilation} {A A' P S T : Set ExprId} {id n : ExprId} {d : DefId}

theorem Retains.refl (c : Compilation) : c.Retains c := fun _ => .inr rfl

theorem Retains.trans (h : c.Retains c') (h' : c'.Retains c'') : c.Retains c'' := by
  intro p
  rcases h p with hnil | heq
  · exact .inl hnil
  · exact (h' p).imp heq.symm.trans fun heq' => heq'.trans heq

/-- An operand stays one. -/
theorem Retains.operand (h : c.Retains c') (hn : c.Operand n) : c'.Operand n := by
  obtain ⟨p, hp⟩ := hn
  refine ⟨p, ?_⟩
  rcases h p with hnil | heq
  · rw [hnil] at hp
    cases hp
  · rwa [heq]

theorem retains_modifyExpr {f : Expression → Expression}
    (h : (c.arena.expr id).kind.children = [] ∨
      (f (c.arena.expr id)).kind.children = (c.arena.expr id).kind.children) :
    c.Retains (c.modifyArena (·.modifyExpr id f)) := by
  intro p
  simp only [modifyArena, Arena.expr_modifyExpr]
  split <;> rename_i hp
  · rw [hp.1]
    exact h
  · exact .inr rfl

theorem SameProgram.refl (c : Compilation) : c.SameProgram c := ⟨rfl, rfl, rfl, rfl⟩

theorem SameProgram.trans (h : c.SameProgram c') (h' : c'.SameProgram c'') :
    c.SameProgram c'' where
  builtins := h'.builtins.trans h.builtins
  defs := h'.defs.trans h.defs
  stmts := h'.stmts.trans h.stmts
  roots := h'.roots.trans h.roots

theorem SameProgram.symm (h : c.SameProgram c') : c'.SameProgram c :=
  ⟨h.builtins.symm, h.defs.symm, h.stmts.symm, h.roots.symm⟩

theorem SameProgram.definition (h : c.SameProgram c') (d : DefId) :
    c'.arena.definition d = c.arena.definition d := by
  simp only [Arena.definition, h.defs]

theorem SameProgram.stmt (h : c.SameProgram c') (s : StmtId) :
    c'.arena.stmt s = c.arena.stmt s := by
  simp only [Arena.stmt, h.stmts]

theorem Casts.refl (S : Set ExprId) (c : Compilation) : Casts S c c where
  toSameProgram := .refl c
  isValid := rfl
  size := le_rfl
  expr _ := .inl rfl

theorem Casts.alike (h : Casts S c c') (n : ExprId) :
    (c.arena.expr n).kind.Alike (c'.arena.expr n).kind := by
  rcases h.expr n with heq | ⟨hcast, -⟩
  · rw [heq]
    exact .refl _
  · exact hcast.kind

theorem Casts.declared (h : Casts S c c') (n : ExprId) :
    (c'.arena.expr n).declared = (c.arena.expr n).declared := by
  rcases h.expr n with heq | ⟨hcast, -⟩
  · rw [heq]
  · exact hcast.declared

theorem Casts.retains (h : Casts S c c') : c.Retains c' := fun p => .inr (h.alike p).children

theorem Casts.trans (h : Casts S c c') (h' : Casts S c' c'') : Casts S c c'' where
  toSameProgram := h.toSameProgram.trans h'.toSameProgram
  isValid := h'.isValid.trans h.isValid
  size := h.size.trans h'.size
  expr n := by
    rcases h'.expr n with heq' | ⟨hcast', hn'⟩
    · rw [heq']
      exact (h.expr n).imp_right fun ⟨hcast, hn⟩ => ⟨hcast, hn.imp_right h'.retains.operand⟩
    · rcases h.expr n with heq | ⟨hcast, -⟩
      · exact .inr ⟨heq ▸ hcast', hn'⟩
      · exact .inr ⟨hcast.trans hcast', hn'⟩

/-- Operands need not be named. -/
theorem Casts.mono (h : Casts S c c') (hS : ∀ n ∈ S, n ∈ T ∨ c'.Operand n) : Casts T c c' where
  toSameProgram := h.toSameProgram
  isValid := h.isValid
  size := h.size
  expr n := (h.expr n).imp_right fun ⟨hcast, hn⟩ => ⟨hcast, hn.elim (hS n) .inr⟩

theorem Moves.trans (h : c.Moves id c') (h' : c'.Moves id c'') : c.Moves id c'' where
  toSameProgram := h.toSameProgram.trans h'.toSameProgram
  isValid := h'.isValid.trans h.isValid
  size := h.size.trans h'.size
  expr n := by
    rcases h'.expr n with heq' | ⟨hcast', hn'⟩ | ⟨hfresh', hsane'⟩
    · rw [heq']
      refine (h.expr n).imp_right fun hn => hn.imp_left fun ⟨hcast, hn⟩ => ⟨hcast, ?_⟩
      exact hn.imp_right h'.retains.operand
    · rcases h.expr n with heq | ⟨hcast, -⟩ | ⟨hfresh, -⟩
      · exact .inr (.inl ⟨heq ▸ hcast', hn'⟩)
      · exact .inr (.inl ⟨hcast.trans hcast', hn'⟩)
      · exact .inr (.inr ⟨hfresh, hcast'.sane⟩)
    · exact .inr (.inr ⟨hfresh'.imp_right h.size.trans, hsane'⟩)
  alive := h'.alive.trans h.alive
  retains := h.retains.trans h'.retains

theorem Casts.moves (h : Casts S c c') (hS : ∀ n ∈ S, n = id ∨ c'.Operand n) : c.Moves id c' where
  toSameProgram := h.toSameProgram
  isValid := h.isValid
  size := h.size
  expr n := (h.expr n).imp_right fun ⟨hcast, hn⟩ => .inl ⟨hcast, hn.elim (hS n) .inr⟩
  alive := (h.alike id).isSentinel
  retains := h.retains

theorem Casts.moves_self (h : Casts {id} c c') : c.Moves id c' := h.moves fun _ hn => .inl hn

/-- One expression takes another value or callee and a native type. -/
theorem casts_modifyExpr {f : Expression → Expression}
    (h : (c.arena.expr id).Recast (f (c.arena.expr id))) :
    Casts {id} c (c.modifyArena (·.modifyExpr id f)) where
  toSameProgram := ⟨rfl, rfl, rfl, rfl⟩
  isValid := rfl
  size := by simp [modifyArena]
  expr n := by
    simp only [modifyArena, Arena.expr_modifyExpr]
    split <;> rename_i hn
    · rw [hn.1]
      exact .inr ⟨h, .inl rfl⟩
    · exact .inl rfl

/-- One expression that has a value is rewritten into one that has. -/
theorem moves_modifyExpr {f : Expression → Expression} (h : (f (c.arena.expr id)).Sane)
    (halive : (f (c.arena.expr id)).kind.isSentinel = (c.arena.expr id).kind.isSentinel)
    (hchildren : (c.arena.expr id).kind.children = [] ∨
      (f (c.arena.expr id)).kind.children = (c.arena.expr id).kind.children) :
    c.Moves id (c.modifyArena (·.modifyExpr id f)) where
  toSameProgram := ⟨rfl, rfl, rfl, rfl⟩
  isValid := rfl
  size := by simp [modifyArena]
  expr n := by
    simp only [modifyArena, Arena.expr_modifyExpr]
    split <;> rename_i hn
    · rw [hn.1]
      exact .inr (.inr ⟨.inl rfl, h⟩)
    · exact .inl rfl
  alive := by
    simp only [modifyArena, Arena.expr_modifyExpr]
    split
    · exact halive
    · rfl
  retains := retains_modifyExpr hchildren

theorem casts_emit (S : Set ExprId) (c : Compilation) (event : Event) : Casts S c (c.emit event) where
  toSameProgram := ⟨rfl, rfl, rfl, rfl⟩
  isValid := rfl
  size := le_rfl
  expr _ := .inl rfl

theorem casts_types (S : Set ExprId) (c : Compilation) (types : TypeStore) :
    Casts S c { c with types } where
  toSameProgram := ⟨rfl, rfl, rfl, rfl⟩
  isValid := rfl
  size := le_rfl
  expr _ := .inl rfl

/-! ## Nodes that were walked -/

/-- Code can be generated for what an expression is, and all below it is among some others. -/
structure Shaped (c : Compilation) (A : Set ExprId) (n : ExprId) : Prop where
  kind : (c.arena.expr n).kind.isConcrete = true
  children : ∀ m ∈ (c.arena.expr n).kind.children, m ∈ A

/-- Code can be generated for an expression, if it can for all below it. It has the type that is
declared for it, unless it was converted as an operand of another one. -/
structure Concrete (c : Compilation) (A : Set ExprId) (n : ExprId) : Prop
    extends Shaped c A n where
  ty : (c.arena.expr n).ty.native = .yes
  declared : ∀ ty, (c.arena.expr n).declared = some ty →
    (c.arena.expr n).Holds ty ∨ c.Operand n ∧ (c.arena.expr n).Converted

/-- An expression that has a value. -/
def Alive (c : Compilation) (n : ExprId) : Prop := (c.arena.expr n).kind.isSentinel = false

theorem Shaped.of_alike (h : c.Shaped A n)
    (hk : (c.arena.expr n).kind.Alike (c'.arena.expr n).kind) : c'.Shaped A n := by
  refine ⟨hk.isConcrete.trans h.kind, fun m hm => h.children m ?_⟩
  rwa [hk.children] at hm

theorem Shaped.mono (h : c.Shaped A n) (hA : A ⊆ A') : c.Shaped A' n :=
  ⟨h.kind, fun m hm => hA (h.children m hm)⟩

theorem Shaped.alive (h : c.Shaped A n) : c.Alive n := ExprKind.isSentinel_of_isConcrete h.kind

theorem Concrete.mono (h : c.Concrete A n) (hA : A ⊆ A') : c.Concrete A' n :=
  ⟨h.toShaped.mono hA, h.ty, h.declared⟩

theorem Alive.lt_size (h : c.Alive n) : n.index < c.arena.exprs.size :=
  Arena.lt_size_of_kind_ne fun hk => by
    rw [Alive, hk] at h
    cases h

theorem Alive.of_alike (h : c.Alive n)
    (hk : (c.arena.expr n).kind.Alike (c'.arena.expr n).kind) : c'.Alive n :=
  hk.isSentinel.trans h

theorem Moves.sound (h : c.Moves id c') (hc : c.arena.Sound) : c'.arena.Sound := by
  intro n
  rcases h.expr n with heq | ⟨hcast, -⟩ | ⟨-, hsane⟩
  · rw [heq]
    exact hc n
  · exact hcast.sane
  · exact hsane

/-- What has a value keeps having one. -/
theorem Moves.alive_of_alive (h : c.Moves id c') (hn : c.Alive n) : c'.Alive n := by
  by_cases hid : n = id
  · subst hid
    exact h.alive.trans hn
  · rcases h.expr n with heq | ⟨hcast, -⟩ | ⟨hfresh, -⟩
    · rw [Alive, heq]
      exact hn
    · exact hn.of_alike hcast.kind
    · have hlt := hn.lt_size
      rcases hfresh with hfresh | hfresh
      · exact (hid hfresh).elim
      · omega

/-! ## What became of expressions -/

/-- What became of the expressions of a program while others were walked: each is what it was, up
to a value or a callee, or code can be generated for what it became. -/
structure Evolves (A : Set ExprId) (c c' : Compilation) : Prop extends SameProgram c c' where
  size : c.arena.exprs.size ≤ c'.arena.exprs.size
  progress : ∀ n : ExprId, n.index < c.arena.exprs.size →
    (c.arena.expr n).kind.Alike (c'.arena.expr n).kind ∨ c'.Shaped A n
  retains : c.Retains c'

theorem Evolves.refl (A : Set ExprId) (c : Compilation) : c.Evolves A c where
  toSameProgram := .refl c
  size := le_rfl
  progress _ _ := .inl (.refl _)
  retains := .refl c

theorem Evolves.trans (h : Evolves A c c') (h' : Evolves A' c' c'') (hA : A ⊆ A') :
    Evolves A' c c'' where
  toSameProgram := h.toSameProgram.trans h'.toSameProgram
  size := h.size.trans h'.size
  progress n hn := by
    rcases h'.progress n (hn.trans_le h.size) with hk' | hshaped'
    · rcases h.progress n hn with hk | hshaped
      · exact .inl (hk.trans hk')
      · exact .inr ((hshaped.of_alike hk').mono hA)
    · exact .inr hshaped'
  retains := h.retains.trans h'.retains

theorem Evolves.mono (h : Evolves A c c') (hA : A ⊆ A') : Evolves A' c c' where
  toSameProgram := h.toSameProgram
  size := h.size
  progress n hn := (h.progress n hn).imp_right (·.mono hA)
  retains := h.retains

/-- A step changes one expression at most into something else, and what follows it may settle what
that one is. -/
theorem Moves.evolves (h : c.Moves id c') (h' : Evolves A c' c'')
    (hid : (c.arena.expr id).kind.Alike (c''.arena.expr id).kind ∨ c''.Shaped A id) :
    Evolves A c c'' where
  toSameProgram := h.toSameProgram.trans h'.toSameProgram
  size := h.size.trans h'.size
  progress n hn := by
    by_cases hne : n = id
    · rw [hne]
      exact hid
    · have hk : (c.arena.expr n).kind.Alike (c'.arena.expr n).kind := by
        rcases h.expr n with heq | ⟨hcast, -⟩ | ⟨hfresh, -⟩
        · rw [heq]
          exact .refl _
        · exact hcast.kind
        · rcases hfresh with hfresh | hfresh
          · exact (hne hfresh).elim
          · omega
      exact (h'.progress n (hn.trans_le h.size)).imp_left hk.trans
  retains := h.retains.trans h'.retains

theorem Evolves.alive (h : Evolves A c c') (hn : c.Alive n) : c'.Alive n := by
  rcases h.progress n hn.lt_size with hk | hshaped
  · exact hn.of_alike hk
  · exact hshaped.alive

/-- What code can be generated for stays so. -/
theorem Evolves.shaped (h : Evolves A c c') (hn : c.Shaped A n) : c'.Shaped A n := by
  rcases h.progress n hn.alive.lt_size with hk | hshaped
  · exact hn.of_alike hk
  · exact hshaped

/-! ## The gate -/

/-- What the gate relies on, of the definitions: no declared type mentions `Ty.absurd`, and the
two negations have one. -/
structure Lawful (c : Compilation) : Prop where
  declared : ∀ d ty, (c.arena.definition d).declared = some ty → ¬ Ty.Occurs .absurd ty
  negation : ∀ d, c.IsNegation d → (c.arena.definition d).declared ≠ none

/-- **What holds of a valid program while it is walked.** The expressions `A` were walked or are
being walked, those in `P` are. -/
structure Gate (c : Compilation) (finished : List DefId) (A P : Set ExprId) : Prop where
  lawful : c.Lawful
  sound : c.arena.Sound
  concrete : ∀ n ∈ A, n ∉ P → c.Concrete A n
  finished : ∀ d ∈ finished, ∀ b, (c.arena.definition d).body = .expression b → b ∈ A
  pending : ∀ n ∈ P, c.Alive n

/-- The body of a definition has a value, if the body is an expression. -/
def AliveBody (c : Compilation) (d : DefId) : Prop :=
  ∀ b, (c.arena.definition d).body = .expression b → c.Alive b

variable {finished : List DefId}

theorem SameProgram.lawful (h : c.SameProgram c') (hc : c.Lawful) : c'.Lawful where
  declared d ty := by
    rw [h.definition]
    exact hc.declared d ty
  negation d hd := by
    rw [h.definition]
    exact hc.negation d (by rwa [IsNegation, h.builtins] at hd)

theorem Evolves.aliveBody (h : Evolves A c c') (hd : c.AliveBody d) : c'.AliveBody d := by
  intro b hb
  rw [h.definition] at hb
  exact h.alive (hd b hb)

theorem Gate.alive (h : Gate c finished A P) (hn : n ∈ A) : c.Alive n := by
  by_cases hP : n ∈ P
  · exact h.pending n hP
  · exact (h.concrete n hn hP).alive

/-- A node that has a value becomes pending. -/
theorem Gate.pend (h : Gate c finished A P) (hid : c.Alive id) :
    Gate c finished A (insert id P) where
  lawful := h.lawful
  sound := h.sound
  concrete n hn hP := h.concrete n hn fun hn' => hP (.inr hn')
  finished := h.finished
  pending n hn := by
    rcases hn with rfl | hn
    · exact hid
    · exact h.pending n hn

/-- The walk of a pending node ends once code can be generated for it. -/
theorem Gate.settle (h : Gate c finished A (insert id P)) (hid : c.Concrete A id) :
    Gate c finished (insert id A) P where
  lawful := h.lawful
  sound := h.sound
  concrete n hn hP := by
    have hmono : A ⊆ insert id A := Set.subset_insert id A
    by_cases hne : n = id
    · rw [hne]
      exact hid.mono hmono
    · refine (h.concrete n (hn.resolve_left hne) fun hn' => ?_).mono hmono
      exact hn'.elim hne hP
  finished d hd b hb := .inr (h.finished d hd b hb)
  pending n hn := h.pending n (.inr hn)

/-- The body of a definition was walked. -/
theorem Gate.finish (h : Gate c finished A P)
    (hd : ∀ b, (c.arena.definition d).body = .expression b → b ∈ A) :
    Gate c (d :: finished) A P where
  lawful := h.lawful
  sound := h.sound
  concrete := h.concrete
  finished d' hd' b hb := by
    rcases List.mem_cons.1 hd' with rfl | hd'
    · exact hd b hb
    · exact h.finished d' hd' b hb
  pending := h.pending

/-- **A step of the walk** keeps the gate, if it rewrites a pending expression. -/
theorem Gate.moves (h : Gate c finished A P) (hm : c.Moves id c') (hid : id ∈ P) :
    Gate c' finished A P where
  lawful := hm.lawful h.lawful
  sound := hm.sound h.sound
  concrete n hn hP := by
    have hconcrete := h.concrete n hn hP
    have hlt := hconcrete.alive.lt_size
    rcases hm.expr n with heq | ⟨hcast, hn'⟩ | ⟨hfresh, -⟩
    · refine ⟨hconcrete.of_alike ?_, ?_, fun ty hty => ?_⟩
      · rw [heq]
        exact .refl _
      · rw [heq]
        exact hconcrete.ty
      · rw [heq] at hty ⊢
        exact (hconcrete.declared ty hty).imp_right (And.imp_left hm.retains.operand)
    · have hoperand : c'.Operand n := hn'.resolve_left fun heq => hP (heq ▸ hid)
      refine ⟨hconcrete.of_alike hcast.kind, hcast.ty, fun ty hty => ?_⟩
      rw [hcast.declared] at hty
      rcases hconcrete.declared ty hty with hholds | ⟨-, hconverted⟩
      · exact (hcast.holds hholds).imp_right fun h => ⟨hoperand, h⟩
      · exact .inr ⟨hoperand, hcast.converted_of_converted hconverted⟩
    · rcases hfresh with rfl | hfresh
      · exact (hP hid).elim
      · omega
  finished d hd b hb := by
    rw [hm.definition] at hb
    exact h.finished d hd b hb
  pending n hn := hm.alive_of_alive (h.pending n hn)

/-- **A definition that can be used** is not typed `Ty.absurd`. -/
theorem Gate.definitionType_ne_absurd (h : Gate c finished A P) (hd : c.AliveBody d) :
    c.arena.definitionType d ≠ .absurd := by
  cases hdeclared : (c.arena.definition d).declared with
  | some ty =>
    rw [Arena.definitionType_of_declared hdeclared]
    rintro rfl
    exact h.lawful.declared d _ hdeclared .itself
  | none =>
    cases hbody : (c.arena.definition d).body with
    | expression b =>
      rw [Arena.definitionType_of_body hdeclared hbody]
      intro hty
      have hsentinel := (h.sound b).ty hty
      rw [hd b hbody] at hsentinel
      cases hsentinel
    | statement | builtin | undefined =>
      rw [Arena.definitionType_of_no_body hdeclared (by simp [hbody])]
      simp

end Compilation

end Termwise
