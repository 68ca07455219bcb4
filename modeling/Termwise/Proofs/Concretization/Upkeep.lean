import Termwise.Proofs.Concretization.CopiedTrees

/-!
# Regions that stay well built

Bodies are walked where they stand, and copied from there in whatever state they are in. For a copy
to be of use, each value must fit its type, no call may have more arguments than its callee has
parameters, and there must be no cycle. The walk of a region keeps this up. The one action that
could break it is to type an expression that was read long ago and is a known value by now; this
does not happen, since only uses that are never replaced are typed, and of these nothing but the
callee changes.

## Main definitions

* `Compilation.Built`: an expression as the program builds it
* `Compilation.Sturdy`: a region of such expressions, without cycles
* `Compilation.Trends`: a state that came about without replacing a use
* `upkeep`: to keep a region sturdy, as a discipline

## Main results

* `Replaced.planted`: a replaced use is a tree of its own
-/

namespace Termwise

open Compilation

/-! ## Well-built expressions -/

namespace Compilation

/-- A definition is declared to be a function of at least so many parameters. -/
def Takes (c : Compilation) (d : DefId) (count : Nat) : Prop :=
  ∃ params result isPure,
    (c.arena.definition d).declared = some (.function params result isPure) ∧
      count ≤ params.length

/-- An expression as the program builds it: a known value fits its type, and a callee takes the
arguments of its call. -/
structure Built (c : Compilation) (e : Expression) : Prop where
  value : ∀ v, e.kind = .value v → v.Fits e.ty
  call : ∀ d args, e.kind = .call d args → c.Takes d args.length

/-- The two negations have the types that they are registered with. -/
structure Registered (c : Compilation) : Prop where
  unaryMinus : (c.arena.definition c.builtins.unaryMinus).declared = some Builtins.unaryMinusType
  unaryMinusFloat : (c.arena.definition c.builtins.unaryMinusFloat).declared =
    some Builtins.unaryMinusFloatType

/-- A region of well-built expressions. It leads to expressions of the table only, and not in
circles. -/
structure Sturdy (c : Compilation) (R : Set Place) : Prop where
  built : ∀ n, .expr n ∈ R → c.Built (c.arena.expr n)
  inTable : ∀ p ∈ R, ∀ n, c.Onward p (.expr n) → n.index < c.arena.exprs.size
  acyclic : ∀ n, .expr n ∈ R → Acc (fun m n => m ∈ (c.arena.expr n).kind.children) n

/-- A closed region that is sturdy, in a program with its negations. -/
structure Maintained (c : Compilation) (R : Set Place) : Prop extends Closed c R, Sturdy c R where
  registered : c.Registered

end Compilation

variable {c c' c'' : Compilation} {settings : Settings} {R : Set Place} {id n x : ExprId}
  {d : DefId} {active : List DefId} {e e' : Expression} {k k' k'' : ExprKind}

namespace Compilation

theorem SameProgram.takes (h : c.SameProgram c') {count : Nat} (hd : c.Takes d count) :
    c'.Takes d count := by
  unfold Takes
  rwa [h.definition]

theorem SameProgram.built (h : c.SameProgram c') (he : c.Built e) : c'.Built e :=
  ⟨he.value, fun d args hk => h.takes (he.call d args hk)⟩

theorem SameProgram.registered (h : c.SameProgram c') (hc : c.Registered) : c'.Registered where
  unaryMinus := by rw [h.builtins, h.definition, hc.unaryMinus]
  unaryMinusFloat := by rw [h.builtins, h.definition, hc.unaryMinusFloat]

theorem Registered.takes (h : c.Registered) (hd : c.IsNegation d) : c.Takes d 1 := by
  rcases hd with rfl | rfl
  · exact ⟨_, _, _, h.unaryMinus, le_rfl⟩
  · exact ⟨_, _, _, h.unaryMinusFloat, le_rfl⟩

/-- The float callee of a call takes its arguments. -/
theorem Registered.takes_floatCallee (h : c.Registered) {d' : DefId} {count : Nat}
    (hd : c.floatCallee? d = some d') (htakes : c.Takes d count) : c.Takes d' count := by
  unfold floatCallee? at hd
  split at hd
  · rename_i heq
    subst heq
    cases hd
    obtain ⟨params, result, isPure, hdeclared, hcount⟩ := htakes
    obtain rfl : params = [.int] := by
      cases h.unaryMinus.symm.trans hdeclared
      rfl
    exact ⟨_, _, _, h.unaryMinusFloat, hcount⟩
  · split at hd <;> cases hd
    exact htakes

/-- A copy of an expression is as well built as that. -/
theorem Built.resembles (h : c.Built e) (hty : e'.ty = e.ty) (hk : e.kind.Resembles e'.kind) :
    c.Built e' := by
  rcases e with ⟨k, ty, declared, span⟩
  rcases e' with ⟨k', ty', declared', span'⟩
  obtain rfl : ty' = ty := hty
  cases hk with
  | refl => exact ⟨h.value, h.call⟩
  | call d hlength =>
    refine ⟨fun v hk => (by cases hk), fun d' args hk => ?_⟩
    cases hk
    rw [hlength]
    exact h.call _ _ rfl
  | negated | run => exact ⟨fun v hk => (by cases hk), fun d' args hk => (by cases hk)⟩

/-- An expression that is neither a value nor a call. -/
theorem built_of_not_use (hvalue : e.kind.isValue = false)
    (hcall : ∀ d args, e.kind ≠ .call d args) :
    c.Built e :=
  ⟨fun v hk => (by rw [hk] at hvalue; cases hvalue), fun d args hk => (hcall d args hk).elim⟩

theorem built_value {v : Value} {ty : Ty} (h : v.Fits ty) (span : Span) :
    c.Built (.new (.value v) ty span) := by
  refine ⟨fun w hw => ?_, fun d args hk => by cases hk⟩
  cases hw
  exact h

theorem built_call {args : List ExprId} (h : c.Takes d args.length) (ty : Ty) (span : Span) :
    c.Built (.new (.call d args) ty span) := by
  refine ⟨fun v hv => (by cases hv), fun d' args' hk => ?_⟩
  cases hk
  exact h

end Compilation

/-! ## Values fit their types -/

/-- What a value is converted into fits the type that it is converted to. -/
theorem Value.fits_of_convert? {source target : Builtin} {v w : Value}
    (h : v.convert? source target = some w) : w.Fits (.builtin target) := by
  have hnumber {v : Value} {target : Builtin} (h : v.convertNumber? target = some w) :
      w.Fits (.builtin target) := by
    unfold convertNumber? at h
    split at h <;> first | (cases h <;> trivial) | skip
    all_goals
      obtain ⟨_, -, rfl⟩ := Option.map_eq_some_iff.1 h
      trivial
  unfold convert? at h
  split at h <;> first | exact hnumber h | (cases h <;> trivial) | skip
  all_goals
    obtain ⟨_, -, rfl⟩ := Option.map_eq_some_iff.1 h
    trivial

theorem Value.fits_of_settle? {v w : Value} {type : Builtin} (h : v.settle? = some (type, w)) :
    w.Fits (.builtin type) := by
  have hconvert (target : Builtin) (h : v.convertNumber? target = some w) :
      w.Fits (.builtin target) := @fits_of_convert? .number target v w h
  unfold settle? at h
  split at h
  · cases h
    exact hconvert .int ‹_›
  · obtain ⟨_, h, heq⟩ := Option.map_eq_some_iff.1 h
    cases heq
    exact hconvert .float h

theorem Expression.Converts.fits (h : e.Converts e') : ∃ v, e'.kind = .value v ∧ v.Fits e'.ty := by
  obtain ⟨v, b, w, -, rfl, ⟨source, hw⟩ | hw⟩ := h
  · exact ⟨w, rfl, Value.fits_of_convert? hw⟩
  · exact ⟨w, rfl, Value.fits_of_settle? hw⟩

/-! ## Uses that last -/

/-- What may become of a use that is not replaced: a call with arguments takes another callee, and a
minus sign becomes a call. -/
inductive ExprKind.Lasts : ExprKind → ExprKind → Prop where
  | refl (k : ExprKind) : Lasts k k
  | call (d d' : DefId) (x : ExprId) (xs : List ExprId) :
    Lasts (.call d (x :: xs)) (.call d' (x :: xs))
  | negated (x : ExprId) (d : DefId) : Lasts (.negated x) (.call d [x])

/-- A use that is not replaced while the bodies `active` are being walked. -/
inductive Compilation.Held (c : Compilation) (active : List DefId) : ExprKind → Prop where
  | operator (d : DefId) : Held c active (.operator d)
  | reference {d : DefId} (h : c.Kept active d) : Held c active (.reference d)
  | call (d : DefId) (x : ExprId) (xs : List ExprId) : Held c active (.call d (x :: xs))
  | constant {d : DefId} (h : c.Kept active d) (hne : d ≠ c.builtins.unaryMinus) :
    Held c active (.call d [])
  | negated (x : ExprId) : Held c active (.negated x)

theorem ExprKind.Lasts.trans (h : k.Lasts k') (h' : k'.Lasts k'') : k.Lasts k'' := by
  cases h with
  | refl => exact h'
  | call d d' x xs =>
    cases h' with
    | refl => exact .call d d' x xs
    | call _ d'' => exact .call d d'' x xs
  | negated x d =>
    cases h' with
    | refl => exact .negated x d
    | call _ d' => exact .negated x d'

namespace Compilation

theorem Held.lasts (h : c.Held active k) (h' : k.Lasts k') : c.Held active k' := by
  cases h' with
  | refl => exact h
  | call _ d x xs => exact .call d x xs
  | negated x d => exact .call d x []

theorem SameProgram.held (h : c.SameProgram c') (hk : c.Held active k) : c'.Held active k := by
  have hkept {d : DefId} (hd : c.Kept active d) : c'.Kept active d := by
    unfold Kept
    rwa [h.definition]
  cases hk with
  | operator d => exact .operator d
  | reference hd => exact .reference (hkept hd)
  | call d x xs => exact .call d x xs
  | constant hd hne => exact .constant (hkept hd) (h.builtins ▸ hne)
  | negated x => exact .negated x

theorem Held.inner (h : c.Held active k) (d : DefId) : c.Held (d :: active) k := by
  have hkept {d' : DefId} (hd : c.Kept active d') : c.Kept (d :: active) d' :=
    hd.imp_left (List.mem_cons_of_mem d)
  cases h with
  | operator d => exact .operator d
  | reference hd => exact .reference (hkept hd)
  | call d x xs => exact .call d x xs
  | constant hd hne => exact .constant (hkept hd) hne
  | negated x => exact .negated x

theorem Held.isValue (h : c.Held active k) : k.isValue = false := by
  cases h <;> rfl

/-- A use that is typed is held. A call without arguments is complete, so it is no negation. -/
theorem Lasting.held (h : c.Lasting active n) (hc : c.Registered) :
    c.Held active (c.arena.expr n).kind := by
  cases h with
  | operator hk => exact hk ▸ .operator _
  | reference hk hd => exact hk ▸ .reference hd
  | @call d args hk hfull h =>
    rw [hk]
    cases args with
    | cons x xs => exact .call d x xs
    | nil =>
      refine .constant (h.resolve_left (by simp)) ?_
      rintro rfl
      rw [Arena.isPartialCall, hk] at hfull
      simp [Arena.definitionType_of_declared hc.unaryMinus, Builtins.unaryMinusType, Ty.arity,
        Ty.params] at hfull

/-! ## What happens without a replacement -/

/-- What may become of an expression, short of its replacement. -/
structure Tends (c : Compilation) (active : List DefId) (e e' : Expression) : Prop where
  built : c.Built e → c.Built e'
  children : e'.kind.children = e.kind.children
  lasts : c.Held active e.kind → e.kind.Lasts e'.kind

/-- No use was replaced, and nothing was appended. -/
structure Trends (c : Compilation) (active : List DefId) (c' : Compilation) : Prop
    extends SameProgram c c' where
  size : c'.arena.exprs.size = c.arena.exprs.size
  expr : ∀ n, c.Tends active (c.arena.expr n) (c'.arena.expr n)

theorem Tends.refl (c : Compilation) (active : List DefId) (e : Expression) : c.Tends active e e :=
  ⟨id, rfl, fun _ => .refl _⟩

/-- A known value takes another one, which fits its type. -/
theorem tends_converts (h : e.Converts e') : c.Tends active e e' := by
  obtain ⟨v, hk', hfits⟩ := h.fits
  refine ⟨fun _ => ⟨fun w hw => ?_, fun d args hcall => ?_⟩, ?_, fun hheld => ?_⟩
  · cases hk'.symm.trans hw
    exact hfits
  · cases hk'.symm.trans hcall
  · exact ExprKind.children_eq (.inr h.isValue)
  · cases hheld.isValue.symm.trans h.isValue.1

/-- What is no value takes another type. -/
theorem tends_retype (hk : e.kind.isValue = false) (ty : Ty) :
    c.Tends active e { e with ty } where
  built h := ⟨fun v hv => (by rw [show e.kind = _ from hv] at hk; cases hk), h.call⟩
  children := rfl
  lasts _ := .refl _

theorem Trends.refl (active : List DefId) (c : Compilation) : c.Trends active c :=
  ⟨.refl c, rfl, fun _ => .refl ..⟩

theorem Trends.trans (h : c.Trends active c') (h' : c'.Trends active c'') :
    c.Trends active c'' where
  toSameProgram := h.toSameProgram.trans h'.toSameProgram
  size := h'.size.trans h.size
  expr n :=
    { built := fun hn => h.toSameProgram.symm.built
        ((h'.expr n).built (h.toSameProgram.built ((h.expr n).built hn)))
      children := (h'.expr n).children.trans (h.expr n).children
      lasts := fun hn => by
        have hfirst := (h.expr n).lasts hn
        exact hfirst.trans ((h'.expr n).lasts (h.toSameProgram.held (hn.lasts hfirst))) }

/-- One expression more is changed. -/
theorem Trends.modifyExpr (h : c.Trends active c') {f : Expression → Expression}
    (hid : c.Tends active (c.arena.expr id) (f (c'.arena.expr id))) :
    c.Trends active (c'.modifyArena (·.modifyExpr id f)) where
  toSameProgram := h.toSameProgram.trans ⟨rfl, rfl, rfl, rfl⟩
  size := by simpa [modifyArena] using h.size
  expr n := by
    simp only [modifyArena, Arena.expr_modifyExpr]
    split <;> rename_i hn
    · rw [hn.1]
      exact hid
    · exact h.expr n

theorem trends_modifyExpr {f : Expression → Expression}
    (hid : c.Tends active (c.arena.expr id) (f (c.arena.expr id))) :
    c.Trends active (c.modifyArena (·.modifyExpr id f)) :=
  (Trends.refl active c).modifyExpr hid

theorem Unchanged.trends (h : c.Unchanged c') (active : List DefId) : c.Trends active c' :=
  ⟨h.toSameProgram, h.size, fun n => h.expr n ▸ .refl ..⟩

theorem Trends.of_arena_eq (h : c.Trends active c') (harena : c''.arena = c'.arena)
    (hbuiltins : c''.builtins = c'.builtins) : c.Trends active c'' where
  builtins := hbuiltins.trans h.builtins
  defs := by rw [harena, h.defs]
  stmts := by rw [harena, h.stmts]
  roots := by rw [harena, h.roots]
  size := by rw [harena, h.size]
  expr n := by
    rw [harena]
    exact h.expr n

end Compilation

/-- Expressions get into other types. -/
theorem retypingLaw_trends (active : List DefId) :
    RetypingLaw (fun c _ => c.Registered) (·.Trends active ·) where
  refl := .refl active
  trans := .trans
  stays h hc := h.toSameProgram.registered hc
  operand hc _ _ := hc
  value _ h := trends_modifyExpr (f := fun _ => _) (tends_converts h)
  call {c c₁ n d d' args} hc hk hcallee h₁ := by
    refine h₁.modifyExpr (f := fun e => { e with kind := .call d' args, ty := .float })
      ⟨fun hbuilt => ⟨fun v hv => (by cases hv), fun d args' hk' => ?_⟩, ?_, fun hheld => ?_⟩
    · cases hk'
      exact hc.takes_floatCallee hcallee (hbuilt.call _ args hk)
    · rw [hk]
      rfl
    · rw [hk] at hheld ⊢
      cases hheld with
      | call _ x xs => exact .call d d' x xs
      | constant _ hne =>
        -- Only the negation of integers takes another callee.
        rw [Compilation.floatCallee?, if_neg hne] at hcallee
        split at hcallee <;> cases hcallee
        exact .refl _
  emit c _ := (Trends.refl active c).of_arena_eq rfl rfl

/-- An argument that is made acceptable as a parameter fits the type that it takes. -/
theorem Expression.tends_of_coerce {param : Ty} (h : e.coerce param = .ok e') :
    c.Tends active e e' := by
  obtain ⟨rfl, -⟩ | ⟨rfl, hhole⟩ | ⟨hvalue, -, hne, hcast⟩ := coerce_cases h
  · exact .refl ..
  · -- No value fits a type that is not known.
    refine ⟨fun hbuilt => ⟨fun v hv => ?_, hbuilt.call⟩, rfl, fun _ => .refl _⟩
    have hfits := hbuilt.value v hv
    rw [hhole] at hfits
    cases v <;> exact hfits.elim
  · exact tends_converts (converts_of_cast? hcast hne)

/-- What is done for a call keeps up with what lasts. -/
theorem callLaw_trends (active : List DefId) (args : List ExprId) :
    CallLaw args (·.Trends active ·) where
  refl := .refl active
  trans := .trans
  coerced _ h := trends_modifyExpr (f := fun _ => _) (Expression.tends_of_coerce h)
  issued c _ _ _ := (Trends.refl active c).of_arena_eq rfl rfl

theorem createCall_trends (active : List DefId) (d : DefId) (args : List ExprId) (span : Span) :
    Outcome (createCall d args span) c (fun e c' => c.Trends active c' ∧ e.kind = .call d args)
      fun _ => c.Trends active :=
  ((callLaw_trends active args).outcome_createCall d span c).mono (fun _ _ h => ⟨h.1, h.2.1⟩)
    fun _ _ => And.right

/-- **A minus sign** becomes a call, unless it is one already. -/
theorem callNegation_trends (active : List DefId) (hc : c.Registered)
    (hk : (ExprKind.negated x).Lasts (c.arena.expr id).kind) :
    Outcome (callNegation id x) c (fun _ => c.Trends active) fun _ => c.Trends active := by
  simp only [callNegation, outcome_bind, outcome_get, outcome_expr]
  refine (createCall_trends active _ [x] _).imp ?_
  rintro call c₁ ⟨h₁, hcall⟩
  refine h₁.modifyExpr (f := (·.replaceBy call))
    ⟨fun _ => ⟨fun v hv => ?_, fun d args hk' => ?_⟩, ?_, fun _ => ?_⟩
  · cases hcall.symm.trans hv
  · cases hcall.symm.trans hk'
    exact hc.takes (c.isNegation_negationFor x)
  · generalize (c.arena.expr id).kind = k at hk
    rw [show ((c₁.arena.expr id).replaceBy call).kind = _ from hcall]
    cases hk <;> rfl
  · generalize (c.arena.expr id).kind = k at hk
    rw [show ((c₁.arena.expr id).replaceBy call).kind = _ from hcall]
    cases hk
    · exact .negated x _
    · exact .call _ _ x []

/-! ## Replaced uses -/

/-- A use was replaced by a root over a forest of fresh nodes, all of them well built. -/
structure Compilation.Planted (id : ExprId) (xs : List ExprId) (c c' : Compilation) : Prop
    extends SameProgram c c' where
  size : c.arena.exprs.size ≤ c'.arena.exprs.size
  forest : c'.arena.Forest (c'.arena.expr id).kind.children xs
  nodup : xs.Nodup
  mem : ∀ n, n ∈ xs ↔ c.arena.exprs.size ≤ n.index ∧ n.index < c'.arena.exprs.size
  root : c'.Built (c'.arena.expr id)
  each : ∀ n ∈ xs, c'.Built (c'.arena.expr n)
  kept : ∀ n ∉ xs, n ≠ id → c'.arena.expr n = c.arena.expr n

namespace Compilation

/-- In a sturdy region every path ends within the size of the table. -/
theorem Maintained.shallow {b : ExprId} (hc : c.Maintained R) (hb : .expr b ∈ R)
    (hlt : b.index < c.arena.exprs.size) :
    c.arena.Shallow c.Built c.arena.exprs.size b := by
  refine Arena.shallow_size (hc.acyclic b hb) fun m hm => ?_
  have hreach : .expr m ∈ R ∧ m.index < c.arena.exprs.size := by
    induction hm with
    | refl => exact ⟨hb, hlt⟩
    | tail _ hm ih => exact ⟨hc.child ih.1 hm, hc.inTable _ ih.1 _ (onward_child hm)⟩
  exact ⟨hreach.2, hc.built m hreach.1⟩

/-- A body of the region has a copy. -/
theorem Maintained.not_cutOff {stop : Stop} (hc : c.Maintained R) (hd : .definition d ∈ R) :
    ¬ c.CutOff id d stop c' := fun hcut =>
  hcut.not_shallow fun _ hb hlt => hc.shallow (hc.onward _ hd _ (.body hb)) hlt

/-- A root is put over a fresh forest, at the place of an expression that was changed before. -/
theorem planted_of_sprouts {copied : Arena} {root : Expression} {f : Expression → Expression}
    {xs : List ExprId} (hlt : id.index < c.arena.exprs.size)
    (h : (c.arena.modifyExpr id f).Sprouts c.Built copied root.kind.children xs)
    (hroot : c.Built root) (harena : c'.arena = copied.replaceExpr id root)
    (hbuiltins : c'.builtins = c.builtins) : c.Planted id xs c' := by
  have hsame : c.SameProgram c' := by
    refine ⟨hbuiltins, ?_, ?_, ?_⟩ <;> rw [harena]
    · exact h.defs
    · exact h.stmts
    · exact h.roots
  have hsize : c.arena.exprs.size ≤ copied.exprs.size := by
    simpa [Arena.size_modifyExpr] using h.size
  have hmem (n : ExprId) :
      n ∈ xs ↔ c.arena.exprs.size ≤ n.index ∧ n.index < copied.exprs.size := by
    rw [h.mem, Arena.size_modifyExpr]
  have hsize' : c'.arena.exprs.size = copied.exprs.size := by
    rw [harena, Arena.replaceExpr, Arena.size_modifyExpr]
  have hid : c'.arena.expr id = (copied.expr id).replaceBy root := by
    rw [harena, Arena.replaceExpr]
    exact Arena.expr_modifyExpr_self (hlt.trans_le hsize) _
  have hne (n : ExprId) (hn : n ≠ id) : c'.arena.expr n = copied.expr n := by
    rw [harena, Arena.replaceExpr, Arena.expr_modifyExpr_of_ne hn]
  have hfresh (n : ExprId) (hn : n ∈ xs) : n ≠ id := by
    rintro rfl
    exact (((hmem n).1 hn).1.trans_lt hlt).false
  refine ⟨hsame, hsize' ▸ hsize, ?_, h.nodup, fun n => hsize' ▸ hmem n, ?_, fun n hn => ?_,
    fun n hn hnid => ?_⟩
  · rw [hid]
    exact h.forest.congr fun n hn => by rw [hne n (hfresh n hn)]
  · rw [hid]
    exact hsame.built (hroot.resembles rfl (.refl _))
  · rw [hne n (hfresh n hn)]
    exact hsame.built (h.each n hn)
  · have hread : (c.arena.modifyExpr id f).expr n = c.arena.expr n :=
      Arena.expr_modifyExpr_of_ne hnid f
    rw [hne n hnid, ← hread]
    -- Outside of both tables there is nothing.
    rcases Nat.lt_or_ge n.index (c.arena.modifyExpr id f).exprs.size with hlt | hge
    · exact h.expr n hlt
    · have hge' : copied.exprs.size ≤ n.index := by
        by_contra hlt
        exact hn ((h.mem n).2 ⟨hge, by omega⟩)
      rw [Arena.expr_of_size_le hge, Arena.expr_of_size_le hge']

/-- **A use** of a definition of the region is replaced by a tree of its own. -/
theorem Replaced.planted {b : ExprId} (h : c.Replaced id d b c') (hc : c.Maintained R)
    (hd : .definition d ∈ R) : ∃ xs, c.Planted id xs c' := by
  have hlt : id.index < c.arena.exprs.size :=
    Arena.lt_size_of_kind_ne fun hk => by cases (hk ▸ h.definition? : _ = some d)
  obtain ⟨read, rfl, -, harena⟩ := h.arena
  have hshallow := hc.shallow (hc.onward _ hd _ (.body h.body)) (hc.inTable _ hd b (.body h.body))
  rw [← Arena.size_modifyExpr c.arena id fun e => { e with kind := .reference d }] at hshallow
  -- To read a call as a reference does not change what lies below it, which is nothing.
  obtain ⟨hroot, xs, hsprouts⟩ := Arena.copyWithin_sprouts
    (fun _ _ he hty hk => Built.resembles he hty hk) _ b _
    (hshallow.modifyExpr (f := fun e => { e with kind := .reference d }) rfl
      (built_of_not_use rfl (by simp)))
  exact ⟨xs, planted_of_sprouts hlt hsprouts hroot harena h.builtins⟩

/-! ## Regions -/

/-- A walk kept a region sturdy and its uses. -/
structure Upkeeps (R : Set Place) (active : List DefId) (c c' : Compilation) : Prop
    extends Roams R c c' where
  sturdy : c.Maintained R → c'.Sturdy R
  lasts : c.Maintained R → ∀ n, c.Held active (c.arena.expr n).kind →
    (c.arena.expr n).kind.Lasts (c'.arena.expr n).kind

theorem Upkeeps.maintained (h : c.Upkeeps R active c') (hc : c.Maintained R) :
    c'.Maintained R where
  toClosed := h.closed hc.toClosed
  toSturdy := h.sturdy hc
  registered := h.toSameProgram.registered hc.registered

theorem Upkeeps.refl (R : Set Place) (active : List DefId) (c : Compilation) :
    c.Upkeeps R active c :=
  ⟨.refl R c, fun hc => hc.toSturdy, fun _ _ _ => .refl _⟩

theorem Upkeeps.trans (h : c.Upkeeps R active c') (h' : c'.Upkeeps R active c'') :
    c.Upkeeps R active c'' where
  toRoams := h.toRoams.trans h'.toRoams
  sturdy hc := h'.sturdy (h.maintained hc)
  lasts hc n hn := by
    have hfirst := h.lasts hc n hn
    exact hfirst.trans (h'.lasts (h.maintained hc) n (h.toSameProgram.held (hn.lasts hfirst)))

theorem Upkeeps.inner (h : c.Upkeeps R (d :: active) c') : c.Upkeeps R active c' :=
  ⟨h.toRoams, h.sturdy, fun hc n hn => h.lasts hc n (hn.inner d)⟩

/-- Where a region leads to stays in the table if its expressions lead to nothing else. -/
theorem Sturdy.inTable_of_children (h : c.Sturdy R) (hsame : c.SameProgram c')
    (hsize : c.arena.exprs.size ≤ c'.arena.exprs.size)
    (hchildren : ∀ n m, .expr n ∈ R → m ∈ (c'.arena.expr n).kind.children →
      m.index < c'.arena.exprs.size) {p : Place} (hp : p ∈ R) (ho : c'.Onward p (.expr n)) :
    n.index < c'.arena.exprs.size := by
  cases ho with
  | expr hq => exact hchildren _ n hp hq.mem_children
  | body hb => exact (h.inTable _ hp n (.body (by rwa [← hsame.definition]))).trans_le hsize
  | shown hk => exact (h.inTable _ hp n (.shown (by rwa [← hsame.stmt]))).trans_le hsize
  | result hk => exact (h.inTable _ hp n (.result (by rwa [← hsame.stmt]))).trans_le hsize

theorem Trends.sturdy (h : c.Trends active c') (hc : c.Sturdy R) : c'.Sturdy R where
  built n hn := h.toSameProgram.built ((h.expr n).built (hc.built n hn))
  inTable p hp n ho := by
    refine hc.inTable_of_children h.toSameProgram h.size.ge (fun n m hn hm => ?_) hp ho
    rw [(h.expr n).children] at hm
    exact h.size ▸ hc.inTable _ hn m (onward_child hm)
  acyclic n hn := by
    simp only [(h.expr _).children]
    exact hc.acyclic n hn

theorem Roams.upkeeps (h : c.Roams R c') (h' : c.Trends active c') : c.Upkeeps R active c' :=
  ⟨h, fun hc => h'.sturdy hc.toSturdy, fun _ n hn => (h'.expr n).lasts hn⟩

theorem Sturdy.mono (h : c.Sturdy R) {R' : Set Place} (hsub : R' ⊆ R) : c.Sturdy R' where
  built n hn := h.built n (hsub hn)
  inTable p hp := h.inTable p (hsub hp)
  acyclic n hn := h.acyclic n (hsub hn)

/-- A region stays sturdy when a tree is planted at a place of it or beside it. -/
theorem Planted.sturdy {xs : List ExprId} (h : c.Planted id xs c') (hc : c.Maintained R) :
    c'.Sturdy R := by
  have hcases (n : ExprId) : n = id ∨ n ∈ xs ∨ n ≠ id ∧ n ∉ xs := by tauto
  refine ⟨fun n hn => ?_, fun p hp n ho => ?_, fun n hn => ?_⟩
  · rcases hcases n with rfl | hmem | ⟨hne, hmem⟩
    · exact h.root
    · exact h.each n hmem
    · rw [h.kept n hmem hne]
      exact h.toSameProgram.built (hc.built n hn)
  · refine hc.toSturdy.inTable_of_children h.toSameProgram h.size (fun n m hn hm => ?_) hp ho
    rcases hcases n with rfl | hmem | ⟨hne, hmem⟩
    · exact ((h.mem m).1 (h.forest.subset hm)).2
    · exact ((h.mem m).1 (h.forest.children_subset hmem hm)).2
    · rw [h.kept n hmem hne] at hm
      exact (hc.inTable _ hn m (onward_child hm)).trans_le h.size
  · -- There is no cycle in the tree that was planted, and all else leads to where it did.
    have hacc := hc.acyclic n hn
    induction hacc with
    | intro n _ ih =>
      rcases hcases n with rfl | hmem | ⟨hne, hmem⟩
      · exact ⟨_, fun m hm => h.forest.acc m (h.forest.subset hm)⟩
      · exact h.forest.acc n hmem
      · refine ⟨_, fun m hm => ?_⟩
        rw [h.kept n hmem hne] at hm
        exact ih m hm (hc.child hn hm)

/-- The body of a use that is replaced is not being walked, so the use was not held. -/
theorem Replaced.not_held {b : ExprId} (h : c.Replaced id d b c') (hd : d ∉ active) :
    ¬ c.Held active (c.arena.expr id).kind := by
  have hkept : ¬ c.Kept active d := by
    rintro (hmem | hbody)
    · exact hd hmem
    · exact hbody b h.body
  intro hheld
  rcases h.use with hk | hk <;> rw [hk] at hheld
  · cases hheld with
    | reference hd => exact hkept hd
  · cases hheld with
    | constant hd => exact hkept hd

/-- **A use that is replaced** is no use that lasts, and its tree is one of the region. -/
theorem Replaced.upkeeps {b : ExprId} (h : c.Replaced id d b c') (hc : c.Maintained R)
    (hid : .expr id ∈ R) (hd : d ∉ active) : c.Upkeeps R active c' := by
  obtain ⟨xs, hplanted⟩ := h.planted hc (hc.leadsTo hid (.use h.definition?))
  refine ⟨h.roams hc.toClosed hid, hplanted.sturdy, fun _ n hn => ?_⟩
  by_cases hne : n = id
  · subst hne
    exact (h.not_held hd hn).elim
  · by_cases hmem : n ∈ xs
    · rw [Arena.expr_of_size_le ((hplanted.mem n).1 hmem).1] at hn
      cases hn
    · rw [hplanted.kept n hmem hne]
      exact .refl _

end Compilation

/-- **To keep a region sturdy** is a discipline. -/
def upkeep (settings : Settings) (R : Set Place) : Discipline settings where
  region := R
  Valid c := c.Maintained R
  Rel active c c' := c.Upkeeps R active c'
  refl active c := .refl R active c
  trans := Upkeeps.trans
  inner := Upkeeps.inner
  valid hc h := h.maintained hc
  onward hc hp ho := hc.onward _ hp _ ho
  report active e _ :=
    (roams_reportNew R _ e).upkeeps ((Trends.refl active _).of_arena_eq (arena_reportNew _ e)
      (sameProgram_reportNew _ e).builtins)
  value active hc hid hk :=
    have htrends := retypingLaw_trends active
    (((roaming settings R).value active hc.toClosed hid hk).and
      (htrends.outcome_concretizeValue hc.registered)).mono (fun _ _ h => h.1.upkeeps h.2)
        fun _ _ h => h.1.upkeeps (htrends.rel_of_refuses h.2)
  coerce active target hc hid hop :=
    have htrends := retypingLaw_trends active
    (((roaming settings R).coerce active target hc.toClosed hid
      (hop.imp_right fun ⟨c₀, hc₀, h⟩ => ⟨c₀, hc₀.toClosed, h⟩)).and
      (htrends.outcome_coerceTo target hc.registered)).mono (fun _ _ h => h.1.upkeeps h.2)
        fun _ _ h => h.1.upkeeps (htrends.rel_of_refuses h.2)
  retype {c c' active' id} active ty hc hid hlasting h _ := by
    have hheld := hlasting.held hc.registered
    have hvalue := (hheld.lasts (h.lasts hc id hheld)).isValue
    exact (roams_retouch hid (.inl rfl)).upkeeps (trends_modifyExpr (tends_retype hvalue ty))
  replace {c active id d} hc hid hd hactive := by
    refine ((substitute_outcome settings hd).and (substitute_copies settings hd)).mono ?_
      fun _ _ h => (hc.not_cutOff (hc.leadsTo hid (.use hd)) h.1).elim
    rintro (_ | _) c' ⟨hkept, hcopied⟩
    · exact ((hkept.kept rfl).roams R).upkeeps ((hkept.kept rfl).trends active)
    · obtain ⟨b, hreplaced⟩ := hcopied rfl
      exact hreplaced.upkeeps hc hid hactive
  negate {c c' active id x} hc hid hk h hnative := by
    have hlasts := h.lasts hc id (hk ▸ .negated x)
    rw [hk] at hlasts
    have hroams : Outcome (callNegation id x) c' (fun _ => c'.Roams R) fun _ => c'.Roams R :=
      @Discipline.negate _ (roaming settings R) c c' active id x hc.toClosed hid hk h.toRoams
        hnative
    exact (hroams.and (callNegation_trends active (h.maintained hc).registered hlasts)).mono
      (fun _ _ h => h.1.upkeeps h.2) fun _ _ h => h.1.upkeeps h.2

end Termwise
