import Termwise.Proofs.Concretization.Soundness

/-!
# Declared types

The program may declare the type of an expression. Concretization brings the expression into that
type where its own walk ends, or rejects it. But the expression around it is typed later, and
brings its operands into the types that it asks for: literals are cast once more, and integers are
widened, whatever was declared for them. So the declared type of an operand may be lost without a
word, and that of any other expression is honoured.

## Main results

* `declared_of_concretizeAll`: declared types are honoured, except those of operands
-/

namespace Termwise

open Compilation

variable {c c' : Compilation} {settings : Settings} {n : ExprId}

/-- **Declared types are honoured**, except those of operands. If concretization says that the program
is valid, then every expression that the root statements reach has the type that is declared for it,
unless it lies below another expression and was converted there: then it is a known value that is an
integer, a float or a text by now, or a call that was widened. (A known value that does not fit its
own type is not converted at all.) -/
theorem declared_of_concretizeAll (hc : c.WellFormed)
    (hneg : ∀ d, c.IsNegation d → (c.arena.definition d).declared ≠ none)
    (h : concretizeAll settings c = .ok true c') (hn : c'.arena.Reaches n) {ty : Ty}
    (hty : (c'.arena.expr n).declared = some ty) :
    (c'.arena.expr n).Holds ty ∨ c'.Operand n ∧ (c'.arena.expr n).Converted := by
  obtain ⟨A, hconcrete, hreaches⟩ := (concretizeAll_outcome hc hneg).of_ok h rfl
  exact (hconcrete n (hreaches n hn)).declared ty hty

/-- The program that shows a literal that is declared to be a float. -/
def declaredLiteral : Compilation :=
  { Compilation.new with
    arena :=
      { exprs := #[⟨.value (.string "1"), .numberLiteral, some .float, .origin⟩]
        defs := Builtins.definitions.toArray
        stmts := #[⟨.expression ⟨0⟩, .origin⟩]
        roots := [⟨0⟩] } }

theorem declaredLiteral_wellFormed : declaredLiteral.WellFormed :=
  .of_tables (by simp [declaredLiteral]) (fun x hx => .inl (by simpa [declaredLiteral] using hx))
    (by simp [declaredLiteral])

/-- The literal is settled as an integer, and then cast. -/
theorem declared_declaredLiteral :
    ∃ c', concretizeAll {} declaredLiteral = .ok true c' ∧ c'.arena.Reaches ⟨0⟩ ∧
      (c'.arena.expr ⟨0⟩).declared = some .float ∧
      ((c'.arena.expr ⟨0⟩).Holds .float ∨
        c'.Operand ⟨0⟩ ∧ (c'.arena.expr ⟨0⟩).Converted) := by
  have hneg : ∀ d, declaredLiteral.IsNegation d →
      (declaredLiteral.arena.definition d).declared ≠ none := by
    rintro d (rfl | rfl) <;> decide
  obtain ⟨c', h, hcheck⟩ := exists_of_check {} declaredLiteral
    (fun c' => decide (⟨0⟩ ∈ c'.arena.roots ∧ (c'.arena.stmt ⟨0⟩).kind = .expression ⟨0⟩ ∧
      (c'.arena.expr ⟨0⟩).declared = some .float)) (by decide +kernel)
  obtain ⟨hroot, hstmt, hty⟩ := of_decide_eq_true hcheck
  have hn : c'.arena.Reaches ⟨0⟩ := .root hroot (.expression hstmt)
  exact ⟨c', h, hn, hty, declared_of_concretizeAll declaredLiteral_wellFormed hneg h hn hty⟩

/-- The program that adds an integer, which is declared to be one, and a float. -/
def declaredOperand : Compilation :=
  { Compilation.new with
    arena :=
      { exprs := #[⟨.value (.int 1), .int, some .int, .origin⟩,
          .new (.value (.float 2.5)) .float .origin, .new (.call ⟨1⟩ [⟨0⟩, ⟨1⟩]) .number .origin]
        defs := Builtins.definitions.toArray
        stmts := #[⟨.expression ⟨2⟩, .origin⟩]
        roots := [⟨0⟩] } }

/-- **An operand that is declared to be an integer** becomes a float. -/
theorem declared_declaredOperand :
    ∃ c', concretizeAll {} declaredOperand = .ok true c' ∧ c'.arena.Reaches ⟨0⟩ ∧
      (c'.arena.expr ⟨0⟩).declared = some .int ∧ (c'.arena.expr ⟨0⟩).ty ≠ .int := by
  obtain ⟨c', h, hcheck⟩ := exists_of_check {} declaredOperand
    (fun c' => decide (⟨0⟩ ∈ c'.arena.roots ∧ (c'.arena.stmt ⟨0⟩).kind = .expression ⟨2⟩ ∧
      ⟨0⟩ ∈ (c'.arena.expr ⟨2⟩).kind.children ∧ (c'.arena.expr ⟨0⟩).declared = some .int ∧
      (c'.arena.expr ⟨0⟩).ty ≠ .int)) (by decide +kernel)
  obtain ⟨hroot, hstmt, hchild, hty, hne⟩ := of_decide_eq_true hcheck
  exact ⟨c', h, .child (.root hroot (.expression hstmt)) hchild, hty, hne⟩

end Termwise
