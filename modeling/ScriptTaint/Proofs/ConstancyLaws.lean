import ScriptTaint.Flow.Classify

/-!
# Laws of constancy

A value made of parts is constant if and only if each part is (`Constancy.joinAll_eq_constant`).
For a constant expression `Node.constancy` so comes down to its parts, one equation for each kind of
node that can be constant.
-/

set_option autoImplicit false

namespace ScriptTaint

namespace Constancy

theorem ne_constant_iff {c : Constancy} : c ≠ .constant ↔ c = .varying := by
  cases c <;> simp

@[simp] theorem join_eq_constant {c d : Constancy} :
    c.join d = .constant ↔ c = .constant ∧ d = .constant := by
  cases c <;> cases d <;> simp [join]

theorem foldl_join_eq_constant (cs : List Constancy) (c : Constancy) :
    cs.foldl join c = .constant ↔ c = .constant ∧ ∀ d ∈ cs, d = .constant := by
  induction cs generalizing c with
  | nil => simp
  | cons d cs ih => simp [ih, and_assoc]

@[simp] theorem joinAll_eq_constant {cs : List Constancy} :
    joinAll cs = .constant ↔ ∀ d ∈ cs, d = .constant := by
  simp [joinAll, foldl_join_eq_constant]

end Constancy

namespace Node

variable (b : Bindings)

theorem constancy_expandable (value : String) (holes : List Node) (span : Span) :
    (Node.expandable value holes span).constancy b =
      Constancy.joinAll (holes.map (·.constancy b)) := by
  rw [constancy.eq_def]; simp

theorem constancy_reference (v : Variable) :
    (Node.reference v).constancy b = if v.isAutomatic then .constant else b.constancy v := by
  rw [constancy.eq_def]

theorem constancy_binary (op : BinaryOp) (left right : Node) (span : Span) :
    (Node.binary op left right span).constancy b =
      (left.constancy b).join (right.constancy b) := by
  rw [constancy.eq_def]

theorem constancy_arrayLiteral (elements : List Node) (span : Span) :
    (Node.arrayLiteral elements span).constancy b =
      Constancy.joinAll (elements.map (·.constancy b)) := by
  rw [constancy.eq_def]; simp

theorem constancy_paren (inner : Node) (span : Span) :
    (Node.paren inner span).constancy b = inner.constancy b := by
  rw [constancy.eq_def]

theorem constancy_cast (typeName : String) (operand : Node) (span : Span) :
    (Node.cast typeName operand span).constancy b = operand.constancy b := by
  rw [constancy.eq_def]

/-- A constant pipeline is an expression by itself. -/
theorem constancy_pipeline {elements : List Node} {span : Span} :
    (Node.pipeline elements span).constancy b = .constant ↔
      ∃ single, elements = [single] ∧ single.isCommand = false ∧
        single.constancy b = .constant := by
  rw [constancy.eq_def]
  match elements with
  | [] => simp
  | [single] => cases hs : single.isCommand <;> simp [hs]
  | _ :: _ :: _ => simp

end Node

end ScriptTaint
