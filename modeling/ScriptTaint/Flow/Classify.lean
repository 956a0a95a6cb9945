import ScriptTaint.Flow.Bindings

/-!
# The constancy of expressions

An expression is constant if it is built from literals, constant automatic variables and variables
with a constant binding by the operators whose result is fixed by their operands. Everything else
is varying.
-/

set_option autoImplicit false

namespace ScriptTaint

def Node.isCommand : Node → Bool
  | .command _ => true
  | _ => false

/-- The constancy of the value of a node under the bindings of its scope. -/
def Node.constancy (b : Bindings) (n : Node) : Constancy :=
  match n with
  | .literal .. | .typeLiteral .. | .scriptBlock _ => .constant
  | .expandable _ holes _ => Constancy.joinAll (holes.attach.map fun ⟨h, _⟩ => h.constancy b)
  | .reference v => if v.isAutomatic then .constant else b.constancy v
  | .assignment _ value _ _ => value.constancy b
  | .binary _ left right _ => (left.constancy b).join (right.constancy b)
  | .arrayLiteral elements _ =>
    Constancy.joinAll (elements.attach.map fun ⟨e, _⟩ => e.constancy b)
  | .paren inner _ => inner.constancy b
  | .cast _ operand _ => operand.constancy b
  | .pipeline [single] _ => if single.isCommand then .varying else single.constancy b
  | .pipeline .. | .command _ | .invocation _ | .member .. | .subExpression .. | .function ..
  | .conditional .. | .forEach .. | .unsupported .. => .varying
termination_by sizeOf n
decreasing_by
  · exact Node.sizeOf_child (n := .expandable _ holes _) ‹_›
  · exact Node.sizeOf_child (n := .assignment _ value _ _) (by simp [children])
  · exact Node.sizeOf_child (n := .binary _ left right _) (by simp [children])
  · exact Node.sizeOf_child (n := .binary _ left right _) (by simp [children])
  · exact Node.sizeOf_child (n := .arrayLiteral elements _) ‹_›
  · exact Node.sizeOf_child (n := .paren inner _) (by simp [children])
  · exact Node.sizeOf_child (n := .cast _ operand _) (by simp [children])
  · exact Node.sizeOf_child (n := .pipeline [single] _) (by simp [children])

/-- The constancy of a value made of several expressions. -/
def Node.jointConstancy (b : Bindings) (ns : List Node) : Constancy :=
  Constancy.joinAll (ns.map (·.constancy b))

end ScriptTaint
