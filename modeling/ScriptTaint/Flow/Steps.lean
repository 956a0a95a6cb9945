import ScriptTaint.Flow.Escaping

/-!
# What a scope binds

The statements of a scope are read once, from left to right, as a list of binding steps; bodies of
functions and script blocks are scopes of their own and are left out. A loop body may run again, so
a variable assigned anywhere in it is unknown from the entry of the loop on. What is not modelled
may be a loop and is treated as one.
-/

set_option autoImplicit false

namespace ScriptTaint

/-- One change of the bindings of a scope. -/
inductive Step
  /-- The variable holds an unknown value from `since` on. -/
  | declare (key : String) (since : UInt32)
  /-- `target` takes `value` at `since`. -/
  | assign (target value : Node) (op : AssignOp) (since : UInt32)

namespace Node

/-- The variable that a chain of members and calls starts from. -/
def baseVariable? : Node → Option Variable
  | .reference v => some v
  | .member target _ _ _ => target.baseVariable?
  | .invocation ⟨target, _, _, _, _⟩ => target.baseVariable?
  | .paren inner _ => inner.baseVariable?
  | _ => none

/-- The variables of the current scope that an assignment to the node changes. -/
def targetKeys (n : Node) : List String :=
  match n with
  | .reference v => if v.isQualified then [] else [v.key]
  | .member target _ _ _ =>
    match target.baseVariable? with
    | some v => if v.isQualified then [] else [v.key]
    | none => []
  | .cast _ operand _ => operand.targetKeys
  | .arrayLiteral elements _ => elements.attach.flatMap fun ⟨e, _⟩ => e.targetKeys
  | _ => []
termination_by sizeOf n
decreasing_by
  · exact sizeOf_child (n := .cast _ operand _) (by simp [children])
  · exact sizeOf_child (n := .arrayLiteral elements _) ‹_›

/-- The variables of the current scope that the node itself assigns. -/
def assignsHere : Node → List String
  | .assignment target _ _ _ => target.targetKeys
  | .forEach item _ _ _ => if item.isQualified then [] else [item.key]
  | _ => []

/-- The variables of the current scope that are assigned anywhere in the node. -/
def assigned (n : Node) : List String := n.within.flatMap assignsHere

/-- At the entry of a loop, all that its body assigns becomes unknown. -/
def loopEntry (body : List Node) (entry : UInt32) : List Step :=
  (body.flatMap assigned).eraseDups.map fun key => .declare key entry

/-- The binding steps of a node, in the order of execution. -/
def steps (n : Node) : List Step :=
  match n with
  | .assignment target value op span => value.steps ++ [.assign target value op span.stop]
  | .forEach item iterable body _ =>
    iterable.steps ++ [.declare item.key iterable.span.stop] ++
      loopEntry body iterable.span.stop ++ body.attach.flatMap fun ⟨c, _⟩ => c.steps
  | .unsupported _ span children =>
    loopEntry children span.start ++ children.attach.flatMap fun ⟨c, _⟩ => c.steps
  | other => other.children.attach.flatMap fun ⟨c, _⟩ => c.steps
termination_by sizeOf n
decreasing_by
  · exact sizeOf_child (n := .assignment target value op span) (by simp [children])
  · exact sizeOf_child (n := .forEach item iterable body _) (by simp [children])
  · exact sizeOf_child (n := .forEach item iterable body _) (by simp_all [children])
  · exact sizeOf_child (n := .unsupported _ span children) ‹_›
  · exact sizeOf_child ‹_›

end Node

namespace Bindings

/-- Binds what an assignment to `target` changes. To set a member makes its variable unknown. -/
def bind (b : Bindings) (since : UInt32) (binding : Binding) (target : Node) : Bindings :=
  match target with
  | .reference v => if v.isQualified then b else b.record v.key since binding
  | .cast _ operand _ => b.bind since binding operand
  | .arrayLiteral elements _ =>
    elements.attach.foldl (fun b ⟨e, _⟩ => b.bind since binding e) b
  | .member target _ _ _ =>
    match target.baseVariable? with
    | some v => if v.isQualified then b else b.declare v.key since
    | none => b
  | _ => b
termination_by sizeOf target
decreasing_by
  · exact Node.sizeOf_child (n := .cast _ operand _) (by simp [Node.children])
  · exact Node.sizeOf_child (n := .arrayLiteral elements _) ‹_›

/-- Takes a step. An operator that reads the old value never gives a constant. -/
def step (b : Bindings) : Step → Bindings
  | .declare key since => b.declare key since
  | .assign target value op since =>
    let constancy := match op with
      | .assign => value.constancy b
      | .compound => .varying
    b.bind since ⟨constancy, value.carriesEscaped b⟩ target

end Bindings

namespace Block

/-- The binding steps of a block: its parameters are unknown from its start on. -/
def steps (b : Block) : List Step :=
  b.params.map (fun p => .declare (Text.lower p.name) b.span.start) ++
    b.statements.flatMap Node.steps

def bindings (b : Block) : Bindings := b.steps.foldl Bindings.step .empty

end Block

end ScriptTaint
