import ScriptTaint.Script.Node

/-!
# Laying out trees

Trees can be made without a script text. Each leaf takes the next free offset, and a composite node
spans its parts, so the order of construction is the order of the document. A composite without
parts takes a leaf of its own.
-/

set_option autoImplicit false

namespace ScriptTaint

/-- A construction that takes offsets from the next free one on. -/
abbrev Layout (α : Type) := StateM UInt32 α

namespace Layout

/-- A leaf is one offset wide, and the next one leaves a gap. -/
def leaf : Layout Span := fun next => (⟨next, next + 1⟩, next + 2)

/-- The least span around `s` and the nodes. -/
def coverFrom (s : Span) (ns : List Node) : Span := ns.foldl (fun s n => s.cover n.span) s

/-- The least span around the nodes, or a leaf if there are none. -/
def cover : List Node → Layout Span
  | [] => leaf
  | n :: ns => return coverFrom n.span ns

/-! ## Expressions -/

def literal (value : String) : Layout Node := return .literal value (← leaf)

def expandable (value : String) (holes : List Node) : Layout Node :=
  return .expandable value holes (coverFrom (← leaf) holes)

def nameUse (name : String) : Layout Variable := return ⟨name, ← leaf⟩

def reference (name : String) : Layout Node := return .reference (← nameUse name)

def typeLiteral (name : String) : Layout Node := return .typeLiteral name (← leaf)

def binary (op : BinaryOp) (left right : Node) : Node :=
  .binary op left right (left.span.cover right.span)

def arrayLiteral (elements : List Node) : Layout Node :=
  return .arrayLiteral elements (← cover elements)

/-- The operand with all matches of a pattern replaced. -/
def replace (operand : Node) (pattern replacement : String) : Layout Node := do
  let pattern ← literal pattern
  let replacement ← literal replacement
  return binary .replace operand (← arrayLiteral [pattern, replacement])

def paren (inner : Node) : Node := .paren inner inner.span

def subExpression (statements : List Node) : Layout Node :=
  return .subExpression statements (← cover statements)

def cast (typeName : String) (operand : Node) : Node := .cast typeName operand operand.span

/-- A call of the method that `name` gives. -/
def invocation (target name : Node) (arguments : List Node) (isStatic : Bool) : Node :=
  .invocation
    ⟨target, name, arguments, isStatic, coverFrom (target.span.cover name.span) arguments⟩

def invoke (target : Node) (method : String) (arguments : List Node) : Layout Node :=
  return invocation target (← literal method) arguments false

def invokeStatic (typeName method : String) (arguments : List Node) : Layout Node := do
  let target ← typeLiteral typeName
  let name ← literal method
  return invocation target name arguments true

/-- The member that `name` gives. -/
def memberOf (target name : Node) (isStatic : Bool) : Node :=
  .member target name isStatic (target.span.cover name.span)

def member (target : Node) (name : String) : Layout Node :=
  return memberOf target (← literal name) false

/-! ## Commands -/

def parameter (name : String) (bound : Option Node) : Layout Element := do
  let s ← leaf
  return .parameter name bound (coverFrom s bound.toList)

def elementSpan : Element → Span
  | .argument value => value.span
  | .parameter _ _ span => span

/-- A call of the command that `name` gives. -/
def commandWith (name : Node) (elements : List Element) : Node :=
  .command ⟨name, elements, elements.foldl (fun s e => s.cover (elementSpan e)) name.span⟩

def command (name : String) (elements : List Element) : Layout Node :=
  return commandWith (← literal name) elements

def pipeline (elements : List Node) : Layout Node := return .pipeline elements (← cover elements)

/-! ## Statements and blocks -/

def assignment (op : AssignOp) (target value : Node) : Node :=
  .assignment target value op (target.span.cover value.span)

def param (name : String) : Layout Param := return ⟨name, ← leaf, none⟩

def block (params : List String) (statements : List Node) : Layout Block := do
  let params ← params.mapM param
  let inner ← cover statements
  return ⟨params.foldl (fun s p => s.cover p.span) inner, params, [], statements⟩

def scriptBlock (statements : List Node) : Layout Node :=
  return .scriptBlock (← block [] statements)

/-- The block with one more suppression. -/
def suppress (b : Block) (rule justification : String) : Layout Block := do
  let s ← leaf
  return { b with
    span := b.span.cover s, annotations := b.annotations ++ [⟨rule, some justification, s⟩] }

def functionWith (name : String) (body : Block) : Layout Node :=
  return .function name (body.span.cover (← leaf)) body

def function (name : String) (params : List String) (statements : List Node) : Layout Node := do
  functionWith name (← block params statements)

/-- A condition with one clause and nothing otherwise. -/
def conditional (condition : Node) (body : List Node) : Node :=
  .conditional [⟨condition, body⟩] none (coverFrom condition.span body)

def forEach (item : String) (iterable : Node) (body : List Node) : Layout Node := do
  let v ← nameUse item
  return .forEach v iterable body (coverFrom (v.span.cover iterable.span) body)

def unsupported (kind : String) (children : List Node) : Layout Node :=
  return .unsupported kind (← cover children) children

/-- A file without line information. -/
def tree (path : String) (root : Block) : SyntaxTree := ⟨path, [], root⟩

end Layout

end ScriptTaint
