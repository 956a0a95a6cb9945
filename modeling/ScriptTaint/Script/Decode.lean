import ScriptTaint.Json.Record
import ScriptTaint.Json.Contract
import ScriptTaint.Json.Reader
import ScriptTaint.Script.Encode

/-!
# Reading trees

A node is first read as the modelled kind that its tag names. An object for which that fails, for
whatever reason, is read as an unsupported node: it needs a kind, and its children are the outermost
nodes found anywhere in its other fields, in order of their starts. An array is a modelled node or
no node at all. Command elements, blocks and everything else outside of nodes have no such fallback.

`SyntaxTree.ofJson?` says which values are trees. `SyntaxTree.parse` reads a text and, when it
refuses, tells what is wrong with it first.
-/

set_option autoImplicit false

namespace ScriptTaint

open Json (required defaulted list? optional? text? bool? offset? word?)

def Span.ofJson? (j : Json) : Option Span := do
  let m ← j.members? ["start", "end"]
  let start ← required m "start" offset?
  let stop ← required m "end" offset?
  return ⟨start, stop⟩

def Variable.ofJson? (j : Json) : Option Variable := do
  let m ← j.members? ["name", "span"]
  let name ← required m "name" text?
  let span ← required m "span" Span.ofJson?
  return ⟨name, span⟩

def Annotation.ofJson? (j : Json) : Option Annotation := do
  let m ← j.members? ["rule", "justification", "span"]
  let rule ← required m "rule" text?
  let justification ← defaulted m "justification" none (optional? text?)
  let span ← required m "span" Span.ofJson?
  return ⟨rule, justification, span⟩

/-- The word for an operator. As a key it may have an empty object for its value. -/
def Json.operator? : Json → Option String
  | .object [⟨s, .object []⟩] => some s
  | j => word? j

def AssignOp.ofJson? (j : Json) : Option AssignOp := j.operator?.bind AssignOp.ofWord?

def BinaryOp.ofJson? (j : Json) : Option BinaryOp := j.operator?.map BinaryOp.ofWord

/-- Splits the tag off a value: the field `kind` of an object, the first element of an array. -/
def Json.tagged? : Json → Option (Json × Json)
  | .object fields =>
    match fields.filter (·.key == "kind") with
    | [tag] => some (tag.value, .object (fields.filter (·.key != "kind")))
    | _ => none
  | .array (tag :: rest) => some (tag, .array rest)
  | _ => none

section
variable (node : Json → Option Node)

/-! ## Parts of nodes, for a reader of the nodes in them -/

def Param.ofJson? (j : Json) : Option Param := do
  let m ← j.members? ["name", "span", "default"]
  let name ← required m "name" text?
  let span ← required m "span" Span.ofJson?
  let default? ← defaulted m "default" none (optional? node)
  return ⟨name, span, default?⟩

def Block.ofJson? (j : Json) : Option Block := do
  let m ← j.members? ["span", "params", "suppressions", "statements"]
  let span ← required m "span" Span.ofJson?
  let params ← defaulted m "params" [] (list? (Param.ofJson? node))
  let annotations ← defaulted m "suppressions" [] (list? Annotation.ofJson?)
  let statements ← defaulted m "statements" [] (list? node)
  return ⟨span, params, annotations, statements⟩

def Element.titles : List String := ["Argument", "Parameter"]

/-- The place of a title. -/
def Element.ofTitle? : Json → Option Nat
  | .text title => Element.titles.idxOf? title
  | _ => none

/-- Inside a node the place is a tag as well as the title. -/
def Element.ofTag? : Json → Option Nat
  | .natural i => some i
  | j => Element.ofTitle? j

/-- Reads an element with a tag that `tag?` knows. -/
def Element.ofJson? (tag? : Json → Option Nat) (j : Json) : Option Element := do
  let (tag, body) ← j.tagged?
  match ← tag? tag with
  | 0 =>
    let m ← body.members? ["value"]
    let value ← required m "value" node
    return .argument value
  | 1 =>
    let m ← body.members? ["name", "argument", "span"]
    let name ← required m "name" text?
    let bound ← defaulted m "argument" none (optional? node)
    let span ← required m "span" Span.ofJson?
    return .parameter name bound span
  | _ => none

def Command.read? (tag? : Json → Option Nat) (j : Json) : Option Command := do
  let m ← j.members? ["name", "elements", "span"]
  let name ← required m "name" node
  let elements ← defaulted m "elements" [] (list? (Element.ofJson? node tag?))
  let span ← required m "span" Span.ofJson?
  return ⟨name, elements, span⟩

def Invocation.ofJson? (j : Json) : Option Invocation := do
  let m ← j.members? ["target", "member", "arguments", "is_static", "span"]
  let target ← required m "target" node
  let name ← required m "member" node
  let arguments ← defaulted m "arguments" [] (list? node)
  let isStatic ← defaulted m "is_static" false bool?
  let span ← required m "span" Span.ofJson?
  return ⟨target, name, arguments, isStatic, span⟩

def Clause.ofJson? (j : Json) : Option Clause := do
  let m ← j.members? ["condition", "body"]
  let condition ← required m "condition" node
  let body ← defaulted m "body" [] (list? node)
  return ⟨condition, body⟩

/-- Reads the fields of a node of a known kind. -/
def Kind.node? (j : Json) : Kind → Option Node
  | .literal => do
    let m ← j.members? ["value", "span"]
    let value ← required m "value" text?
    let span ← required m "span" Span.ofJson?
    return .literal value span
  | .expandable => do
    let m ← j.members? ["value", "holes", "span"]
    let value ← required m "value" text?
    let holes ← defaulted m "holes" [] (list? node)
    let span ← required m "span" Span.ofJson?
    return .expandable value holes span
  | .reference => do
    let v ← Variable.ofJson? j
    return .reference v
  | .typeLiteral => do
    let m ← j.members? ["name", "span"]
    let name ← required m "name" text?
    let span ← required m "span" Span.ofJson?
    return .typeLiteral name span
  | .assignment => do
    let m ← j.members? ["target", "value", "operator", "span"]
    let target ← required m "target" node
    let value ← required m "value" node
    let op ← defaulted m "operator" .assign AssignOp.ofJson?
    let span ← required m "span" Span.ofJson?
    return .assignment target value op span
  | .binary => do
    let m ← j.members? ["operator", "left", "right", "span"]
    let op ← required m "operator" BinaryOp.ofJson?
    let left ← required m "left" node
    let right ← required m "right" node
    let span ← required m "span" Span.ofJson?
    return .binary op left right span
  | .arrayLiteral => do
    let m ← j.members? ["elements", "span"]
    let elements ← defaulted m "elements" [] (list? node)
    let span ← required m "span" Span.ofJson?
    return .arrayLiteral elements span
  | .paren => do
    let m ← j.members? ["inner", "span"]
    let inner ← required m "inner" node
    let span ← required m "span" Span.ofJson?
    return .paren inner span
  | .subExpression => do
    let m ← j.members? ["statements", "span"]
    let statements ← defaulted m "statements" [] (list? node)
    let span ← required m "span" Span.ofJson?
    return .subExpression statements span
  | .cast => do
    let m ← j.members? ["type_name", "operand", "span"]
    let typeName ← required m "type_name" text?
    let operand ← required m "operand" node
    let span ← required m "span" Span.ofJson?
    return .cast typeName operand span
  | .command => do
    let c ← Command.read? node Element.ofTag? j
    return .command c
  | .pipeline => do
    let m ← j.members? ["elements", "span"]
    let elements ← required m "elements" (list? node)
    let span ← required m "span" Span.ofJson?
    return .pipeline elements span
  | .invocation => do
    let i ← Invocation.ofJson? node j
    return .invocation i
  | .member => do
    let m ← j.members? ["target", "member", "is_static", "span"]
    let target ← required m "target" node
    let name ← required m "member" node
    let isStatic ← defaulted m "is_static" false bool?
    let span ← required m "span" Span.ofJson?
    return .member target name isStatic span
  | .scriptBlock => do
    let b ← Block.ofJson? node j
    return .scriptBlock b
  | .function => do
    let m ← j.members? ["name", "span", "body"]
    let name ← required m "name" text?
    let span ← required m "span" Span.ofJson?
    let body ← required m "body" (Block.ofJson? node)
    return .function name span body
  | .conditional => do
    let m ← j.members? ["clauses", "else_body", "span"]
    let clauses ← required m "clauses" (list? (Clause.ofJson? node))
    let otherwise ← defaulted m "else_body" none (optional? (list? node))
    let span ← required m "span" Span.ofJson?
    return .conditional clauses otherwise span
  | .forEach => do
    let m ← j.members? ["variable", "iterable", "body", "span"]
    let item ← required m "variable" Variable.ofJson?
    let iterable ← required m "iterable" node
    let body ← defaulted m "body" [] (list? node)
    let span ← required m "span" Span.ofJson?
    return .forEach item iterable body span

/-- Reads a node of the kind that its tag names. -/
def Node.modelled? (j : Json) : Option Node := do
  let (tag, body) ← j.tagged?
  let kind ← Kind.ofTag? tag
  kind.node? node body

end

/-! ## Unsupported nodes -/

/-- An object with a field `kind` stands for a node. -/
def Json.isNodeLike : Json → Bool
  | .object fields => fields.any (·.key == "kind")
  | _ => false

/-- The outermost nodes in a value. What stands for a node and cannot be read as one is dropped with
everything inside it. -/
def Node.nested (node : Json → Option Node) (j : Json) : List Node :=
  if j.isNodeLike then (node j).toList
  else j.parts.attach.flatMap fun ⟨p, _⟩ => Node.nested node p
termination_by sizeOf j
decreasing_by exact Json.sizeOf_part ‹_›

theorem Node.nested_eq (node : Json → Option Node) (j : Json) :
    Node.nested node j =
      if j.isNodeLike then (node j).toList else j.parts.flatMap (Node.nested node) := by
  rw [nested]; simp [List.flatMap_subtype]

/-- Puts a node before the first one that does not start before it. -/
def Node.insertByStart (n : Node) : List Node → List Node
  | [] => [n]
  | m :: ms => if n.span.start ≤ m.span.start then n :: m :: ms else m :: insertByStart n ms

/-- The nodes in order of their starts; nodes with one start keep their order. -/
def Node.sortByStart (ns : List Node) : List Node := ns.foldr insertByStart []

/-- The kind and the span that fields give a node that is not modelled. -/
def Node.outline? (fields : List Field) : Option (String × Span) := do
  let kind ← required fields "kind" text?
  let span ← defaulted fields "span" default fun j => Span.ofJson? j.canonical
  return (kind, span)

def Node.unsupported? (node : Json → Option Node) (j : Json) : Option Node := do
  let .object fields := j | none
  let fields := Json.collapse fields
  let (kind, span) ← outline? fields
  let rest := fields.filter fun f => f.key != "kind" && f.key != "span"
  return .unsupported kind span (sortByStart (rest.flatMap fun f => nested node f.value.canonical))

/-- An object with an outline is a node whatever else it holds. -/
def Node.isOutlined : Json → Bool
  | .object fields => (outline? (Json.collapse fields)).isSome
  | _ => false

/-! ## Nodes -/

/-- Whether a value is a modelled node, if `isNode` knows the nodes inside it. Any node can stand in
for those. -/
def Node.isModelled (isNode : Json → Bool) (j : Json) : Bool :=
  (modelled? (fun part => if isNode part then some (.literal "" default) else none) j).isSome

/-- Whether a value is a node that nests at most `levels` deep. -/
def Node.isNodeWithin : Nat → Json → Bool
  | 0, _ => false
  | levels + 1, j => isOutlined j || isModelled (isNodeWithin levels) j

/-- Reads a node that nests at most `levels` deep. It is settled first which way to read it, so that
no node inside it is read twice. -/
def Node.ofJsonWithin? : Nat → Json → Option Node
  | 0, _ => none
  | levels + 1, j =>
    if isModelled (isNodeWithin levels) j then modelled? (ofJsonWithin? levels) j
    else unsupported? (ofJsonWithin? levels) j

def Node.ofJson? (j : Json) : Option Node := Node.ofJsonWithin? j.nesting j

/-- Reads a command on its own. -/
def Command.ofJson? (j : Json) : Option Command := Command.read? Node.ofJson? Element.ofTitle? j

/-! ## Trees -/

def SyntaxTree.ofJson? (j : Json) : Option SyntaxTree := do
  let m ← j.members? ["path", "line_starts", "root"]
  let path ← required m "path" text?
  let lineStarts ← defaulted m "line_starts" [] (list? offset?)
  let root ← required m "root" (Block.ofJson? Node.ofJson?)
  return ⟨path, lineStarts, root⟩

section
open Json.Contract

def Json.Contract.text : Json.Contract := scalar fun j => (text? j).isSome

def Json.Contract.offset : Json.Contract := scalar fun j => (offset? j).isSome

/-- A node is read as a whole: a defect of the text anywhere inside it comes first. -/
def Json.Contract.node : Json.Contract := Json.Contract.whole fun j => (Node.ofJson? j).isSome

def Span.contract : Json.Contract := record [⟨"start", true, offset⟩, ⟨"end", true, offset⟩]

def Param.contract : Json.Contract :=
  record [⟨"name", true, text⟩, ⟨"span", true, Span.contract⟩, ⟨"default", false, optional node⟩]

def Annotation.contract : Json.Contract :=
  record
    [⟨"rule", true, text⟩, ⟨"justification", false, optional text⟩, ⟨"span", true, Span.contract⟩]

def Block.contract : Json.Contract :=
  record
    [⟨"span", true, Span.contract⟩, ⟨"params", false, list Param.contract⟩,
     ⟨"suppressions", false, list Annotation.contract⟩, ⟨"statements", false, list node⟩]

def SyntaxTree.contract : Json.Contract :=
  record
    [⟨"path", true, text⟩, ⟨"line_starts", false, list offset⟩, ⟨"root", true, Block.contract⟩]

end

/-- Accepts a value as a tree or tells what is wrong with it first. -/
def SyntaxTree.decode (j : Json) : Except Fault SyntaxTree :=
  match SyntaxTree.contract j with
  | some fault => .error fault
  | none =>
    match SyntaxTree.ofJson? j with
    | some t => .ok t
    | none => .error .shape

/-- Reads a tree from a text that holds nothing else. -/
def SyntaxTree.parse (text : String) : Except Fault SyntaxTree := do
  let (j, rest) := Json.read text
  let t ← SyntaxTree.decode j
  if rest.isEmpty then .ok t else .error .malformed

/-- Whether reading the written form of the tree, nested no deeper than a text may be, gives the
tree back. Trees with one written form are equal. -/
def SyntaxTree.roundTrips (t : SyntaxTree) : Bool :=
  t.toJson.nesting ≤ Json.maxNesting &&
    (SyntaxTree.ofJson? t.toJson).any fun u => u.toJson == t.toJson

end ScriptTaint
