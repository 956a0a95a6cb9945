import ScriptTaint.Script.Span

/-!
# Syntax trees of scripts

The kinds of node that the detectors reason about are constructors of `Node`; everything else is
`Node.unsupported`, which keeps the nodes found inside it. A `Block` is the whole file, a function
body or a script-block literal. Each block is a scope of its own.
-/

set_option autoImplicit false

namespace ScriptTaint

inductive AssignOp
  | assign
  /-- An operator that reads the old value: `+=`, `-=`, `*=`. -/
  | compound
deriving DecidableEq, Repr, Inhabited

inductive BinaryOp
  | add
  | format
  | replace
  | join
  | other
deriving DecidableEq, Repr

/-- A use of a variable. The name has no leading `$` and keeps its scope qualifier. -/
structure Variable where
  name : String
  span : Span
deriving DecidableEq, Repr

/-- A declared suppression of a rule. -/
structure Annotation where
  rule : String
  justification : Option String
  span : Span
deriving DecidableEq, Repr

mutual

inductive Node
  /-- A constant: a single-quoted string, a bare word or a number. -/
  | literal (value : String) (span : Span)
  /-- A double-quoted string with the expressions it interpolates. -/
  | expandable (value : String) (holes : List Node) (span : Span)
  | reference (v : Variable)
  | typeLiteral (name : String) (span : Span)
  | assignment (target value : Node) (op : AssignOp) (span : Span)
  | binary (op : BinaryOp) (left right : Node) (span : Span)
  | arrayLiteral (elements : List Node) (span : Span)
  | paren (inner : Node) (span : Span)
  /-- Statements run for their output: `$( ... )`. -/
  | subExpression (statements : List Node) (span : Span)
  | cast (typeName : String) (operand : Node) (span : Span)
  | command (c : Command)
  | pipeline (elements : List Node) (span : Span)
  | invocation (i : Invocation)
  /-- A member that is read or set, not called. -/
  | member (target name : Node) (isStatic : Bool) (span : Span)
  | scriptBlock (b : Block)
  | function (name : String) (span : Span) (body : Block)
  | conditional (clauses : List Clause) (otherwise : Option (List Node)) (span : Span)
  | forEach (item : Variable) (iterable : Node) (body : List Node) (span : Span)
  | unsupported (kind : String) (span : Span) (children : List Node)

/-- A call of a command. The name is a literal in an ordinary call and any expression after `&`. -/
structure Command where
  name : Node
  elements : List Element
  span : Span

inductive Element
  | argument (value : Node)
  /-- A parameter, its name without the dash, with the argument the parser could bind to it. -/
  | parameter (name : String) (bound : Option Node) (span : Span)

/-- A call of a method; `name` is a literal unless the member is computed. -/
structure Invocation where
  target : Node
  name : Node
  arguments : List Node
  isStatic : Bool
  span : Span

structure Clause where
  condition : Node
  body : List Node

structure Param where
  name : String
  span : Span
  default? : Option Node

structure Block where
  span : Span
  params : List Param
  annotations : List Annotation
  statements : List Node

end

/-- A parsed script file. -/
structure SyntaxTree where
  path : String
  /-- The offset of the first character of each line, if the parser reported them. -/
  lineStarts : List UInt32
  root : Block

namespace Node

def span : Node → Span
  | .literal _ s | .expandable _ _ s | .typeLiteral _ s | .assignment _ _ _ s | .binary _ _ _ s
  | .arrayLiteral _ s | .paren _ s | .subExpression _ s | .cast _ _ s | .pipeline _ s
  | .member _ _ _ s | .function _ s _ | .conditional _ _ s | .forEach _ _ _ s
  | .unsupported _ s _ => s
  | .reference v => v.span
  | .command c => c.span
  | .invocation i => i.span
  | .scriptBlock b => b.span

/-- The text of a literal. -/
def literal? : Node → Option String
  | .literal value _ => some value
  | _ => none

end Node

/-- The expression an element passes, if it passes one. -/
def Element.operand? : Element → Option Node
  | .argument value => some value
  | .parameter _ bound _ => bound

/-- The nodes directly inside a node that belong to the same scope. The bodies of functions and
script-block literals are scopes of their own. -/
def Node.children : Node → List Node
  | .literal .. | .reference _ | .typeLiteral .. | .scriptBlock _ | .function .. => []
  | .expandable _ holes _ => holes
  | .assignment target value _ _ => [target, value]
  | .binary _ left right _ => [left, right]
  | .arrayLiteral elements _ => elements
  | .paren inner _ => [inner]
  | .subExpression statements _ => statements
  | .cast _ operand _ => [operand]
  | .command c => c.name :: c.elements.filterMap Element.operand?
  | .pipeline elements _ => elements
  | .invocation i => i.target :: i.name :: i.arguments
  | .member target name _ _ => [target, name]
  | .conditional clauses otherwise _ =>
    clauses.flatMap (fun c => c.condition :: c.body) ++ otherwise.getD []
  | .forEach _ iterable body _ => iterable :: body
  | .unsupported _ _ children => children

/-- The block a node opens, if it opens one. -/
def Node.block? : Node → Option Block
  | .scriptBlock b => some b
  | .function _ _ body => some body
  | _ => none

/-- The nodes directly inside a block: the defaults of its parameters, then its statements. -/
def Block.nodes (b : Block) : List Node := b.params.filterMap (·.default?) ++ b.statements

/-! ## Children are smaller -/

theorem Element.sizeOf_operand {e : Element} {n : Node} (h : e.operand? = some n) :
    sizeOf n < sizeOf e := by
  cases e with
  | argument value => simp_all [operand?]
  | parameter name bound span =>
    obtain rfl : bound = some n := h
    simp only [Element.parameter.sizeOf_spec, Option.some.sizeOf_spec]; omega

theorem Node.sizeOf_child {n c : Node} (h : c ∈ n.children) : sizeOf c < sizeOf n := by
  cases n with
  | literal | reference | typeLiteral | scriptBlock | function => simp [children] at h
  | expandable _ cs | arrayLiteral cs | subExpression cs | pipeline cs | unsupported _ _ cs =>
    have := List.sizeOf_lt_of_mem (show c ∈ cs from h)
    simp; omega
  | assignment | binary | member =>
    simp only [children, List.mem_cons, List.not_mem_nil, or_false] at h
    rcases h with rfl | rfl <;> simp <;> omega
  | paren | cast =>
    simp only [children, List.mem_cons, List.not_mem_nil, or_false] at h
    subst h; simp; omega
  | command cmd =>
    obtain ⟨name, elements, span⟩ := cmd
    simp only [children, List.mem_cons, List.mem_filterMap] at h
    rcases h with rfl | ⟨e, he, ho⟩
    · simp; omega
    · have := List.sizeOf_lt_of_mem he
      have := Element.sizeOf_operand ho
      simp; omega
  | invocation i =>
    obtain ⟨target, name, arguments, isStatic, span⟩ := i
    simp only [children, List.mem_cons] at h
    rcases h with rfl | rfl | h
    · simp; omega
    · simp; omega
    · have := List.sizeOf_lt_of_mem h
      simp; omega
  | conditional clauses otherwise span =>
    simp only [children, List.mem_append, List.mem_flatMap, List.mem_cons] at h
    rcases h with ⟨⟨condition, body⟩, hc, h⟩ | h
    · have hs := List.sizeOf_lt_of_mem hc
      simp only [Clause.mk.sizeOf_spec] at hs
      rcases h with rfl | h
      · simp; omega
      · have := List.sizeOf_lt_of_mem (show c ∈ body from h)
        simp; omega
    · cases otherwise with
      | none => simp at h
      | some body =>
        have := List.sizeOf_lt_of_mem (show c ∈ body from h)
        simp; omega
  | forEach item iterable body span =>
    simp only [children, List.mem_cons] at h
    rcases h with rfl | h
    · simp; omega
    · have := List.sizeOf_lt_of_mem h
      simp; omega

theorem Block.sizeOf_node {b : Block} {n : Node} (h : n ∈ b.nodes) : sizeOf n < sizeOf b := by
  obtain ⟨span, params, annotations, statements⟩ := b
  simp only [nodes, List.mem_append, List.mem_filterMap] at h
  rcases h with ⟨⟨name, pspan, default?⟩, hp, h⟩ | h
  · obtain rfl : default? = some n := h
    have := List.sizeOf_lt_of_mem hp
    simp at this ⊢; omega
  · have := List.sizeOf_lt_of_mem h
    simp; omega

theorem Node.sizeOf_block {n : Node} {b : Block} (h : n.block? = some b) :
    sizeOf b < sizeOf n := by
  cases n with
  | scriptBlock body =>
    obtain rfl : body = b := Option.some.inj h
    simp only [Node.scriptBlock.sizeOf_spec]; omega
  | function name span body =>
    obtain rfl : body = b := Option.some.inj h
    simp only [Node.function.sizeOf_spec]; omega
  | _ => exact absurd h (by simp [block?])

/-- The node and all nodes inside it that belong to its scope, each before what is inside it. -/
def Node.within (n : Node) : List Node := n :: n.children.attach.flatMap fun ⟨c, _⟩ => c.within
termination_by sizeOf n
decreasing_by exact Node.sizeOf_child ‹_›

theorem Node.within_eq (n : Node) : n.within = n :: n.children.flatMap Node.within := by
  rw [within]; simp [List.flatMap_subtype]

end ScriptTaint
