import ScriptTaint.Json.Basic
import ScriptTaint.Script.Node

/-!
# Kinds of node

Each modelled kind has a title, which the written form of a node carries as its tag. The place of
the kind in the list of all kinds is accepted as a tag too.
-/

set_option autoImplicit false

namespace ScriptTaint

/-- The modelled kinds. -/
inductive Kind
  | literal | expandable | reference | typeLiteral | assignment | binary | arrayLiteral | paren
  | subExpression | cast | command | pipeline | invocation | member | scriptBlock | function
  | conditional | forEach
deriving DecidableEq, Repr

namespace Kind

def all : List Kind :=
  [.literal, .expandable, .reference, .typeLiteral, .assignment, .binary, .arrayLiteral, .paren,
   .subExpression, .cast, .command, .pipeline, .invocation, .member, .scriptBlock, .function,
   .conditional, .forEach]

def title : Kind → String
  | .literal => "Literal"
  | .expandable => "ExpandableString"
  | .reference => "Variable"
  | .typeLiteral => "TypeLiteral"
  | .assignment => "Assignment"
  | .binary => "Binary"
  | .arrayLiteral => "ArrayLiteral"
  | .paren => "Paren"
  | .subExpression => "SubExpression"
  | .cast => "Cast"
  | .command => "Command"
  | .pipeline => "Pipeline"
  | .invocation => "MethodInvocation"
  | .member => "MemberAccess"
  | .scriptBlock => "ScriptBlock"
  | .function => "FunctionDefinition"
  | .conditional => "If"
  | .forEach => "ForEach"

def ofTag? : Json → Option Kind
  | .text title => all.find? (·.title == title)
  | .natural i => all[i]?
  | _ => none

end Kind

/-- The title of a node's kind; a node that is not modelled names its own. -/
def Node.title : Node → String
  | .literal .. => Kind.literal.title
  | .expandable .. => Kind.expandable.title
  | .reference _ => Kind.reference.title
  | .typeLiteral .. => Kind.typeLiteral.title
  | .assignment .. => Kind.assignment.title
  | .binary .. => Kind.binary.title
  | .arrayLiteral .. => Kind.arrayLiteral.title
  | .paren .. => Kind.paren.title
  | .subExpression .. => Kind.subExpression.title
  | .cast .. => Kind.cast.title
  | .command _ => Kind.command.title
  | .pipeline .. => Kind.pipeline.title
  | .invocation _ => Kind.invocation.title
  | .member .. => Kind.member.title
  | .scriptBlock _ => Kind.scriptBlock.title
  | .function .. => Kind.function.title
  | .conditional .. => Kind.conditional.title
  | .forEach .. => Kind.forEach.title
  | .unsupported kind .. => kind

def BinaryOp.title : BinaryOp → String
  | .add => "add"
  | .format => "format"
  | .replace => "replace"
  | .join => "join"
  | .other => "other"

/-- Every word that names no operator of its own is some other operator. -/
def BinaryOp.ofWord (w : String) : BinaryOp :=
  ([.add, .format, .replace, .join].find? fun op => op.title == w).getD .other

def AssignOp.title : AssignOp → String
  | .assign => "assign"
  | .compound => "compound"

def AssignOp.ofWord? (w : String) : Option AssignOp :=
  [.assign, .compound].find? fun op => op.title == w

end ScriptTaint
