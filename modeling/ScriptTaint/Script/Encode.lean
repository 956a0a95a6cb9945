import ScriptTaint.Script.Kind

/-!
# The written form of a tree

Every field is written, also one that has its default value. A node is an object with its kind
under `kind`.
-/

set_option autoImplicit false

namespace ScriptTaint

def Span.toJson (s : Span) : Json :=
  .object [⟨"start", .natural s.start.toNat⟩, ⟨"end", .natural s.stop.toNat⟩]

def Variable.toJson (v : Variable) : Json :=
  .object [⟨"name", .text v.name⟩, ⟨"span", v.span.toJson⟩]

def Json.ofOption {α : Type} (write : α → Json) : Option α → Json
  | none => .null
  | some a => write a

def Annotation.toJson (a : Annotation) : Json :=
  .object [⟨"rule", .text a.rule⟩, ⟨"justification", Json.ofOption .text a.justification⟩,
    ⟨"span", a.span.toJson⟩]

/-- The object of a node: its kind, then its fields. -/
def Kind.object (k : Kind) (fields : List Field) : Json :=
  .object (⟨"kind", .text k.title⟩ :: fields)

mutual

def Node.toJson : Node → Json
  | .literal value span =>
    Kind.literal.object [⟨"value", .text value⟩, ⟨"span", span.toJson⟩]
  | .expandable value holes span =>
    Kind.expandable.object
      [⟨"value", .text value⟩, ⟨"holes", .array (Node.listToJson holes)⟩, ⟨"span", span.toJson⟩]
  | .reference v => Kind.reference.object [⟨"name", .text v.name⟩, ⟨"span", v.span.toJson⟩]
  | .typeLiteral name span =>
    Kind.typeLiteral.object [⟨"name", .text name⟩, ⟨"span", span.toJson⟩]
  | .assignment target value op span =>
    Kind.assignment.object
      [⟨"target", target.toJson⟩, ⟨"value", value.toJson⟩, ⟨"operator", .text op.title⟩,
       ⟨"span", span.toJson⟩]
  | .binary op left right span =>
    Kind.binary.object
      [⟨"operator", .text op.title⟩, ⟨"left", left.toJson⟩, ⟨"right", right.toJson⟩,
       ⟨"span", span.toJson⟩]
  | .arrayLiteral elements span =>
    Kind.arrayLiteral.object
      [⟨"elements", .array (Node.listToJson elements)⟩, ⟨"span", span.toJson⟩]
  | .paren inner span => Kind.paren.object [⟨"inner", inner.toJson⟩, ⟨"span", span.toJson⟩]
  | .subExpression statements span =>
    Kind.subExpression.object
      [⟨"statements", .array (Node.listToJson statements)⟩, ⟨"span", span.toJson⟩]
  | .cast typeName operand span =>
    Kind.cast.object
      [⟨"type_name", .text typeName⟩, ⟨"operand", operand.toJson⟩, ⟨"span", span.toJson⟩]
  | .command c => Kind.command.object (Command.fields c)
  | .pipeline elements span =>
    Kind.pipeline.object
      [⟨"elements", .array (Node.listToJson elements)⟩, ⟨"span", span.toJson⟩]
  | .invocation ⟨target, name, arguments, isStatic, span⟩ =>
    Kind.invocation.object
      [⟨"target", target.toJson⟩, ⟨"member", name.toJson⟩,
       ⟨"arguments", .array (Node.listToJson arguments)⟩, ⟨"is_static", .bool isStatic⟩,
       ⟨"span", span.toJson⟩]
  | .member target name isStatic span =>
    Kind.member.object
      [⟨"target", target.toJson⟩, ⟨"member", name.toJson⟩, ⟨"is_static", .bool isStatic⟩,
       ⟨"span", span.toJson⟩]
  | .scriptBlock b => Kind.scriptBlock.object (Block.fields b)
  | .function name span body =>
    Kind.function.object
      [⟨"name", .text name⟩, ⟨"span", span.toJson⟩, ⟨"body", .object (Block.fields body)⟩]
  | .conditional clauses otherwise span =>
    Kind.conditional.object
      [⟨"clauses", .array (Clause.listToJson clauses)⟩, ⟨"else_body", Node.bodyToJson otherwise⟩,
       ⟨"span", span.toJson⟩]
  | .forEach item iterable body span =>
    Kind.forEach.object
      [⟨"variable", item.toJson⟩, ⟨"iterable", iterable.toJson⟩,
       ⟨"body", .array (Node.listToJson body)⟩, ⟨"span", span.toJson⟩]
  | .unsupported kind span children =>
    .object
      [⟨"kind", .text kind⟩, ⟨"span", span.toJson⟩,
       ⟨"children", .array (Node.listToJson children)⟩]

def Node.listToJson : List Node → List Json
  | [] => []
  | n :: ns => n.toJson :: Node.listToJson ns

def Node.optionToJson : Option Node → Json
  | none => .null
  | some n => n.toJson

def Node.bodyToJson : Option (List Node) → Json
  | none => .null
  | some ns => .array (Node.listToJson ns)

def Command.fields : Command → List Field
  | ⟨name, elements, span⟩ =>
    [⟨"name", name.toJson⟩, ⟨"elements", .array (Element.listToJson elements)⟩,
     ⟨"span", span.toJson⟩]

def Element.toJson : Element → Json
  | .argument value => .object [⟨"kind", .text "Argument"⟩, ⟨"value", value.toJson⟩]
  | .parameter name bound span =>
    .object
      [⟨"kind", .text "Parameter"⟩, ⟨"name", .text name⟩, ⟨"argument", Node.optionToJson bound⟩,
       ⟨"span", span.toJson⟩]

def Element.listToJson : List Element → List Json
  | [] => []
  | e :: es => e.toJson :: Element.listToJson es

def Clause.toJson : Clause → Json
  | ⟨condition, body⟩ =>
    .object [⟨"condition", condition.toJson⟩, ⟨"body", .array (Node.listToJson body)⟩]

def Clause.listToJson : List Clause → List Json
  | [] => []
  | c :: cs => c.toJson :: Clause.listToJson cs

def Param.toJson : Param → Json
  | ⟨name, span, default?⟩ =>
    .object
      [⟨"name", .text name⟩, ⟨"span", span.toJson⟩, ⟨"default", Node.optionToJson default?⟩]

def Param.listToJson : List Param → List Json
  | [] => []
  | p :: ps => p.toJson :: Param.listToJson ps

def Block.fields : Block → List Field
  | ⟨span, params, annotations, statements⟩ =>
    [⟨"span", span.toJson⟩, ⟨"params", .array (Param.listToJson params)⟩,
     ⟨"suppressions", .array (annotations.map Annotation.toJson)⟩,
     ⟨"statements", .array (Node.listToJson statements)⟩]

end

def Block.toJson (b : Block) : Json := .object b.fields

def SyntaxTree.toJson (t : SyntaxTree) : Json :=
  .object
    [⟨"path", .text t.path⟩,
     ⟨"line_starts", .array (t.lineStarts.map fun o => .natural o.toNat)⟩,
     ⟨"root", t.root.toJson⟩]

end ScriptTaint
