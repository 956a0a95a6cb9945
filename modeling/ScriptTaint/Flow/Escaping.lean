import ScriptTaint.Flow.Classify
import ScriptTaint.Script.Command

/-!
# Escaping by hand

Transforms that scripts use to make input safe before they paste it into code: the engine's escaping
helpers, and replacements whose pattern consists of quotes. Their result is as varying as their
operand; here it is only recognised that a value went through one.
-/

set_option autoImplicit false

namespace ScriptTaint

/-- The straight and curly quotes of the language, and the backtick. -/
def quotes : List Char :=
  ['\x27', '"', '\x60', '‘', '’', '‚', '‛', '“', '”']

/-- Quotes, each with at most one backslash before it. -/
def isQuoteRun : List Char → Bool
  | [] => true
  | '\\' :: c :: cs => quotes.contains c && isQuoteRun cs
  | c :: cs => quotes.contains c && isQuoteRun cs

/-- A pattern that matches quotes only. -/
def isQuotePattern (s : String) : Bool := !s.toList.isEmpty && isQuoteRun s.toList

/-- The helpers of the engine that escape text for code, in lower case. -/
def escapingMethods : List String :=
  ["escapesinglequotedstringcontent", "escapeblockcommentcontent", "escapeformatstringcontent",
   "escapevariablename"]

namespace Node

/-- The text of a string without interpolation. -/
def fixedText? : Node → Option String
  | .literal value _ => some value
  | .expandable value [] _ => some value
  | _ => none

/-- The pattern of a replacement operator: its right operand, or the first element of it. -/
def pattern? : Node → Option String
  | .arrayLiteral elements _ => elements.head?.bind fixedText?
  | n => n.fixedText?

/-- The expression being escaped, if the node is an escaping transform. -/
def escapedOperand? : Node → Option Node
  | .invocation i =>
    match i.name? with
    | none => none
    | some name =>
      if escapingMethods.contains (Text.lower name) then i.arguments.head?
      else if Text.lower name == "replace" && 2 ≤ i.arguments.length &&
          (i.arguments.head?.bind fixedText?).any isQuotePattern then some i.target
      else none
  | .binary .replace left right _ => if right.pattern?.any isQuotePattern then some left else none
  | .paren inner _ => inner.escapedOperand?
  | _ => none

/-- The node itself is an escaping transform of varying input, or a variable that holds the result
of one. -/
def isEscapedHere (b : Bindings) (n : Node) : Bool :=
  n.escapedOperand?.any (fun operand => (operand.constancy b).isVarying) ||
    match n with
    | .reference v => b.isEscaped v
    | _ => false

/-- Some part of the node's value went through an escaping transform of varying input. -/
def carriesEscaped (b : Bindings) (n : Node) : Bool := n.within.any (·.isEscapedHere b)

end Node

end ScriptTaint
