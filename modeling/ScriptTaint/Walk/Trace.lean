import ScriptTaint.Walk.Visit

/-!
# The trace of a walk

A trace notes the visits of blocks and of the nodes that detectors look at, with what the frame
says of them. A bounded trace ends the walk once it is long enough.
-/

set_option autoImplicit false

namespace ScriptTaint

inductive Note
  /-- A block, with the number of variables it binds. -/
  | block (span : Span) (bound : Nat)
  | function (span : Span) (name : String)
  | assignment (span : Span) (value : Constancy)
  /-- A command, with its name unless that is computed, and whether its name is varying. -/
  | command (span : Span) (name : Option String) (isVarying : Bool)
  | pipeline (span : Span) (elements : List Constancy)
  | invocation (span : Span) (name : Option String) (arguments : List Constancy)
  | member (span : Span) (name : Option String) (isVarying : Bool)
  | binary (span : Span) (op : BinaryOp) (operands : Constancy)
  | reference (v : Variable) (constancy : Constancy) (escaped : Bool)

namespace Visit

/-- The note of a visit; nodes of other kinds are passed over in silence. -/
def note? : Visit → Option Note
  | .block frame => some (.block frame.block.span frame.bindings.size)
  | .node frame n =>
    let b := frame.bindings
    match n with
    | .function name span _ => some (.function span name)
    | .assignment _ value _ span => some (.assignment span (value.constancy b))
    | .command c => some (.command c.span c.name? (c.name.constancy b).isVarying)
    | .pipeline elements span => some (.pipeline span (elements.map (·.constancy b)))
    | .invocation i => some (.invocation i.span i.name? (i.arguments.map (·.constancy b)))
    | .member _ name _ span => some (.member span name.literal? (name.constancy b).isVarying)
    | .binary op left right span =>
      some (.binary span op ((left.constancy b).join (right.constancy b)))
    | .reference v => some (.reference v (b.constancy v) (b.isEscaped v))
    | _ => none

end Visit

namespace SyntaxTree

/-- Adds the note of a visit, and stops if `enough` says so of the notes taken. -/
def takeNote (enough : List Note → Bool) (notes : List Note) (v : Visit) : Flow (List Note) :=
  match v.note? with
  | none => .go notes
  | some note =>
    let notes := notes ++ [note]
    if enough notes then .stop notes else .go notes

/-- The notes of a walk that ends once `enough` says so of the notes taken. -/
def traceUntil (t : SyntaxTree) (enough : List Note → Bool) : List Note :=
  (t.walk (takeNote enough) []).state

/-- The notes of a walk to the end. -/
def trace (t : SyntaxTree) : List Note := t.visits.filterMap Visit.note?

/-- The notes of a walk that ends with the note by which there are `limit` of them. -/
def traceUpTo (t : SyntaxTree) (limit : Nat) : List Note :=
  t.traceUntil fun notes => limit ≤ notes.length

end SyntaxTree

end ScriptTaint
