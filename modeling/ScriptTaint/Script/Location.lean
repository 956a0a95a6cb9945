import ScriptTaint.Script.Node

/-!
# Lines and columns
-/

set_option autoImplicit false

namespace ScriptTaint.SyntaxTree

/-- The line and column of the start of a span, both counted from one. The line is the last one that
starts at or before the offset. An offset before the first line, or any offset of a tree without
line information, is on line one. -/
def location (t : SyntaxTree) (s : Span) : Nat × Nat :=
  let line := (t.lineStarts.takeWhile (· ≤ s.start)).length - 1
  let lineStart := (t.lineStarts[line]?).getD 0
  (line + 1, s.start.toNat - lineStart.toNat + 1)

end ScriptTaint.SyntaxTree
