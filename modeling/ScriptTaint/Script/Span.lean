/-!
# Spans

A span is a range of byte offsets in a script file, from `start` up to `stop`. Nothing forces a span
to be nonempty or its ends to be in order; the analysis accepts what the parser reports.
-/

set_option autoImplicit false

namespace ScriptTaint

structure Span where
  start : UInt32
  stop : UInt32
deriving DecidableEq, Repr, Inhabited

namespace Span

/-- `t` lies inside `s`. -/
def contains (s t : Span) : Bool := s.start ≤ t.start && t.stop ≤ s.stop

theorem contains_iff {s t : Span} :
    s.contains t = true ↔ s.start ≤ t.start ∧ t.stop ≤ s.stop := by
  simp [contains]

/-- The least span around two. -/
def cover (s t : Span) : Span :=
  ⟨if t.start < s.start then t.start else s.start, if s.stop < t.stop then t.stop else s.stop⟩

/-- The order by `start`, then by `stop`. -/
def order (s t : Span) : Ordering :=
  (compare s.start.toNat t.start.toNat).then (compare s.stop.toNat t.stop.toNat)

end Span

end ScriptTaint
