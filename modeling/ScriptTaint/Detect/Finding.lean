import ScriptTaint.Script.Location

/-!
# Findings
-/

set_option autoImplicit false

namespace ScriptTaint

inductive Severity
  | error
  | warning
  | info
  | hint
deriving DecidableEq, Repr

namespace Severity

def title : Severity → String
  | .error => "error"
  | .warning => "warning"
  | .info => "info"
  | .hint => "hint"

def ofWord? (w : String) : Option Severity :=
  [.error, .warning, .info, .hint].find? fun s => s.title == w

end Severity

inductive Confidence
  | high
  | medium
  | low
deriving DecidableEq, Repr

namespace Confidence

def title : Confidence → String
  | .high => "high"
  | .medium => "medium"
  | .low => "low"

def level : Confidence → Nat
  | .high => 3
  | .medium => 2
  | .low => 1

def ofWord? (w : String) : Option Confidence :=
  [.high, .medium, .low].find? fun c => c.title == w

end Confidence

structure Finding where
  ruleId : String
  /-- The name of the detector, which suppressions refer to. -/
  detector : String
  severity : Severity
  confidence : Confidence
  message : String
  span : Span
  file : String
  line : Nat
  column : Nat
  suggestion : Option String
deriving DecidableEq, Repr

/-- Keeps the first finding of each span. -/
def Finding.firstPerSpan (fs : List Finding) : List Finding :=
  fs.foldl (fun kept f => if kept.any (·.span == f.span) then kept else kept ++ [f]) []

end ScriptTaint
