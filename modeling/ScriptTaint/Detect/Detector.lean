import ScriptTaint.Detect.Finding
import ScriptTaint.Sink.Site

/-!
# Detectors

A detector looks at one tree with the known sinks. It finds a list of findings, or breaks down.
-/

set_option autoImplicit false

namespace ScriptTaint

/-- What is known of a detector apart from its findings. -/
structure Profile where
  id : String
  name : String
  description : String
  severity : Severity
  confidence : Confidence
  examples : Option String
deriving DecidableEq, Repr

/-- Why a detector broke down. -/
inductive Breakdown
  | said (text : String)
  | unexplained
deriving DecidableEq, Repr

def Breakdown.message : Breakdown → String
  | .said text => text
  | .unexplained => "detector panicked"

structure Detector where
  profile : Profile
  check : SyntaxTree → SinkRegistry → Except Breakdown (List Finding)

/-- A finding of the detector at a span of the tree. -/
def Profile.finding (p : Profile) (t : SyntaxTree) (s : Span) (message suggestion : String) :
    Finding :=
  let (line, column) := t.location s
  { ruleId := p.id, detector := p.name, severity := p.severity, confidence := p.confidence,
    message, span := s, file := t.path, line, column, suggestion := some suggestion }

/-- A detector that reports some of the code sites of a tree. -/
def Detector.ofSites (p : Profile) (reports : CodeSite → Bool) (message : String → String)
    (suggestion : String) : Detector :=
  { profile := p,
    check := fun t r =>
      .ok (Finding.firstPerSpan (((t.codeSites r).filter reports).map fun site =>
        p.finding t site.span (message site.sink) suggestion)) }

end ScriptTaint
