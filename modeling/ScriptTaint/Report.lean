import ScriptTaint.Detect.Roster
import ScriptTaint.Scope.Suppression

/-!
# Reports

The report of a file holds the findings of a roster's run, divided into those that stand and those
that a suppression silences, both in the order of the run.
-/

set_option autoImplicit false

namespace ScriptTaint

/-- What to run with: the ranking of findings, and further sinks. -/
structure Config where
  rules : Ranking := {}
  sinks : SinkNames := {}
deriving DecidableEq, Repr

/-- The built-in detectors under a configuration. -/
def Config.roster (c : Config) : Roster :=
  let r := Roster.builtin.configure c.rules
  if c.sinks.isEmpty then r else r.withSinks (.withNames c.sinks)

structure Report where
  path : String
  findings : List Finding
  suppressed : List Finding
  faults : List DetectorFault
deriving DecidableEq, Repr

def Report.isClean (r : Report) : Bool := r.findings.isEmpty && r.faults.isEmpty

namespace Roster

def report (r : Roster) (t : SyntaxTree) : Report :=
  let scopes := t.scopes
  let (findings, faults) := r.run t
  let (suppressed, standing) := findings.partition fun f => scopes.isSuppressed f.detector f.span
  { path := t.path, findings := standing, suppressed, faults }

/-- The findings of a file that no suppression silences. -/
def findings (r : Roster) (t : SyntaxTree) : List Finding := (r.report t).findings

/-- The reports of several files, in their order. -/
def reports (r : Roster) (ts : List SyntaxTree) : List Report := ts.map r.report

/-- The detectors with this at the start of their names are the roster's own to know. -/
def family : String := "InjectionRisk."

/-- The detectors that a suppression in the file names and the roster does not have. -/
def unknownSuppressions (r : Roster) (t : SyntaxTree) : List String :=
  (t.scopes.suppressions.map (·.detector)).filter fun d =>
    (Text.after? family d).isSome && (r.withName? d).isNone

end Roster

end ScriptTaint
