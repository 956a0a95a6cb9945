import ScriptTaint.Detect.Builtin

/-!
# The detectors of a run

A roster holds detectors in the order in which they run, the sinks they know, and the settings under
which their findings are reported. A detector that breaks down gives no findings and one fault, and
the others still run.
-/

set_option autoImplicit false

namespace ScriptTaint

/-- Which detectors run and how their findings rank. Detectors are named by id or by name. -/
structure Ranking where
  disabled : List String := []
  severity : List (String × Severity) := []
  minConfidence : Option Confidence := none
deriving DecidableEq, Repr

structure DetectorFault where
  ruleId : String
  detector : String
  message : String
deriving DecidableEq, Repr

structure Roster where
  detectors : List Detector := []
  sinks : SinkRegistry := .builtin
  ranking : Ranking := {}

namespace Ranking

def isDisabled (k : Ranking) (p : Profile) : Bool :=
  k.disabled.contains p.id || k.disabled.contains p.name

/-- The severity set for a detector, by id before name. -/
def severity? (k : Ranking) (p : Profile) : Option Severity :=
  (k.severity.lookup p.id).or (k.severity.lookup p.name)

def leastLevel (k : Ranking) : Nat := (k.minConfidence.getD .low).level

/-- The findings of a detector as they are reported. -/
def apply (k : Ranking) (p : Profile) (fs : List Finding) : List Finding :=
  (fs.map fun f => { f with severity := (k.severity? p).getD f.severity }).filter fun f =>
    k.leastLevel ≤ f.confidence.level

end Ranking

namespace Roster

/-- The built-in detectors. -/
def builtin : Roster := { detectors := Detector.builtin }

def size (r : Roster) : Nat := r.detectors.length

def isEmpty (r : Roster) : Bool := r.detectors.isEmpty

def add (r : Roster) (d : Detector) : Roster := { r with detectors := r.detectors ++ [d] }

def withSinks (r : Roster) (s : SinkRegistry) : Roster := { r with sinks := s }

/-- Replaces all settings. -/
def configure (r : Roster) (k : Ranking) : Roster := { r with ranking := k }

def withId? (r : Roster) (id : String) : Option Detector :=
  r.detectors.find? (·.profile.id == id)

def withName? (r : Roster) (name : String) : Option Detector :=
  r.detectors.find? (·.profile.name == name)

/-- Whether the detector of that id, else of that name, runs. -/
def isEnabled (r : Roster) (idOrName : String) : Bool :=
  ((r.withId? idOrName).or (r.withName? idOrName)).any fun d => !r.ranking.isDisabled d.profile

/-- The findings and faults of a tree, detector by detector. -/
def run (r : Roster) (t : SyntaxTree) : List Finding × List DetectorFault :=
  (r.detectors.filter fun d => !r.ranking.isDisabled d.profile).foldl
    (fun (findings, faults) d =>
      match d.check t r.sinks with
      | .ok fs => (findings ++ r.ranking.apply d.profile fs, faults)
      | .error e => (findings, faults ++ [⟨d.profile.id, d.profile.name, e.message⟩]))
    ([], [])

end Roster

end ScriptTaint
