import ScriptTaint.Json.Record
import ScriptTaint.Report
import ScriptTaint.Toml.Document
import ScriptTaint.Toml.Moment

/-!
# Reading configurations

A configuration is written as JSON or as TOML. Every setting may be left off. In TOML a record is a
table, or the array of its values, of which those beyond the last field are ignored; a date or time
counts as a table without any known key.
-/

set_option autoImplicit false

namespace ScriptTaint

/-! ## From JSON -/

namespace Json

def texts? : Json → Option (List String) := list? text?

def severity? (j : Json) : Option Severity := (word? j).bind Severity.ofWord?

def confidence? (j : Json) : Option Confidence := (word? j).bind Confidence.ofWord?

def severities? : Json → Option (List (String × Severity))
  | .object fields => fields.mapM fun f => (severity? f.value).map fun s => (f.key, s)
  | _ => none

end Json

section
open Json (defaulted optional? texts? confidence? severities?)

def Ranking.ofJson? (j : Json) : Option Ranking := do
  let m ← j.members? ["disabled", "severity", "min_confidence"]
  let disabled ← defaulted m "disabled" [] texts?
  let severity ← defaulted m "severity" [] severities?
  let minConfidence ← defaulted m "min_confidence" none (optional? confidence?)
  return ⟨disabled, severity, minConfidence⟩

def SinkNames.ofJson? (j : Json) : Option SinkNames := do
  let m ← j.members? ["eval_aliases", "dangerous_methods", "interpreters"]
  let evalAliases ← defaulted m "eval_aliases" [] texts?
  let dangerousMethods ← defaulted m "dangerous_methods" [] texts?
  let interpreters ← defaulted m "interpreters" [] texts?
  return ⟨evalAliases, dangerousMethods, interpreters⟩

def Config.ofJson? (j : Json) : Option Config := do
  let m ← j.members? ["rules", "sinks"]
  let rules ← defaulted m "rules" {} Ranking.ofJson?
  let sinks ← defaulted m "sinks" {} SinkNames.ofJson?
  return ⟨rules, sinks⟩

end

/-! ## From TOML -/

namespace Toml

def members? (names : List String) : Value → Option (List Entry)
  | .table entries => some entries
  | .array items => some (names.zipWith Entry.mk items)
  | .moment _ => some []
  | _ => none

def defaulted {α : Type} (entries : List Entry) (key : String) (absent : α)
    (read : Value → Option α) : Option α :=
  match lookup? entries key with
  | none => some absent
  | some v => read v

def text? : Value → Option String
  | .text s => some s
  | _ => none

def texts? : Value → Option (List String)
  | .array items => items.mapM text?
  | _ => none

/-- A word out of a fixed list: a string, or a table with that one key and nothing under it. -/
def choice? : Value → Option String
  | .text s => some s
  | .table [⟨s, .table []⟩] => some s
  | .table [⟨s, .array []⟩] => some s
  | _ => none

def severities? : Value → Option (List (String × Severity))
  | .table entries =>
    entries.mapM fun e => ((choice? e.value).bind Severity.ofWord?).map fun s => (e.key, s)
  | _ => none

end Toml

section
open Toml (defaulted texts? choice? severities?)

def Ranking.ofToml? (v : Toml.Value) : Option Ranking := do
  let m ← Toml.members? ["disabled", "severity", "min_confidence"] v
  let disabled ← defaulted m "disabled" [] texts?
  let severity ← defaulted m "severity" [] severities?
  let minConfidence ← defaulted m "min_confidence" none fun v =>
    ((choice? v).bind Confidence.ofWord?).map some
  return ⟨disabled, severity, minConfidence⟩

def SinkNames.ofToml? (v : Toml.Value) : Option SinkNames := do
  let m ← Toml.members? ["eval_aliases", "dangerous_methods", "interpreters"] v
  let evalAliases ← defaulted m "eval_aliases" [] texts?
  let dangerousMethods ← defaulted m "dangerous_methods" [] texts?
  let interpreters ← defaulted m "interpreters" [] texts?
  return ⟨evalAliases, dangerousMethods, interpreters⟩

def Config.ofToml? (document : List Toml.Entry) : Option Config := do
  let rules ← defaulted document "rules" {} Ranking.ofToml?
  let sinks ← defaulted document "sinks" {} SinkNames.ofToml?
  return ⟨rules, sinks⟩

end

/-! ## Unknown settings -/

/-- The keys that are not known, in ascending order. -/
def unknownKeys (known : List String) (entries : List Toml.Entry) : List String :=
  ((entries.map (·.key)).filter fun k => !known.contains k).mergeSort fun a b => decide (a ≤ b)

def sectionWarnings (document : List Toml.Entry) (name : String) (known : List String) :
    List String :=
  match Toml.lookup? document name with
  | some (.table entries) =>
    (unknownKeys known entries).map fun k =>
      "Unknown config option in [" ++ name ++ "]: '" ++ k ++ "'"
  | _ => []

/-- A warning for each setting that the document makes and no configuration has. A document with a
value that cannot be settled gives none. -/
def Config.warnings (document : List Toml.Entry) : List String :=
  match Toml.settledEntries? document with
  | none => []
  | some document =>
    (unknownKeys ["rules", "sinks"] document).map
        (fun k => "Unknown config option: '" ++ k ++ "'") ++
      sectionWarnings document "rules" ["disabled", "severity", "min_confidence"] ++
      sectionWarnings document "sinks" ["eval_aliases", "dangerous_methods", "interpreters"]

end ScriptTaint
