import ScriptTaint.Config.Decode
import ScriptTaint.Config.Load
import ScriptTaint.Detect.Builtin
import ScriptTaint.Detect.Detector
import ScriptTaint.Detect.Finding
import ScriptTaint.Detect.Roster
import ScriptTaint.Disk
import ScriptTaint.Flow.Bindings
import ScriptTaint.Flow.Classify
import ScriptTaint.Flow.Constancy
import ScriptTaint.Flow.Escaping
import ScriptTaint.Flow.Steps
import ScriptTaint.Json.Basic
import ScriptTaint.Json.Contract
import ScriptTaint.Json.Magnitude
import ScriptTaint.Json.Printer
import ScriptTaint.Json.Reader
import ScriptTaint.Json.Record
import ScriptTaint.Proofs.AddedSinks
import ScriptTaint.Proofs.AliasChains
import ScriptTaint.Proofs.Annotations
import ScriptTaint.Proofs.BackEdges
import ScriptTaint.Proofs.BoundKeys
import ScriptTaint.Proofs.Branches
import ScriptTaint.Proofs.CommandLines
import ScriptTaint.Proofs.CommandNames
import ScriptTaint.Proofs.ConstancyLaws
import ScriptTaint.Proofs.Construction
import ScriptTaint.Proofs.DocumentOrder
import ScriptTaint.Proofs.EscapeMarks
import ScriptTaint.Proofs.Execution
import ScriptTaint.Proofs.FieldOrder
import ScriptTaint.Proofs.Fields
import ScriptTaint.Proofs.Histories
import ScriptTaint.Proofs.Indirection
import ScriptTaint.Proofs.Isolation
import ScriptTaint.Proofs.LaterCode
import ScriptTaint.Proofs.LayoutLaws
import ScriptTaint.Proofs.LetterCase
import ScriptTaint.Proofs.Likeness
import ScriptTaint.Proofs.LiteralCode
import ScriptTaint.Proofs.Locations
import ScriptTaint.Proofs.Loops
import ScriptTaint.Proofs.Monotony
import ScriptTaint.Proofs.NestedNodes
import ScriptTaint.Proofs.NestedScopes
import ScriptTaint.Proofs.Noninterference
import ScriptTaint.Proofs.PartTargets
import ScriptTaint.Proofs.Positions
import ScriptTaint.Proofs.QuotePatterns
import ScriptTaint.Proofs.ReadingDepth
import ScriptTaint.Proofs.Recordings
import ScriptTaint.Proofs.Relabelling
import ScriptTaint.Proofs.Related
import ScriptTaint.Proofs.Reordering
import ScriptTaint.Proofs.Replacement
import ScriptTaint.Proofs.ReportLikeness
import ScriptTaint.Proofs.Rereading
import ScriptTaint.Proofs.Resolution
import ScriptTaint.Proofs.RoundTrip
import ScriptTaint.Proofs.RunLaws
import ScriptTaint.Proofs.ScopeLaws
import ScriptTaint.Proofs.ScopeLinks
import ScriptTaint.Proofs.Shells
import ScriptTaint.Proofs.SinkCoverage
import ScriptTaint.Proofs.SinkLikeness
import ScriptTaint.Proofs.SinkShells
import ScriptTaint.Proofs.Sites
import ScriptTaint.Proofs.StepLaws
import ScriptTaint.Proofs.StoppedWalks
import ScriptTaint.Proofs.Walks
import ScriptTaint.Proofs.WrittenForm
import ScriptTaint.Report
import ScriptTaint.Scope.Suppression
import ScriptTaint.Scope.Tree
import ScriptTaint.Script.Command
import ScriptTaint.Script.Decode
import ScriptTaint.Script.DecodeLemmas
import ScriptTaint.Script.Encode
import ScriptTaint.Script.Kind
import ScriptTaint.Script.Layout
import ScriptTaint.Script.Location
import ScriptTaint.Script.Name
import ScriptTaint.Script.Node
import ScriptTaint.Script.Span
import ScriptTaint.Sink.Alias
import ScriptTaint.Sink.CommandLine
import ScriptTaint.Sink.Name
import ScriptTaint.Sink.Registry
import ScriptTaint.Sink.Site
import ScriptTaint.Text.Ascii
import ScriptTaint.Text.Blank
import ScriptTaint.Toml.Document
import ScriptTaint.Toml.Moment
import ScriptTaint.Toml.Number
import ScriptTaint.Toml.Text
import ScriptTaint.Toml.Value
import ScriptTaint.Walk.Trace
import ScriptTaint.Walk.Visit
