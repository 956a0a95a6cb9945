import ScriptTaint.Sink.Alias
import ScriptTaint.Sink.CommandLine

/-!
# Code sites

The calls of sinks in a file, each with what is known of the code it is given.
-/

set_option autoImplicit false

namespace ScriptTaint

structure CodeSite where
  category : Category
  /-- The name as written at the call. -/
  sink : String
  span : Span
  /-- Some part of the code is varying. -/
  tainted : Bool
  /-- Some part of the code went through an escaping transform. -/
  escaped : Bool
deriving DecidableEq, Repr

/-- A call of a sink and the expressions it runs as code. -/
structure SinkCall where
  category : Category
  sink : String
  span : Span
  code : List Node

/-- What the bindings at the call say of its code. -/
def SinkCall.site (c : SinkCall) (b : Bindings) : CodeSite :=
  { category := c.category, sink := c.sink, span := c.span,
    tainted := c.code.any fun n => (n.constancy b).isVarying,
    escaped := c.code.any fun n => n.carriesEscaped b }

namespace Command

variable (r : SinkRegistry) (a : Aliases)

/-- The command as the call of a sink with a nonempty command line. -/
def lineCall? (c : Command) (sink : String) (tokens : List Token) : Option SinkCall :=
  let line := commandLine tokens
  if line.isEmpty then none else some ⟨.externalInterpreter, sink, c.span, line⟩

/-- The program that a launcher starts, if it is an interpreter named by a literal. -/
def launched? (c : Command) : Option String :=
  ((c.argument? ["FilePath"] (some 0)).bind Node.literal?).filter r.isInterpreter

/-- The command as the call of a sink that is given code. -/
def sinkCall? (c : Command) : Option SinkCall := do
  let written ← c.name?
  let sink ← r.resolve? a written
  match sink.category with
  | .dynamicEvaluation | .typeDefinition | .perItemOperator =>
    let code ← sink.code? c
    return ⟨sink.category, written, c.span, [code]⟩
  | .externalInterpreter => c.lineCall? written (c.elements.flatMap Element.tokens)
  | .processLauncher =>
    let program ← c.launched? r
    let arguments ← sink.code? c
    c.lineCall? program arguments.tokens
  | .reflectiveMethod | .aliasDefinition => none

/-- The command as the call of an evaluating sink that takes its code from `feed`. -/
def pipedCall? (c : Command) (feed : Node) : Option SinkCall := do
  let written ← c.name?
  let sink ← r.resolve? a written
  if sink.category = .dynamicEvaluation ∧ (sink.code? c).isNone then
    return ⟨.dynamicEvaluation, written, c.span, [feed]⟩
  else none

end Command

/-- The calls that take their code from the element before them in a pipeline. -/
def pipedCalls (r : SinkRegistry) (a : Aliases) (elements : List Node) : List SinkCall :=
  (elements.zip elements.tail).filterMap fun
    | (feed, .command c) => c.pipedCall? r a feed
    | _ => none

def Invocation.sinkCall? (r : SinkRegistry) (i : Invocation) : Option SinkCall := do
  let written ← i.name?
  let sink ← r.methodSink? i
  let code ← i.arguments[sink.position]?
  return ⟨sink.category, written, i.span, [code]⟩

/-- The calls of sinks that a node itself makes. -/
def Node.sinkCalls (r : SinkRegistry) (a : Aliases) : Node → List SinkCall
  | .command c => (c.sinkCall? r a).toList
  | .pipeline elements _ => pipedCalls r a elements
  | .invocation i => (i.sinkCall? r).toList
  | _ => []

def Visit.sites (r : SinkRegistry) (a : Aliases) : Visit → List CodeSite
  | .block _ => []
  | .node frame n => (n.sinkCalls r a).map (·.site frame.bindings)

/-- The calls of sinks in a file, in the order of the walk. -/
def SyntaxTree.codeSites (t : SyntaxTree) (r : SinkRegistry) : List CodeSite :=
  let a := t.aliases r
  t.visits.flatMap (·.sites r a)

end ScriptTaint
