import ScriptTaint.Script.Command
import ScriptTaint.Script.Name
import ScriptTaint.Sink.Name

/-!
# The sink registry

The commands and methods that run, compile or reinterpret text as script. Sinks are found by name
only, since the types of a script's values are rarely known.
-/

set_option autoImplicit false

namespace ScriptTaint

/-- What a sink does with its argument. -/
inductive Category
  | dynamicEvaluation
  | reflectiveMethod
  | typeDefinition
  | externalInterpreter
  | processLauncher
  | perItemOperator
  | aliasDefinition
deriving DecidableEq, Repr

namespace Category

def all : List Category :=
  [.dynamicEvaluation, .reflectiveMethod, .typeDefinition, .externalInterpreter, .processLauncher,
   .perItemOperator, .aliasDefinition]

def title : Category → String
  | .dynamicEvaluation => "dynamic_evaluation"
  | .reflectiveMethod => "reflective_method"
  | .typeDefinition => "type_definition"
  | .externalInterpreter => "external_interpreter"
  | .processLauncher => "process_launcher"
  | .perItemOperator => "per_item_operator"
  | .aliasDefinition => "alias_definition"

/-- The sink parses its argument as script or source code. -/
def evaluatesCode : Category → Bool
  | .perItemOperator | .aliasDefinition => false
  | _ => true

end Category

structure CommandSink where
  canonical : String
  category : Category
  /-- The full names of the parameters that take the dangerous argument. -/
  parameters : List String
  /-- The place of the dangerous argument when it is given without a name. -/
  position : Option Nat
deriving DecidableEq, Repr

/-- The argument that the sink treats as code. -/
def CommandSink.code? (s : CommandSink) (c : Command) : Option Node :=
  c.argument? s.parameters s.position

structure MethodSink where
  method : String
  category : Category
  position : Nat := 0
  /-- If there are any, only static calls on one of these types match. -/
  receivers : List String
deriving DecidableEq, Repr

namespace MethodSink

def acceptsReceiver (s : MethodSink) (i : Invocation) : Bool :=
  s.receivers.isEmpty ||
    match i.target with
    | .typeLiteral name _ => i.isStatic && s.receivers.contains (typeName name)
    | _ => false

def isCalledBy (s : MethodSink) (i : Invocation) : Bool :=
  i.name?.any (fun name => Text.lower s.method == Text.lower name) && s.acceptsReceiver i

end MethodSink

/-- Names of sinks that a site adds to the built-in ones. -/
structure SinkNames where
  /-- Commands that evaluate their argument like `Invoke-Expression`. -/
  evalAliases : List String := []
  /-- Methods that take script text as their first argument. -/
  dangerousMethods : List String := []
  /-- Programs that run their command line as script. -/
  interpreters : List String := []
deriving DecidableEq, Repr

def SinkNames.isEmpty (n : SinkNames) : Bool :=
  n.evalAliases.isEmpty && n.dangerousMethods.isEmpty && n.interpreters.isEmpty

structure SinkRegistry where
  /-- The registered commands in the order of registration. -/
  commands : List CommandSink := []
  /-- The places of commands by their names, the latest first: a later registration of a name
  replaces an earlier one. -/
  places : List (String × Nat) := []
  methods : List MethodSink := []
  interpreters : List String := []
  places_lt : ∀ p ∈ places, p.2 < commands.length := by simp

namespace SinkRegistry

def empty : SinkRegistry := {}

/-- Enters names of the command at a place. -/
def enter (place : Nat) (names : List String) (places : List (String × Nat)) :
    List (String × Nat) :=
  names.foldl (fun ps a => (commandName a, place) :: ps) places

theorem lt_of_mem_enter {place count : Nat} {names : List String} {places : List (String × Nat)}
    (hplace : place < count) (h : ∀ p ∈ places, p.2 < count) :
    ∀ p ∈ enter place names places, p.2 < count := by
  unfold enter
  induction names generalizing places with
  | nil => exact h
  | cons a names ih =>
    refine ih fun p hp => ?_
    rcases List.mem_cons.1 hp with rfl | hp
    · exact hplace
    · exact h p hp

/-- Registers a command under its own name and its aliases. -/
def addCommand (r : SinkRegistry) (s : CommandSink) (aliases : List String) : SinkRegistry :=
  { r with
    commands := r.commands ++ [s]
    places := enter r.commands.length (s.canonical :: aliases) r.places
    places_lt := by
      rw [List.length_append, List.length_singleton]
      exact lt_of_mem_enter (Nat.lt_succ_self _) fun p hp => Nat.lt_succ_of_lt (r.places_lt p hp) }

def addMethod (r : SinkRegistry) (s : MethodSink) : SinkRegistry :=
  { r with methods := r.methods ++ [s] }

def addInterpreter (r : SinkRegistry) (name : String) : SinkRegistry :=
  let r := { r with interpreters := commandName name :: r.interpreters }
  r.addCommand ⟨name, .externalInterpreter, [], none⟩ []

/-- The place of the command registered under a name as `commandName` gives it. -/
def place? (r : SinkRegistry) (name : String) : Option (Fin r.commands.length) :=
  r.places.attach.findSome? fun p =>
    if name == p.1.1 then some ⟨p.1.2, r.places_lt p.1 p.2⟩ else none

theorem map_val_place? (r : SinkRegistry) (name : String) :
    (r.place? name).map (·.val) = r.places.lookup name := by
  have hplace : ∀ p (hp : p ∈ r.places),
      (if name == p.1 then some (⟨p.2, r.places_lt p hp⟩ : Fin r.commands.length) else none).map
        (·.val) = if name == p.1 then some p.2 else none := by
    intro p hp
    split <;> rfl
  rw [place?, List.map_findSome?, List.findSome?_subtype hplace, List.unattach_attach,
    List.lookup_eq_findSome?]

theorem lookup_lt {r : SinkRegistry} {name : String} {place : Nat}
    (h : r.places.lookup name = some place) : place < r.commands.length := by
  rw [← r.map_val_place?] at h
  obtain ⟨i, -, rfl⟩ := Option.map_eq_some_iff.1 h
  exact i.isLt

/-- The command registered under a name as `commandName` gives it. -/
def named? (r : SinkRegistry) (name : String) : Option CommandSink :=
  (r.place? name).map r.commands.get

/-- A name stands for the command at its place. -/
theorem named?_eq (r : SinkRegistry) (name : String) :
    r.named? name = (r.places.lookup name).bind (r.commands[·]?) := by
  rw [named?, ← r.map_val_place?]
  cases r.place? name <;> simp

def isInterpreter (r : SinkRegistry) (written : String) : Bool :=
  r.interpreters.contains (commandName written)

/-- The first registered method that the call can mean. -/
def methodSink? (r : SinkRegistry) (i : Invocation) : Option MethodSink :=
  r.methods.find? (·.isCalledBy i)

/-- Adds further names for whatever `Invoke-Expression` is registered as. -/
def addEvalAliases (r : SinkRegistry) (aliases : List String) : SinkRegistry :=
  match r.place? "invoke-expression" with
  | none => r
  | some place =>
    { r with
      places := enter place aliases r.places
      places_lt := lt_of_mem_enter place.isLt r.places_lt }

/-- Adds the sinks that a site names. -/
def extend (r : SinkRegistry) (n : SinkNames) : SinkRegistry :=
  let r := r.addEvalAliases n.evalAliases
  let r := n.dangerousMethods.foldl (fun r m => r.addMethod ⟨m, .reflectiveMethod, 0, []⟩) r
  n.interpreters.foldl addInterpreter r

/-- The built-in sinks. -/
def builtin : SinkRegistry :=
  let r := empty.addCommand ⟨"Invoke-Expression", .dynamicEvaluation, ["Command"], some 0⟩ ["iex"]
  let r := ["InvokeScript", "CreateNestedPipeline", "AddScript", "NewScriptBlock",
    "ExpandString"].foldl (fun r m => r.addMethod ⟨m, .reflectiveMethod, 0, []⟩) r
  -- `Create` is too common a name to be a sink on every receiver.
  let r := r.addMethod ⟨"Create", .reflectiveMethod, 0,
    ["scriptblock", "system.management.automation.scriptblock"]⟩
  let r := r.addCommand
    ⟨"Add-Type", .typeDefinition, ["TypeDefinition", "MemberDefinition"], some 0⟩ []
  let r := ["powershell", "pwsh", "cmd"].foldl addInterpreter r
  let r := r.addCommand
    ⟨"Start-Process", .processLauncher, ["ArgumentList"], some 1⟩ ["saps", "start"]
  let r := r.addCommand
    ⟨"ForEach-Object", .perItemOperator, ["Process", "MemberName"], some 0⟩ ["%", "foreach"]
  let r := r.addMethod ⟨"ForEach", .perItemOperator, 0, []⟩
  let r := r.addCommand ⟨"Set-Alias", .aliasDefinition, ["Value"], some 1⟩ ["sal"]
  r.addCommand ⟨"New-Alias", .aliasDefinition, ["Value"], some 1⟩ ["nal"]

/-- The built-in sinks and those that a site names. -/
def withNames (n : SinkNames) : SinkRegistry := builtin.extend n

end SinkRegistry

end ScriptTaint
