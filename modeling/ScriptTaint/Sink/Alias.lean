import ScriptTaint.Sink.Registry
import ScriptTaint.Walk.Visit

/-!
# Aliases that a script defines

Collected from the whole file, whatever scope defines them: an alias defined in a function is
visible to its callers. The latest definition of a name counts.
-/

set_option autoImplicit false

namespace ScriptTaint

/-- The target of each alias; names and targets are as `commandName` gives them. -/
structure Aliases where
  targets : List (String × String) := []

namespace Aliases

def empty : Aliases := {}

def size (a : Aliases) : Nat := a.targets.length

def isEmpty (a : Aliases) : Bool := a.targets.isEmpty

def insert (a : Aliases) (name target : String) : Aliases :=
  ⟨(commandName name, commandName target) :: a.targets.filter (·.1 != commandName name)⟩

def target? (a : Aliases) (name : String) : Option String := a.targets.lookup name

end Aliases

namespace SinkRegistry

/-- Follows aliases from a name to a registered command, through at most `bound` names. -/
def follow? (r : SinkRegistry) (a : Aliases) : Nat → String → Option CommandSink
  | 0, _ => none
  | bound + 1, name =>
    match r.named? name with
    | some s => some s
    | none => (a.target? name).bind (r.follow? a bound)

/-- The sink that a command name means. A chain of aliases that meets no sink within as many names
as there are aliases, and one more, goes round in a circle. -/
def resolve? (r : SinkRegistry) (a : Aliases) (written : String) : Option CommandSink :=
  r.follow? a (a.size + 1) (commandName written)

def commandSink? (r : SinkRegistry) (a : Aliases) (c : Command) : Option CommandSink :=
  c.name?.bind (r.resolve? a)

end SinkRegistry

namespace Command

/-- The alias and the target that a command defines, both given as literals. -/
def aliasDefinition? (r : SinkRegistry) (c : Command) : Option (String × String) := do
  let sink ← r.commandSink? .empty c
  if sink.category = .aliasDefinition then
    let name ← (c.argument? ["Name"] (some 0)).bind Node.literal?
    let target ← (c.argument? ["Value"] (some 1)).bind Node.literal?
    return (name, target)
  else none

end Command

/-- The alias definition that a visit meets. -/
def Visit.aliasDefinition? (r : SinkRegistry) : Visit → Option (String × String)
  | .node _ (.command c) => c.aliasDefinition? r
  | _ => none

/-- The aliases that a file defines. -/
def SyntaxTree.aliases (t : SyntaxTree) (r : SinkRegistry) : Aliases :=
  (t.visits.filterMap (·.aliasDefinition? r)).foldl (fun a (name, target) => a.insert name target)
    .empty

end ScriptTaint
