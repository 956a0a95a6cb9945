import ScriptTaint.Flow.Constancy
import ScriptTaint.Script.Name

/-!
# Bindings of a scope

For each variable of a scope, the history of its bindings in the order of their offsets. A use sees
the last binding at or before its own offset. Only the first binding of a variable can be constant:
once a second one reaches a use, the value depends on which of them ran. The mark of an escaping
transform stays as well.
-/

set_option autoImplicit false

namespace ScriptTaint

/-- What is known of a variable's value. -/
structure Binding where
  constancy : Constancy
  /-- The value went through a quote-escaping transform of varying input. -/
  escaped : Bool
deriving DecidableEq, Repr

/-- A binding and the offset from which it holds. -/
structure Event where
  since : UInt32
  binding : Binding
deriving DecidableEq, Repr

/-- The bindings of one variable, the oldest first. -/
abbrev History := List Event

namespace History

/-- Adds a binding. It cannot take effect before the one it follows, nor be constant after it. -/
def record (h : History) (since : UInt32) (b : Binding) : History :=
  match h.getLast? with
  | none => [⟨since, b⟩]
  | some last =>
    h ++ [⟨if since < last.since then last.since else since,
      ⟨.varying, b.escaped || last.binding.escaped⟩⟩]

/-- The binding that a use at `offset` sees. -/
def bindingAt? (h : History) (offset : UInt32) : Option Binding :=
  ((h.takeWhile (·.since ≤ offset)).getLast?).map (·.binding)

end History

/-- The histories of the variables bound in a scope, by key. -/
structure Bindings where
  histories : List (String × History) := []

namespace Bindings

def empty : Bindings := {}

def history (b : Bindings) (key : String) : History := (b.histories.lookup key).getD []

def contains (b : Bindings) (key : String) : Bool := (b.histories.lookup key).isSome

def size (b : Bindings) : Nat := b.histories.length

def isEmpty (b : Bindings) : Bool := b.histories.isEmpty

/-- Changes the history under `key`, in its place or else behind the others. -/
def adjust (key : String) (f : History → History) :
    List (String × History) → List (String × History)
  | [] => [(key, f [])]
  | (k, h) :: rest => if k = key then (k, f h) :: rest else (k, h) :: adjust key f rest

def record (b : Bindings) (key : String) (since : UInt32) (binding : Binding) : Bindings :=
  ⟨adjust key (·.record since binding) b.histories⟩

/-- Binds a variable to an unknown value. -/
def declare (b : Bindings) (key : String) (since : UInt32) : Bindings :=
  b.record key since ⟨.varying, false⟩

def bindingAt? (b : Bindings) (key : String) (offset : UInt32) : Option Binding :=
  (b.history key).bindingAt? offset

/-- The binding that a use of a variable sees; none for a variable of another scope. -/
def binding? (b : Bindings) (v : Variable) : Option Binding :=
  if v.isQualified then none else b.bindingAt? v.key v.span.start

/-- A variable that the scope does not bind, or not yet, may hold anything. -/
def constancy (b : Bindings) (v : Variable) : Constancy :=
  ((b.binding? v).map (·.constancy)).getD .varying

def isEscaped (b : Bindings) (v : Variable) : Bool := (b.binding? v).any (·.escaped)

end Bindings

end ScriptTaint
