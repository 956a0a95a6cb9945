import ScriptTaint.Toml.Number

/-!
# Moments written as tables

A table whose first key is `Toml.momentKey` stands for a date or time, which the value under that
key writes as a string; the other keys of the table do not count. A value that holds such a table
without a date or time in it cannot be settled.
-/

set_option autoImplicit false

namespace ScriptTaint.Toml

/-- The key that marks a table as a moment. -/
def momentKey : String := "$__toml_private_datetime"

/-- The whole text is a date, a time, or both. -/
def isMoment (s : String) : Bool :=
  match moment s.toList with
  | .took _ [] => true
  | _ => false

def isMarked (entries : List Entry) : Bool := entries.head?.any (·.key == momentKey)

/-- The moment that a string writes. -/
def Value.writtenMoment? : Value → Option Value
  | .text s => if isMoment s then some (.moment s) else none
  | _ => none

mutual

/-- The value with moments in the place of the tables that stand for them. -/
def Value.settled? : Value → Option Value
  | .array items => (settledItems? items).map .array
  | .table entries =>
    if isMarked entries then entries.head?.bind (·.value.writtenMoment?)
    else (settledEntries? entries).map .table
  | v => some v

def settledItems? : List Value → Option (List Value)
  | [] => some []
  | v :: rest => do return (← v.settled?) :: (← settledItems? rest)

def settledEntries? : List Entry → Option (List Entry)
  | [] => some []
  | ⟨key, v⟩ :: rest => do return ⟨key, ← v.settled?⟩ :: (← settledEntries? rest)

end

end ScriptTaint.Toml
