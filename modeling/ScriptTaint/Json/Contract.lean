import ScriptTaint.Json.Record

/-!
# The first fault of a document

A document is accepted or refused while it is read, from its start. `Contract` finds the first
reason to refuse it: a defect of the text, or a value of the wrong shape, whichever comes first.
A value of the wrong shape is refused at its first character, before anything inside it is read;
a value that nothing asks for is passed over.
-/

set_option autoImplicit false

namespace ScriptTaint.Json

/-- The first reason to refuse a value, if there is one. -/
abbrev Contract := Json → Option Fault

namespace Contract

/-- Refuses what `accept` refuses, without looking inside. -/
def scalar (accept : Json → Bool) : Contract
  | .broken flaw => some flaw.reading
  | j => if accept j then none else some .shape

/-- A value that is read as a whole before it is judged. -/
def whole (accept : Json → Bool) : Contract := fun j =>
  match j.readFault? with
  | some fault => some fault
  | none => if accept j then none else some .shape

def optional (c : Contract) : Contract
  | .null => none
  | j => c j

def list (c : Contract) : Contract
  | .array items => items.findSome? c
  | .broken flaw => some flaw.reading
  | _ => some .shape

/-- A field of a record. -/
structure Slot where
  name : String
  required : Bool
  contract : Contract

/-- Fields of an object from left to right; `seen` are the names met so far. -/
def fields (slots : List Slot) (seen : List String) : List Field → Option Fault
  | [] =>
    if slots.all fun slot => !slot.required || seen.contains slot.name then none else some .shape
  | f :: fs =>
    match slots.find? (·.name == f.key) with
    | none => (f.value.nameFault?.or f.value.skipFault?).or (fields slots seen fs)
    | some slot =>
      if seen.contains f.key then some .shape
      else (slot.contract f.value).or (fields slots (f.key :: seen) fs)

/-- Values of an array against the fields of a record, in order. -/
def values : List Slot → List Json → Option Fault
  | [], [] => none
  | [], .broken flaw :: _ => some flaw.closing
  | [], _ :: _ => some .malformed
  | slot :: slots, [] => if slot.required then some .shape else values slots []
  | slot :: slots, j :: js => (slot.contract j).or (values slots js)

def record (slots : List Slot) : Contract
  | .object fs => fields slots [] fs
  | .array items => values slots items
  | .broken flaw => some flaw.reading
  | _ => some .shape

end Contract

end ScriptTaint.Json
