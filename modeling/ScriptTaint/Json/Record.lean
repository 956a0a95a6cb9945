import ScriptTaint.Json.Basic

/-!
# Records

A record with fixed fields is written as an object, or as the array of its values in the order of
the fields, of which trailing ones may be left off. Fields that the record does not have are
ignored; one that it has may not occur twice. A word out of a fixed list is written as a string, or
as an object with that one key and the value `null`.
-/

set_option autoImplicit false

namespace ScriptTaint.Json

/-- The fields `names` of a record, under their names. -/
def members? (names : List String) : Json → Option (List Field)
  | .object fields =>
    let known := fields.filter fun f => names.contains f.key
    if (known.map (·.key)).Nodup then some known else none
  | .array items =>
    if items.length ≤ names.length then some (names.zipWith Field.mk items) else none
  | _ => none

section
variable {α : Type}

/-- A field that has to be there. -/
def required (fields : List Field) (key : String) (read : Json → Option α) : Option α :=
  (lookup? fields key).bind read

/-- A field that has a value of its own when it is left off. -/
def defaulted (fields : List Field) (key : String) (absent : α) (read : Json → Option α) :
    Option α :=
  match lookup? fields key with
  | none => some absent
  | some j => read j

def list? (read : Json → Option α) : Json → Option (List α)
  | .array items => items.mapM read
  | _ => none

/-- A value that may be `null`. -/
def optional? (read : Json → Option α) : Json → Option (Option α)
  | .null => some none
  | j => (read j).map some

end

def text? : Json → Option String
  | .text s => some s
  | _ => none

def bool? : Json → Option Bool
  | .bool b => some b
  | _ => none

def natural? : Json → Option Nat
  | .natural n => some n
  | _ => none

/-- A natural number below `2 ^ 32`. -/
def offset? : Json → Option UInt32
  | .natural n => if n < UInt32.size then some (UInt32.ofNat n) else none
  | _ => none

/-- A word out of a fixed list. -/
def word? : Json → Option String
  | .text s => some s
  | .object [⟨s, .null⟩] => some s
  | _ => none

end ScriptTaint.Json
