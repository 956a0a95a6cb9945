/-!
# JSON values

`Json` is a JSON text as far as it could be read. An object keeps its fields in the order of the
text, duplicates included; a leaf `broken` stands where the text has no value to give, so that what
comes before the first defect can still be judged first.

`Json.canonical` is the value a map-based store would hold: of the fields with one key the last
stays, and keys ascend.
-/

set_option autoImplicit false

namespace ScriptTaint

/-- Why a document cannot be accepted. -/
inductive Fault
  /-- The text is not JSON, or is JSON that cannot be held: nested too deeply, a number beyond the
  range of a double, half of a surrogate pair. -/
  | malformed
  /-- The text ends too early. -/
  | ended
  /-- The text is JSON of the wrong shape. -/
  | shape
deriving DecidableEq, Repr

namespace Json

/-- A place without a value, by what becomes of it in the ways a reader can meet it. -/
structure Flaw where
  /-- Reported by a reader that needs the value. -/
  reading : Fault
  /-- Reported by a reader that passes over the value; `none` if that is harmless. -/
  skipping : Option Fault
  /-- Reported by a reader for whom the array should have been closed before this element. -/
  closing : Fault
  /-- Reported by a reader that needs the name of the field; `none` if there is nothing wrong with
  that. -/
  naming : Option Fault := none
deriving DecidableEq, Repr

/-- The text breaks off where a value is due. -/
def Flaw.cut (f : Fault) : Flaw := ⟨f, some f, .malformed, none⟩

/-- The text breaks off where an array or object should go on or end. -/
def Flaw.unclosed (f : Fault) : Flaw := ⟨f, some f, f, none⟩

/-- A value that is written well and cannot be held. -/
def Flaw.unheld (inside : Option Fault) : Flaw := ⟨.malformed, inside, .malformed, none⟩

/-- A field whose name is written well and cannot be held. -/
def Flaw.unnamed (inside : Option Fault) : Flaw := ⟨.malformed, inside, .malformed, some .malformed⟩

end Json

mutual

inductive Json
  | null
  | bool (b : Bool)
  /-- A number written with digits only. -/
  | natural (n : Nat)
  /-- Any other number, as written. -/
  | decimal (literal : String)
  | text (s : String)
  | array (items : List Json)
  | object (fields : List Field)
  | broken (flaw : Json.Flaw)

structure Field where
  key : String
  value : Json

end

namespace Json

/-- The values directly inside an array or object, in order. -/
def parts : Json → List Json
  | .array items => items
  | .object fields => fields.map (·.value)
  | _ => []

theorem sizeOf_part {j p : Json} (h : p ∈ j.parts) : sizeOf p < sizeOf j := by
  cases j with
  | array items =>
    have := List.sizeOf_lt_of_mem (show p ∈ items from h)
    simp only [Json.array.sizeOf_spec]; omega
  | object fields =>
    obtain ⟨⟨key, value⟩, hf, rfl⟩ := List.mem_map.1 (show p ∈ fields.map (·.value) from h)
    have := List.sizeOf_lt_of_mem hf
    simp only [Field.mk.sizeOf_spec] at this
    simp only [Json.object.sizeOf_spec]; omega
  | _ => simp [parts] at h

theorem sizeOf_value {f : Field} {fields : List Field} (h : f ∈ fields) :
    sizeOf f.value < sizeOf (Json.object fields) :=
  sizeOf_part (List.mem_map.2 ⟨f, h, rfl⟩)

def isContainer : Json → Bool
  | .array _ | .object _ => true
  | _ => false

/-- Levels of arrays and objects; a scalar has none. -/
def nesting (j : Json) : Nat :=
  if j.isContainer then (j.parts.attach.map fun ⟨p, _⟩ => p.nesting).foldr max 0 + 1 else 0
termination_by sizeOf j
decreasing_by exact sizeOf_part ‹_›

theorem nesting_eq (j : Json) :
    j.nesting = if j.isContainer then (j.parts.map nesting).foldr max 0 + 1 else 0 := by
  rw [nesting]; simp

def flaw? : Json → Option Flaw
  | .broken flaw => some flaw
  | _ => none

/-- What is wrong with the name of the field that has this value. -/
def nameFault? (j : Json) : Option Fault := j.flaw?.bind (·.naming)

/-- The first defect met by a reader that needs the whole value. -/
def readFault? (j : Json) : Option Fault :=
  match j.flaw? with
  | some flaw => some flaw.reading
  | none => j.parts.attach.findSome? fun ⟨p, _⟩ => p.readFault?
termination_by sizeOf j
decreasing_by exact sizeOf_part ‹_›

/-- The first defect met by a reader that passes over the value. -/
def skipFault? (j : Json) : Option Fault :=
  match j.flaw? with
  | some flaw => flaw.skipping
  | none => j.parts.attach.findSome? fun ⟨p, _⟩ => p.skipFault?
termination_by sizeOf j
decreasing_by exact sizeOf_part ‹_›

/-- Puts `f` into fields with ascending keys, in place of a field of that key. -/
def insertField (f : Field) : List Field → List Field
  | [] => [f]
  | g :: gs =>
    if f.key < g.key then f :: g :: gs
    else if f.key = g.key then f :: gs
    else g :: insertField f gs

/-- One field per key, the last, in ascending order of keys. -/
def collapse (fields : List Field) : List Field :=
  fields.foldl (fun done f => insertField f done) []

def canonical (j : Json) : Json :=
  match j with
  | .array items => .array (items.attach.map fun ⟨i, _⟩ => i.canonical)
  | .object fields =>
    .object (collapse (fields.attach.map fun ⟨f, _⟩ => ⟨f.key, f.value.canonical⟩))
  | _ => j
termination_by sizeOf j
decreasing_by
  · exact sizeOf_part (j := .array items) ‹_›
  · exact sizeOf_value ‹_›

mutual

def beq : Json → Json → Bool
  | .null, .null => true
  | .bool a, .bool b => a == b
  | .natural a, .natural b => a == b
  | .decimal a, .decimal b => a == b
  | .text a, .text b => a == b
  | .array as, .array bs => beqItems as bs
  | .object as, .object bs => beqFields as bs
  | .broken a, .broken b => decide (a = b)
  | _, _ => false

def beqItems : List Json → List Json → Bool
  | [], [] => true
  | a :: as, b :: bs => beq a b && beqItems as bs
  | _, _ => false

def beqFields : List Field → List Field → Bool
  | [], [] => true
  | ⟨j, a⟩ :: as, ⟨k, b⟩ :: bs => j == k && beq a b && beqFields as bs
  | _, _ => false

end

instance : BEq Json := ⟨beq⟩

/-- The value of the first field of that key. -/
def lookup? (fields : List Field) (key : String) : Option Json :=
  (fields.find? (·.key == key)).map (·.value)

end Json

end ScriptTaint
