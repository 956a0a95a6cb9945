/-!
# TOML values

`Toml.Value` is what a document holds. `Toml.Table` is a table under construction: a document
defines each table in one place, so a table remembers whether a header has named it or it was only
implied, and whether dotted keys made it.
-/

set_option autoImplicit false

namespace ScriptTaint.Toml

mutual

inductive Value
  | text (s : String)
  | integer (n : Int)
  | float (literal : String)
  | boolean (b : Bool)
  /-- A date, a time, or both. -/
  | moment (literal : String)
  | array (items : List Value)
  | table (entries : List Entry)

structure Entry where
  key : String
  value : Value

end

mutual

inductive Item
  | value (v : Value)
  | table (t : Table)
  /-- The elements of an array whose headers are written in double brackets. -/
  | tables (ts : List Table)

structure Table where
  /-- No header has named the table. -/
  implied : Bool
  /-- Dotted keys made the table. -/
  dotted : Bool
  slots : List Slot

structure Slot where
  key : String
  item : Item

end

namespace Table

/-- A table named by a header, or the document itself. -/
def plain : Table := ⟨false, false, []⟩

def item? (t : Table) (key : String) : Option Item :=
  (t.slots.find? (·.key == key)).map (·.item)

/-- Puts an item into the slot with a key, or else into a new last one. -/
def putSlot (key : String) (i : Item) : List Slot → List Slot
  | [] => [⟨key, i⟩]
  | s :: rest => if s.key == key then ⟨key, i⟩ :: rest else s :: putSlot key i rest

/-- Puts an item under a key, in the place of what the key held or else behind all others. -/
def put (t : Table) (key : String) (i : Item) : Table := { t with slots := putSlot key i t.slots }

def erase (t : Table) (key : String) : Table := { t with slots := t.slots.filter (·.key != key) }

/-- Puts an item under a key that holds nothing. -/
def insert? (t : Table) (key : String) (i : Item) : Option Table :=
  if (t.item? key).isSome then none else some (t.put key i)

/-- Changes the last of some tables. -/
def onLast? (f : Table → Option Table) (ts : List Table) : Option (List Table) := do
  let last ← ts.getLast?
  return ts.dropLast ++ [← f last]

/-- Changes the table at the end of a path of dotted keys. Such a path makes the tables it needs and
does not enter a table that a header has named; the last table must be made of dotted keys. -/
def onDotted? (f : Table → Option Table) : List String → Table → Option Table
  | [], t => if t.dotted then f t else none
  | key :: path, t =>
    match t.item? key with
    | none => do return t.put key (.table (← onDotted? f path ⟨true, true, []⟩))
    | some (.value _) => none
    | some (.tables ts) => do return t.put key (.tables (← onLast? (onDotted? f path) ts))
    | some (.table sub) =>
      if sub.implied then do return t.put key (.table (← onDotted? f path sub)) else none

/-- Changes the table at the end of a header's path, making the tables it needs. -/
def onPath? (f : Table → Option Table) : List String → Table → Option Table
  | [], t => f t
  | key :: path, t =>
    match t.item? key with
    | none => do return t.put key (.table (← onPath? f path ⟨true, false, []⟩))
    | some (.value _) => none
    | some (.tables ts) => do return t.put key (.tables (← onLast? (onPath? f path) ts))
    | some (.table sub) => do return t.put key (.table (← onPath? f path sub))

/-- A value under a dotted key: the tables it goes through, and its own key. -/
structure Assignment where
  path : List String
  key : String
  value : Value

def assign? (t : Table) (a : Assignment) : Option Table :=
  match a.path with
  | [] => t.insert? a.key (.value a.value)
  | path => onDotted? (fun sub => sub.insert? a.key (.value a.value)) path t

def assignAll? (t : Table) (as : List Assignment) : Option Table := as.foldlM assign? t

/-- The part of a document under one header. -/
structure Section where
  path : List String
  key : String
  /-- The header adds an element to an array. -/
  isElement : Bool
  body : List Assignment

/-- Adds a section. A table may be named by one header only, and not be made of dotted keys. A table
that was only implied moves behind the others when a header names it. -/
def addSection? (t : Table) (s : Section) : Option Table :=
  onPath? (fun parent =>
    if s.isElement then
      match parent.item? s.key with
      | none => do return parent.put s.key (.tables [← plain.assignAll? s.body])
      | some (.tables ts) => do
        return parent.put s.key (.tables (ts ++ [← plain.assignAll? s.body]))
      | some _ => none
    else
      match parent.item? s.key with
      | none => do return parent.put s.key (.table (← plain.assignAll? s.body))
      | some (.table sub) =>
        if sub.implied && !sub.dotted then do
          let named ← { plain with slots := sub.slots }.assignAll? s.body
          return (parent.erase s.key).put s.key (.table named)
        else none
      | some _ => none)
    s.path t

end Table

/-! ## Finished tables -/

mutual

def Item.toValue : Item → Value
  | .value v => v
  | .table t => .table (Table.entries t)
  | .tables ts => .array (Table.listToValues ts)

def Table.entries : Table → List Entry
  | ⟨_, _, slots⟩ => Slot.listToEntries slots

def Table.listToValues : List Table → List Value
  | [] => []
  | t :: ts => .table (Table.entries t) :: Table.listToValues ts

def Slot.listToEntries : List Slot → List Entry
  | [] => []
  | ⟨key, item⟩ :: rest => ⟨key, item.toValue⟩ :: Slot.listToEntries rest

end

/-- The value under a key of a finished table. -/
def lookup? (entries : List Entry) (key : String) : Option Value :=
  (entries.find? (·.key == key)).map (·.value)

end ScriptTaint.Toml
