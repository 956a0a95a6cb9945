import ScriptTaint.Toml.Text

/-!
# TOML documents

`Toml.parse?` reads a document: key-value pairs, each on a line of its own, in sections under
headers. A document that defines something twice is refused.
-/

set_option autoImplicit false

namespace ScriptTaint.Toml

def taken? {α : Type} : Scan α → Option (α × List Char)
  | .took a rest => some (a, rest)
  | _ => none

/-- Reads the remaining letters of `true` or `false`. -/
def word? (v : Value) (expected cs : List Char) : Option (Value × List Char) :=
  (taken? (exactly expected cs)).map fun (_, rest) => (v, rest)

mutual

/-- Reads a value; `room` levels of nesting are left. -/
def value? (fuel room : Nat) (cs : List Char) : Option (Value × List Char) :=
  match fuel with
  | 0 => none
  | fuel + 1 =>
    match cs with
    | [] => none
    | '[' :: rest =>
      if room = 0 then none
      else (items? fuel (room - 1) rest).map fun (items, rest) => (.array items, rest)
    | '\x7b' :: rest =>
      if room = 0 then none
      else
        match skipBlanks rest with
        | '\x7d' :: rest => some (.table [], rest)
        | rest => do
          let (pairs, rest) ← pairs? fuel (room - 1) rest
          let t ← Table.plain.assignAll? pairs
          return (.table t.entries, rest)
    | c :: rest =>
      if c == '"' || c == '\x27' then (string? cs).map fun (s, rest) => (.text s, rest)
      else if c == '+' || c == '-' || c.isDigit then taken? (number cs)
      else if c == 't' then word? (.boolean true) ['r', 'u', 'e'] rest
      else if c == 'f' then word? (.boolean false) ['a', 'l', 's', 'e'] rest
      else if c == 'i' || c == 'n' then taken? (specialFloat cs)
      else none

/-- Reads the values of an array, up to its closing bracket. The last may be followed by a comma. -/
def items? (fuel room : Nat) (cs : List Char) : Option (List Value × List Char) :=
  match fuel with
  | 0 => none
  | fuel + 1 =>
    match gap? (cs.length + 1) cs with
    | none => none
    | some (']' :: rest) => some ([], rest)
    | some rest => do
      let (v, rest) ← value? fuel room rest
      match ← gap? (rest.length + 1) rest with
      | ',' :: rest => (items? fuel room rest).map fun (vs, rest) => (v :: vs, rest)
      | ']' :: rest => some ([v], rest)
      | _ => none

/-- Reads the pairs of an inline table, up to its closing brace. -/
def pairs? (fuel room : Nat) (cs : List Char) : Option (List Table.Assignment × List Char) :=
  match fuel with
  | 0 => none
  | fuel + 1 => do
    let (path, key, rest) ← key? cs
    let '=' :: rest := rest | none
    let (v, rest) ← value? fuel room (skipBlanks rest)
    match skipBlanks rest with
    | ',' :: rest => (pairs? fuel room rest).map fun (ps, rest) => (⟨path, key, v⟩ :: ps, rest)
    | '\x7d' :: rest => some ([⟨path, key, v⟩], rest)
    | _ => none

end

/-- A line of a document. -/
inductive Line
  | blank
  | header (isElement : Bool) (path : List String) (key : String)
  | pair (a : Table.Assignment)

/-- Reads a header from behind its opening brackets, up to the end of its line. -/
def header? (isElement : Bool) (cs : List Char) : Option (Line × List Char) := do
  let (path, key, rest) ← key? cs
  let close := if isElement then [']', ']'] else [']']
  let (_, rest) ← taken? (exactly close rest)
  return (.header isElement path key, ← trailing? rest)

def pair? (cs : List Char) : Option (Line × List Char) := do
  let (path, key, rest) ← key? cs
  let '=' :: rest := rest | none
  let (v, rest) ← value? (2 * rest.length + 4) maxNesting (skipBlanks rest)
  return (.pair ⟨path, key, v⟩, ← trailing? rest)

/-- Reads a line that does not start with a blank. -/
def line? (cs : List Char) : Option (Line × List Char) :=
  match cs with
  | '#' :: _ => (lineEnd? (skipComment cs)).map fun rest => (.blank, rest)
  | '[' :: '[' :: rest => header? true rest
  | '[' :: rest => header? false rest
  | '\n' :: _ | '\r' :: _ => (newline? cs).map fun rest => (.blank, rest)
  | _ => pair? cs

def lines? (fuel : Nat) (cs : List Char) : Option (List Line) :=
  match fuel with
  | 0 => none
  | fuel + 1 =>
    match skipBlanks cs with
    | [] => some []
    | cs => do
      let (line, rest) ← line? cs
      return line :: (← lines? fuel rest)

/-- The pairs before the first header, and the section of each header. -/
def sections : List Line → List Table.Assignment × List Table.Section
  | [] => ([], [])
  | .blank :: rest => sections rest
  | .pair a :: rest =>
    let (pairs, more) := sections rest
    (a :: pairs, more)
  | .header isElement path key :: rest =>
    let (pairs, more) := sections rest
    ([], ⟨path, key, isElement, pairs⟩ :: more)

/-- The entries of a document. -/
def parse? (text : String) : Option (List Entry) := do
  let cs := match text.toList with
    | '\ufeff' :: rest => rest
    | cs => cs
  let (pairs, more) := sections (← lines? (cs.length + 1) cs)
  let t ← Table.plain.assignAll? pairs
  let t ← more.foldlM Table.addSection? t
  return t.entries

end ScriptTaint.Toml
