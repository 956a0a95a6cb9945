import ScriptTaint.Json.Basic
import ScriptTaint.Json.Magnitude

/-!
# Reading JSON text

`Json.read` reads one value from the start of a text. It stops at the first place where the text
is no longer JSON and leaves a `broken` leaf there. Arrays and objects nest at most `maxNesting`
levels; a value beyond that, a number beyond the range of a double and a string with half of a
surrogate pair are read to their end and become `broken` leaves as well, since a reader that does
not need them may pass over them.
-/

set_option autoImplicit false

namespace ScriptTaint.Json

namespace Reader

/-- What is left of the text; `none` once the text has broken off. -/
abbrev Rest := Option (List Char)

/-- The characters that may stand between tokens. -/
def isSpace (c : Char) : Bool := c == ' ' || c == '\n' || c == '\t' || c == '\r'

/-- The text from its next token on. -/
def token (cs : List Char) : List Char := cs.dropWhile isSpace

def fail (flaw : Flaw) : Json × Rest := (.broken flaw, none)

/-- Reads the remaining letters of `null`, `true` or `false`. -/
def word (v : Json) : List Char → List Char → Json × Rest
  | [], cs => (v, some cs)
  | _ :: _, [] => fail (.cut .ended)
  | e :: es, c :: cs => if e == c then word v es cs else fail (.cut .malformed)

/-! ## Strings -/

def hexDigit? (c : Char) : Option Nat :=
  if '0' ≤ c && c ≤ '9' then some (c.toNat - 48)
  else if 'a' ≤ c && c ≤ 'f' then some (c.toNat - 87)
  else if 'A' ≤ c && c ≤ 'F' then some (c.toNat - 55)
  else none

/-- The code unit written by the next four digits. With fewer than four bytes left the text ends. -/
def unit? : List Char → Except Fault (Nat × List Char)
  | a :: b :: c :: d :: rest =>
    match hexDigit? a, hexDigit? b, hexDigit? c, hexDigit? d with
    | some a, some b, some c, some d => .ok (((a * 16 + b) * 16 + c) * 16 + d, rest)
    | _, _, _, _ => .error .malformed
  | cs => if (String.ofList cs).utf8ByteSize < 4 then .error .ended else .error .malformed

def isLeading (unit : Nat) : Bool := 0xD800 ≤ unit && unit ≤ 0xDBFF

def isTrailing (unit : Nat) : Bool := 0xDC00 ≤ unit && unit ≤ 0xDFFF

/-- The character of a surrogate pair. -/
def joined (leading trailing : Nat) : Char :=
  Char.ofNat ((leading - 0xD800) * 0x400 + (trailing - 0xDC00) + 0x10000)

/-- The character of a one-letter escape. -/
def escaped? (c : Char) : Option Char :=
  if c == '"' || c == '\\' || c == '/' then some c
  else if c == 'b' then some '\x08'
  else if c == 'f' then some '\x0c'
  else if c == 'n' then some '\n'
  else if c == 'r' then some '\r'
  else if c == 't' then some '\t'
  else none

/-- The end of a string literal: closed, with its text unless that cannot be held, or stopped. -/
inductive Literal
  | closed (text : Option String) (rest : List Char)
  | stopped (held : Bool) (fault : Fault)

/-- What a leading surrogate is followed by: its partner, none, or the end of what can be read. -/
inductive Partner
  | found (unit : Nat) (rest : List Char)
  | missing
  | stopped (fault : Fault)

def partner : List Char → Partner
  | [] => .stopped .ended
  | ['\\'] => .stopped .ended
  | '\\' :: 'u' :: rest =>
    match unit? rest with
    | .error fault => .stopped fault
    | .ok (unit, rest) => if isTrailing unit then .found unit rest else .missing
  | _ => .missing

/-- Reads a string literal from behind its opening quote. `done` holds its characters so far, the
last one first, and `held` says that no lone surrogate has been met. -/
def literal (fuel : Nat) (held : Bool) (done : List Char) (cs : List Char) : Literal :=
  match fuel with
  | 0 => .stopped held .malformed
  | fuel + 1 =>
    match cs with
    | [] => .stopped held .ended
    | '"' :: rest => .closed (if held then some (String.ofList done.reverse) else none) rest
    | ['\\'] => .stopped held .ended
    | '\\' :: 'u' :: rest =>
      match unit? rest with
      | .error fault => .stopped held fault
      | .ok (unit, rest) =>
        if isTrailing unit then literal fuel false done rest
        else if isLeading unit then
          if held then
            match partner rest with
            | .found trailing rest => literal fuel held (joined unit trailing :: done) rest
            | .missing => literal fuel false done rest
            | .stopped fault => .stopped held fault
          else literal fuel held done rest
        else literal fuel held (Char.ofNat unit :: done) rest
    | '\\' :: c :: rest =>
      match escaped? c with
      | some c => literal fuel held (c :: done) rest
      | none => .stopped held .malformed
    | c :: rest =>
      if c.toNat < 0x20 then .stopped held .malformed else literal fuel held (c :: done) rest

def text (fuel : Nat) (cs : List Char) : Json × Rest :=
  match literal fuel true [] cs with
  | .closed (some s) rest => (.text s, some rest)
  | .closed none rest => (.broken (.unheld none), some rest)
  | .stopped true fault => fail (.cut fault)
  | .stopped false fault => fail (.unheld (some fault))

/-! ## Numbers -/

/-- The text ends inside a number. A reader that passes over the number only sees that the next
digit is not one. -/
def unfinished : Flaw := ⟨.ended, some .malformed, .malformed, none⟩

def digits? (cs : List Char) : Except Flaw (List Char × List Char) :=
  match cs.span Char.isDigit with
  | ([], []) => .error unfinished
  | ([], _ :: _) => .error (.cut .malformed)
  | split => .ok split

/-- The digits before the point; no zero leads another digit. -/
def whole? (cs : List Char) : Except Flaw (List Char × List Char) := do
  match ← digits? cs with
  | ('0' :: _ :: _, _) => .error (.cut .malformed)
  | split => .ok split

/-- The digits after the point, none without a point. -/
def fraction? : List Char → Except Flaw (List Char × List Char)
  | '.' :: rest => digits? rest
  | cs => .ok ([], cs)

/-- A power of ten: what stands before its digits, and these. -/
structure Power where
  mark : List Char
  digits : List Char

def exponent? : List Char → Except Flaw (Option Power × List Char)
  | [] => .ok (none, [])
  | c :: rest =>
    if c == 'e' || c == 'E' then do
      let (mark, rest) := match rest with
        | '-' :: rest => ([c, '-'], rest)
        | '+' :: rest => ([c, '+'], rest)
        | rest => ([c], rest)
      let (ds, rest) ← digits? rest
      .ok (some ⟨mark, ds⟩, rest)
    else .ok (none, c :: rest)

def digitValues (ds : List Char) : List Nat := ds.map fun c => c.toNat - 48

def digitsValue (ds : List Char) : Nat := (digitValues ds).foldl (fun n d => n * 10 + d) 0

def Power.exponent (p : Power) : Int :=
  if p.mark.contains '-' then - (digitsValue p.digits : Int) else digitsValue p.digits

/-- The number as written. -/
def numeral (negative : Bool) (before after : List Char) (power : Option Power) : String :=
  String.ofList <|
    (if negative then ['-'] else []) ++ before ++ (if after.isEmpty then [] else '.' :: after) ++
      (power.map fun p => p.mark ++ p.digits).getD []

def number? (cs : List Char) : Except Flaw (Json × List Char) := do
  let (negative, body) := match cs with
    | '-' :: rest => (true, rest)
    | cs => (false, cs)
  let (before, rest) ← whole? body
  let (after, rest) ← fraction? rest
  let (power, rest) ← exponent? rest
  let exponent := (power.map Power.exponent).getD 0
  let value :=
    if !Magnitude.fits (digitValues before) (digitValues after) exponent then .broken (.unheld none)
    else if negative || !after.isEmpty || power.isSome then
      .decimal (numeral negative before after power)
    else .natural (digitsValue before)
  .ok (value, rest)

def number (cs : List Char) : Json × Rest :=
  match number? cs with
  | .ok (value, rest) => (value, some rest)
  | .error flaw => fail flaw

/-! ## Values -/

/-- An array or object that needs a level of nesting, of which `room` are left. -/
def hold (room : Nat) (j : Json) : Json := if room = 0 then .broken (.unheld j.skipFault?) else j

mutual

/-- Reads a value. -/
def value (fuel room : Nat) (cs : List Char) : Json × Rest :=
  match fuel with
  | 0 => fail (.cut .malformed)
  | fuel + 1 =>
    match token cs with
    | [] => fail (.cut .ended)
    | '"' :: rest => text fuel rest
    | '[' :: rest =>
      match token rest with
      | [] => (hold room (.array [.broken (.unclosed .ended)]), none)
      | ']' :: rest => (hold room (.array []), some rest)
      | rest =>
        let (items, rest) := elements fuel (room - 1) rest
        (hold room (.array items), rest)
    | '\x7b' :: rest =>
      match token rest with
      | '\x7d' :: rest => (hold room (.object []), some rest)
      | rest =>
        let (fields, rest) := members fuel (room - 1) rest
        (hold room (.object fields), rest)
    | 'n' :: rest => word .null ['u', 'l', 'l'] rest
    | 't' :: rest => word (.bool true) ['r', 'u', 'e'] rest
    | 'f' :: rest => word (.bool false) ['a', 'l', 's', 'e'] rest
    | c :: rest =>
      if c == '-' || c.isDigit then number (c :: rest) else fail (.cut .malformed)

/-- Reads the elements of an array from the first one on, and its end. -/
def elements (fuel room : Nat) (cs : List Char) : List Json × Rest :=
  match fuel with
  | 0 => ([.broken (.cut .malformed)], none)
  | fuel + 1 =>
    match value fuel room cs with
    | (v, none) => ([v], none)
    | (v, some rest) =>
      match token rest with
      | [] => ([v, .broken (.unclosed .ended)], none)
      | ']' :: rest => ([v], some rest)
      | ',' :: rest =>
        match token rest with
        | [] => ([v, .broken (.cut .ended)], none)
        | ']' :: _ => ([v, .broken (.cut .malformed)], none)
        | rest =>
          let (vs, rest) := elements fuel room rest
          (v :: vs, rest)
      | _ => ([v, .broken (.unclosed .malformed)], none)

/-- Reads the fields of an object from the first one on, and its end. A place without a field is a
field without a name, and so is a field whose name cannot be held. -/
def members (fuel room : Nat) (cs : List Char) : List Field × Rest :=
  match fuel with
  | 0 => ([⟨"", .broken (.cut .malformed)⟩], none)
  | fuel + 1 =>
    match token cs with
    | [] => ([⟨"", .broken (.cut .ended)⟩], none)
    | '"' :: rest =>
      match text fuel rest with
      | (.text key, some rest) => member fuel room (⟨key, ·⟩) rest
      | (.broken _, some rest) =>
        member fuel room (fun v => ⟨"", .broken (.unnamed v.skipFault?)⟩) rest
      | (.broken flaw, none) => ([⟨"", .broken { flaw with naming := some flaw.reading }⟩], none)
      | _ => ([⟨"", .broken (.cut .malformed)⟩], none)
    | _ => ([⟨"", .broken (.cut .malformed)⟩], none)

/-- Reads a field from behind its name, which `named` knows, and the fields after it. -/
def member (fuel room : Nat) (named : Json → Field) (cs : List Char) : List Field × Rest :=
  match fuel with
  | 0 => ([named (.broken (.cut .malformed))], none)
  | fuel + 1 =>
    match token cs with
    | [] => ([named (.broken (.cut .ended))], none)
    | ':' :: rest =>
      match value fuel room rest with
      | (v, none) => ([named v], none)
      | (v, some rest) =>
        match token rest with
        | [] => ([named v, ⟨"", .broken (.unclosed .ended)⟩], none)
        | '\x7d' :: rest => ([named v], some rest)
        | ',' :: rest =>
          let (fields, rest) := members fuel room rest
          (named v :: fields, rest)
        | _ => ([named v, ⟨"", .broken (.unclosed .malformed)⟩], none)
    | _ => ([named (.broken (.cut .malformed))], none)

end

end Reader

/-- Levels of arrays and objects that a text may nest. -/
def maxNesting : Nat := 127

/-- Reads one value; the second part is the text behind it, from its next token on. -/
def read (text : String) : Json × List Char :=
  let cs := text.toList
  match Reader.value (2 * cs.length + 4) maxNesting cs with
  | (j, some rest) => (j, Reader.token rest)
  | (j, none) => (j, [])

end ScriptTaint.Json
