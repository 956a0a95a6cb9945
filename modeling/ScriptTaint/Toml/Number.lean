import ScriptTaint.Json.Magnitude
import ScriptTaint.Toml.Value

/-!
# Numbers and moments in TOML text

A scanner either takes a lexeme, misses it so that another may be tried, or refuses the text.
-/

set_option autoImplicit false

namespace ScriptTaint.Toml

inductive Scan (α : Type)
  | took (a : α) (rest : List Char)
  | missed
  | refused

namespace Scan

variable {α β : Type}

/-- Goes on behind what was taken. -/
def andThen (s : Scan α) (f : α → List Char → Scan β) : Scan β :=
  match s with
  | .took a rest => f a rest
  | .missed => .missed
  | .refused => .refused

/-- Tries another lexeme where this one was missed. -/
def orElse (s : Scan α) (other : Unit → Scan α) : Scan α :=
  match s with
  | .missed => other ()
  | s => s

/-- A lexeme that may be left out. -/
def optional (cs : List Char) (s : Scan α) : Scan (Option α) :=
  match s with
  | .took a rest => .took (some a) rest
  | .missed => .took none cs
  | .refused => .refused

/-- The lexeme is due: missing it refuses the text. -/
def due (s : Scan α) : Scan α :=
  match s with
  | .missed => .refused
  | s => s

end Scan

/-- Takes one character. -/
def one (accept : Char → Bool) : List Char → Scan Char
  | c :: rest => if accept c then .took c rest else .missed
  | [] => .missed

/-! ## Digits -/

/-- Digits of one base after the first; an underscore must be followed by a digit. -/
def moreDigits (isDigit : Char → Bool) : List Char → Scan (List Char)
  | '_' :: c :: rest =>
    if isDigit c then (moreDigits isDigit rest).andThen fun ds rest => .took (c :: ds) rest
    else .refused
  | ['_'] => .refused
  | c :: rest =>
    if isDigit c then (moreDigits isDigit rest).andThen fun ds rest => .took (c :: ds) rest
    else .took [] (c :: rest)
  | [] => .took [] []

/-- One digit or more, where zeros may lead. -/
def digits (isDigit : Char → Bool) (cs : List Char) : Scan (List Char) :=
  (one isDigit cs).andThen fun c rest =>
    (moreDigits isDigit rest).andThen fun ds rest => .took (c :: ds) rest

/-- A decimal integer: a sign, and digits of which zero leads no other. -/
def wholeNumber (cs : List Char) : Scan (Option Char × List Char) :=
  (Scan.optional cs (one (fun c => c == '+' || c == '-') cs)).andThen fun sign rest =>
    match rest with
    | '0' :: rest => .took (sign, ['0']) rest
    | rest => (digits Char.isDigit rest).andThen fun ds rest => .took (sign, ds) rest

def digitValue (c : Char) : Nat :=
  if c.isDigit then c.toNat - 48 else if 'a' ≤ c then c.toNat - 87 else c.toNat - 55

def valueIn (base : Nat) (ds : List Char) : Nat := ds.foldl (fun n c => n * base + digitValue c) 0

/-- Integers have 64 bits. -/
def integerOf (negative : Bool) (n : Nat) (rest : List Char) : Scan Value :=
  if negative then if n ≤ Nat.pow 2 63 then .took (.integer (-(n : Int))) rest else .refused
  else if n < Nat.pow 2 63 then .took (.integer n) rest
  else .refused

def isHexDigit (c : Char) : Bool := c.isDigit || ('a' ≤ c && c ≤ 'f') || ('A' ≤ c && c ≤ 'F')

def integer (cs : List Char) : Scan Value :=
  let based (base : Nat) (isDigit : Char → Bool) (rest : List Char) : Scan Value :=
    (digits isDigit rest).due.andThen fun ds rest => integerOf false (valueIn base ds) rest
  match cs with
  | '0' :: 'x' :: rest => based 16 isHexDigit rest
  | '0' :: 'o' :: rest => based 8 (fun c => '0' ≤ c && c ≤ '7') rest
  | '0' :: 'b' :: rest => based 2 (fun c => c == '0' || c == '1') rest
  | cs => (wholeNumber cs).andThen fun (sign, ds) rest =>
    integerOf (sign == some '-') (valueIn 10 ds) rest

/-! ## Floats -/

/-- `digits * 10 ^ power` rounds to infinity. -/
def overflows (digits : List Char) (power : Int) : Bool :=
  let n := valueIn 10 digits
  let magnitude := (toString n).length + power
  if n == 0 || magnitude < 300 then false
  else if 320 < magnitude then true
  else if 0 ≤ power then Json.Magnitude.bound ≤ n * Nat.pow 10 power.toNat
  else Json.Magnitude.bound * Nat.pow 10 (-power).toNat ≤ n

/-- The power of ten behind `e`. -/
def exponent (cs : List Char) : Scan Int :=
  (one (fun c => c == 'e' || c == 'E') cs).andThen fun _ rest =>
    (Scan.optional rest (one (fun c => c == '+' || c == '-') rest)).andThen fun sign rest =>
      (digits Char.isDigit rest).due.andThen fun ds rest =>
        let n : Int := valueIn 10 ds
        .took (if sign == some '-' then -n else n) rest

/-- The digits behind the point. -/
def fraction (cs : List Char) : Scan (List Char) :=
  (one (· == '.') cs).andThen fun _ rest => (digits Char.isDigit rest).due

/-- What has to follow the whole part: a fraction, a power of ten, or both. -/
def floatTail (cs : List Char) : Scan (List Char × Int) :=
  ((exponent cs).andThen fun e rest => .took ([], e) rest).orElse fun _ =>
    (fraction cs).andThen fun ds rest =>
      (Scan.optional rest (exponent rest)).andThen fun e rest => .took (ds, e.getD 0) rest

/-- The text that was taken. -/
def lexeme (cs rest : List Char) : String := String.ofList (cs.take (cs.length - rest.length))

/-- Takes exactly this text. -/
def exactly (expected : List Char) (cs : List Char) : Scan Unit :=
  if expected.isPrefixOf cs then .took () (cs.drop expected.length) else .missed

def specialFloat (cs : List Char) : Scan Value :=
  (Scan.optional cs (one (fun c => c == '+' || c == '-') cs)).andThen fun _ rest =>
    ((exactly ['i', 'n', 'f'] rest).orElse fun _ => exactly ['n', 'a', 'n'] rest).andThen
      fun _ rest => .took (.float (lexeme cs rest)) rest

/-- A float. A positive one beyond the range of a double is refused. -/
def float (cs : List Char) : Scan Value :=
  ((wholeNumber cs).andThen fun (sign, before) rest =>
    (floatTail rest).andThen fun (after, e) rest =>
      if sign != some '-' && overflows (before ++ after) (e - after.length) then .refused
      else .took (.float (lexeme cs rest)) rest).orElse fun _ => specialFloat cs

/-! ## Dates and times -/

/-- A number of exactly this many digits. -/
def fixedDigits : Nat → List Char → Scan Nat
  | 0, cs => .took 0 cs
  | n + 1, cs =>
    (one Char.isDigit cs).andThen fun c rest =>
      (fixedDigits n rest).andThen fun value rest =>
        .took (digitValue c * Nat.pow 10 n + value) rest

/-- A number of two digits in a range. -/
def twoDigits (lo hi : Nat) (cs : List Char) : Scan Nat :=
  (fixedDigits 2 cs).andThen fun n rest => if lo ≤ n && n ≤ hi then .took n rest else .missed

def isLeapYear (year : Nat) : Bool := year % 4 == 0 && (year % 100 != 0 || year % 400 == 0)

def daysIn (year month : Nat) : Nat :=
  if month == 2 then if isLeapYear year then 29 else 28
  else if [4, 6, 9, 11].contains month then 30
  else 31

def date (cs : List Char) : Scan Unit :=
  (fixedDigits 4 cs).andThen fun year rest =>
    (one (· == '-') rest).andThen fun _ rest =>
      ((twoDigits 1 12 rest).andThen fun month rest =>
        (one (· == '-') rest).andThen fun _ rest =>
          (twoDigits 1 31 rest).andThen fun day rest =>
            if day ≤ daysIn year month then .took () rest else .missed).due

/-- Fractions of a second. -/
def secondFraction (cs : List Char) : Scan Unit :=
  (one (· == '.') cs).andThen fun _ rest =>
    (one Char.isDigit rest).andThen fun _ rest => .took () (rest.dropWhile Char.isDigit)

/-- A time of day; a minute may have a leap second. -/
def time (cs : List Char) : Scan Unit :=
  (twoDigits 0 23 cs).andThen fun _ rest =>
    (one (· == ':') rest).andThen fun _ rest =>
      ((twoDigits 0 59 rest).andThen fun _ rest =>
        (one (· == ':') rest).andThen fun _ rest =>
          (twoDigits 0 60 rest).andThen fun _ rest =>
            (Scan.optional rest (secondFraction rest)).andThen fun _ rest => .took () rest).due

/-- The distance of a time from UTC. -/
def zone (cs : List Char) : Scan Unit :=
  ((one (fun c => c == 'Z' || c == 'z') cs).andThen fun _ rest => .took () rest).orElse fun _ =>
    (one (fun c => c == '+' || c == '-') cs).andThen fun _ rest =>
      ((twoDigits 0 23 rest).andThen fun _ rest =>
        (one (· == ':') rest).andThen fun _ rest =>
          (twoDigits 0 59 rest).andThen fun _ rest => .took () rest).due

/-- What may follow a date: a time of day, and its zone. -/
def dateTail (cs : List Char) : Scan Unit :=
  (one (fun c => c == 'T' || c == 't' || c == ' ') cs).andThen fun _ rest =>
    (time rest).andThen fun _ rest =>
      (Scan.optional rest (zone rest)).andThen fun _ rest => .took () rest

def moment (cs : List Char) : Scan Value :=
  (((date cs).andThen fun _ rest =>
    (Scan.optional rest (dateTail rest)).andThen fun _ rest => .took () rest).orElse fun _ =>
      time cs).andThen fun _ rest => .took (.moment (lexeme cs rest)) rest

/-- Whatever starts with a sign or a digit. -/
def number (cs : List Char) : Scan Value :=
  ((moment cs).orElse fun _ => float cs).orElse fun _ => integer cs

end ScriptTaint.Toml
