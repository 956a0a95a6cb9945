import ScriptTaint.Toml.Number

/-!
# Blanks, strings and keys in TOML text
-/

set_option autoImplicit false

namespace ScriptTaint.Toml

/-! ## Between lexemes -/

def isBlank (c : Char) : Bool := c == ' ' || c == '\t'

def skipBlanks (cs : List Char) : List Char := cs.dropWhile isBlank

/-- The text behind the end of a line. -/
def newline? : List Char → Option (List Char)
  | '\n' :: rest => some rest
  | '\r' :: '\n' :: rest => some rest
  | _ => none

/-- A comment holds no control characters but tabs. -/
def isCommentChar (c : Char) : Bool :=
  c == '\t' || (0x20 ≤ c.toNat && c.toNat != 0x7F)

def skipComment : List Char → List Char
  | '#' :: rest => rest.dropWhile isCommentChar
  | cs => cs

/-- The end of a line or of the text. -/
def lineEnd? : List Char → Option (List Char)
  | [] => some []
  | cs => newline? cs

/-- Blanks and a comment up to the end of the line. -/
def trailing? (cs : List Char) : Option (List Char) := lineEnd? (skipComment (skipBlanks cs))

/-- Blanks, comments and line ends, as they may stand between the values of an array. -/
def gap? (fuel : Nat) (cs : List Char) : Option (List Char) :=
  match fuel with
  | 0 => none
  | fuel + 1 =>
    match skipBlanks cs with
    | '#' :: rest => (newline? (rest.dropWhile isCommentChar)).bind (gap? fuel)
    | '\n' :: rest => gap? fuel rest
    | '\r' :: '\n' :: rest => gap? fuel rest
    | '\r' :: _ => none
    | rest => some rest

/-! ## Strings -/

/-- Characters that stand for themselves between double quotes. -/
def isBasicChar (c : Char) : Bool := isCommentChar c && c != '"' && c != '\\'

/-- Characters that may stand between single quotes. -/
def isLiteralChar (c : Char) : Bool := isCommentChar c && c != '\x27'

/-- The character of exactly `n` hexadecimal digits, which no surrogate is. -/
def codePoint? (n : Nat) (cs : List Char) : Option (Char × List Char) :=
  let ds := cs.take n
  let value := valueIn 16 ds
  if ds.length = n && ds.all isHexDigit && value.isValidChar then
    some (Char.ofNat value, cs.drop n)
  else none

/-- The character of an escape, from behind its backslash. -/
def escaped? : List Char → Option (Char × List Char)
  | 'b' :: rest => some ('\x08', rest)
  | 'f' :: rest => some ('\x0c', rest)
  | 'n' :: rest => some ('\n', rest)
  | 'r' :: rest => some ('\r', rest)
  | 't' :: rest => some ('\t', rest)
  | '\\' :: rest => some ('\\', rest)
  | '"' :: rest => some ('"', rest)
  | 'u' :: rest => codePoint? 4 rest
  | 'U' :: rest => codePoint? 8 rest
  | _ => none

/-- A string of one line in double quotes, from behind the opening one. -/
def basic? (fuel : Nat) (done cs : List Char) : Option (String × List Char) :=
  match fuel with
  | 0 => none
  | fuel + 1 =>
    match cs with
    | '"' :: rest => some (String.ofList done.reverse, rest)
    | '\\' :: rest => (escaped? rest).bind fun (c, rest) => basic? fuel (c :: done) rest
    | c :: rest => if isBasicChar c then basic? fuel (c :: done) rest else none
    | [] => none

/-- A string of one line in single quotes, from behind the opening one. -/
def literal? (cs : List Char) : Option (String × List Char) :=
  match cs.span isLiteralChar with
  | (s, '\x27' :: rest) => some (String.ofList s, rest)
  | _ => none

/-- What follows blanks and line ends. -/
def skipLineEnds (fuel : Nat) (cs : List Char) : List Char :=
  match fuel with
  | 0 => cs
  | fuel + 1 =>
    match newline? (skipBlanks cs) with
    | some rest => skipLineEnds fuel rest
    | none => skipBlanks cs

/-- A line end behind a backslash goes with the blanks and line ends that follow it. -/
def escapedLineEnd? (cs : List Char) : Option (List Char) :=
  (newline? (skipBlanks cs)).map (skipLineEnds cs.length)

/-- Quotes at the end of a string of several lines: three close it, and up to two before them belong
to the string. Fewer than three are all part of it. -/
inductive QuoteRun
  | inside (n : Nat)
  | closing (n : Nat)
  | tooMany

def QuoteRun.ofLength (n : Nat) : QuoteRun :=
  if n < 3 then .inside n else if n ≤ 5 then .closing (n - 3) else .tooMany

/-- A string of several lines in double quotes, from behind the opening ones. -/
def multiBasic? (fuel : Nat) (done cs : List Char) : Option (String × List Char) :=
  match fuel with
  | 0 => none
  | fuel + 1 =>
    match cs with
    | [] => none
    | '"' :: _ =>
      let (quotes, rest) := cs.span (· == '"')
      match QuoteRun.ofLength quotes.length with
      | .inside n => multiBasic? fuel (List.replicate n '"' ++ done) rest
      | .closing n => some (String.ofList (List.replicate n '"' ++ done).reverse, rest)
      | .tooMany => none
    | '\\' :: rest =>
      match escapedLineEnd? rest with
      | some rest => multiBasic? fuel done rest
      | none => (escaped? rest).bind fun (c, rest) => multiBasic? fuel (c :: done) rest
    | c :: rest =>
      if isBasicChar c then multiBasic? fuel (c :: done) rest
      else (newline? cs).bind (multiBasic? fuel ('\n' :: done))

/-- A string of several lines in single quotes, from behind the opening ones. -/
def multiLiteral? (fuel : Nat) (done cs : List Char) : Option (String × List Char) :=
  match fuel with
  | 0 => none
  | fuel + 1 =>
    match cs with
    | [] => none
    | '\x27' :: _ =>
      let (quotes, rest) := cs.span (· == '\x27')
      match QuoteRun.ofLength quotes.length with
      | .inside n => multiLiteral? fuel (List.replicate n '\x27' ++ done) rest
      | .closing n => some (String.ofList (List.replicate n '\x27' ++ done).reverse, rest)
      | .tooMany => none
    | c :: rest =>
      if isLiteralChar c then multiLiteral? fuel (c :: done) rest
      else (newline? cs).bind (multiLiteral? fuel ('\n' :: done))

/-- A string of several lines drops a line end right behind its opening quotes. -/
def skipNewline (cs : List Char) : List Char := (newline? cs).getD cs

/-- A string of any of the four forms. -/
def string? (cs : List Char) : Option (String × List Char) :=
  match cs with
  | '"' :: '"' :: '"' :: rest => multiBasic? (cs.length + 1) [] (skipNewline rest)
  | '"' :: rest => basic? (cs.length + 1) [] rest
  | '\x27' :: '\x27' :: '\x27' :: rest => multiLiteral? (cs.length + 1) [] (skipNewline rest)
  | '\x27' :: rest => literal? rest
  | _ => none

/-! ## Keys -/

def isBareChar (c : Char) : Bool := c.isAlphanum || c == '-' || c == '_'

def simpleKey? (cs : List Char) : Option (String × List Char) :=
  match cs with
  | '"' :: rest => basic? (cs.length + 1) [] rest
  | '\x27' :: rest => literal? rest
  | cs =>
    match cs.span isBareChar with
    | ([], _) => none
    | (s, rest) => some (String.ofList s, rest)

/-- Keys with dots between them, and blanks around each. -/
def dottedKeys? (fuel : Nat) (cs : List Char) : Option (List String × List Char) :=
  match fuel with
  | 0 => none
  | fuel + 1 =>
    (simpleKey? (skipBlanks cs)).bind fun (key, rest) =>
      match skipBlanks rest with
      | '.' :: rest => (dottedKeys? fuel rest).map fun (keys, rest) => (key :: keys, rest)
      | rest => some ([key], rest)

/-- Levels that arrays, inline tables and dotted keys may nest. -/
def maxNesting : Nat := 79

/-- A dotted key: the tables it goes through, and the last key. -/
def key? (cs : List Char) : Option (List String × String × List Char) := do
  let (keys, rest) ← dottedKeys? (cs.length + 1) cs
  let last ← keys.getLast?
  if keys.length ≤ maxNesting then some (keys.dropLast, last, rest) else none

end ScriptTaint.Toml
