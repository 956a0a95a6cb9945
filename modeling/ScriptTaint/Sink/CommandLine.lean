import ScriptTaint.Script.Command

/-!
# Command lines of interpreters

The part of an interpreter's arguments that it runs as script. Everything behind a flag such as
`-Command` or `/c` is the command line; a script run with `-File` only receives data; without either
flag the arguments themselves are the command line.
-/

set_option autoImplicit false

namespace ScriptTaint

/-- An argument of an interpreter. -/
inductive Token
  /-- A switch in lower case with its first character, and the argument bound to it. -/
  | flag (name : String) (bound : Option Node)
  | value (n : Node)

namespace Token

/-- What the token passes to the interpreter besides its name. -/
def operand? : Token → Option Node
  | .flag _ bound => bound
  | .value n => some n

def value? : Token → Option Node
  | .flag .. => none
  | .value n => some n

end Token

/-- A text written like a switch. -/
def isSwitch (s : String) : Bool := s.toList.head? == some '-' || s.toList.head? == some '/'

/-- The tokens of an argument. Arrays are flattened; literals written like switches are flags. -/
def Node.tokens (n : Node) : List Token :=
  match n with
  | .arrayLiteral elements _ => elements.attach.flatMap fun ⟨e, _⟩ => e.tokens
  | .paren inner _ => inner.tokens
  | .literal value span =>
    if isSwitch value then [.flag (Text.lower value) none] else [.value (.literal value span)]
  | other => [.value other]
termination_by sizeOf n
decreasing_by
  · exact Node.sizeOf_child (n := .arrayLiteral elements _) ‹_›
  · exact Node.sizeOf_child (n := .paren inner _) (by simp [Node.children])

def Element.tokens : Element → List Token
  | .argument value => value.tokens
  | .parameter name bound _ => [.flag ("-" ++ Text.lower name) bound]

/-- The rest of the arguments is the command line. -/
def isCommandFlag (flag : String) : Bool :=
  match Text.after? "-" flag with
  | some name =>
    Text.abbreviates name "command" || Text.abbreviates name "encodedcommand" || name == "ec"
  | none => ["/c", "/k", "/r"].contains flag

/-- The arguments run a script file. -/
def isFileFlag (flag : String) : Bool :=
  (Text.after? "-" flag).any fun name => Text.abbreviates name "file"

/-- The command line from the first decisive flag on; `none` if no flag is decisive. -/
def flaggedLine? : List Token → Option (List Node)
  | [] => none
  | .value _ :: rest => flaggedLine? rest
  | .flag name bound :: rest =>
    if isCommandFlag name then some (bound.toList ++ rest.filterMap Token.operand?)
    else if isFileFlag name then some []
    else flaggedLine? rest

/-- The expressions that an interpreter runs as script. -/
def commandLine (tokens : List Token) : List Node :=
  (flaggedLine? tokens).getD (tokens.filterMap Token.value?)

end ScriptTaint
