import ScriptTaint.Script.Node
import ScriptTaint.Text.Ascii

/-!
# The arguments of a command

Parameters are given by name, abbreviated to any beginning of it, or by position. A parameter to
which the parser bound no argument takes the positional argument that follows it directly.
-/

set_option autoImplicit false

namespace ScriptTaint

namespace Command

/-- The name of the command, unless it is computed. -/
def name? (c : Command) : Option String := c.name.literal?

def positionals (c : Command) : List Node :=
  c.elements.filterMap fun
    | .argument value => some value
    | .parameter .. => none

def positional? (c : Command) (i : Nat) : Option Node := c.positionals[i]?

end Command

namespace Element

/-- The element is a parameter that abbreviates one of `names`. -/
def isParameter (names : List String) : Element → Bool
  | .argument _ => false
  | .parameter name .. => names.any (Text.abbreviates name)

/-- The argument of the first parameter that abbreviates one of `names`. -/
def namedIn? (names : List String) : List Element → Option Node
  | [] => none
  | e :: es =>
    if e.isParameter names then
      e.operand?.or (match es with
        | .argument value :: _ => some value
        | _ => none)
    else namedIn? names es

end Element

namespace Command

def named? (c : Command) (names : List String) : Option Node := Element.namedIn? names c.elements

def hasParameter (c : Command) (names : List String) : Bool :=
  c.elements.any (·.isParameter names)

/-- The argument given under one of `names`, else the one at the position. -/
def argument? (c : Command) (names : List String) (position : Option Nat) : Option Node :=
  (c.named? names).or (position.bind c.positional?)

end Command

/-- The name of the called method, unless it is computed. -/
def Invocation.name? (i : Invocation) : Option String := i.name.literal?

end ScriptTaint
