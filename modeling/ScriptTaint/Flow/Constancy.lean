/-!
# Constancy

Whether the value of an expression is fixed at analysis time.
-/

set_option autoImplicit false

namespace ScriptTaint

inductive Constancy
  | constant
  /-- Not proved constant: the value may carry what a caller supplies. -/
  | varying
deriving DecidableEq, Repr

namespace Constancy

def isVarying (c : Constancy) : Bool := c == .varying

/-- The constancy of a value made of two; `varying` wins. -/
def join : Constancy → Constancy → Constancy
  | .constant, .constant => .constant
  | _, _ => .varying

def joinAll (cs : List Constancy) : Constancy := cs.foldl join .constant

end Constancy

end ScriptTaint
