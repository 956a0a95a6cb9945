import ScriptTaint.Script.Node
import ScriptTaint.Text.Ascii

/-!
# Names of variables and types
-/

set_option autoImplicit false

namespace ScriptTaint

namespace Variable

/-- The name under which a scope keeps the variable: lower case, without the qualifier `local:`. -/
def key (v : Variable) : String :=
  let name := Text.lower v.name
  (Text.after? "local:" name).getD name

/-- The variable belongs to another scope, drive or session: `env:`, `global:`, `using:`. -/
def isQualified (v : Variable) : Bool := v.key.toList.contains ':'

/-- One of the automatic variables with a fixed value. -/
def isAutomatic (v : Variable) : Bool := ["true", "false", "null"].contains v.key

end Variable

/-- The name of a type, in lower case and without the brackets around it. -/
def typeName (written : String) : String :=
  let opened := written.toList.dropWhile (· == '[')
  Text.lower (String.ofList (opened.reverse.dropWhile (· == ']')).reverse)

end ScriptTaint
