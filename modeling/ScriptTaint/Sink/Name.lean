import ScriptTaint.Text.Ascii
import ScriptTaint.Text.Blank

/-!
# Command names

Commands are known by their names in lower case, without the path or module in front of them and
without the suffix `.exe`: `C:\Windows\System32\cmd.exe` and `cmd` are one command.
-/

set_option autoImplicit false

namespace ScriptTaint

def isSeparator (c : Char) : Bool := c == '\\' || c == '/'

/-- What follows the last separator. -/
def lastSegment (s : String) : String :=
  String.ofList (s.toList.reverse.takeWhile fun c => !isSeparator c).reverse

/-- The name by which a command is known. -/
def commandName (written : String) : String :=
  let base := lastSegment (Text.lower (Text.trim written))
  (Text.before? ".exe" base).getD base

end ScriptTaint
