/-!
# Names up to ASCII case

Commands, variables, parameters, members and types are named without regard to the case of the
letters `A`-`Z`. Every other character stands for itself, so folding keeps the number of
characters and of bytes.
-/

set_option autoImplicit false

namespace ScriptTaint.Text

/-- The text with the letters `A`-`Z` in lower case. -/
def lower (s : String) : String := String.ofList (s.toList.map Char.toLower)

/-- What follows `lead` in `s`, if `s` starts with it. -/
def after? (lead s : String) : Option String :=
  if lead.toList.isPrefixOf s.toList then some (String.ofList (s.toList.drop lead.toList.length))
  else none

/-- What precedes `tail` in `s`, if `s` ends with it. -/
def before? (tail s : String) : Option String :=
  if tail.toList.isSuffixOf s.toList then
    some (String.ofList (s.toList.take (s.toList.length - tail.toList.length)))
  else none

/-- `written` is a nonempty beginning of `full`, up to case: `-Co` abbreviates `Command`. -/
def abbreviates (written full : String) : Bool :=
  !written.toList.isEmpty && (lower written).toList.isPrefixOf (lower full).toList

end ScriptTaint.Text
