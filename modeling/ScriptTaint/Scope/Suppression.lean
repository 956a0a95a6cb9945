import ScriptTaint.Scope.Tree

/-!
# Suppressed findings

A finding is suppressed if the innermost scope around it, or one of the scopes around that, declares
a suppression of its detector whose body contains it. Names match exactly.
-/

set_option autoImplicit false

namespace ScriptTaint

def Suppression.covers (s : Suppression) (detector : String) (span : Span) : Bool :=
  s.detector == detector && s.body.contains span

namespace ScopeTree

/-- The suppressions declared in the file. -/
def suppressions (t : ScopeTree) : List Suppression := t.scopes.flatMap (·.suppressions)

/-- The scope whose suppression silences `detector` at `span`, searched from the inside outwards. -/
def covering? (t : ScopeTree) (detector : String) (span : Span) : Option Scope :=
  t.innermost? span |>.bind fun id =>
    (t.ancestors id).find? fun s => s.suppressions.any (·.covers detector span)

def isSuppressed (t : ScopeTree) (detector : String) (span : Span) : Bool :=
  (t.covering? detector span).isSome

end ScopeTree

end ScriptTaint
