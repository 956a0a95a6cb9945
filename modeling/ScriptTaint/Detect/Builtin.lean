import ScriptTaint.Detect.Detector

/-!
# The built-in detectors

Five report sinks that are given varying code, one for each way of running it; one reports members
that are named by varying input; and one reports code that was escaped by hand.
-/

set_option autoImplicit false

namespace ScriptTaint.Detector

def quoted (s : String) : String := "'" ++ s ++ "'"

/-- The site gives varying code to a sink of the category. -/
def isTaintedSite (c : Category) (site : CodeSite) : Bool := site.category == c && site.tainted

def invokeExpression : Detector :=
  ofSites
    { id := "IH001", name := "InjectionRisk.InvokeExpression",
      description := "Disallow evaluating strings built from non-constant input",
      severity := .error, confidence := .high,
      examples := some "# Bad\nInvoke-Expression \"Get-Process -Name $Name\"\n$Name | iex\n\n# Good\nGet-Process -Name $Name" }
    (isTaintedSite .dynamicEvaluation)
    (fun sink => "Possible code injection: " ++ quoted sink ++
      " evaluates a string built from non-constant input")
    "Call the command directly, or use a script block and pass data as arguments: & \x7b param($x) ... \x7d $value"

def dangerousMethod : Detector :=
  ofSites
    { id := "IH002", name := "InjectionRisk.DangerousMethod",
      description := "Disallow passing non-constant script text to script-executing engine methods",
      severity := .error, confidence := .high,
      examples := some "# Bad\n$ExecutionContext.InvokeCommand.InvokeScript(\"Get-Item $Path\")\n[ScriptBlock]::Create(\"Get-Item $Path\")\n\n# Good\n$sb = \x7b param($p) Get-Item $p \x7d\n& $sb $Path" }
    (isTaintedSite .reflectiveMethod)
    (fun sink => "Possible code injection: " ++ quoted sink ++
      " runs script text built from non-constant input")
    "Use a script block literal and pass data as arguments instead of building script text"

def addType : Detector :=
  ofSites
    { id := "IH003", name := "InjectionRisk.AddType",
      description := "Disallow compiling type definitions built from non-constant input",
      severity := .error, confidence := .high,
      examples := some "# Bad\nAdd-Type -TypeDefinition \"public class C \x7b $Body \x7d\"\n\n# Good\nAdd-Type -TypeDefinition 'public class C \x7b public static int F(int x) \x7b return x; \x7d \x7d'" }
    (isTaintedSite .typeDefinition)
    (fun sink => "Possible code injection: " ++ quoted sink ++
      " compiles source built from non-constant input")
    "Keep type definitions constant and pass data to the compiled type at runtime"

def commandInjection : Detector :=
  ofSites
    { id := "IH004", name := "InjectionRisk.CommandInjection",
      description := "Disallow passing non-constant text as a command line to a nested shell",
      severity := .error, confidence := .high,
      examples := some "# Bad\npowershell.exe -Command \"Get-Item $Path\"\ncmd /c \"dir $Path\"\n\n# Good\npowershell.exe -File .\\show.ps1 -Path $Path" }
    (isTaintedSite .externalInterpreter)
    (fun sink => "Possible command injection: the command line passed to " ++ quoted sink ++
      " contains non-constant input")
    "Run a script with -File and pass the data as script arguments, or call the command directly"

def forEachObject : Detector :=
  ofSites
    { id := "IH005", name := "InjectionRisk.ForEachObjectInjection",
      description := "Disallow non-constant member names in per-item operators",
      severity := .warning, confidence := .medium,
      examples := some "# Bad\n$items | ForEach-Object $Member\n$items.ForEach($Member)\n\n# Good\n$items | ForEach-Object \x7b $_.Name \x7d\n$items | ForEach-Object Name" }
    (isTaintedSite .perItemOperator)
    (fun sink => "Possible member injection: " ++ quoted sink ++
      " receives a non-constant operand that may name a method to invoke on each item")
    "Pass a script block literal or a constant member name"

/-! ## Computed members -/

/-- A member named by a varying expression. -/
structure ComputedMember where
  span : Span
  isStatic : Bool
  isInvoked : Bool

def ComputedMember.message (m : ComputedMember) : String :=
  "Possible member injection: a " ++ (if m.isStatic then "static " else "") ++
    (if m.isInvoked then "method named by non-constant input is invoked"
     else "member named by non-constant input is obtained and may be invoked later")

def isComputed (frame : Frame) (name : Node) : Bool :=
  name.literal?.isNone && (name.constancy frame.bindings).isVarying

/-- The computed member that a visit meets. -/
def computedMember? : Visit → Option ComputedMember
  | .node frame (.invocation i) =>
    if isComputed frame i.name then some ⟨i.span, i.isStatic, true⟩ else none
  | .node frame (.member _ name isStatic span) =>
    if isComputed frame name then some ⟨span, isStatic, false⟩ else none
  | _ => none

def memberInjectionProfile : Profile :=
  { id := "IH006", name := "InjectionRisk.MemberInjection",
    description := "Disallow invoking or obtaining members whose names come from non-constant input",
    severity := .warning, confidence := .medium,
    examples := some "# Bad\n$obj.$Method()\n[Math]::$Name(1)\n\n# Good\nswitch ($Method) \x7b 'Start' \x7b $obj.Start() \x7d 'Stop' \x7b $obj.Stop() \x7d \x7d" }

def memberInjection : Detector :=
  { profile := memberInjectionProfile,
    check := fun t _ =>
      .ok (Finding.firstPerSpan ((t.visits.filterMap computedMember?).map fun m =>
        memberInjectionProfile.finding t m.span m.message
          "Map the input to a fixed set of member names, e.g. with a switch statement")) }

def handEscaping : Detector :=
  ofSites
    { id := "IH007", name := "InjectionRisk.UnsafeEscaping",
      description := "Disallow relying on manual quote escaping before evaluating input as code",
      severity := .warning, confidence := .medium,
      examples := some "# Bad\n$safe = $Name -replace \"'\", \"''\"\nInvoke-Expression \"Get-Item '$safe'\"\n\n# Good\nGet-Item -LiteralPath $Name" }
    (fun site => site.escaped && site.category.evaluatesCode)
    (fun sink => "Unsafe escaping: input escaped by hand is evaluated by " ++ quoted sink ++
      "; quote replacement does not prevent injection")
    "Pass the value as an argument (script block parameter, -LiteralPath) instead of escaping it into code"

/-- The built-in detectors in the order in which they run. -/
def builtin : List Detector :=
  [invokeExpression, dangerousMethod, addType, commandInjection, forEachObject, memberInjection,
   handEscaping]

end ScriptTaint.Detector
