import ScriptTaint.Detect.Builtin
import ScriptTaint.Proofs.Replacement

/-!
# Sinks and shells

A node and its shell make the same calls of sinks, up to the shells of the code
(`Node.sinkCalls_shell`), and these are judged alike (`SinkCall.site_shell`). So what a detector
takes from a visit it takes from the shell of the visit: the code sites (`Visit.sites_shell`), the
alias it defines (`Visit.aliasDefinition?_shell`), the computed member
(`Detector.computedMember?_shell`).
-/

set_option autoImplicit false

namespace ScriptTaint

/-! ## Arguments -/

namespace Element

theorem isParameter_shell (names : List String) (e : Element) :
    e.shell.isParameter names = e.isParameter names := by
  cases e with
  | argument value => simp [Element.shell, isParameter]
  | parameter name bound span => cases bound <;> simp [Element.shell, isParameter]

theorem namedIn?_shell (names : List String) (es : List Element) :
    namedIn? names (es.map shell) = (namedIn? names es).map Node.shell := by
  induction es with
  | nil => rfl
  | cons e es ih =>
    simp only [List.map_cons, namedIn?, isParameter_shell, operand?_shell]
    split
    · cases e.operand? with
      | some n => rfl
      | none =>
        cases es with
        | nil => rfl
        | cons d ds =>
          cases d with
          | argument value => simp [Element.shell]
          | parameter name bound span => cases bound <;> simp [Element.shell]
    · exact ih

end Element

namespace Command

variable (c : Command)

@[simp] theorem span_shell : c.shell.span = c.span := by rw [shell_eq]

theorem elements_shell : c.shell.elements = c.elements.map Element.shell := by rw [shell_eq]

theorem name?_shell : c.shell.name? = c.name? := by
  unfold name?
  rw [shell_eq]
  exact c.name.literal?_shell

theorem positionals_shell : c.shell.positionals = c.positionals.map Node.shell := by
  unfold positionals
  rw [elements_shell, List.filterMap_map, List.map_filterMap]
  congr 1
  funext e
  cases e with
  | argument value => simp [Element.shell]
  | parameter name bound span => cases bound <;> simp [Element.shell]

theorem argument?_shell (names : List String) (position : Option Nat) :
    c.shell.argument? names position = (c.argument? names position).map Node.shell := by
  unfold argument? named?
  rw [elements_shell, Element.namedIn?_shell]
  cases Element.namedIn? names c.elements with
  | some n => rfl
  | none =>
    cases position with
    | none => rfl
    | some i => simp [positional?, positionals_shell]

end Command

theorem CommandSink.code?_shell (s : CommandSink) (c : Command) :
    s.code? c.shell = (s.code? c).map Node.shell :=
  c.argument?_shell s.parameters s.position

/-! ## Command lines -/

/-- The token with the shell of its node. -/
def Token.shell : Token → Token
  | .flag name bound => .flag name (bound.map Node.shell)
  | .value n => .value n.shell

theorem Token.operand?_shell (t : Token) : t.shell.operand? = t.operand?.map Node.shell := by
  cases t <;> rfl

theorem Token.value?_shell (t : Token) : t.shell.value? = t.value?.map Node.shell := by
  cases t <;> rfl

theorem Node.tokens_shell (n : Node) : n.shell.tokens = n.tokens.map Token.shell := by
  induction n using Node.induction_children with
  | step n ih =>
    cases n with
    | arrayLiteral elements span =>
      rw [shell, shells_eq_map, tokens.eq_def, tokens.eq_def (.arrayLiteral elements span)]
      simp only [List.flatMap_subtype, List.unattach_attach, List.flatMap_map, List.map_flatMap]
      exact List.flatMap_congr ih
    | paren inner span =>
      rw [shell, tokens.eq_def, tokens.eq_def (.paren inner span)]
      exact ih inner (by simp [children])
    | literal value span =>
      rw [shell, tokens.eq_def]
      simp only
      split <;> simp [Token.shell, shell]
    | _ =>
      rw [tokens.eq_def, tokens.eq_def (_ : Node)]
      simp [shell, Token.shell]

theorem Element.tokens_shell (e : Element) : e.shell.tokens = e.tokens.map Token.shell := by
  cases e with
  | argument value => simp [Element.shell, Element.tokens, Node.tokens_shell]
  | parameter name bound span => cases bound <;> simp [Element.shell, Element.tokens, Token.shell]

theorem flaggedLine?_shell (ts : List Token) :
    flaggedLine? (ts.map Token.shell) = (flaggedLine? ts).map (·.map Node.shell) := by
  induction ts with
  | nil => rfl
  | cons t ts ih =>
    cases t with
    | value n => exact ih
    | flag name bound =>
      simp only [List.map_cons, Token.shell, flaggedLine?]
      split
      · have hrest : (ts.map Token.shell).filterMap Token.operand? =
            (ts.filterMap Token.operand?).map Node.shell := by
          rw [List.filterMap_map, List.map_filterMap]
          congr 1
          funext t
          exact t.operand?_shell
        rw [hrest]
        cases bound <;> simp
      · split
        · rfl
        · exact ih

theorem commandLine_shell (ts : List Token) :
    commandLine (ts.map Token.shell) = (commandLine ts).map Node.shell := by
  unfold commandLine
  rw [flaggedLine?_shell]
  cases flaggedLine? ts with
  | some line => rfl
  | none =>
    simp only [Option.map_none, Option.getD_none, List.filterMap_map, List.map_filterMap]
    congr 1
    funext t
    exact t.value?_shell

/-! ## Calls -/

/-- The call with the shells of its code. -/
def SinkCall.shell (k : SinkCall) : SinkCall := { k with code := k.code.map Node.shell }

theorem SinkCall.site_shell (k : SinkCall) (b : Bindings) : k.shell.site b = k.site b := by
  simp only [SinkCall.shell, SinkCall.site, List.any_map, Function.comp_def, Node.constancy_shell,
    Node.carriesEscaped_shell]

section
variable (r : SinkRegistry) (a : Aliases)

theorem Command.lineCall?_shell (c : Command) (sink : String) (ts : List Token) :
    c.shell.lineCall? sink (ts.map Token.shell) = (c.lineCall? sink ts).map SinkCall.shell := by
  unfold lineCall?
  rw [commandLine_shell]
  simp only [List.isEmpty_map, span_shell]
  split <;> rfl

theorem Command.launched?_shell (c : Command) : c.shell.launched? r = c.launched? r := by
  unfold launched?
  rw [argument?_shell]
  cases c.argument? ["FilePath"] (some 0) with
  | none => rfl
  | some file => simp [Node.literal?_shell]

theorem Command.sinkCall?_shell (c : Command) :
    c.shell.sinkCall? r a = (c.sinkCall? r a).map SinkCall.shell := by
  have htokens : c.shell.elements.flatMap Element.tokens =
      (c.elements.flatMap Element.tokens).map Token.shell := by
    rw [elements_shell, List.flatMap_map, List.map_flatMap]
    exact List.flatMap_congr fun e _ => e.tokens_shell
  unfold sinkCall?
  rw [name?_shell]
  cases c.name? with
  | none => rfl
  | some written =>
    simp only [Option.bind_eq_bind, Option.bind_some]
    cases r.resolve? a written with
    | none => rfl
    | some sink =>
      simp only [Option.bind_some, CommandSink.code?_shell, htokens, lineCall?_shell,
        launched?_shell, span_shell]
      cases sink.category with
      | dynamicEvaluation | typeDefinition | perItemOperator => cases sink.code? c <;> rfl
      | externalInterpreter | reflectiveMethod | aliasDefinition => rfl
      | processLauncher =>
        cases c.launched? r with
        | none => rfl
        | some program =>
          cases sink.code? c with
          | none => rfl
          | some arguments =>
            simp only [Option.map_some, Option.bind_some, Node.tokens_shell, lineCall?_shell]

theorem Command.pipedCall?_shell (c : Command) (feed : Node) :
    c.shell.pipedCall? r a feed.shell = (c.pipedCall? r a feed).map SinkCall.shell := by
  unfold pipedCall?
  rw [name?_shell]
  cases c.name? with
  | none => rfl
  | some written =>
    simp only [Option.bind_eq_bind, Option.bind_some]
    cases r.resolve? a written with
    | none => rfl
    | some sink =>
      simp only [Option.bind_some, CommandSink.code?_shell, Option.isNone_map, span_shell]
      split <;> rfl

theorem pipedCalls_shell (elements : List Node) :
    pipedCalls r a (elements.map Node.shell) = (pipedCalls r a elements).map SinkCall.shell := by
  unfold pipedCalls
  rw [← List.map_tail, List.zip_map, List.filterMap_map, List.map_filterMap]
  congr 1
  funext ⟨feed, n⟩
  cases n with
  | command c =>
    simp only [Function.comp_apply, Prod.map_apply, Node.shell]
    exact c.pipedCall?_shell r a feed
  | _ => simp [Node.shell]

theorem Invocation.name?_shell (i : Invocation) : i.shell.name? = i.name? := by
  unfold name?
  rw [shell_eq]
  exact i.name.literal?_shell

theorem MethodSink.acceptsReceiver_shell (s : MethodSink) (i : Invocation) :
    s.acceptsReceiver i.shell = s.acceptsReceiver i := by
  unfold acceptsReceiver
  rw [Invocation.shell_eq]
  cases i.target <;> simp [Node.shell]

theorem SinkRegistry.methodSink?_shell (i : Invocation) :
    r.methodSink? i.shell = r.methodSink? i := by
  unfold methodSink?
  congr 1
  funext s
  unfold MethodSink.isCalledBy
  rw [Invocation.name?_shell, MethodSink.acceptsReceiver_shell]

theorem Invocation.sinkCall?_shell (i : Invocation) :
    i.shell.sinkCall? r = (i.sinkCall? r).map SinkCall.shell := by
  unfold sinkCall?
  rw [name?_shell, SinkRegistry.methodSink?_shell]
  cases i.name? with
  | none => rfl
  | some written =>
    cases r.methodSink? i with
    | none => rfl
    | some sink =>
      simp only [shell_eq, Option.bind_eq_bind, Option.bind_some, List.getElem?_map]
      cases i.arguments[sink.position]? <;> rfl

/-- A node and its shell make the same calls of sinks. -/
theorem Node.sinkCalls_shell (n : Node) :
    n.shell.sinkCalls r a = (n.sinkCalls r a).map SinkCall.shell := by
  cases n with
  | command c =>
    simp only [shell, sinkCalls, Command.sinkCall?_shell]
    cases c.sinkCall? r a <;> rfl
  | pipeline elements span =>
    simp only [shell, shells_eq_map, sinkCalls]
    exact pipedCalls_shell r a elements
  | invocation i =>
    simp only [shell, sinkCalls, Invocation.sinkCall?_shell]
    cases i.sinkCall? r <;> rfl
  | _ => simp [shell, sinkCalls]

/-- Calls of sinks are judged by their shells. -/
theorem Visit.sites_shell (v : Visit) : v.shell.sites r a = v.sites r a := by
  cases v with
  | block frame => rfl
  | node frame n =>
    simp only [Visit.shell, Visit.sites, Node.sinkCalls_shell, List.map_map]
    exact List.map_congr_left fun k _ => k.site_shell frame.bindings

theorem Command.aliasDefinition?_shell (c : Command) :
    c.shell.aliasDefinition? r = c.aliasDefinition? r := by
  have hliteral : ∀ x : Option Node,
      (x.map Node.shell).bind Node.literal? = x.bind Node.literal? := by
    intro x
    cases x with
    | none => rfl
    | some n => exact n.literal?_shell
  unfold aliasDefinition? SinkRegistry.commandSink?
  simp only [name?_shell, argument?_shell, hliteral]

theorem Visit.aliasDefinition?_shell (v : Visit) :
    v.shell.aliasDefinition? r = v.aliasDefinition? r := by
  cases v with
  | block frame => rfl
  | node frame n =>
    cases n with
    | command c =>
      simp only [Visit.shell, Node.shell, Visit.aliasDefinition?]
      exact c.aliasDefinition?_shell r
    | _ => simp [Visit.shell, Node.shell, Visit.aliasDefinition?]

end

theorem Detector.isComputed_shell (frame : Frame) (name : Node) :
    isComputed frame.emptied name.shell = isComputed frame name := by
  unfold isComputed
  rw [Node.literal?_shell, Node.constancy_shell]
  rfl

theorem Detector.computedMember?_shell (v : Visit) :
    computedMember? v.shell = computedMember? v := by
  cases v with
  | block frame => rfl
  | node frame n =>
    cases n with
    | invocation i =>
      simp only [Visit.shell, Node.shell, Invocation.shell_eq, computedMember?, isComputed_shell]
    | member target name isStatic span =>
      simp only [Visit.shell, Node.shell, computedMember?, isComputed_shell]
    | _ => simp [Visit.shell, Node.shell, computedMember?]

end ScriptTaint
