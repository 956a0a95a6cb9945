import ScriptTaint.Proofs.EscapeMarks
import ScriptTaint.Proofs.LetterCase

/-!
# What is said of command lines

The arguments of an interpreter are flattened into tokens, and literals written like switches become
flags, which carry nothing to the command line. What is said of the line is nevertheless what is
said of the arguments as they stand in the tree. Two questions are asked of an expression: whether
it varies, and whether it carries a mark of escaping. Both are asked of its parts
(`Node.Partwise`): the answer is no for a literal, and for an array or a parenthesis it is yes if
and only if it is so for something inside. So neither taking arrays apart (`Partwise.any_leaves`)
nor dropping a switch (`Partwise.any_operand`) changes an answer.

`commandLine_judged` is the main statement: the line depends on the flattened elements only, and the
first decisive flag among them tells of which elements the line says something. Which flags are
decisive is said by `isCommandFlag_iff` and `isFileFlag_iff`.
-/

set_option autoImplicit false

namespace ScriptTaint

/-! ## Flattened elements -/

namespace Node

/-- The expressions in an argument, its arrays and parentheses taken apart. -/
def leaves (n : Node) : List Node :=
  match n with
  | .arrayLiteral elements _ => elements.attach.flatMap fun ⟨e, _⟩ => e.leaves
  | .paren inner _ => inner.leaves
  | other => [other]
termination_by sizeOf n
decreasing_by
  · exact Node.sizeOf_child (n := .arrayLiteral elements _) ‹_›
  · exact Node.sizeOf_child (n := .paren inner _) (by simp [Node.children])

/-- The switch that a literal is written like, in lower case. -/
def switch? (n : Node) : Option String := (n.literal?.filter isSwitch).map Text.lower

end Node

namespace Element

/-- The element with each argument reduced to a single expression. -/
def flatten : Element → List Element
  | .argument value => value.leaves.map .argument
  | .parameter name bound span => [.parameter name bound span]

/-- The positional argument that an element is. -/
def value? : Element → Option Node
  | .argument value => some value
  | .parameter .. => none

/-- The argument bound to a parameter. -/
def bound? : Element → Option Node
  | .argument _ => none
  | .parameter _ bound _ => bound

/-- The flag that an element stands for, with its first character. -/
def flag? : Element → Option String
  | .argument value => value.switch?
  | .parameter name _ _ => some ("-" ++ Text.lower name)

/-- The rest of the elements is the command line. -/
def startsCommand (e : Element) : Bool := e.flag?.any isCommandFlag

/-- The elements run a script file. -/
def startsFile (e : Element) : Bool := e.flag?.any isFileFlag

/-- The token of an element whose argument is a single expression. -/
def token : Element → Token
  | .argument value => value.switch?.elim (.value value) (.flag · none)
  | .parameter name bound _ => .flag ("-" ++ Text.lower name) bound

end Element

/-- The tokens of an argument are those of its leaves. -/
theorem Node.tokens_eq_leaves (n : Node) :
    n.tokens = n.leaves.map fun leaf => (Element.argument leaf).token := by
  induction n using Node.induction_children with
  | step n ih =>
    cases n with
    | arrayLiteral elements span =>
      rw [tokens.eq_def, leaves.eq_def]
      simp only [List.flatMap_subtype, List.unattach_attach, List.map_flatMap]
      exact List.flatMap_congr ih
    | paren inner span =>
      rw [tokens.eq_def, leaves.eq_def]
      exact ih inner (by simp [children])
    | literal value span =>
      rw [tokens.eq_def, leaves.eq_def]
      by_cases h : isSwitch value = true <;>
        simp [Element.token, switch?, literal?, Option.filter, h]
    | _ =>
      rw [tokens.eq_def, leaves.eq_def]
      rfl

theorem Element.tokens_eq_flatten (e : Element) : e.tokens = e.flatten.map token := by
  cases e with
  | argument value =>
    rw [tokens, Node.tokens_eq_leaves, flatten, List.map_map]
    rfl
  | parameter name bound span => rfl

theorem tokens_eq_flatten (es : List Element) :
    es.flatMap Element.tokens = (es.flatMap Element.flatten).map Element.token := by
  rw [List.map_flatMap]
  exact List.flatMap_congr fun e _ => e.tokens_eq_flatten

/-! ## The first decisive flag -/

namespace Text

/-- What follows `lead` is what has to be appended to it. -/
theorem after?_eq_some {lead s rest : String} : after? lead s = some rest ↔ s = lead ++ rest := by
  unfold after?
  rw [Option.ite_none_right_eq_some, List.isPrefixOf_iff_prefix, Option.some.injEq]
  constructor
  · rintro ⟨⟨cs, hcs⟩, rfl⟩
    rw [← hcs, List.drop_left, ← String.toList_inj, String.toList_append, String.toList_ofList, hcs]
  · rintro rfl
    rw [String.toList_append, List.drop_left, String.ofList_toList]
    exact ⟨List.prefix_append _ _, rfl⟩

theorem abbreviates_iff {written full : String} :
    abbreviates written full = true ↔
      written ≠ "" ∧ (lower written).toList <+: (lower full).toList := by
  unfold abbreviates
  rw [Bool.and_eq_true, Bool.not_eq_true', List.isEmpty_eq_false_iff, ne_eq,
    String.toList_eq_nil_iff, List.isPrefixOf_iff_prefix]

end Text

/-- The file flags are a dash and a nonempty beginning of `file`, in any letter case. -/
theorem isFileFlag_iff {flag : String} :
    isFileFlag flag = true ↔
      ∃ name, flag = "-" ++ name ∧ name ≠ "" ∧ (Text.lower name).toList <+: "file".toList := by
  have hword : Text.lower "file" = "file" := by decide
  unfold isFileFlag
  simp only [Option.any_eq_true, Text.after?_eq_some, Text.abbreviates_iff, hword]

/-- The command flags are `/c`, `/k` and `/r`, and a dash with `ec` behind it or with a nonempty
beginning of `command` or `encodedcommand`, these two in any letter case. -/
theorem isCommandFlag_iff {flag : String} :
    isCommandFlag flag = true ↔
      flag ∈ ["/c", "/k", "/r"] ∨
      ∃ name, flag = "-" ++ name ∧ (name = "ec" ∨ name ≠ "" ∧
        ((Text.lower name).toList <+: "command".toList ∨
          (Text.lower name).toList <+: "encodedcommand".toList)) := by
  have hword : Text.lower "command" = "command" := by decide
  have hword' : Text.lower "encodedcommand" = "encodedcommand" := by decide
  have hslash : ∀ flag ∈ ["/c", "/k", "/r"], Text.after? "-" flag = none := by decide
  simp only [← Text.after?_eq_some]
  unfold isCommandFlag
  cases hafter : Text.after? "-" flag with
  | none => simp
  | some name =>
    have hdash : flag ∉ ["/c", "/k", "/r"] := by
      intro h
      rw [hslash flag h] at hafter
      cases hafter
    simp only [Bool.or_eq_true, beq_iff_eq, Text.abbreviates_iff, hword, hword', hdash, false_or,
      Option.some.injEq, exists_eq_left', ← and_or_left]
    exact or_comm

/-- No flag is decisive in both ways. -/
theorem isCommandFlag_of_isFileFlag {flag : String} (h : isFileFlag flag = true) :
    isCommandFlag flag = false := by
  have hslash : ∀ flag ∈ ["/c", "/k", "/r"], isFileFlag flag = false := by decide
  rw [Bool.eq_false_iff]
  intro hc
  rcases isCommandFlag_iff.1 hc with hmem | ⟨name, rfl, hname⟩
  · rw [hslash flag hmem] at h
    cases h
  · obtain ⟨written, heq, hne, hfile⟩ := isFileFlag_iff.1 h
    obtain rfl : name = written := (String.append_right_inj "-").1 heq
    have hne' : (Text.lower name).toList ≠ [] := by
      rwa [Text.toList_lower, ne_eq, List.map_eq_nil_iff, String.toList_eq_nil_iff]
    -- The first letter tells them apart: command flags start with `c` or `e`.
    rcases hname with rfl | ⟨-, hcommand | hcommand⟩
    · revert hfile
      decide
    · have hletter : 'f' = 'c' := (hfile.head hne').symm.trans (hcommand.head hne')
      exact absurd hletter (by decide)
    · have hletter : 'f' = 'e' := (hfile.head hne').symm.trans (hcommand.head hne')
      exact absurd hletter (by decide)

namespace Element

variable {e : Element} {before : List Element}

/-- One element of the way to the first decisive flag. -/
theorem flaggedLine?_token (rest : List Token) :
    flaggedLine? (e.token :: rest) =
      if e.startsCommand then some (e.bound?.toList ++ rest.filterMap Token.operand?)
      else if e.startsFile then some []
      else flaggedLine? rest := by
  cases e with
  | parameter => rfl
  | argument value =>
    cases h : value.switch? with
    | none => simp [token, startsCommand, startsFile, flag?, h, flaggedLine?]
    | some name => simp [token, startsCommand, startsFile, flag?, bound?, h, flaggedLine?]

theorem startsCommand_of_startsFile (h : e.startsFile = true) : e.startsCommand = false := by
  unfold startsFile at h
  unfold startsCommand
  cases hflag : e.flag? with
  | none => rfl
  | some name =>
    rw [hflag, Option.any_some] at h
    exact isCommandFlag_of_isFileFlag h

/-- Elements that are not decisive are passed over. -/
theorem flaggedLine?_skip
    (h : ∀ e ∈ before, e.startsCommand = false ∧ e.startsFile = false) (rest : List Token) :
    flaggedLine? (before.map token ++ rest) = flaggedLine? rest := by
  induction before with
  | nil => rfl
  | cons e es ih =>
    obtain ⟨⟨hc, hf⟩, hes⟩ := List.forall_mem_cons.1 h
    rw [List.map_cons, List.cons_append, flaggedLine?_token, hc, hf]
    exact ih hes

/-- Without a command flag before it, a file flag decides; so does any file flag before it. -/
theorem flaggedLine?_file (hbefore : ∀ x ∈ before, x.startsCommand = false)
    (h : e.startsFile = true) (rest : List Token) :
    flaggedLine? (before.map token ++ e.token :: rest) = some [] := by
  induction before with
  | nil => simp [flaggedLine?_token, h, startsCommand_of_startsFile h]
  | cons x xs ih =>
    obtain ⟨hx, hxs⟩ := List.forall_mem_cons.1 hbefore
    rw [List.map_cons, List.cons_append, flaggedLine?_token, hx, ih hxs]
    exact ite_self _

end Element

/-! ## Questions about parts -/

/-- A question about expressions that literals answer with no, and that arrays and parentheses pass
on to what is inside. -/
structure Node.Partwise (q : Node → Bool) : Prop where
  literal : ∀ value span, q (.literal value span) = false
  arrayLiteral : ∀ elements span, q (.arrayLiteral elements span) = elements.any q
  paren : ∀ inner span, q (.paren inner span) = q inner

theorem Constancy.isVarying_joinAll (cs : List Constancy) :
    (joinAll cs).isVarying = cs.any isVarying := by
  rw [Bool.eq_iff_iff, List.any_eq_true, isVarying, beq_iff_eq, ← ne_constant_iff, Ne,
    joinAll_eq_constant]
  simp [isVarying, ne_constant_iff]

namespace Node

variable (b : Bindings)

theorem partwise_isVarying : Partwise fun n => (n.constancy b).isVarying where
  literal value span := by rw [constancy.eq_def]; rfl
  arrayLiteral elements span := by
    rw [constancy_arrayLiteral, Constancy.isVarying_joinAll, List.any_map]
    rfl
  paren inner span := by rw [constancy_paren]

/-- A parenthesis around a transform is one itself, with the same operand. -/
theorem partwise_carriesEscaped : Partwise fun n => n.carriesEscaped b where
  literal value span := by rw [carriesEscaped_eq]; rfl
  arrayLiteral elements span := by rw [carriesEscaped_eq]; rfl
  paren inner span := by
    have hsub : (Node.paren inner span).isEscapedHere b = true → inner.carriesEscaped b = true := by
      intro h
      rw [carriesEscaped_eq, Bool.or_eq_true]
      left
      unfold isEscapedHere at h ⊢
      rw [Bool.or_false, escapedOperand?] at h
      rw [h, Bool.true_or]
    rw [carriesEscaped_eq]
    cases h : (Node.paren inner span).isEscapedHere b with
    | false => simp [children]
    | true => simp [hsub h]

end Node

namespace Node.Partwise

variable {q : Node → Bool} (hq : Node.Partwise q)

include hq

theorem any_leaves (n : Node) : n.leaves.any q = q n := by
  induction n using Node.induction_children with
  | step n ih =>
    cases n with
    | arrayLiteral elements span =>
      rw [leaves.eq_def, hq.arrayLiteral]
      simp only [List.flatMap_subtype, List.unattach_attach, List.any_flatMap]
      rw [Bool.eq_iff_iff, List.any_eq_true, List.any_eq_true]
      exact exists_congr fun e => and_congr_right fun he => by rw [ih e he]
    | paren inner span =>
      rw [leaves.eq_def, hq.paren]
      exact ih inner (by simp [children])
    | _ =>
      rw [leaves.eq_def]
      exact Bool.or_false _

theorem eq_false_of_switch {n : Node} {name : String} (h : n.switch? = some name) :
    q n = false := by
  cases n with
  | literal value span => exact hq.literal value span
  | _ => cases h

theorem any_operand (e : Element) : e.token.operand?.any q = e.operand?.any q := by
  cases e with
  | parameter => rfl
  | argument value =>
    cases h : value.switch? with
    | none => simp [Element.token, h, Token.operand?, Element.operand?]
    | some name =>
      simp [Element.token, h, Token.operand?, Element.operand?, hq.eq_false_of_switch h]

theorem any_value (e : Element) : e.token.value?.any q = e.value?.any q := by
  cases e with
  | parameter => rfl
  | argument value =>
    cases h : value.switch? with
    | none => simp [Element.token, h, Token.value?, Element.value?]
    | some name =>
      simp [Element.token, h, Token.value?, Element.value?, hq.eq_false_of_switch h]

theorem any_flatten (e : Element) : (e.flatten.any fun x => x.value?.any q) = e.value?.any q := by
  cases e with
  | parameter => rfl
  | argument value =>
    rw [Element.flatten, List.any_map]
    exact hq.any_leaves value

end Node.Partwise

/-! ## Verdicts on lines -/

/-- The same is said of two lines of code: whether something in it varies, and whether something in
it carries a mark of escaping. -/
structure SameVerdict (b : Bindings) (line line' : List Node) : Prop where
  varying : (∃ n ∈ line, n.constancy b = .varying) ↔ ∃ n ∈ line', n.constancy b = .varying
  escaped : (∃ n ∈ line, n.carriesEscaped b = true) ↔ ∃ n ∈ line', n.carriesEscaped b = true

theorem SameVerdict.of_partwise {b : Bindings} {line line' : List Node}
    (h : ∀ q, Node.Partwise q → line.any q = line'.any q) : SameVerdict b line line' where
  varying := by
    have := h _ (Node.partwise_isVarying b)
    rw [Bool.eq_iff_iff, List.any_eq_true, List.any_eq_true] at this
    simpa only [Constancy.isVarying, beq_iff_eq] using this
  escaped := by
    have := h _ (Node.partwise_carriesEscaped b)
    rwa [Bool.eq_iff_iff, List.any_eq_true, List.any_eq_true] at this

namespace Node.Partwise

variable {q : Node → Bool} (hq : Node.Partwise q)

include hq

theorem any_operands (es : List Element) :
    ((es.map Element.token).filterMap Token.operand?).any q =
      (es.filterMap Element.operand?).any q := by
  rw [List.any_filterMap, List.any_filterMap, List.any_map]
  exact congrArg es.any (funext hq.any_operand)

theorem any_values (es : List Element) :
    (((es.flatMap Element.flatten).map Element.token).filterMap Token.value?).any q =
      (es.filterMap Element.value?).any q := by
  rw [List.any_filterMap, List.any_filterMap, List.any_map, List.any_flatMap]
  refine congrArg es.any (funext fun e => ?_)
  exact (congrArg e.flatten.any (funext hq.any_value)).trans (hq.any_flatten e)

end Node.Partwise

/-- **Command lines are judged as the arguments in the tree are**, under all bindings:

* elements with the same flattening have the same line;
* a command flag that comes first gives a line of which the same is said as of its own argument and
  of all that the elements after it pass;
* a file flag with no command flag before it gives an empty line;
* without either, the same is said of the line as of the positional arguments, not flattened.
-/
theorem commandLine_judged (es : List Element) (b : Bindings) :
    (∀ es' : List Element, es'.flatMap Element.flatten = es.flatMap Element.flatten →
      commandLine (es'.flatMap Element.tokens) = commandLine (es.flatMap Element.tokens)) ∧
    (∀ (before : List Element) (flag : Element) (after : List Element),
      es.flatMap Element.flatten = before ++ flag :: after →
      (∀ e ∈ before, e.startsCommand = false ∧ e.startsFile = false) →
      flag.startsCommand = true →
      SameVerdict b (commandLine (es.flatMap Element.tokens))
        (flag.bound?.toList ++ after.filterMap Element.operand?)) ∧
    (∀ (before : List Element) (flag : Element) (after : List Element),
      es.flatMap Element.flatten = before ++ flag :: after →
      (∀ e ∈ before, e.startsCommand = false) →
      flag.startsFile = true →
      commandLine (es.flatMap Element.tokens) = []) ∧
    ((∀ e ∈ es.flatMap Element.flatten, e.startsCommand = false ∧ e.startsFile = false) →
      SameVerdict b (commandLine (es.flatMap Element.tokens)) (es.filterMap Element.value?)) := by
  simp only [tokens_eq_flatten, commandLine]
  refine ⟨?same, ?command, ?file, ?neither⟩
  case same =>
    intro es' h
    rw [h]
  case command =>
    intro before flag after hsplit hbefore hflag
    -- The line lacks the switches behind the flag, of which no question holds.
    refine .of_partwise fun q hq => ?_
    rw [hsplit, List.map_append, Element.flaggedLine?_skip hbefore, List.map_cons,
      Element.flaggedLine?_token, if_pos hflag, Option.getD_some, List.any_append, List.any_append,
      hq.any_operands]
  case file =>
    intro before flag after hsplit hbefore hflag
    rw [hsplit, List.map_append, List.map_cons, Element.flaggedLine?_file hbefore hflag,
      Option.getD_some]
  case neither =>
    intro hnone
    refine .of_partwise fun q hq => ?_
    have hline := Element.flaggedLine?_skip hnone []
    rw [List.append_nil] at hline
    rw [hline, flaggedLine?, Option.getD_none, hq.any_values]

/-- `-NoProfile ('/C', $code) -Mode:$mode`. -/
def arrayedArguments : List Element :=
  [.argument (.literal "-NoProfile" ⟨4, 14⟩),
   .argument (.paren (.arrayLiteral
    [.literal "/C" ⟨16, 20⟩, .reference ⟨"code", ⟨22, 27⟩⟩] ⟨16, 27⟩) ⟨15, 28⟩),
   .parameter "Mode" (some (.reference ⟨"mode", ⟨35, 40⟩⟩)) ⟨29, 40⟩]

theorem flatten_arrayedArguments : arrayedArguments.flatMap Element.flatten =
    [.argument (.literal "-NoProfile" ⟨4, 14⟩)] ++ .argument (.literal "/C" ⟨16, 20⟩) ::
      [.argument (.reference ⟨"code", ⟨22, 27⟩⟩),
       .parameter "Mode" (some (.reference ⟨"mode", ⟨35, 40⟩⟩)) ⟨29, 40⟩] := by
  simp [arrayedArguments, Element.flatten, Node.leaves]

/-- A flag in an array decides, also for the elements behind the array. -/
theorem commandLine_judged_arrayed :
    (Element.argument (.literal "/C" ⟨16, 20⟩)).startsCommand = true ∧
      SameVerdict .empty (commandLine (arrayedArguments.flatMap Element.tokens))
        [.reference ⟨"code", ⟨22, 27⟩⟩, .reference ⟨"mode", ⟨35, 40⟩⟩] :=
  ⟨by decide +kernel,
    (commandLine_judged arrayedArguments .empty).2.1 _ _ _ flatten_arrayedArguments
      (by decide +kernel) (by decide +kernel)⟩

end ScriptTaint
