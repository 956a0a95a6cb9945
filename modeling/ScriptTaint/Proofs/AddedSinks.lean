import Mathlib.Data.List.Basic
import ScriptTaint.Proofs.AliasChains
import ScriptTaint.Proofs.Annotations

/-!
# Sinks that a site adds

What a site adds to a registry changes its answers for the added names only
(`SinkRegistry.agreeOn_extend`). A file asks its registry about the texts of its literals and about
nothing else: about the names of commands and methods, the programs that launchers start, and the
names along its aliases, which come from literals of the file as well
(`SyntaxTree.exists_literal_of_target?`). So registries that agree on the literals of a file give it
the same aliases, code sites and findings, and sinks that a file does not mention do not change its
report (`added_sinks_conservative`).
-/

set_option autoImplicit false

namespace ScriptTaint

/-! ## Registries that agree -/

/-- The registries give the same answers for commands, programs and methods with these names. -/
structure SinkRegistry.AgreeOn (names : String → Prop) (r r' : SinkRegistry) : Prop where
  named? {s : String} : names s → r'.named? (commandName s) = r.named? (commandName s)
  isInterpreter {s : String} : names s → r'.isInterpreter s = r.isInterpreter s
  methodSink? {i : Invocation} {s : String} :
    names s → i.name? = some s → r'.methodSink? i = r.methodSink? i

namespace SinkRegistry

variable {names : String → Prop} {r r' r'' : SinkRegistry}

theorem AgreeOn.refl : AgreeOn names r r := ⟨fun _ => rfl, fun _ => rfl, fun _ _ => rfl⟩

theorem AgreeOn.trans (h : AgreeOn names r r') (h' : AgreeOn names r' r'') :
    AgreeOn names r r'' where
  named? hs := (h'.named? hs).trans (h.named? hs)
  isInterpreter hs := (h'.isInterpreter hs).trans (h.isInterpreter hs)
  methodSink? hs hi := (h'.methodSink? hs hi).trans (h.methodSink? hs hi)

theorem lookup_enter {place : Nat} {name : String} {added : List String}
    (h : ∀ a ∈ added, name ≠ commandName a) (places : List (String × Nat)) :
    (enter place added places).lookup name = places.lookup name := by
  unfold enter
  induction added generalizing places with
  | nil => rfl
  | cons a added ih =>
    have hne : (name == commandName a) = false := beq_false_of_ne (h a List.mem_cons_self)
    rw [List.foldl_cons, ih fun b hb => h b (List.mem_cons_of_mem _ hb), List.lookup_cons, hne]

/-- A command that is added leaves the places of the others. -/
theorem named?_addCommand {s : CommandSink} {aliases : List String} {name : String}
    (h : ∀ a ∈ s.canonical :: aliases, name ≠ commandName a) (r : SinkRegistry) :
    (r.addCommand s aliases).named? name = r.named? name := by
  rw [named?_eq, named?_eq, addCommand, lookup_enter h]
  cases hplace : r.places.lookup name with
  | none => rfl
  | some place => exact List.getElem?_append_left (lookup_lt hplace)

theorem agreeOn_addEvalAliases {added : List String}
    (h : ∀ a ∈ added, ∀ s, names s → commandName s ≠ commandName a) :
    AgreeOn names r (r.addEvalAliases added) := by
  unfold addEvalAliases
  cases r.place? "invoke-expression" with
  | none => exact .refl
  | some place =>
    refine ⟨fun {s} hs => ?_, fun _ => rfl, fun _ _ => rfl⟩
    rw [named?_eq, named?_eq, lookup_enter fun a ha => h a ha s hs]

theorem agreeOn_addMethod {sink : MethodSink}
    (h : ∀ s, names s → Text.lower s ≠ Text.lower sink.method) :
    AgreeOn names r (r.addMethod sink) := by
  refine ⟨fun _ => rfl, fun _ => rfl, fun {i s} hs hi => ?_⟩
  have hcalled : sink.isCalledBy i = false := by
    simp [MethodSink.isCalledBy, hi, (h s hs).symm]
  rw [methodSink?, addMethod, List.find?_append, List.find?_singleton, hcalled]
  exact Option.or_none

theorem agreeOn_addInterpreter {name : String}
    (h : ∀ s, names s → commandName s ≠ commandName name) :
    AgreeOn names r (r.addInterpreter name) := by
  refine ⟨fun {s} hs => ?_, fun {s} hs => ?_, fun _ _ => rfl⟩
  · exact named?_addCommand (by simpa using h s hs) _
  · show (commandName name :: r.interpreters).contains (commandName s) = _
    rw [List.contains_cons, beq_false_of_ne (h s hs), Bool.false_or]
    rfl

theorem agreeOn_foldl {α : Type} {add : SinkRegistry → α → SinkRegistry} {added : List α}
    (h : ∀ x ∈ added, ∀ r, AgreeOn names r (add r x)) (r : SinkRegistry) :
    AgreeOn names r (added.foldl add r) := by
  induction added generalizing r with
  | nil => exact .refl
  | cons x added ih =>
    exact (h x List.mem_cons_self r).trans (ih (fun y hy => h y (List.mem_cons_of_mem _ hy)) _)

/-- **What is added changes the answers for the added names only.** Command names are compared as
commands are, names of methods up to letter case. -/
theorem agreeOn_extend {added : SinkNames} (r : SinkRegistry)
    (hcommands : ∀ a ∈ added.evalAliases ++ added.interpreters, ∀ s, names s →
      commandName s ≠ commandName a)
    (hmethods : ∀ m ∈ added.dangerousMethods, ∀ s, names s → Text.lower s ≠ Text.lower m) :
    AgreeOn names r (r.extend added) := by
  have haliases : AgreeOn names r (r.addEvalAliases added.evalAliases) :=
    agreeOn_addEvalAliases fun a ha => hcommands a (List.mem_append_left _ ha)
  refine haliases.trans (.trans (agreeOn_foldl ?_ _) (agreeOn_foldl ?_ _))
  · exact fun m hm r => agreeOn_addMethod (hmethods m hm)
  · exact fun a ha r => agreeOn_addInterpreter (hcommands a (List.mem_append_right _ ha))

end SinkRegistry

/-! ## The literals of a file -/

/-- The texts of the literals of a file. -/
def SyntaxTree.literals (t : SyntaxTree) : List String := t.positions.filterMap (·.node.literal?)

/-- The nodes that stand somewhere in a file. -/
def SyntaxTree.Holds (t : SyntaxTree) (n : Node) : Prop := ∃ q ∈ t.positions, q.node = n

theorem Element.operand?_of_namedIn? {names : List String} {es : List Element} {n : Node}
    (h : namedIn? names es = some n) : ∃ e ∈ es, e.operand? = some n := by
  induction es with
  | nil => cases h
  | cons e es ih =>
    unfold namedIn? at h
    split at h
    · rcases Option.or_eq_some_iff.1 h with h | ⟨-, h⟩
      · exact ⟨e, List.mem_cons_self, h⟩
      · cases es with
        | nil => cases h
        | cons e' es =>
          cases e' with
          | parameter => cases h
          | argument value => exact ⟨.argument value, by simp, h⟩
    · obtain ⟨e', he', h⟩ := ih h
      exact ⟨e', List.mem_cons_of_mem _ he', h⟩

/-- An argument is what some element of the command passes. -/
theorem Command.exists_operand_of_argument? {c : Command} {names : List String}
    {position : Option Nat} {n : Node} (h : c.argument? names position = some n) :
    ∃ e ∈ c.elements, e.operand? = some n := by
  rcases Option.or_eq_some_iff.1 h with h | ⟨-, h⟩
  · exact Element.operand?_of_namedIn? h
  · obtain ⟨i, -, h⟩ := Option.bind_eq_some_iff.1 h
    obtain ⟨e, he, hn⟩ := List.mem_filterMap.1 (List.mem_of_getElem? h)
    refine ⟨e, he, ?_⟩
    cases e with
    | argument value => exact hn
    | parameter => cases hn

/-- The arguments of a command stand directly inside it. -/
theorem Command.mem_children_of_argument? {c : Command} {names : List String}
    {position : Option Nat} {n : Node} (h : c.argument? names position = some n) :
    n ∈ (Node.command c).children :=
  List.mem_cons_of_mem _ (List.mem_filterMap.2 (exists_operand_of_argument? h))

namespace SyntaxTree

variable {t : SyntaxTree} {n c : Node} {text : String}

theorem Holds.child (h : t.Holds n) (hb : n.block? = none) (hc : c ∈ n.children) : t.Holds c := by
  obtain ⟨q, hq, rfl⟩ := h
  rw [← Node.map_snd_parts hb] at hc
  obtain ⟨⟨s, c⟩, hs, rfl⟩ := List.mem_map.1 hc
  have hfind := find?_snoc (mem_positions.1 hq) (Node.mem_parts.1 hs)
  exact ⟨⟨_, _, c⟩, mem_positions.2 hfind, rfl⟩

theorem Holds.mem_literals (h : t.Holds n) (htext : n.literal? = some text) :
    text ∈ t.literals := by
  obtain ⟨q, hq, rfl⟩ := h
  exact List.mem_filterMap.2 ⟨q, hq, htext⟩

theorem Holds.name_mem_literals {c : Command} (h : t.Holds (.command c))
    (hname : c.name? = some text) : text ∈ t.literals :=
  (h.child rfl List.mem_cons_self).mem_literals hname

theorem Holds.argument_mem_literals {c : Command} (h : t.Holds (.command c)) {names : List String}
    {position : Option Nat} (harg : (c.argument? names position).bind Node.literal? = some text) :
    text ∈ t.literals := by
  obtain ⟨n, hn, htext⟩ := Option.bind_eq_some_iff.1 harg
  exact (h.child rfl (Command.mem_children_of_argument? hn)).mem_literals htext

end SyntaxTree

/-- Every target among the aliases is the target of a definition. -/
theorem Aliases.exists_definition {defs : List (String × String)} {name target : String}
    (h : (ofDefinitions defs).target? name = some target) :
    ∃ d ∈ defs, commandName d.2 = target := by
  induction defs using List.reverseRecOn with
  | nil => cases h
  | append_singleton defs d ih =>
    rw [ofDefinitions, List.foldl_append, List.foldl_cons, List.foldl_nil, target?_insert] at h
    split at h
    · exact ⟨d, by simp, Option.some.inj h⟩
    · obtain ⟨e, he, heq⟩ := ih h
      exact ⟨e, List.mem_append_left _ he, heq⟩

/-- An alias of a file leads to the name that a literal of the file gives. -/
theorem SyntaxTree.exists_literal_of_target? {t : SyntaxTree} {r : SinkRegistry}
    {name target : String} (h : (t.aliases r).target? name = some target) :
    ∃ text ∈ t.literals, commandName text = target := by
  rw [t.aliases_eq] at h
  obtain ⟨d, hd, rfl⟩ := Aliases.exists_definition h
  obtain ⟨q, hq, hd⟩ := List.mem_filterMap.1 hd
  obtain ⟨c, hc, hdefines⟩ := Node.aliasDefinition?_eq_some_iff.1 hd
  exact ⟨d.2, Holds.argument_mem_literals ⟨q, hq, hc⟩ hdefines.target, rfl⟩

/-! ## What a file asks its registry -/

section agree
variable {t : SyntaxTree} {r r' : SinkRegistry} (h : r.AgreeOn (· ∈ t.literals) r')

include h

theorem SinkRegistry.AgreeOn.follow?_eq (bound : Nat) {s : String} (hs : s ∈ t.literals) :
    r'.follow? (t.aliases r) bound (commandName s) =
      r.follow? (t.aliases r) bound (commandName s) := by
  -- The names along the aliases are again names of literals.
  induction bound generalizing s with
  | zero => rfl
  | succ bound ih =>
    rw [follow?, follow?, h.named? hs]
    cases htarget : (t.aliases r).target? (commandName s) with
    | none => rfl
    | some target =>
      obtain ⟨text, htext, rfl⟩ := SyntaxTree.exists_literal_of_target? htarget
      rw [Option.bind_some, Option.bind_some, ih htext]

theorem SinkRegistry.AgreeOn.resolve?_eq {s : String} (hs : s ∈ t.literals) :
    r'.resolve? (t.aliases r) s = r.resolve? (t.aliases r) s :=
  h.follow?_eq _ hs

theorem Node.aliasDefinition?_agree {n : Node} (hn : t.Holds n) :
    n.aliasDefinition? r' = n.aliasDefinition? r := by
  cases n with
  | command c =>
    have hsink : r'.commandSink? .empty c = r.commandSink? .empty c := by
      unfold SinkRegistry.commandSink?
      cases hname : c.name? with
      | none => rfl
      | some written =>
        simp only [Option.bind_some, SinkRegistry.resolve?_empty]
        exact h.named? (hn.name_mem_literals hname)
    simp only [aliasDefinition?, Command.aliasDefinition?, hsink]
  | _ => rfl

/-- Registries that agree on the literals of a file give it the same aliases. -/
theorem SyntaxTree.aliases_agree : t.aliases r' = t.aliases r := by
  rw [aliases_eq, aliases_eq]
  congr 1
  exact List.filterMap_congr fun q hq => Node.aliasDefinition?_agree h ⟨q, hq, rfl⟩

theorem Command.launched?_agree {c : Command} (hc : t.Holds (.command c)) :
    c.launched? r' = c.launched? r := by
  unfold launched?
  cases hfile : (c.argument? ["FilePath"] (some 0)).bind Node.literal? with
  | none => rfl
  | some program =>
    rw [Option.filter_some, Option.filter_some, h.isInterpreter (hc.argument_mem_literals hfile)]

theorem Command.sinkCall?_agree {c : Command} (hc : t.Holds (.command c)) :
    c.sinkCall? r' (t.aliases r) = c.sinkCall? r (t.aliases r) := by
  unfold sinkCall?
  cases hname : c.name? with
  | none => rfl
  | some written =>
    simp only [Option.bind_eq_bind, Option.bind_some, h.resolve?_eq (hc.name_mem_literals hname),
      launched?_agree h hc]

theorem Command.pipedCall?_agree {c : Command} (hc : t.Holds (.command c)) (feed : Node) :
    c.pipedCall? r' (t.aliases r) feed = c.pipedCall? r (t.aliases r) feed := by
  unfold pipedCall?
  cases hname : c.name? with
  | none => rfl
  | some written =>
    simp only [Option.bind_eq_bind, Option.bind_some, h.resolve?_eq (hc.name_mem_literals hname)]

theorem Invocation.sinkCall?_agree {i : Invocation} (hi : t.Holds (.invocation i)) :
    i.sinkCall? r' = i.sinkCall? r := by
  unfold sinkCall?
  cases hname : i.name? with
  | none => rfl
  | some written =>
    have hchild : i.name ∈ (Node.invocation i).children := by simp [Node.children]
    have hwritten : written ∈ t.literals := (hi.child rfl hchild).mem_literals hname
    simp only [Option.bind_eq_bind, Option.bind_some, h.methodSink? hwritten hname]

/-- Registries that agree on the literals of a file see the same calls in it. -/
theorem Node.sinkCalls_agree {n : Node} (hn : t.Holds n) :
    n.sinkCalls r' (t.aliases r) = n.sinkCalls r (t.aliases r) := by
  cases n with
  | command c => simp only [sinkCalls, Command.sinkCall?_agree h hn]
  | invocation i => simp only [sinkCalls, Invocation.sinkCall?_agree h hn]
  | pipeline elements span =>
    refine List.filterMap_congr fun p hp => ?_
    obtain ⟨feed, m⟩ := p
    cases m with
    | command c =>
      have hmem : .command c ∈ elements := List.mem_of_mem_tail (List.of_mem_zip hp).2
      exact Command.pipedCall?_agree h (hn.child rfl hmem) feed
    | _ => rfl
  | _ => rfl

theorem SyntaxTree.codeSites_agree : t.codeSites r' = t.codeSites r := by
  unfold codeSites
  rw [aliases_agree h, ← t.flatMap_visits fun _ => rfl, ← t.flatMap_visits fun _ => rfl]
  refine List.flatMap_congr fun q hq => ?_
  simp only [Visit.sites, Node.sinkCalls_agree h ⟨q, hq, rfl⟩]

theorem Detector.check_agree {d : Detector} (hd : d ∈ builtin) : d.check t r' = d.check t r := by
  have hsites (p : Profile) (reports : CodeSite → Bool) (message : String → String)
      (suggestion : String) : (ofSites p reports message suggestion).check t r' =
        (ofSites p reports message suggestion).check t r := by
    simp only [ofSites, SyntaxTree.codeSites_agree h]
  obtain ⟨p, c, message, suggestion, rfl⟩ | rfl | rfl := builtin_cases hd
  · exact hsites p _ message suggestion
  · rfl
  · exact hsites _ _ _ _

end agree

/-- A registry gives the report of another one, if no detector tells the two apart. -/
theorem Roster.report_withSinks {r : Roster} {s : SinkRegistry} {t : SyntaxTree}
    (h : ∀ d ∈ r.detectors, d.check t s = d.check t r.sinks) :
    (r.withSinks s).report t = r.report t := by
  have hrun : (r.withSinks s).run t = r.run t := by
    unfold run
    refine List.foldl_ext _ _ _ fun state d hd => ?_
    simp only [withSinks, h d (List.mem_filter.1 hd).1]
  unfold report
  rw [hrun]

/-- **Added sinks are a conservative extension.** If no literal of a file names a command that a
site adds, and none names a method that it adds, up to letter case, then the report of the file is
the one without the additions. -/
theorem added_sinks_conservative (rules : Ranking) (added : SinkNames) (t : SyntaxTree)
    (hcommands : ∀ text ∈ t.literals, ∀ a ∈ added.evalAliases ++ added.interpreters,
      commandName text ≠ commandName a)
    (hmethods : ∀ text ∈ t.literals, ∀ m ∈ added.dangerousMethods,
      Text.lower text ≠ Text.lower m) :
    ({ rules, sinks := added } : Config).roster.report t =
      ({ rules } : Config).roster.report t := by
  have hagree : SinkRegistry.AgreeOn (· ∈ t.literals) .builtin (.withNames added) :=
    SinkRegistry.agreeOn_extend .builtin (fun a ha text htext => hcommands text htext a ha)
      fun m hm text htext => hmethods text htext m hm
  show (if added.isEmpty then Roster.builtin.configure rules
    else (Roster.builtin.configure rules).withSinks (.withNames added)).report t = _
  split
  · rfl
  · exact Roster.report_withSinks fun d hd => Detector.check_agree hagree hd

/-- A file that evaluates its parameter through two aliases, and starts a shell with it. -/
def launchingFile : SyntaxTree where
  path := "launch.ps1"
  lineStarts := [0]
  root :=
    { span := ⟨0, 120⟩, params := [⟨"p", ⟨6, 8⟩, none⟩], annotations := []
      statements :=
        [.command (aliasCommand 10 "nal" "run" "go"), .command (aliasCommand 30 "nal" "go" "iex"),
         .command
          { name := .literal "Run" ⟨50, 53⟩
            elements := [.argument (.reference ⟨"p", ⟨54, 56⟩⟩)]
            span := ⟨50, 56⟩ },
         .command
          { name := .literal "saps" ⟨60, 64⟩
            elements :=
              [.argument (.literal "pwsh" ⟨65, 69⟩),
               .argument (.expandable "-c $p" [.reference ⟨"p", ⟨74, 76⟩⟩] ⟨70, 77⟩)]
            span := ⟨60, 77⟩ }] }

/-- The site gives two built-in names another meaning, but not those that the file uses. -/
theorem added_sinks_conservative_launchingFile :
    let added : SinkNames :=
      { evalAliases := ["Invoke-Local", "Set-Alias"], dangerousMethods := ["RunScript"]
        interpreters := ["C:\\tools\\bash.exe", "Start-Process"] }
    (∀ text ∈ launchingFile.literals, ∀ a ∈ added.evalAliases ++ added.interpreters,
      commandName text ≠ commandName a) ∧
    (∀ text ∈ launchingFile.literals, ∀ m ∈ added.dangerousMethods,
      Text.lower text ≠ Text.lower m) ∧
    ({ sinks := added } : Config).roster.report launchingFile =
      ({} : Config).roster.report launchingFile ∧
    (({} : Config).roster.report launchingFile).findings.map (fun f => (f.ruleId, f.span)) =
      [("IH001", ⟨50, 56⟩), ("IH004", ⟨60, 77⟩)] := by
  intro added
  have hcommands : ∀ text ∈ launchingFile.literals,
      ∀ a ∈ added.evalAliases ++ added.interpreters, commandName text ≠ commandName a := by
    decide +kernel
  have hmethods : ∀ text ∈ launchingFile.literals, ∀ m ∈ added.dangerousMethods,
      Text.lower text ≠ Text.lower m := by
    decide +kernel
  refine ⟨hcommands, hmethods, ?_, by decide +kernel⟩
  exact added_sinks_conservative {} added launchingFile hcommands hmethods

end ScriptTaint
