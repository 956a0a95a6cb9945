import ScriptTaint.Proofs.AddedSinks
import ScriptTaint.Proofs.EscapeMarks

/-!
# Code that is written out

An expression is written out if it is made of literals alone (`Node.WrittenOut`). Whatever is bound,
its value is constant and carries no mark of escaping, for a transform of it has a constant operand.
The code of a call is taken from its arguments, also where they are flattened into a command line
(`Command.Runs.writtenOut`), or from the pipeline. So a call that is given nothing but such
expressions (`SyntaxTree.WritesOut`) runs nothing else.

`literal_code_unreported` is the main statement: no detector of sites remarks anything on such a
call.
-/

set_option autoImplicit false

namespace ScriptTaint

/-- Expressions made of literals alone. -/
inductive Node.WrittenOut : Node → Prop
  | literal (value : String) (span : Span) : WrittenOut (.literal value span)
  | typeLiteral (name : String) (span : Span) : WrittenOut (.typeLiteral name span)
  | expandable {value : String} {holes : List Node} {span : Span} :
      (∀ h ∈ holes, WrittenOut h) → WrittenOut (.expandable value holes span)
  | binary {op : BinaryOp} {left right : Node} {span : Span} :
      WrittenOut left → WrittenOut right → WrittenOut (.binary op left right span)
  | arrayLiteral {elements : List Node} {span : Span} :
      (∀ e ∈ elements, WrittenOut e) → WrittenOut (.arrayLiteral elements span)
  | paren {inner : Node} {span : Span} : WrittenOut inner → WrittenOut (.paren inner span)
  | cast {typeName : String} {operand : Node} {span : Span} :
      WrittenOut operand → WrittenOut (.cast typeName operand span)
  /-- A statement that is an expression by itself. -/
  | pipeline {single : Node} {span : Span} :
      WrittenOut single → WrittenOut (.pipeline [single] span)

namespace Node.WrittenOut

variable {n c : Node}

theorem child (h : n.WrittenOut) (hc : c ∈ n.children) : c.WrittenOut := by
  cases h with
  | literal | typeLiteral => cases hc
  | expandable hparts | arrayLiteral hparts => exact hparts c hc
  | binary hleft hright =>
    simp only [children, List.mem_cons, List.not_mem_nil, or_false] at hc
    rcases hc with rfl | rfl
    · exact hleft
    · exact hright
  | paren hpart | cast hpart | pipeline hpart =>
    obtain rfl := List.mem_singleton.1 hc
    exact hpart

theorem isCommand_eq (h : n.WrittenOut) : n.isCommand = false := by
  cases h <;> rfl

theorem constancy_eq (h : n.WrittenOut) (b : Bindings) : n.constancy b = .constant := by
  induction h with
  | literal | typeLiteral => rw [constancy.eq_def]
  | expandable _ ih =>
    rw [constancy_expandable, Constancy.joinAll_eq_constant]
    simpa using ih
  | binary _ _ ihleft ihright =>
    rw [constancy_binary, Constancy.join_eq_constant]
    exact ⟨ihleft, ihright⟩
  | arrayLiteral _ ih =>
    rw [constancy_arrayLiteral, Constancy.joinAll_eq_constant]
    simpa using ih
  | paren _ ih =>
    rw [constancy_paren]
    exact ih
  | cast _ ih =>
    rw [constancy_cast]
    exact ih
  | pipeline hsingle ih => exact (constancy_pipeline b).2 ⟨_, rfl, hsingle.isCommand_eq, ih⟩

/-- There may be transforms, but none of varying input, and there is no variable. -/
theorem isEscapedHere_eq (h : n.WrittenOut) (b : Bindings) : n.isEscapedHere b = false := by
  unfold isEscapedHere
  rw [any_escapedOperand_of_constant (h.constancy_eq b), Bool.false_or]
  cases h <;> rfl

theorem carriesEscaped_eq (h : n.WrittenOut) (b : Bindings) : n.carriesEscaped b = false := by
  induction n using Node.induction_children with
  | step n ih =>
    rw [Node.carriesEscaped_eq, h.isEscapedHere_eq, Bool.false_or, List.any_eq_false]
    intro c hc
    rw [Bool.not_eq_true]
    exact ih c hc (h.child hc)

/-- Flattening takes arrays and parentheses apart, and what is left is written out. -/
theorem operand (h : n.WrittenOut) {token : Token} (ht : token ∈ n.tokens) {m : Node}
    (hm : token.operand? = some m) : m.WrittenOut := by
  induction n using Node.induction_children with
  | step n ih =>
    cases n with
    | arrayLiteral elements span =>
      rw [tokens.eq_def] at ht
      simp only [List.flatMap_subtype, List.unattach_attach, List.mem_flatMap] at ht
      obtain ⟨e, he, ht⟩ := ht
      exact ih e he (h.child he) ht
    | paren inner span =>
      rw [tokens.eq_def] at ht
      exact ih inner (by simp [children]) (h.child (by simp [children])) ht
    | literal value span =>
      rw [tokens.eq_def] at ht
      simp only at ht
      split at ht
      · obtain rfl := List.mem_singleton.1 ht
        cases hm
      · obtain rfl := List.mem_singleton.1 ht
        obtain rfl := Option.some.inj hm
        exact h
    | _ =>
      rw [tokens.eq_def] at ht
      obtain rfl := List.mem_singleton.1 ht
      obtain rfl := Option.some.inj hm
      exact h

end Node.WrittenOut

/-! ## What a call runs -/

/-- The expressions that a call passes to a command or method. -/
def Node.arguments : Node → List Node
  | .command c => c.elements.filterMap Element.operand?
  | .invocation i => i.arguments
  | _ => []

theorem exists_operand_of_flaggedLine? {tokens : List Token} {line : List Node} {n : Node}
    (h : flaggedLine? tokens = some line) (hn : n ∈ line) :
    ∃ token ∈ tokens, token.operand? = some n := by
  induction tokens with
  | nil => cases h
  | cons token tokens ih =>
    have skip (h : flaggedLine? tokens = some line) :
        ∃ x ∈ token :: tokens, x.operand? = some n := by
      obtain ⟨x, hx, hop⟩ := ih h
      exact ⟨x, List.mem_cons_of_mem _ hx, hop⟩
    cases token with
    | value m => exact skip h
    | flag name bound =>
      rw [flaggedLine?] at h
      split at h
      · obtain rfl := Option.some.inj h
        rcases List.mem_append.1 hn with hn | hn
        · exact ⟨.flag name bound, List.mem_cons_self, Option.mem_toList.1 hn⟩
        · obtain ⟨x, hx, hop⟩ := List.mem_filterMap.1 hn
          exact ⟨x, List.mem_cons_of_mem _ hx, hop⟩
      · split at h
        · obtain rfl := Option.some.inj h
          cases hn
        · exact skip h

/-- A command line holds what its tokens pass, and nothing else. -/
theorem exists_operand_of_mem_commandLine {tokens : List Token} {n : Node}
    (h : n ∈ commandLine tokens) : ∃ token ∈ tokens, token.operand? = some n := by
  unfold commandLine at h
  cases hline : flaggedLine? tokens with
  | some line =>
    rw [hline, Option.getD_some] at h
    exact exists_operand_of_flaggedLine? hline h
  | none =>
    rw [hline, Option.getD_none] at h
    obtain ⟨token, ht, hv⟩ := List.mem_filterMap.1 h
    refine ⟨token, ht, ?_⟩
    cases token with
    | flag => cases hv
    | value m => exact hv

section
variable {r : SinkRegistry} {a : Aliases} {c : Command} {call : SinkCall}

/-- A command that is passed only expressions written out runs only such expressions. -/
theorem Command.Runs.writtenOut (h : c.Runs r a call)
    (hargs : ∀ m ∈ (Node.command c).arguments, m.WrittenOut) :
    ∀ n ∈ call.code, n.WrittenOut := by
  have hoperand : ∀ e ∈ c.elements, ∀ m, e.operand? = some m → m.WrittenOut :=
    fun e he m hm => hargs m (List.mem_filterMap.2 ⟨e, he, hm⟩)
  intro n hn
  cases h with
  | code _ _ _ hcode =>
    obtain rfl := List.mem_singleton.1 hn
    obtain ⟨e, he, hm⟩ := exists_operand_of_argument? hcode
    exact hoperand e he n hm
  | interpreter _ _ _ hline _ =>
    subst hline
    obtain ⟨token, ht, hop⟩ := exists_operand_of_mem_commandLine hn
    obtain ⟨e, he, ht⟩ := List.mem_flatMap.1 ht
    cases e with
    | argument value => exact (hoperand _ he value rfl).operand ht hop
    | parameter name bound span =>
      obtain rfl := List.mem_singleton.1 ht
      exact hoperand _ he n hop
  | launcher _ _ _ _ _ _ hcode hline _ =>
    subst hline
    obtain ⟨token, ht, hop⟩ := exists_operand_of_mem_commandLine hn
    obtain ⟨e, he, hm⟩ := exists_operand_of_argument? hcode
    exact (hoperand e he _ hm).operand ht hop

end

namespace SyntaxTree

variable {t : SyntaxTree} {r : SinkRegistry}

/-- What stands before a path in the pipeline that the path leads into. -/
def feed? (t : SyntaxTree) (path : List Slot) : Option Node :=
  match path.getLast?, t.find? path.dropLast with
  | some (.element (i + 1)), some (_, .pipeline elements _) => elements[i]?
  | _, _ => none

theorem feed?_snoc {path : List Slot} {scope : Block} {elements : List Node} {span : Span}
    (h : t.find? path = some (scope, .pipeline elements span)) (i : Nat) :
    t.feed? (path ++ [.element (i + 1)]) = elements[i]? := by
  unfold feed?
  rw [List.getLast?_concat, List.dropLast_concat, h]

/-- The call at a path is given only expressions that are written out: all its arguments are and,
if the sink finds no code among them, so is what the pipeline feeds it. -/
structure WritesOut (t : SyntaxTree) (r : SinkRegistry) (path : List Slot) : Prop where
  arguments : ∀ scope n, t.find? path = some (scope, n) → ∀ m ∈ n.arguments, m.WrittenOut
  feed : ∀ scope c, t.find? path = some (scope, .command c) →
    (r.commandSink? (t.aliases r) c).bind (·.code? c) = none →
    ∀ m, t.feed? path = some m → m.WrittenOut

end SyntaxTree

/-- The code site of a call. -/
def Occurrence.site (o : Occurrence) : CodeSite := o.call.site o.scope.bindings

namespace Occurrence

variable {t : SyntaxTree} {r : SinkRegistry} {o : Occurrence}

theorem IsSink.writtenOut (h : o.IsSink t r) (hw : t.WritesOut r o.path) :
    ∀ n ∈ o.call.code, n.WrittenOut := by
  cases h with
  | command hfind hruns => exact hruns.writtenOut (hw.arguments _ _ hfind)
  | @piped path scope elements span i feed c written sink hfind hfeed hc hname hsink _ hcode =>
    intro n hn
    obtain rfl := List.mem_singleton.1 hn
    have hat : (Node.pipeline elements span).at? (.element (i + 1)) = some (.command c) := hc
    have hresolved : r.commandSink? (t.aliases r) c = some sink := by
      rw [SinkRegistry.commandSink?, hname, Option.bind_some, hsink]
    refine hw.feed _ c (SyntaxTree.find?_snoc hfind hat) ?_ n ?_
    · rw [hresolved, Option.bind_some, hcode]
    · rw [SyntaxTree.feed?_snoc hfind, hfeed]
  | method hfind _ _ hcode =>
    intro n hn
    obtain rfl := List.mem_singleton.1 hn
    exact hw.arguments _ _ hfind n (List.mem_of_getElem? hcode)

theorem IsSink.site_eq (h : o.IsSink t r) (hw : t.WritesOut r o.path) :
    o.site.tainted = false ∧ o.site.escaped = false := by
  have hcode := h.writtenOut hw
  constructor
  · refine List.any_eq_false.2 fun n hn => ?_
    rw [(hcode n hn).constancy_eq]
    decide
  · refine List.any_eq_false.2 fun n hn => ?_
    rw [(hcode n hn).carriesEscaped_eq]
    decide

end Occurrence

namespace SyntaxTree

variable (t : SyntaxTree) (r : SinkRegistry)

/-- The calls of sinks in a file, in the order of the walk. -/
def occurrences : List Occurrence := t.positions.flatMap (·.calls r (t.aliases r))

theorem mem_occurrences {o : Occurrence} : o ∈ t.occurrences r ↔ o.IsSink t r := by
  rw [Occurrence.isSink_iff, occurrences, List.mem_flatMap]
  simp only [Position.mem_calls]

theorem codeSites_eq_map : t.codeSites r = (t.occurrences r).map Occurrence.site := by
  rw [codeSites, ← t.flatMap_visits fun _ => rfl, occurrences, List.map_flatMap]
  exact List.flatMap_congr fun q _ => (q.map_calls r (t.aliases r)).symm

end SyntaxTree

/-! ## Remarks on a call -/

/-- The detector makes a remark on a code site or passes it over. A remark has the span of the site,
and what the detector finds are its first remarks on each span. -/
structure Detector.FindsBy (d : Detector) (remark : SyntaxTree → CodeSite → Option Finding) :
    Prop where
  check_eq : ∀ t r, d.check t r =
    .ok (Finding.firstPerSpan ((t.codeSites r).filterMap (remark t)))
  own : ∀ t s f, remark t s = some f → f.ruleId = d.profile.id ∧ f.span = s.span

/-- What is found by remarks on sites is a remark on some call. -/
theorem SyntaxTree.exists_remark {t : SyntaxTree} {r : SinkRegistry}
    {remark : CodeSite → Option Finding} {f : Finding}
    (hf : f ∈ Finding.firstPerSpan ((t.codeSites r).filterMap remark)) :
    ∃ o ∈ t.occurrences r, remark o.site = some f := by
  obtain ⟨s, hs, hremark⟩ := List.mem_filterMap.1 (Finding.mem_of_mem_firstPerSpan hf)
  rw [t.codeSites_eq_map] at hs
  obtain ⟨o, ho, rfl⟩ := List.mem_map.1 hs
  exact ⟨o, ho, hremark⟩

namespace Detector

theorem ofSites_findsBy (p : Profile) (reports : CodeSite → Bool) (message : String → String)
    (suggestion : String) :
    (ofSites p reports message suggestion).FindsBy fun t s =>
      if reports s then some (p.finding t s.span (message s.sink) suggestion) else none where
  check_eq t r := by
    show Except.ok _ = _
    rw [← List.filterMap_eq_map, List.filterMap_filter]
    rfl
  own t s f h := by
    split at h
    · obtain rfl := Option.some.inj h
      exact ⟨rfl, rfl⟩
    · cases h

/-- All built-in detectors but the one of computed members look for sites that are tainted or
escaped. -/
theorem exists_ofSites {d : Detector} (hd : d ∈ builtin) (hid : d.profile.id ≠ "IH006") :
    ∃ p reports message suggestion, d = ofSites p reports message suggestion ∧
      ∀ s : CodeSite, s.tainted = false → s.escaped = false → reports s = false := by
  obtain ⟨p, c, message, suggestion, rfl⟩ | rfl | rfl := builtin_cases hd
  · refine ⟨p, _, message, suggestion, rfl, fun s htainted _ => ?_⟩
    rw [isTaintedSite, htainted, Bool.and_false]
  · exact absurd rfl hid
  · refine ⟨_, _, _, _, rfl, fun s _ hescaped => ?_⟩
    rw [hescaped, Bool.false_and]

theorem exists_findsBy {d : Detector} (hd : d ∈ builtin) (hid : d.profile.id ≠ "IH006") :
    ∃ remark, d.FindsBy remark ∧
      ∀ t s, s.tainted = false → s.escaped = false → remark t s = none := by
  obtain ⟨p, reports, message, suggestion, rfl, hsilent⟩ := exists_ofSites hd hid
  refine ⟨_, ofSites_findsBy p reports message suggestion, fun t s htainted hescaped => ?_⟩
  rw [hsilent s htainted hescaped]
  rfl

end Detector

/-- **Code that is written out is not reported.** Expressions made of literals are constant and
carry no mark of escaping, whatever is bound. In every file, a call of a sink that is given only
such expressions is a site that is neither tainted nor escaped, if it is one. No detector of sites
remarks anything on it, so each of their findings is a remark on some other call. -/
theorem literal_code_unreported (t : SyntaxTree) (r : SinkRegistry) :
    (∀ n : Node, n.WrittenOut → ∀ b : Bindings,
      n.constancy b = .constant ∧ n.carriesEscaped b = false) ∧
    ∃ calls : List Occurrence,
      (∀ o, o ∈ calls ↔ o.IsSink t r) ∧ t.codeSites r = calls.map Occurrence.site ∧
      (∀ o ∈ calls, t.WritesOut r o.path → o.site.tainted = false ∧ o.site.escaped = false) ∧
      ∀ d ∈ Detector.builtin, d.profile.id ≠ "IH006" →
        ∃ remark, d.FindsBy remark ∧
          (∀ o ∈ calls, t.WritesOut r o.path → remark t o.site = none) ∧
          ∃ fs, d.check t r = .ok fs ∧
            ∀ f ∈ fs, ∃ o ∈ calls, ¬ t.WritesOut r o.path ∧ remark t o.site = some f := by
  have hsite : ∀ o ∈ t.occurrences r, t.WritesOut r o.path →
      o.site.tainted = false ∧ o.site.escaped = false :=
    fun o ho hw => ((t.mem_occurrences r).1 ho).site_eq hw
  refine ⟨fun n hn b => ⟨hn.constancy_eq b, hn.carriesEscaped_eq b⟩, t.occurrences r,
    fun o => t.mem_occurrences r, t.codeSites_eq_map r, hsite, fun d hd hid => ?_⟩
  obtain ⟨remark, hfinds, hsilent⟩ := Detector.exists_findsBy hd hid
  have hnone : ∀ o ∈ t.occurrences r, t.WritesOut r o.path → remark t o.site = none :=
    fun o ho hw => hsilent t o.site (hsite o ho hw).1 (hsite o ho hw).2
  refine ⟨remark, hfinds, hnone, _, hfinds.check_eq t r, fun f hf => ?_⟩
  obtain ⟨o, ho, hremark⟩ := SyntaxTree.exists_remark hf
  refine ⟨o, ho, fun hw => ?_, hremark⟩
  rw [hnone o ho hw] at hremark
  cases hremark

/-- `'it''s' -replace "'", "''" | iex`, and `iex $p` with the parameter `p`. -/
def quotedLiteral : SyntaxTree where
  path := "quoted.ps1"
  lineStarts := [0]
  root :=
    { span := ⟨0, 44⟩
      params := [⟨"p", ⟨0, 2⟩, none⟩]
      annotations := []
      statements :=
        [.pipeline
          [.binary .replace (.literal "it's" ⟨3, 10⟩)
            (.arrayLiteral [.literal "'" ⟨20, 23⟩, .literal "''" ⟨25, 29⟩] ⟨20, 29⟩) ⟨3, 29⟩,
           .command ⟨.literal "iex" ⟨32, 35⟩, [], ⟨32, 35⟩⟩] ⟨3, 35⟩,
         .command
          ⟨.literal "iex" ⟨37, 40⟩, [.argument (.reference ⟨"p", ⟨41, 43⟩⟩)], ⟨37, 43⟩⟩] }

theorem quotedLiteral_writesOut :
    quotedLiteral.WritesOut .builtin [.statement 0, .element 1] where
  arguments scope n hfind m hm := by
    obtain ⟨-, rfl⟩ := Prod.mk.inj (Option.some.inj hfind)
    cases hm
  feed scope c _ _ m hm := by
    obtain rfl := Option.some.inj hm
    refine .binary (.literal _ _) (.arrayLiteral fun e he => ?_)
    simp only [List.mem_cons, List.not_mem_nil, or_false] at he
    rcases he with rfl | rfl <;> exact .literal _ _

/-- The first call runs a literal whose quotes are replaced, and only the second is reported. -/
theorem literal_code_unreported_quotedLiteral :
    (∃ o : Occurrence, o.IsSink quotedLiteral .builtin ∧ quotedLiteral.WritesOut .builtin o.path ∧
      o.site.span = ⟨32, 35⟩ ∧ o.site.tainted = false ∧ o.site.escaped = false ∧
      ∀ d ∈ Detector.builtin, d.profile.id ≠ "IH006" →
        ∃ remark, d.FindsBy remark ∧ remark quotedLiteral o.site = none) ∧
    ∃ fs, Detector.invokeExpression.check quotedLiteral .builtin = .ok fs ∧
      fs.map (·.span) = [⟨37, 43⟩] := by
  have hsink : SinkRegistry.builtin.resolve? (quotedLiteral.aliases .builtin) "iex" =
      some ⟨"Invoke-Expression", .dynamicEvaluation, ["Command"], some 0⟩ := by
    decide +kernel
  obtain ⟨-, calls, hcalls, -, hsite, hremark⟩ := literal_code_unreported quotedLiteral .builtin
  have hpiped := @Occurrence.IsSink.piped quotedLiteral .builtin [.statement 0] _ _ _ 0 _ _ _ _
    rfl rfl rfl rfl hsink rfl rfl
  have hmem := (hcalls _).2 hpiped
  obtain ⟨htainted, hescaped⟩ := hsite _ hmem quotedLiteral_writesOut
  refine ⟨⟨_, hpiped, quotedLiteral_writesOut, rfl, htainted, hescaped, fun d hd hid => ?_⟩,
    _, rfl, by decide +kernel⟩
  obtain ⟨remark, hfinds, hnone, -⟩ := hremark d hd hid
  exact ⟨remark, hfinds, hnone _ hmem quotedLiteral_writesOut⟩

end ScriptTaint
