import ScriptTaint.Detect.Builtin
import ScriptTaint.Proofs.ConstancyLaws
import ScriptTaint.Proofs.Loops
import ScriptTaint.Proofs.Sites

/-!
# Marks of hand-made escaping

A mark says that a value went through an escaping transform of varying input, so one would expect
only varying code to carry a mark. The marks are collected from all parts of an expression though,
and its value may not depend on all of them: the old value of the target of an assignment does not
matter, and an automatic variable keeps its value whatever is assigned to it. Such a mark is
misplaced (`Node.isMisplaced`), and it is the only way for constant code to carry one
(`Node.carriesEscaped_of_constant`).

`escaped_sites_tainted` is the main statement: in a file without misplaced marks escaped code is
tainted, so a finding on escaping never stands alone. `constant_code_escaped` is a script with a
misplaced mark, where constant code is reported.
-/

set_option autoImplicit false

namespace ScriptTaint

/-! ## Marks and constant values -/

namespace Node

/-- The node has a mark that does not concern its value. -/
def isMisplaced (b : Bindings) : Node → Bool
  | .assignment target _ _ _ => target.carriesEscaped b
  | .reference v => v.isAutomatic && b.isEscaped v
  | _ => false

/-- Some part of the node has a misplaced mark. -/
def hasMisplaced (b : Bindings) (n : Node) : Bool := n.within.any (·.isMisplaced b)

variable {b : Bindings} {n : Node}

theorem isMisplaced_of_hasMisplaced (h : n.hasMisplaced b = false) : n.isMisplaced b = false := by
  unfold hasMisplaced at h
  rw [List.any_eq_false] at h
  simpa using h n n.mem_within_self

theorem hasMisplaced_child {c : Node} (h : n.hasMisplaced b = false) (hc : c ∈ n.children) :
    c.hasMisplaced b = false := by
  unfold hasMisplaced at h ⊢
  rw [List.any_eq_false] at h ⊢
  exact fun m hm => h m (mem_within_of_child hc hm)

theorem carriesEscaped_eq (n : Node) (b : Bindings) :
    n.carriesEscaped b = (n.isEscapedHere b || n.children.any (·.carriesEscaped b)) := by
  unfold carriesEscaped
  rw [within_eq, List.any_cons, List.any_flatMap]

/-- What a constant transform escapes is constant. -/
theorem constant_escapedOperand {operand : Node} (hc : n.constancy b = .constant)
    (ho : n.escapedOperand? = some operand) : operand.constancy b = .constant := by
  induction n using Node.induction_children with
  | step n ih =>
    cases n with
    | invocation i =>
      rw [constancy.eq_def] at hc
      cases hc
    | binary op left right span =>
      rw [constancy_binary, Constancy.join_eq_constant] at hc
      cases op with
      | replace =>
        simp only [escapedOperand?] at ho
        split at ho
        · obtain rfl := Option.some.inj ho
          exact hc.1
        · cases ho
      | _ => cases ho
    | paren inner span =>
      rw [constancy_paren] at hc
      exact ih inner (by simp [children]) hc ho
    | _ => cases ho

/-- A constant value is no transform of varying input. -/
theorem any_escapedOperand_of_constant (hc : n.constancy b = .constant) :
    n.escapedOperand?.any (fun operand => (operand.constancy b).isVarying) = false := by
  cases ho : n.escapedOperand? with
  | none => rfl
  | some operand => simp [constant_escapedOperand hc ho, Constancy.isVarying]

end Node

/-- Constant bindings have no mark. -/
def Bindings.Clean (b : Bindings) : Prop :=
  ∀ k, ∀ e ∈ b.history k, e.binding.constancy = .constant → e.binding.escaped = false

namespace Bindings.Clean

variable {b c : Bindings}

theorem empty : Bindings.empty.Clean := by
  intro k e he
  cases he

/-- A use that sees a constant binding sees no mark. -/
theorem isEscaped_of_constant (h : b.Clean) {v : Variable} (hc : b.constancy v = .constant) :
    b.isEscaped v = false := by
  have hq := not_isQualified_of_constant hc
  rw [constancy_eq b hq] at hc
  unfold isEscaped binding? bindingAt?
  rw [hq]
  unfold History.bindingAt? at hc ⊢
  cases hl : ((b.history v.key).takeWhile (·.since ≤ v.span.start)).getLast? with
  | none => rfl
  | some e =>
    have hmem : e ∈ b.history v.key :=
      (List.takeWhile_sublist _).mem (List.mem_of_getLast? hl)
    rw [hl] at hc
    simpa [hl] using h v.key e hmem hc

/-- Only the first event of a history can be constant, and it is what was recorded. -/
theorem record (h : b.Clean) (key : String) (since : UInt32) {x : Binding}
    (hx : x.constancy = .constant → x.escaped = false) : (b.record key since x).Clean := by
  intro k e he hc
  rw [history_record] at he
  split at he
  · rw [History.record_eq, List.mem_append, List.mem_singleton] at he
    rcases he with he | rfl
    · exact h k e he hc
    · by_cases hn : b.history k = []
      · rw [hn] at hc ⊢
        exact hx hc
      · rw [History.next_varying hn] at hc
        cases hc
  · exact h k e he hc

theorem bind (h : b.Clean) (since : UInt32) {x : Binding} (target : Node)
    (hx : x.constancy = .constant → x.escaped = false) : (b.bind since x target).Clean := by
  induction target using Node.induction_children generalizing b with
  | step target ih =>
    cases target with
    | reference v =>
      rw [Bindings.bind.eq_def]
      simp only
      split
      · exact h
      · exact h.record _ _ hx
    | cast name operand span =>
      rw [Bindings.bind.eq_def]
      exact ih operand (by simp [Node.children]) h
    | member target name isStatic span =>
      rw [Bindings.bind.eq_def]
      simp only
      split
      · split
        · exact h
        · exact h.record _ _ (by simp)
      · exact h
    | arrayLiteral elements span =>
      rw [bind_arrayLiteral]
      simp only [Node.children] at ih
      induction elements generalizing b with
      | nil => exact h
      | cons e es ihs =>
        rw [List.foldl_cons]
        exact ihs (ih e List.mem_cons_self h) fun c hc => ih c (List.mem_cons_of_mem _ hc)
    | _ =>
      rw [Bindings.bind.eq_def]
      exact h

end Bindings.Clean

/-- **Constant values have no marks but misplaced ones.** -/
theorem Node.carriesEscaped_of_constant {b : Bindings} (hb : b.Clean) {n : Node}
    (hc : n.constancy b = .constant) (hm : n.hasMisplaced b = false) :
    n.carriesEscaped b = false := by
  induction n using Node.induction_children with
  | step n ih =>
    have part : ∀ c ∈ n.children, c.constancy b = .constant → c.carriesEscaped b = false :=
      fun c hmem hcc => ih c hmem hcc (hasMisplaced_child hm hmem)
    have hhere : n.isEscapedHere b = false := by
      unfold isEscapedHere
      rw [any_escapedOperand_of_constant hc, Bool.false_or]
      cases n with
      | reference v =>
        have hv := isMisplaced_of_hasMisplaced hm
        rw [constancy_reference] at hc
        cases ha : v.isAutomatic with
        | true => simpa [isMisplaced, ha] using hv
        | false => exact hb.isEscaped_of_constant (by simpa [ha] using hc)
      | _ => rfl
    rw [carriesEscaped_eq, hhere, Bool.false_or, List.any_eq_false]
    intro c hmem
    rw [Bool.not_eq_true]
    -- A constant node has constant children, except for the target of an assignment.
    cases n with
    | assignment target value op span =>
      rw [constancy.eq_def] at hc
      simp only [children, List.mem_cons, List.not_mem_nil, or_false] at hmem
      rcases hmem with rfl | rfl
      · exact isMisplaced_of_hasMisplaced hm
      · exact part c (by simp [children]) hc
    | expandable value holes span =>
      rw [constancy_expandable, Constancy.joinAll_eq_constant] at hc
      exact part c hmem (hc _ (List.mem_map_of_mem hmem))
    | arrayLiteral elements span =>
      rw [constancy_arrayLiteral, Constancy.joinAll_eq_constant] at hc
      exact part c hmem (hc _ (List.mem_map_of_mem hmem))
    | binary op left right span =>
      rw [constancy_binary, Constancy.join_eq_constant] at hc
      simp only [children, List.mem_cons, List.not_mem_nil, or_false] at hmem
      rcases hmem with rfl | rfl
      · exact part c (by simp [children]) hc.1
      · exact part c (by simp [children]) hc.2
    | paren inner span =>
      rw [constancy_paren] at hc
      obtain rfl := List.mem_singleton.1 hmem
      exact part c hmem hc
    | cast typeName operand span =>
      rw [constancy_cast] at hc
      obtain rfl := List.mem_singleton.1 hmem
      exact part c hmem hc
    | pipeline elements span =>
      obtain ⟨single, rfl, -, hs⟩ := (constancy_pipeline b).1 hc
      obtain rfl := List.mem_singleton.1 hmem
      exact part c hmem hs
    | literal | reference | typeLiteral | scriptBlock => cases hmem
    | _ =>
      rw [constancy.eq_def] at hc
      cases hc

/-! ## Scopes without misplaced marks -/

/-- The value that a step assigns has a misplaced mark. -/
def Step.isMisplaced (b : Bindings) : Step → Bool
  | .declare .. => false
  | .assign _ value _ _ => value.hasMisplaced b

/-- Some step, when it is taken, assigns a value with a misplaced mark. -/
def Bindings.meetsMisplaced (b : Bindings) : List Step → Bool
  | [] => false
  | s :: steps => s.isMisplaced b || (b.step s).meetsMisplaced steps

namespace Bindings.Clean

variable {b : Bindings}

/-- A step that assigns no misplaced mark binds nothing constant with a mark. -/
theorem step (h : b.Clean) {s : Step} (hs : s.isMisplaced b = false) : (b.step s).Clean := by
  cases s with
  | declare key since => exact h.record _ _ (by simp)
  | assign target value op since =>
    refine h.bind since target fun hc => ?_
    cases op with
    | assign => exact Node.carriesEscaped_of_constant h hc hs
    | compound => cases hc

theorem run (h : b.Clean) {steps : List Step} (hs : b.meetsMisplaced steps = false) :
    (b.run steps).Clean := by
  induction steps generalizing b with
  | nil => exact h
  | cons s steps ih =>
    rw [meetsMisplaced, Bool.or_eq_false_iff] at hs
    exact ih (h.step hs.1) hs.2

end Bindings.Clean

/-- No assignment of the block assigns a value with a misplaced mark. -/
def Block.marksWell (b : Block) : Bool := !Bindings.empty.meetsMisplaced b.steps

theorem Block.clean_bindings {b : Block} (h : b.marksWell = true) : b.bindings.Clean := by
  unfold marksWell at h
  rw [Bool.not_eq_true'] at h
  rw [bindings_eq]
  exact Bindings.Clean.empty.run h

/-- Neither the values that a file assigns nor the code that it runs have a misplaced mark. -/
structure SyntaxTree.MarksWell (t : SyntaxTree) (r : SinkRegistry) : Prop where
  values : ∀ q ∈ t.positions, q.scope.marksWell = true
  code : ∀ q ∈ t.positions, ∀ call ∈ q.node.sinkCalls r (t.aliases r), ∀ n ∈ call.code,
    n.hasMisplaced q.scope.bindings = false

instance (t : SyntaxTree) (r : SinkRegistry) : Decidable (t.MarksWell r) :=
  decidable_of_iff (_ ∧ _) ⟨fun h => SyntaxTree.MarksWell.mk h.1 h.2, fun h => ⟨h.values, h.code⟩⟩

/-- Where no mark is misplaced, escaped code is tainted. -/
theorem SyntaxTree.MarksWell.tainted {t : SyntaxTree} {r : SinkRegistry} (h : t.MarksWell r)
    {s : CodeSite} (hs : s ∈ t.codeSites r) (he : s.escaped = true) : s.tainted = true := by
  obtain ⟨q, hq, call, hcall, rfl⟩ := mem_codeSites.1 hs
  obtain ⟨n, hn, hmark⟩ := List.any_eq_true.1 he
  refine List.any_eq_true.2 ⟨n, hn, ?_⟩
  cases hc : n.constancy q.scope.bindings with
  | varying => rfl
  | constant =>
    have hclean := Block.clean_bindings (h.values q hq)
    rw [Node.carriesEscaped_of_constant hclean hc (h.code q hq call hcall n hn)] at hmark
    cases hmark

/-! ## Findings -/

/-- A command is a sink of one of four categories; a method is what it was registered as. -/
theorem Node.category_of_mem_sinkCalls {r : SinkRegistry} {a : Aliases} {n : Node}
    {call : SinkCall} (h : call ∈ n.sinkCalls r a) :
    call.category ∈ [.dynamicEvaluation, .typeDefinition, .perItemOperator, .externalInterpreter] ∨
      ∃ m ∈ r.methods, call.category = m.category := by
  cases n with
  | command c =>
    refine .inl ?_
    cases Command.sinkCall?_eq_some.1 (Option.mem_toList.1 h) with
    | code _ _ hcat _ =>
      simp only [List.mem_cons, List.not_mem_nil, or_false] at hcat ⊢
      tauto
    | interpreter | launcher => simp
  | pipeline elements span =>
    refine .inl ?_
    obtain ⟨p, -, hp⟩ := List.mem_filterMap.1 h
    obtain ⟨c, -, hc⟩ := pipedCall?_eq_some.1 hp
    obtain ⟨_, _, -, -, -, -, rfl⟩ := Command.pipedCall?_eq_some.1 hc
    simp
  | invocation i =>
    obtain ⟨_, sink, _, -, hs, -, rfl⟩ := Invocation.sinkCall?_eq_some.1 (Option.mem_toList.1 h)
    exact .inr ⟨sink, List.mem_of_find?_eq_some hs, rfl⟩
  | _ => cases h

/-- Among the built-in sinks, code is evaluated in four categories. -/
theorem SyntaxTree.category_of_evaluatesCode {t : SyntaxTree} {s : CodeSite}
    (hs : s ∈ t.codeSites .builtin) (he : s.category.evaluatesCode = true) :
    s.category ∈
      [.dynamicEvaluation, .reflectiveMethod, .typeDefinition, .externalInterpreter] := by
  have hmethods : ∀ m ∈ SinkRegistry.builtin.methods,
      m.category ∈ [Category.reflectiveMethod, .perItemOperator] := by decide
  obtain ⟨q, -, call, hcall, rfl⟩ := mem_codeSites.1 hs
  have hcat : call.category ≠ .perItemOperator := by
    intro h
    rw [show (call.site q.scope.bindings).category = call.category from rfl, h] at he
    cases he
  show call.category ∈ _
  rcases Node.category_of_mem_sinkCalls hcall with h | ⟨m, hm, h⟩
  · simp only [List.mem_cons, List.not_mem_nil, or_false] at h ⊢
    tauto
  · have hm := hmethods m hm
    rw [← h] at hm
    simp only [List.mem_cons, List.not_mem_nil, or_false] at hm ⊢
    tauto

namespace Detector

/-- The detectors of tainted code that is evaluated. -/
def evaluation : List Detector := [invokeExpression, dangerousMethod, addType, commandInjection]

theorem exists_tainted {p : Profile} {c : Category} {message : String → String}
    {suggestion : String} {t : SyntaxTree} {r : SinkRegistry} {s : CodeSite}
    (hs : s ∈ t.codeSites r) (hc : s.category = c) (ht : s.tainted = true) :
    ∃ gs, (ofSites p (isTaintedSite c) message suggestion).check t r = .ok gs ∧
      ∃ g ∈ gs, g.span = s.span := by
  obtain ⟨gs, hgs, hspans⟩ := spans_ofSites p (isTaintedSite c) message suggestion t r
  have hreports : isTaintedSite c s = true := by simp [isTaintedSite, hc, ht]
  exact ⟨gs, hgs, (hspans s.span).2 ⟨s, hs, hreports, rfl⟩⟩

/-- Every tainted site that evaluates code is reported. -/
theorem exists_evaluation {t : SyntaxTree} {s : CodeSite} (hs : s ∈ t.codeSites .builtin)
    (he : s.category.evaluatesCode = true) (ht : s.tainted = true) :
    ∃ d ∈ evaluation, ∃ gs, d.check t .builtin = .ok gs ∧ ∃ g ∈ gs, g.span = s.span := by
  have hcat := SyntaxTree.category_of_evaluatesCode hs he
  simp only [List.mem_cons, List.not_mem_nil, or_false] at hcat
  rcases hcat with h | h | h | h
  · exact ⟨invokeExpression, by simp [evaluation], exists_tainted hs h ht⟩
  · exact ⟨dangerousMethod, by simp [evaluation], exists_tainted hs h ht⟩
  · exact ⟨addType, by simp [evaluation], exists_tainted hs h ht⟩
  · exact ⟨commandInjection, by simp [evaluation], exists_tainted hs h ht⟩

end Detector

/-- **Escaped code is tainted**, in every file without misplaced marks. Among the built-in
detectors, every finding on escaping then has one on tainted code at its span. -/
theorem escaped_sites_tainted (t : SyntaxTree) (r : SinkRegistry) (h : t.MarksWell r) :
    (∀ s ∈ t.codeSites r, s.escaped = true → s.tainted = true) ∧
    (r = .builtin → ∃ fs, Detector.handEscaping.check t r = .ok fs ∧
      ∀ f ∈ fs, ∃ d ∈ Detector.evaluation, ∃ gs, d.check t r = .ok gs ∧
        ∃ g ∈ gs, g.span = f.span) := by
  refine ⟨fun s hs he => h.tainted hs he, ?_⟩
  rintro rfl
  obtain ⟨fs, hfs, hspans⟩ := Detector.spans_ofSites _
    (fun site => site.escaped && site.category.evaluatesCode) _ _ t .builtin
  refine ⟨fs, hfs, fun f hf => ?_⟩
  obtain ⟨s, hs, hreports, hspan⟩ := (hspans f.span).1 ⟨f, hf, rfl⟩
  rw [Bool.and_eq_true] at hreports
  rw [← hspan]
  exact Detector.exists_evaluation hs hreports.2 (h.tainted hs hreports.1)

/-- `$safe = $p -replace "'", "''"` and a call of `iex` on `code`, with the parameter `p`. -/
def afterEscaping (code : Node) : SyntaxTree where
  path := "reset.ps1"
  lineStarts := [0]
  root :=
    { span := ⟨0, 60⟩
      params := [⟨"p", ⟨0, 2⟩, none⟩]
      annotations := []
      statements :=
        [.assignment (.reference ⟨"safe", ⟨3, 8⟩⟩)
          (.binary .replace (.reference ⟨"p", ⟨11, 13⟩⟩)
            (.arrayLiteral [.literal "'" ⟨23, 26⟩, .literal "''" ⟨28, 32⟩] ⟨23, 32⟩) ⟨11, 32⟩)
          .assign ⟨3, 32⟩,
         .command ⟨.literal "iex" ⟨34, 37⟩, [.argument code], ⟨34, 58⟩⟩] }

/-- `iex "Get-Item '$safe'"` after the escaping. -/
def escapedInterpolation : SyntaxTree :=
  afterEscaping (.expandable "Get-Item '$safe'" [.reference ⟨"safe", ⟨49, 54⟩⟩] ⟨38, 56⟩)

theorem escaped_sites_tainted_interpolation :
    escapedInterpolation.MarksWell .builtin ∧
      (∃ s ∈ escapedInterpolation.codeSites .builtin, s.escaped = true ∧ s.tainted = true) ∧
      ∃ fs, Detector.handEscaping.check escapedInterpolation .builtin = .ok fs ∧
        fs.map (·.span) = [⟨34, 58⟩] ∧
        ∀ f ∈ fs, ∃ d ∈ Detector.evaluation, ∃ gs, d.check escapedInterpolation .builtin = .ok gs ∧
          ∃ g ∈ gs, g.span = f.span := by
  have h : escapedInterpolation.MarksWell .builtin := by decide +kernel
  obtain ⟨s, hs, he⟩ : ∃ s ∈ escapedInterpolation.codeSites .builtin, s.escaped = true := by
    decide +kernel
  obtain ⟨htainted, hfindings⟩ := escaped_sites_tainted escapedInterpolation .builtin h
  obtain ⟨fs, hfs, hspans⟩ := hfindings rfl
  refine ⟨h, ⟨s, hs, he, htainted s hs he⟩, fs, hfs, ?_, hspans⟩
  have hfs' : Detector.handEscaping.check escapedInterpolation .builtin = .ok _ := rfl
  rw [Except.ok.inj (hfs.symm.trans hfs')]
  decide +kernel

/-- `iex ($safe = 'Get-Date')` after the escaping. -/
def overwrittenInCode : SyntaxTree :=
  afterEscaping
    (.paren (.assignment (.reference ⟨"safe", ⟨39, 44⟩⟩) (.literal "Get-Date" ⟨47, 57⟩) .assign
      ⟨39, 57⟩) ⟨38, 58⟩)

/-- The code of the call is constant. It is reported all the same, and by the detector of escaping
alone, for the mark on the old value of the variable. -/
theorem constant_code_escaped :
    (∃ s ∈ overwrittenInCode.codeSites .builtin, s.escaped = true ∧ s.tainted = false) ∧
    (∃ fs, Detector.handEscaping.check overwrittenInCode .builtin = .ok fs ∧
      fs.map (·.span) = [⟨34, 58⟩]) ∧
    ∀ d ∈ Detector.evaluation, d.check overwrittenInCode .builtin = .ok [] := by
  refine ⟨by decide +kernel, ⟨_, rfl, ?_⟩, by decide +kernel⟩
  decide +kernel

end ScriptTaint
