import ScriptTaint.Proofs.ConstancyLaws
import ScriptTaint.Proofs.DocumentOrder
import ScriptTaint.Proofs.Indirection

/-!
# Later code

Steps that take effect behind a use are not seen by it (`Bindings.binding?_run`), and all that is
asked of an expression is asked of the variables in it (`Node.constancy_congr`,
`Node.carriesEscaped_congr`). In document order the steps of a statement take effect in its span,
so what is added behind a block changes no verdict on what was there: `later_code_irrelevant`.
-/

set_option autoImplicit false

namespace ScriptTaint

/-! ## Steps behind a use -/

/-- A use is not touched by the steps that take effect behind it. -/
theorem Bindings.binding?_run (b : Bindings) {steps : List Step} {v : Variable}
    (hsteps : ∀ s ∈ steps, v.span.start < s.since) : (b.run steps).binding? v = b.binding? v := by
  obtain ⟨later, hrun, hlater, -⟩ := b.extends_run steps v.key
  unfold binding? bindingAt?
  rw [hrun, History.bindingAt?_append_later]
  intro e he
  obtain ⟨s, hs, hle⟩ := hlater e he
  exact UInt32.lt_of_lt_of_le (hsteps s hs) hle

/-! ## Expressions -/

namespace Node

/-- What an escaping transform escapes is a part of it. -/
theorem mem_within_of_escapedOperand? {n operand : Node} (h : n.escapedOperand? = some operand) :
    operand ∈ n.within := by
  have part {m c : Node} (hc : c ∈ m.children) : c ∈ m.within :=
    mem_within_of_child hc c.mem_within_self
  induction n using Node.induction_children with
  | step n ih =>
    cases n with
    | invocation i =>
      simp only [escapedOperand?] at h
      split at h
      · cases h
      · split at h
        · refine part ?_
          rw [children]
          exact List.mem_cons_of_mem _ (List.mem_cons_of_mem _ (List.mem_of_mem_head? h))
        · split at h
          · obtain rfl := Option.some.inj h
            exact part List.mem_cons_self
          · cases h
    | binary op left right span =>
      cases op with
      | replace =>
        simp only [escapedOperand?] at h
        split at h
        · obtain rfl := Option.some.inj h
          exact part List.mem_cons_self
        · cases h
      | _ => cases h
    | paren inner span =>
      have hc : inner ∈ (Node.paren inner span).children := List.mem_cons_self
      exact mem_within_of_child hc (ih inner hc h)
    | _ => cases h

section
variable {b b' : Bindings} {n : Node}

/-- The constancy of an expression depends on the variables in it. -/
theorem constancy_congr (h : ∀ v, .reference v ∈ n.within → b.binding? v = b'.binding? v) :
    n.constancy b = n.constancy b' := by
  induction n using Node.induction_children with
  | step n ih =>
    have part : ∀ c ∈ n.children, c.constancy b = c.constancy b' := fun c hc =>
      ih c hc fun v hv => h v (mem_within_of_child hc hv)
    cases n with
    | expandable value holes span =>
      rw [constancy_expandable, constancy_expandable]
      exact congrArg _ (List.map_congr_left part)
    | reference v =>
      rw [constancy_reference, constancy_reference, Bindings.constancy, Bindings.constancy,
        h v (mem_within_self _)]
    | assignment target value op span =>
      rw [constancy.eq_def, constancy.eq_def b']
      exact part value (by simp [children])
    | binary op left right span =>
      rw [constancy_binary, constancy_binary, part left (by simp [children]),
        part right (by simp [children])]
    | arrayLiteral elements span =>
      rw [constancy_arrayLiteral, constancy_arrayLiteral]
      exact congrArg _ (List.map_congr_left part)
    | paren inner span =>
      rw [constancy_paren, constancy_paren]
      exact part inner (by simp [children])
    | cast typeName operand span =>
      rw [constancy_cast, constancy_cast]
      exact part operand (by simp [children])
    | pipeline elements span =>
      rw [constancy.eq_def, constancy.eq_def b']
      rcases elements with _ | ⟨single, _ | ⟨_, _⟩⟩
      · rfl
      · simp only [part single (by simp [children])]
      · rfl
    | _ => rw [constancy.eq_def, constancy.eq_def b']

theorem isEscapedHere_congr (h : ∀ v, .reference v ∈ n.within → b.binding? v = b'.binding? v) :
    n.isEscapedHere b = n.isEscapedHere b' := by
  have hoperand : n.escapedOperand?.any (fun operand => (operand.constancy b).isVarying) =
      n.escapedOperand?.any (fun operand => (operand.constancy b').isVarying) := by
    cases ho : n.escapedOperand? with
    | none => rfl
    | some operand =>
      have hpart := mem_within_of_escapedOperand? ho
      simp only [Option.any_some, constancy_congr fun v hv => h v (within_trans hpart hv)]
  unfold isEscapedHere
  rw [hoperand]
  cases n with
  | reference v => simp only [Bindings.isEscaped, h v (mem_within_self _)]
  | _ => rfl

theorem carriesEscaped_congr (h : ∀ v, .reference v ∈ n.within → b.binding? v = b'.binding? v) :
    n.carriesEscaped b = n.carriesEscaped b' := by
  unfold carriesEscaped
  rw [Bool.eq_iff_iff, List.any_eq_true, List.any_eq_true]
  have each : ∀ m ∈ n.within, m.isEscapedHere b = m.isEscapedHere b' := fun m hm =>
    isEscapedHere_congr fun v hv => h v (within_trans hm hv)
  constructor
  · rintro ⟨m, hm, he⟩
    exact ⟨m, hm, each m hm ▸ he⟩
  · rintro ⟨m, hm, he⟩
    exact ⟨m, hm, (each m hm).symm ▸ he⟩

end

end Node

/-! ## Statements behind a block -/

/-- In document order, what is added behind a block takes effect behind every use before it. -/
theorem Block.binding?_append {b : Block} {behind : List Node} (ho : (b.append behind).InOrder)
    {v : Variable} (hv : ∀ n ∈ behind.head?, v.span.start < n.span.start) :
    (b.append behind).bindings.binding? v = b.bindings.binding? v := by
  rw [bindings_append]
  refine Bindings.binding?_run _ fun s hs => ?_
  obtain ⟨n, hn, hs⟩ := List.mem_flatMap.1 hs
  have horder : n.InOrder := ho.each n (List.mem_append_right _ hn)
  -- The first of the added statements starts before the others.
  have hstart : v.span.start < n.span.start := by
    cases behind with
    | nil => cases hn
    | cons first rest =>
      have hfirst := hv first rfl
      rcases List.mem_cons.1 hn with rfl | hn
      · exact hfirst
      · have hbefore := (List.pairwise_cons.1 (List.pairwise_append.1 ho.follow).2.1).1 n hn
        have hnonempty := (ho.each first (List.mem_append_right _ List.mem_cons_self)).here.nonempty
        exact UInt32.lt_of_lt_of_le (UInt32.lt_trans hfirst hnonempty) hbefore
  exact UInt32.lt_of_lt_of_le hstart (horder.steps_mem hs).1

/-- A use in a block stands before what is added behind the block. -/
theorem Block.start_lt_of_append {b : Block} {behind : List Node} (ho : (b.append behind).InOrder)
    {s m : Node} (hs : s ∈ b.statements) (hm : m ∈ s.within) :
    ∀ n ∈ behind.head?, m.span.start < n.span.start := by
  intro n hn
  have hfollow := (List.pairwise_append.1 ho.follow).2.2 s hs n (List.mem_of_mem_head? hn)
  have hin := (ho.each s (List.mem_append_left _ hs)).within_mem hm
  exact UInt32.lt_of_lt_of_le hin.2 hfollow

/-- **Later code never changes earlier verdicts.** If a block and the statements added behind it are
in document order, then every variable that is used before them is known as it was without them,
and every expression of the block is judged as it was. -/
theorem later_code_irrelevant {b : Block} {behind : List Node} (ho : (b.append behind).InOrder) :
    (∀ v : Variable, (∀ n ∈ behind.head?, v.span.start < n.span.start) →
      (b.append behind).bindings.constancy v = b.bindings.constancy v ∧
        (b.append behind).bindings.isEscaped v = b.bindings.isEscaped v) ∧
      ∀ s ∈ b.statements, ∀ m ∈ s.within,
        m.constancy (b.append behind).bindings = m.constancy b.bindings ∧
          m.carriesEscaped (b.append behind).bindings = m.carriesEscaped b.bindings := by
  refine ⟨fun v hv => ?_, fun s hs m hm => ?_⟩
  · have hsame := Block.binding?_append ho hv
    exact ⟨by rw [Bindings.constancy, Bindings.constancy, hsame],
      by rw [Bindings.isEscaped, Bindings.isEscaped, hsame]⟩
  · have hsame : ∀ v, .reference v ∈ m.within →
        (b.append behind).bindings.binding? v = b.bindings.binding? v := fun v hv =>
      Block.binding?_append ho (Block.start_lt_of_append ho hs (Node.within_trans hm hv))
    exact ⟨Node.constancy_congr hsame, Node.carriesEscaped_congr hsame⟩

/-- `$cmd = 'Get-Date'; iex $cmd`, with the parameter `p`. -/
def evaluatedConstant : Block :=
  { span := ⟨0, 60⟩
    params := [⟨"p", ⟨0, 1⟩, none⟩]
    annotations := []
    statements :=
      [.assignment (.reference ⟨"cmd", ⟨1, 5⟩⟩) (.literal "Get-Date" ⟨8, 18⟩) .assign ⟨1, 18⟩,
       .command ⟨.literal "iex" ⟨20, 23⟩, [.argument (.reference ⟨"cmd", ⟨24, 28⟩⟩)], ⟨20, 28⟩⟩] }

/-- `while ($cmd) { $cmd = $p }`. -/
def reassigningLoop : Node :=
  .unsupported "WhileStatement" ⟨30, 58⟩
    [.reference ⟨"cmd", ⟨37, 41⟩⟩,
     .assignment (.reference ⟨"cmd", ⟨45, 49⟩⟩) (.reference ⟨"p", ⟨52, 54⟩⟩) .assign ⟨45, 54⟩]

/-- The loop makes `$cmd` varying from its start on, and leaves the command before it constant. -/
theorem later_code_irrelevant_reassigningLoop :
    (evaluatedConstant.append [reassigningLoop]).InOrder ∧
      (evaluatedConstant.append [reassigningLoop]).bindings.constancy ⟨"cmd", ⟨37, 41⟩⟩ =
        .varying ∧
      (Node.reference ⟨"cmd", ⟨24, 28⟩⟩).constancy
        (evaluatedConstant.append [reassigningLoop]).bindings = .constant := by
  have ho : (evaluatedConstant.append [reassigningLoop]).InOrder := by decide +kernel
  have huse := (later_code_irrelevant ho).2 _ (List.mem_cons_of_mem _ List.mem_cons_self) _
    (Node.mem_within_of_child (List.mem_cons_of_mem _ List.mem_cons_self) (Node.mem_within_self _))
  exact ⟨ho, by decide +kernel, huse.1.trans (by decide +kernel)⟩

end ScriptTaint
