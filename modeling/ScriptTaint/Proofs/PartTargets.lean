import ScriptTaint.Proofs.BackEdges

/-!
# Assignments to parts of a variable

`$a.b = ..` and `$a[0] = ..` change the value of `$a`. A target leads to `$a` (`Node.LeadsTo`)
through members, elements (nodes of kinds that are not modelled, with the indexed expression first)
and parentheses. What an assignment to it does depends on the way:

* to a member, with no element on the way (`Node.isIndexed`): `$a` is varying from the end of the
  assignment on;
* to anything else: nothing at all. The element, or the parentheses around the target, hide the
  variable.

In neither case does a mark of the value reach the variable. `member_assignments_vary` says so for
every assignment that the reading of a block arrives at, and `part_assignments_overlooked` are two
scripts where a changed variable is still called constant, or has no mark.
-/

set_option autoImplicit false

namespace ScriptTaint

namespace Node

/-- The node is the variable, or reaches into its value. -/
inductive LeadsTo (a : Variable) : Node → Prop
  | whole : LeadsTo a (.reference a)
  | member {target name : Node} {isStatic : Bool} {span : Span} :
      LeadsTo a target → LeadsTo a (.member target name isStatic span)
  | element {kind : String} {span : Span} {indexed : Node} {others : List Node} :
      LeadsTo a indexed → LeadsTo a (.unsupported kind span (indexed :: others))
  | paren {inner : Node} {span : Span} : LeadsTo a inner → LeadsTo a (.paren inner span)

def isMember : Node → Bool
  | .member .. => true
  | _ => false

/-- The node is a member or an element, maybe in parentheses. -/
def isPart : Node → Bool
  | .member .. | .unsupported .. => true
  | .paren inner _ => inner.isPart
  | _ => false

/-- An element stands on the way to the variable. -/
def isIndexed : Node → Bool
  | .unsupported .. => true
  | .member target _ _ _ => target.isIndexed
  | .paren inner _ => inner.isIndexed
  | _ => false

/-- An element hides the variable that it belongs to. -/
theorem LeadsTo.baseVariable?_eq {a : Variable} {n : Node} (h : n.LeadsTo a) :
    n.baseVariable? = if n.isIndexed then none else some a := by
  induction h with
  | whole => rfl
  | member _ ih => exact ih
  | element _ _ => rfl
  | paren _ ih => exact ih

end Node

/-! ## Marks -/

/-- A declaration takes over the mark of the event before it. -/
theorem History.any_escaped_record (h : History) (since offset : UInt32) :
    ((h.record since ⟨.varying, false⟩).bindingAt? offset).any (·.escaped) =
      (h.bindingAt? offset).any (·.escaped) := by
  rw [record_eq]
  unfold bindingAt?
  rw [List.takeWhile_append]
  split
  · rename_i hall
    rw [(List.takeWhile_prefix _).eq_of_length hall]
    by_cases hle : (h.next since ⟨.varying, false⟩).since ≤ offset
    · rw [List.takeWhile_cons_of_pos (by simpa using hle), List.takeWhile_nil,
        List.getLast?_concat]
      unfold next
      cases h.getLast? <;> simp
    · rw [List.takeWhile_cons_of_neg (by simpa using hle), List.append_nil]
  · rfl

theorem Bindings.isEscaped_declare (b : Bindings) (key : String) (since : UInt32) (v : Variable) :
    (b.declare key since).isEscaped v = b.isEscaped v := by
  unfold isEscaped binding? bindingAt? declare
  rw [history_record]
  split
  · rfl
  · split
    · exact History.any_escaped_record ..
    · rfl

/-! ## What the assignment does -/

section
variable {a : Variable} {target : Node}

namespace Bindings

/-- An assignment to a member makes the variable unknown, if nothing hides it. -/
theorem bind_of_isMember (b : Bindings) (since : UInt32) (x : Binding) (ht : target.LeadsTo a)
    (hq : a.isQualified = false) (hm : target.isMember = true) (hi : target.isIndexed = false) :
    b.bind since x target = b.declare a.key since := by
  cases ht with
  | @member inner name isStatic span hinner =>
    have hbase : inner.baseVariable? = some a := by
      rw [hinner.baseVariable?_eq]
      exact if_neg (Bool.eq_false_iff.1 hi)
    rw [bind.eq_def]
    simp [hbase, hq]
  | _ => cases hm

/-- An assignment to any other part does nothing. -/
theorem bind_of_hidden (b : Bindings) (since : UInt32) (x : Binding) (ht : target.LeadsTo a)
    (hp : target.isPart = true) (hh : target.isMember = false ∨ target.isIndexed = true) :
    b.bind since x target = b := by
  cases ht with
  | whole => cases hp
  | @member inner name isStatic span hinner =>
    have hindexed : inner.isIndexed = true := hh.resolve_left (by simp [Node.isMember])
    have hbase : inner.baseVariable? = none := by
      rw [hinner.baseVariable?_eq]
      exact if_pos hindexed
    rw [bind.eq_def]
    simp [hbase]
  | element _ => rw [bind.eq_def]
  | paren _ => rw [bind.eq_def]

theorem isEscaped_bind (b : Bindings) (since : UInt32) (x : Binding) (ht : target.LeadsTo a)
    (hq : a.isQualified = false) (hp : target.isPart = true) (u : Variable) :
    (b.bind since x target).isEscaped u = b.isEscaped u := by
  by_cases hh : target.isMember = false ∨ target.isIndexed = true
  · rw [b.bind_of_hidden since x ht hp hh]
  · rw [not_or, Bool.not_eq_false, Bool.not_eq_true] at hh
    rw [b.bind_of_isMember since x ht hq hh.1 hh.2, isEscaped_declare]

end Bindings

end

/-! ## Assignments that the reading arrives at -/

/-- In a block in document order, the reading arrives at an assignment to a part of a variable of
the scope, after the steps `pre`. -/
structure Block.AssignsPart (b : Block) (pre : List Step) (target value : Node) (op : AssignOp)
    (span : Span) (a : Variable) : Prop where
  inOrder : b.InOrder
  arrives : b.Arrives pre (.assignment target value op span)
  leads : target.LeadsTo a
  part : target.isPart = true
  unqualified : a.isQualified = false

namespace Block.AssignsPart

variable {b : Block} {pre : List Step} {target value : Node} {op : AssignOp} {span : Span}
  {a : Variable}

/-- All that is read up to the assignment takes effect before its end. -/
theorem since_le (h : b.AssignsPart pre target value op span a) {k : String} :
    ∀ e ∈ (Bindings.empty.run (pre ++ value.steps)).history k, e.since ≤ span.stop := by
  obtain ⟨horder, hpre⟩ := h.arrives.le_start h.inOrder
  have hvalue : value ∈ (Node.assignment target value op span).children := by simp [Node.children]
  refine Bindings.run_le (fun s hs => ?_) (by simp)
  rcases List.mem_append.1 hs with hs | hs
  · exact UInt32.le_trans (hpre s hs) (UInt32.le_of_lt horder.here.nonempty)
  · exact UInt32.le_trans ((horder.child hvalue).steps_mem hs).2 (horder.child_mem hvalue).2

/-- A member that no element hides makes its variable varying from the end of the assignment on. -/
theorem constancy_varying (h : b.AssignsPart pre target value op span a)
    (hm : target.isMember = true) (hi : target.isIndexed = false) {u : Variable}
    (hu : u.key = a.key) (hstop : span.stop ≤ u.span.start) :
    b.bindings.constancy u = .varying := by
  obtain ⟨post, hsteps⟩ := h.arrives.exists_steps
  let before := Bindings.empty.run (pre ++ value.steps)
  have hle : ∀ e ∈ before.history u.key, e.since ≤ u.span.start := fun e he =>
    UInt32.le_trans (h.since_le e he) hstop
  have hdeclare : before.step (.assign target value op span.stop) =
      before.declare u.key span.stop := by
    rw [hu]
    exact before.bind_of_isMember _ _ h.leads h.unqualified hm hi
  have hrun : b.bindings = (before.declare u.key span.stop).run post := by
    rw [Block.bindings_eq, hsteps, Node.steps_assignment, ← hdeclare]
    simp only [before, Bindings.run_append, Bindings.run_cons, Bindings.run_nil]
  have hrecord := Bindings.history_record_self before u.key span.stop ⟨.varying, false⟩
  rw [History.record_eq] at hrecord
  rw [hrun]
  refine Bindings.constancy_run_of_varying hrecord hle ?_ ?_ post
  · refine History.record_le ⟨.varying, false⟩ hstop hle _ ?_
    rw [History.record_eq]
    exact List.mem_append_right _ List.mem_cons_self
  · intro x hx
    rw [List.mem_singleton.1 hx]
    by_cases hn : before.history u.key = []
    · rw [hn]
      rfl
    · exact History.next_varying hn _ _

end Block.AssignsPart

/-- **Assignments to parts.** Let the reading of a block arrive at an assignment to a part of `$a`.
If the part is a member that no element hides, every use of `$a` from the end of the assignment on
is varying. Otherwise the assignment does nothing. Either way it marks no variable. -/
theorem member_assignments_vary {b : Block} {pre : List Step} {target value : Node} {op : AssignOp}
    {span : Span} {a : Variable} (h : b.AssignsPart pre target value op span a) :
    (target.isMember = true → target.isIndexed = false → ∀ u : Variable, u.key = a.key →
      span.stop ≤ u.span.start → b.bindings.constancy u = .varying) ∧
    (target.isMember = false ∨ target.isIndexed = true →
      (Bindings.empty.run (pre ++ value.steps)).step (.assign target value op span.stop) =
        Bindings.empty.run (pre ++ value.steps)) ∧
    ∀ u : Variable,
      ((Bindings.empty.run (pre ++ value.steps)).step
        (.assign target value op span.stop)).isEscaped u =
      (Bindings.empty.run (pre ++ value.steps)).isEscaped u :=
  ⟨fun hm hi _ hu hstop => h.constancy_varying hm hi hu hstop,
    fun hh => Bindings.bind_of_hidden _ _ _ h.leads h.part hh,
    fun u => Bindings.isEscaped_bind _ _ _ h.leads h.unqualified h.part u⟩

/-- `$cmd = 'Get-Date'; ..; iex $cmd` with an assignment to a target between the two, and the
parameter `p`. -/
def changedBetween (target value : Node) : Block :=
  { span := ⟨0, 70⟩
    params := [⟨"p", ⟨0, 2⟩, none⟩]
    annotations := []
    statements :=
      [.assignment (.reference ⟨"cmd", ⟨3, 7⟩⟩) (.literal "Get-Date" ⟨10, 20⟩) .assign ⟨3, 20⟩,
       .assignment target value .assign ⟨22, 52⟩,
       .command ⟨.literal "iex" ⟨56, 59⟩, [.argument (.reference ⟨"cmd", ⟨60, 64⟩⟩)], ⟨56, 64⟩⟩] }

/-- `$cmd.Text`. -/
def memberOfCommand : Node :=
  .member (.reference ⟨"cmd", ⟨22, 26⟩⟩) (.literal "Text" ⟨27, 31⟩) false ⟨22, 31⟩

/-- `$cmd[0]`. -/
def elementOfCommand : Node :=
  .unsupported "IndexExpression" ⟨22, 29⟩
    [.reference ⟨"cmd", ⟨22, 26⟩⟩, .literal "0" ⟨27, 28⟩]

/-- `$p -replace "'"`. -/
def unquotedInput : Node :=
  .binary .replace (.reference ⟨"p", ⟨34, 36⟩⟩) (.literal "\x27" ⟨46, 49⟩) ⟨34, 49⟩

/-- The reading arrives at the assignment in between. -/
theorem exists_assignsPart {target value : Node} (ho : (changedBetween target value).InOrder)
    (ht : target.LeadsTo ⟨"cmd", ⟨22, 26⟩⟩) (hp : target.isPart = true) :
    ∃ pre, (changedBetween target value).AssignsPart pre target value .assign ⟨22, 52⟩
      ⟨"cmd", ⟨22, 26⟩⟩ := by
  have hsplit : (changedBetween target value).statements =
      [_] ++ .assignment target value .assign ⟨22, 52⟩ :: [_] := rfl
  exact ⟨_, ho, .statement hsplit (.here _), ht, hp, by decide⟩

/-- A member of `$cmd` is set, so `$cmd` is varying. -/
theorem member_assignments_vary_textSet :
    (∃ pre, (changedBetween memberOfCommand unquotedInput).AssignsPart pre memberOfCommand
      unquotedInput .assign ⟨22, 52⟩ ⟨"cmd", ⟨22, 26⟩⟩) ∧
      (changedBetween memberOfCommand unquotedInput).bindings.constancy ⟨"cmd", ⟨60, 64⟩⟩ =
        .varying := by
  have ho : (changedBetween memberOfCommand unquotedInput).InOrder := by decide +kernel
  obtain ⟨pre, h⟩ := exists_assignsPart ho (.member .whole) rfl
  exact ⟨⟨pre, h⟩, (member_assignments_vary h).1 rfl rfl _ (by decide) (by decide)⟩

/-- An element of `$cmd` is set to input, and `$cmd` is still constant. A member of `$cmd` is set to
input that was escaped by hand, and `$cmd` has no mark. -/
theorem part_assignments_overlooked :
    ((∃ pre, (changedBetween elementOfCommand unquotedInput).AssignsPart pre elementOfCommand
      unquotedInput .assign ⟨22, 52⟩ ⟨"cmd", ⟨22, 26⟩⟩) ∧
      (changedBetween elementOfCommand unquotedInput).bindings.constancy ⟨"cmd", ⟨60, 64⟩⟩ =
        .constant) ∧
    (∃ pre, (changedBetween memberOfCommand unquotedInput).AssignsPart pre memberOfCommand
      unquotedInput .assign ⟨22, 52⟩ ⟨"cmd", ⟨22, 26⟩⟩) ∧
      unquotedInput.carriesEscaped (changedBetween memberOfCommand unquotedInput).bindings = true ∧
      (changedBetween memberOfCommand unquotedInput).bindings.isEscaped ⟨"cmd", ⟨60, 64⟩⟩ =
        false :=
  ⟨⟨exists_assignsPart (by decide +kernel) (.element .whole) rfl, by decide +kernel⟩,
    exists_assignsPart (by decide +kernel) (.member .whole) rfl, by decide +kernel,
    by decide +kernel⟩

end ScriptTaint
