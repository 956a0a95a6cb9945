import ScriptTaint.Proofs.DocumentOrder

/-!
# Back edges of loops

`Block.Arrives b pre n`: the reading of `b` arrives at the node `n` after the steps `pre`. It goes
into values, iterables, bodies and the children of everything else, but not into the targets of
assignments.

`loop_records_varying`: wherever the reading arrives at a loop, it records nothing constant for the
body, and in document order a variable that the body assigns is varying at every use from the entry
of the loop on. An assignment late in the body so reaches the uses before it in the next iteration.
-/

set_option autoImplicit false

namespace ScriptTaint

/-- The reading of a node arrives at a node in it after the steps. -/
inductive Node.Arrives : Node → List Step → Node → Prop
  | here (n : Node) : Arrives n [] n
  | value {target value m : Node} {op : AssignOp} {span : Span} {pre : List Step} :
      value.Arrives pre m → Arrives (.assignment target value op span) pre m
  | iterable {item : Variable} {iterable m : Node} {body : List Node} {span : Span}
      {pre : List Step} :
      iterable.Arrives pre m → Arrives (.forEach item iterable body span) pre m
  | body {n c m : Node} {l : Loop} {before behind : List Node} {pre : List Step} :
      n.loop? = some l → l.body = before ++ c :: behind → c.Arrives pre m →
      Arrives n (l.head ++ loopEntry l.body l.entry ++ before.flatMap steps ++ pre) m
  | child {n c m : Node} {before behind : List Node} {pre : List Step} :
      n.isPassive = true → n.children = before ++ c :: behind → c.Arrives pre m →
      Arrives n (before.flatMap steps ++ pre) m

/-- The reading of a block arrives at a node in it after the steps. -/
inductive Block.Arrives (b : Block) : List Step → Node → Prop
  | statement {c m : Node} {before behind : List Node} {pre : List Step} :
      b.statements = before ++ c :: behind → c.Arrives pre m →
      Arrives b (b.paramSteps ++ before.flatMap Node.steps ++ pre) m

namespace Node.Arrives

variable {n m : Node} {pre : List Step}

/-- On arrival, the steps of the node are the next ones. -/
theorem exists_steps (h : n.Arrives pre m) : ∃ post, n.steps = pre ++ m.steps ++ post := by
  induction h with
  | here n => exact ⟨[], by simp⟩
  | value _ ih =>
    obtain ⟨post, hp⟩ := ih
    exact ⟨post ++ [_], by rw [steps_assignment, hp, List.append_assoc]⟩
  | iterable _ ih =>
    obtain ⟨post, hp⟩ := ih
    rw [steps_loop rfl, hp]
    exact ⟨_, by simp only [List.append_assoc]; rfl⟩
  | @body n c m l before behind pre hl hb _ ih =>
    obtain ⟨post, hp⟩ := ih
    refine ⟨post ++ behind.flatMap steps, ?_⟩
    simp [steps_loop hl, Loop.steps, hb, hp]
  | @child n c m before behind pre hn hc _ ih =>
    obtain ⟨post, hp⟩ := ih
    refine ⟨post ++ behind.flatMap steps, ?_⟩
    simp [steps_passive hn, hc, hp]

/-- In document order the reading arrives at a node only after steps that take effect before it,
and at a node that is in order itself. -/
theorem le_start (h : n.Arrives pre m) (ho : n.InOrder) :
    m.InOrder ∧ n.span.start ≤ m.span.start ∧ ∀ s ∈ pre, s.since ≤ m.span.start := by
  induction h with
  | here n => exact ⟨ho, UInt32.le_refl _, by simp⟩
  | @value target value m op span pre _ ih =>
    have hc : value ∈ (Node.assignment target value op span).children := by simp [children]
    obtain ⟨hm, hs, hp⟩ := ih (ho.child hc)
    exact ⟨hm, UInt32.le_trans (ho.child_mem hc).1 hs, hp⟩
  | @iterable item iterable m body span pre _ ih =>
    have hc : iterable ∈ (Node.forEach item iterable body span).children := by simp [children]
    obtain ⟨hm, hs, hp⟩ := ih (ho.child hc)
    exact ⟨hm, UInt32.le_trans (ho.child_mem hc).1 hs, hp⟩
  | @body n c m l before behind pre hl hb _ ih =>
    have hfrom := ho.body_from hl
    rw [hb] at hfrom
    obtain ⟨hm, hs, hp⟩ := ih (hfrom.each c (by simp))
    have hentry := hfrom.behind c (by simp)
    obtain ⟨hstart, hhead⟩ := ho.head_le hl
    refine ⟨hm, UInt32.le_trans hstart (UInt32.le_trans hentry hs), fun s hmem => ?_⟩
    simp only [List.mem_append] at hmem
    rcases hmem with ((hmem | hmem) | hmem) | hmem
    · exact UInt32.le_trans (hhead s hmem) (UInt32.le_trans hentry hs)
    · obtain ⟨key, -, rfl⟩ := mem_loopEntry.1 hmem
      exact UInt32.le_trans hentry hs
    · exact UInt32.le_trans (hfrom.steps_le hmem) hs
    · exact hp s hmem
  | @child n c m before behind pre _ hc _ ih =>
    have hfrom := ho.children_from
    rw [hc] at hfrom
    obtain ⟨hm, hs, hp⟩ := ih (hfrom.each c (by simp))
    refine ⟨hm, UInt32.le_trans (hfrom.behind c (by simp)) hs, fun s hmem => ?_⟩
    rcases List.mem_append.1 hmem with hmem | hmem
    · exact UInt32.le_trans (hfrom.steps_le hmem) hs
    · exact hp s hmem

end Node.Arrives

namespace Block.Arrives

variable {b : Block} {pre : List Step} {n : Node}

theorem exists_steps (h : b.Arrives pre n) : ∃ post, b.steps = pre ++ n.steps ++ post := by
  obtain @⟨c, m, before, behind, pre, hb, hc⟩ := h
  obtain ⟨post, hp⟩ := hc.exists_steps
  refine ⟨post ++ behind.flatMap Node.steps, ?_⟩
  simp [Block.steps_eq, hb, hp]

theorem le_start (h : b.Arrives pre n) (ho : b.InOrder) :
    n.InOrder ∧ ∀ s ∈ pre, s.since ≤ n.span.start := by
  obtain @⟨c, m, before, behind, pre, hb, hc⟩ := h
  have hfrom := ho.statements_from
  rw [hb] at hfrom
  obtain ⟨hm, hs, hp⟩ := hc.le_start (hfrom.each c (by simp))
  refine ⟨hm, fun s hmem => ?_⟩
  simp only [List.mem_append, Block.paramSteps, List.mem_map] at hmem
  rcases hmem with (⟨p, -, rfl⟩ | hmem) | hmem
  · exact UInt32.le_trans (hfrom.behind c (by simp)) hs
  · exact UInt32.le_trans (hfrom.steps_le hmem) hs
  · exact hp s hmem

end Block.Arrives

/-- In document order, a key that the body of a loop assigns is varying from the entry on. -/
theorem Loop.constancy_varying {b : Block} {pre : List Step} {n : Node} {l : Loop}
    (ha : b.Arrives pre n) (hl : n.loop? = some l) (ho : b.InOrder) {v : Variable}
    (hk : v.key ∈ l.assigned) (hv : l.entry ≤ v.span.start) :
    b.bindings.constancy v = .varying := by
  obtain ⟨post, hsteps⟩ := ha.exists_steps
  obtain ⟨hn, hpre⟩ := ha.le_start ho
  obtain ⟨hstart, hhead⟩ := hn.head_le hl
  let b₀ := Bindings.empty.run (pre ++ l.head)
  -- All that was recorded before the entry takes effect before it.
  have hle : ∀ e ∈ b₀.history v.key, e.since ≤ l.entry := by
    refine Bindings.run_le (fun s hs => ?_) (by simp)
    rcases List.mem_append.1 hs with hs | hs
    · exact UInt32.le_trans (hpre s hs) hstart
    · exact hhead s hs
  obtain ⟨e, events, he, hvar⟩ := l.run_entry b₀ hk
  have hentry : e.since ≤ l.entry := by
    refine Bindings.run_le (b := b₀) (fun s hs => ?_) hle e (by rw [he]; simp)
    obtain ⟨key, -, rfl⟩ := Node.mem_loopEntry.1 hs
    exact UInt32.le_refl _
  have hrun : b.bindings = (b₀.run (Node.loopEntry l.body l.entry)).run
      (l.body.flatMap Node.steps ++ post) := by
    rw [Block.bindings_eq, hsteps, Node.steps_loop hl]
    simp only [b₀, Loop.steps, ← Bindings.run_append, List.append_assoc]
  rw [hrun]
  exact Bindings.constancy_run_of_varying he (fun x hx => UInt32.le_trans (hle x hx) hv)
    (UInt32.le_trans hentry hv) hvar _

/-- **Back edges.** Wherever the reading of a block arrives at a loop, every event recorded for its
body is varying; and in document order a variable that the body assigns is varying at every use
from the entry of the loop on. -/
theorem loop_records_varying {b : Block} {pre : List Step} {n : Node} {l : Loop}
    (ha : b.Arrives pre n) (hl : n.loop? = some l) :
    (∀ k, ∃ events later : List Event,
      (Bindings.empty.run (pre ++ l.head ++ l.steps)).history k =
        (Bindings.empty.run (pre ++ l.head)).history k ++ events ∧
      b.bindings.history k =
        (Bindings.empty.run (pre ++ l.head ++ l.steps)).history k ++ later ∧
      ∀ e ∈ events, e.binding.constancy = .varying) ∧
    (b.InOrder → ∀ v : Variable, v.key ∈ l.assigned → l.entry ≤ v.span.start →
      b.bindings.constancy v = .varying) := by
  refine ⟨fun k => ?_, fun ho v hk hv => Loop.constancy_varying ha hl ho hk hv⟩
  obtain ⟨post, hsteps⟩ := ha.exists_steps
  obtain ⟨events, he, hv⟩ := l.run_varying (Bindings.empty.run (pre ++ l.head)) k
  obtain ⟨later, hlater, -, -⟩ :=
    (Bindings.empty.run (pre ++ l.head ++ l.steps)).extends_run post k
  refine ⟨events, later, by rw [Bindings.run_append, he], ?_, hv⟩
  rw [← hlater, ← Bindings.run_append, Block.bindings_eq, hsteps, Node.steps_loop hl]
  simp only [List.append_assoc]

/-- `$cmd = 'Get-Date'; foreach ($i in $p) { $cmd; $Cmd = $i }`, with the parameter `p`. -/
def lateReassignment : Block :=
  { span := ⟨0, 60⟩
    params := [⟨"p", ⟨0, 1⟩, none⟩]
    annotations := []
    statements :=
      [.assignment (.reference ⟨"cmd", ⟨1, 5⟩⟩) (.literal "Get-Date" ⟨8, 18⟩) .assign ⟨1, 18⟩,
       .forEach ⟨"i", ⟨29, 31⟩⟩ (.reference ⟨"p", ⟨35, 37⟩⟩)
        [.reference ⟨"cmd", ⟨41, 45⟩⟩,
         .assignment (.reference ⟨"Cmd", ⟨47, 51⟩⟩) (.reference ⟨"i", ⟨54, 56⟩⟩) .assign ⟨47, 56⟩]
        ⟨20, 58⟩] }

/-- The reassignment at the end of the body reaches the use at its start. -/
theorem loop_records_varying_lateReassignment :
    lateReassignment.InOrder ∧
      lateReassignment.bindings.constancy ⟨"cmd", ⟨41, 45⟩⟩ = .varying := by
  have ho : lateReassignment.InOrder := by decide +kernel
  have ha : lateReassignment.Arrives _ _ := .statement (List.singleton_append ..).symm (.here _)
  exact ⟨ho, (loop_records_varying ha rfl).2 ho _ (by decide +kernel) (by decide)⟩

end ScriptTaint
