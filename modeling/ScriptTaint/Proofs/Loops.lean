import ScriptTaint.Proofs.StepLaws

/-!
# Loops in the reading of a scope

`Node.loop?` reads a loop off a node: what is taken before the body, the body, and the offset at
which it is entered. The steps of a node are those of its parts, the target of an assignment apart,
and a few of its own (`Node.mem_steps_iff`). All that an assignment inside a loop can bind was
declared at the entry of the loop (`Node.targetKeys_subset_assigned`), so whatever is recorded for
the body is varying (`Loop.run_varying`), and a key that the body assigns is known from the entry on
(`Loop.run_entry`).
-/

set_option autoImplicit false

namespace ScriptTaint

/-- A loop: the steps before its body, the body, and the offset of its entry. -/
structure Loop where
  head : List Step
  body : List Node
  entry : UInt32

/-- The keys that are assigned anywhere in the body. -/
def Loop.assigned (l : Loop) : List String := l.body.flatMap Node.assigned

/-- The steps of the body: the declarations at the entry, then those of its statements. -/
def Loop.steps (l : Loop) : List Step :=
  Node.loopEntry l.body l.entry ++ l.body.flatMap Node.steps

namespace Node

/-- The loop that a node stands for. What is not modelled may be one. -/
def loop? : Node → Option Loop
  | .forEach item iterable body _ =>
    some ⟨iterable.steps ++ [.declare item.key iterable.span.stop], body, iterable.span.stop⟩
  | .unsupported _ span children => some ⟨[], children, span.start⟩
  | _ => none

/-- The node takes no steps of its own. -/
def isPassive : Node → Bool
  | .assignment .. | .forEach .. | .unsupported .. => false
  | _ => true

/-- The steps that a node adds to those of its parts. -/
def ownSteps : Node → List Step
  | .assignment target value op span => [.assign target value op span.stop]
  | .forEach item iterable body _ =>
    .declare item.key iterable.span.stop :: loopEntry body iterable.span.stop
  | .unsupported _ span children => loopEntry children span.start
  | _ => []

/-! ## The steps of a node -/

theorem steps_assignment (target value : Node) (op : AssignOp) (span : Span) :
    (Node.assignment target value op span).steps =
      value.steps ++ [.assign target value op span.stop] := by
  rw [steps.eq_def]

theorem steps_loop {n : Node} {l : Loop} (h : n.loop? = some l) : n.steps = l.head ++ l.steps := by
  cases n with
  | forEach item iterable body span =>
    obtain rfl := Option.some.inj h
    rw [steps.eq_def]
    simp [Loop.steps, List.flatMap_subtype]
  | unsupported kind span children =>
    obtain rfl := Option.some.inj h
    rw [steps.eq_def]
    simp [Loop.steps, List.flatMap_subtype]
  | _ => cases h

theorem steps_passive {n : Node} (h : n.isPassive = true) : n.steps = n.children.flatMap steps := by
  cases n with
  | assignment | forEach | unsupported => cases h
  | _ => rw [steps.eq_def]; simp [List.flatMap_subtype]

theorem body_subset_children {n : Node} {l : Loop} (h : n.loop? = some l) :
    ∀ c ∈ l.body, c ∈ n.children := by
  cases n with
  | forEach item iterable body span =>
    obtain rfl := Option.some.inj h
    exact fun c hc => List.mem_cons_of_mem _ hc
  | unsupported kind span children =>
    obtain rfl := Option.some.inj h
    exact fun c hc => hc
  | _ => cases h

/-- The children that the reading of a node goes into. -/
def readChildren : Node → List Node
  | .assignment _ value _ _ => [value]
  | n => n.children

theorem mem_children_of_read {n c : Node} (h : c ∈ n.readChildren) : c ∈ n.children := by
  cases n with
  | assignment target value op span =>
    obtain rfl := List.mem_singleton.1 h
    simp [children]
  | _ => exact h

theorem mem_steps_iff {n : Node} {s : Step} :
    s ∈ n.steps ↔ s ∈ n.ownSteps ∨ ∃ c ∈ n.readChildren, s ∈ c.steps := by
  cases n with
  | assignment target value op span =>
    rw [steps_assignment]
    simp [ownSteps, readChildren, or_comm]
  | forEach item iterable body span =>
    rw [steps_loop rfl]
    simp only [Loop.steps, ownSteps, readChildren, children, List.mem_append, List.mem_cons,
      List.not_mem_nil, or_false, List.mem_flatMap, exists_eq_or_imp]
    grind
  | unsupported kind span cs =>
    rw [steps_loop rfl]
    simp [Loop.steps, ownSteps, readChildren, children]
  | _ =>
    rw [steps_passive rfl]
    simp [ownSteps, readChildren]

theorem mem_steps {n : Node} {s : Step} (h : s ∈ n.steps) :
    (∃ c ∈ n.children, s ∈ c.steps) ∨ s ∈ n.ownSteps := by
  rcases mem_steps_iff.1 h with hown | ⟨c, hc, hs⟩
  · exact .inr hown
  · exact .inl ⟨c, mem_children_of_read hc, hs⟩

theorem mem_loopEntry {body : List Node} {entry : UInt32} {s : Step} :
    s ∈ loopEntry body entry ↔ ∃ key ∈ body.flatMap assigned, s = .declare key entry := by
  simp only [loopEntry, List.mem_map, List.mem_eraseDups]
  exact ⟨fun ⟨k, hk, h⟩ => ⟨k, hk, h.symm⟩, fun ⟨k, hk, h⟩ => ⟨k, hk, h.symm⟩⟩

/-- Only an assignment adds the step of one. -/
theorem eq_assignment_of_mem_ownSteps {n target value : Node} {op : AssignOp} {since : UInt32}
    (h : .assign target value op since ∈ n.ownSteps) :
    ∃ span, n = .assignment target value op span ∧ since = span.stop := by
  cases n with
  | assignment t v o span =>
    obtain ⟨rfl, rfl, rfl, rfl⟩ := Step.assign.inj (List.mem_singleton.1 h)
    exact ⟨span, rfl, rfl⟩
  | forEach item iterable body span =>
    rcases List.mem_cons.1 h with h | h
    · cases h
    · obtain ⟨_, _, h⟩ := mem_loopEntry.1 h
      cases h
  | unsupported kind span children =>
    obtain ⟨_, _, h⟩ := mem_loopEntry.1 h
    cases h
  | _ => cases h

/-! ## The keys that are assigned -/

theorem assigned_eq (n : Node) : n.assigned = n.assignsHere ++ n.children.flatMap assigned := by
  rw [assigned, within_eq, List.flatMap_cons, List.flatMap_assoc]
  rfl

theorem assigned_subset_of_child {n c : Node} (hc : c ∈ n.children) :
    ∀ k ∈ c.assigned, k ∈ n.assigned := by
  intro k hk
  rw [n.assigned_eq]
  exact List.mem_append_right _ (List.mem_flatMap.2 ⟨c, hc, hk⟩)

/-- The keys that an assignment binds are collected with it, however deep it stands. -/
theorem targetKeys_subset_assigned {n target value : Node} {op : AssignOp} {since : UInt32}
    (h : .assign target value op since ∈ n.steps) : ∀ k ∈ target.targetKeys, k ∈ n.assigned := by
  induction n using Node.induction_children with
  | step n ih =>
    rcases mem_steps h with ⟨c, hc, hs⟩ | hown
    · exact fun k hk => assigned_subset_of_child hc k (ih c hc hs k hk)
    · obtain ⟨span, rfl, -⟩ := eq_assignment_of_mem_ownSteps hown
      intro k hk
      rw [assigned_eq]
      exact List.mem_append_left _ hk

end Node

/-! ## What a loop records -/

namespace Loop

variable (l : Loop) (b : Bindings)

theorem entry_varying (k : String) :
    ∃ events : List Event,
      (b.run (Node.loopEntry l.body l.entry)).history k = b.history k ++ events ∧
        ∀ e ∈ events, e.binding.constancy = .varying :=
  Bindings.run_varying fun _ _ hs _ =>
    let ⟨key, _, h⟩ := Node.mem_loopEntry.1 hs
    ⟨key, l.entry, h⟩

/-- From the entry of a loop on, all that its body assigns is known, and unknown in value. -/
theorem run_entry {k : String} (hk : k ∈ l.assigned) :
    ∃ (e : Event) (events : List Event),
      (b.run (Node.loopEntry l.body l.entry)).history k = b.history k ++ e :: events ∧
        ∀ x ∈ e :: events, x.binding.constancy = .varying := by
  obtain ⟨events, he, hv⟩ := entry_varying l b k
  cases events with
  | cons e events => exact ⟨e, events, he, hv⟩
  | nil =>
    have hdecl : .declare k l.entry ∈ Node.loopEntry l.body l.entry :=
      Node.mem_loopEntry.2 ⟨k, hk, rfl⟩
    have := Bindings.length_history_run hdecl b
    simp [he] at this

/-- The statements of the body record nothing constant either: an assignment among them binds a key
that the entry declared, and the rest are declarations. -/
theorem body_varying (k : String) :
    ∃ events : List Event,
      ((b.run (Node.loopEntry l.body l.entry)).run (l.body.flatMap Node.steps)).history k =
        (b.run (Node.loopEntry l.body l.entry)).history k ++ events ∧
      ∀ e ∈ events, e.binding.constancy = .varying := by
  refine Bindings.run_varying fun hnil s hs hk => ?_
  cases s with
  | declare key since => exact ⟨key, since, rfl⟩
  | assign target value op since =>
    obtain ⟨c, hc, hs⟩ := List.mem_flatMap.1 hs
    have hmem : k ∈ l.assigned :=
      List.mem_flatMap.2 ⟨c, hc, Node.targetKeys_subset_assigned hs k hk⟩
    obtain ⟨e, events, he, -⟩ := run_entry l b hmem
    simp [hnil] at he

/-- **Loop bodies record nothing constant**, whatever was known before. -/
theorem run_varying (k : String) :
    ∃ events : List Event, (b.run l.steps).history k = b.history k ++ events ∧
      ∀ e ∈ events, e.binding.constancy = .varying := by
  obtain ⟨es, he, hv⟩ := entry_varying l b k
  obtain ⟨fs, hf, hw⟩ := body_varying l b k
  refine ⟨es ++ fs, by rw [steps, Bindings.run_append, hf, he, List.append_assoc], ?_⟩
  intro e hm
  exact (List.mem_append.1 hm).elim (hv e) (hw e)

end Loop

/-! ## The steps of a block -/

/-- The declarations of a block's parameters. -/
def Block.paramSteps (b : Block) : List Step :=
  b.params.map fun p => .declare (Text.lower p.name) b.span.start

theorem Block.steps_eq (b : Block) : b.steps = b.paramSteps ++ b.statements.flatMap Node.steps :=
  rfl

theorem Block.bindings_eq (b : Block) : b.bindings = Bindings.empty.run b.steps := rfl

end ScriptTaint
