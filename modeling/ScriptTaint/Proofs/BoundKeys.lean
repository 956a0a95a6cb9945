import ScriptTaint.Proofs.Recordings

/-!
# Bound keys and assigned keys

Two recursions tell the variables of a scope. `Node.assigned` collects the keys that are assigned
anywhere in a node; the reading of a scope binds keys by its steps. `Node.read` are the nodes that
the reading goes into: all but those in the target of an assignment.

* A key is bound if and only if a node that is read assigns it, or is a loop in which it is assigned
  anywhere, or a loop over a variable of this key (`Block.contains_bindings_iff`).
* A key is assigned if and only if a node that is read assigns it, or is an assignment with it
  assigned in the target (`Node.mem_assigned_iff`).

`bound_iff_assigned` compares the two. They agree unless a variable is assigned in targets only, or
a loop is over a variable of another scope; `assigned_unbound_qualified_bound` has a script for
each.
-/

set_option autoImplicit false

namespace ScriptTaint

/-! ## The nodes that are read -/

namespace Node

/-- The node and all nodes inside it that its reading goes into. -/
def read (n : Node) : List Node := n :: n.readChildren.attach.flatMap fun ⟨c, _⟩ => c.read
termination_by sizeOf n
decreasing_by exact sizeOf_child (mem_children_of_read ‹_›)

theorem read_eq (n : Node) : n.read = n :: n.readChildren.flatMap read := by
  rw [read]; simp [List.flatMap_subtype]

/-- What holds of a node by itself or of a child that is read comes from a node that is read. -/
theorem exists_mem_read_iff {P Q : Node → Prop}
    (h : ∀ n, P n ↔ Q n ∨ ∃ c ∈ n.readChildren, P c) (n : Node) : P n ↔ ∃ m ∈ n.read, Q m := by
  induction n using Node.induction_children with
  | step n ih =>
    rw [h, read_eq]
    constructor
    · rintro (hq | ⟨c, hc, hp⟩)
      · exact ⟨n, List.mem_cons_self, hq⟩
      · obtain ⟨m, hm, hq⟩ := (ih c (mem_children_of_read hc)).1 hp
        exact ⟨m, List.mem_cons_of_mem _ (List.mem_flatMap.2 ⟨c, hc, hm⟩), hq⟩
    · rintro ⟨m, hm, hq⟩
      rcases List.mem_cons.1 hm with rfl | hm
      · exact .inl hq
      · obtain ⟨c, hc, hm⟩ := List.mem_flatMap.1 hm
        exact .inr ⟨c, hc, (ih c (mem_children_of_read hc)).2 ⟨m, hm, hq⟩⟩

/-! ## Keys of the steps -/

/-- The variable that a loop is over. -/
def item? : Node → Option Variable
  | .forEach item _ _ _ => some item
  | _ => none

/-- The keys that the node itself assigns, and those that are assigned in it if it is a loop. -/
def recordsHere (n : Node) : List String :=
  n.assignsHere ++ (n.loop?.map Loop.assigned).getD []

theorem mem_keys_loopEntry {body : List Node} {entry : UInt32} {k : String} :
    k ∈ (loopEntry body entry).flatMap Step.keys ↔ k ∈ body.flatMap assigned := by
  simp [loopEntry, Step.keys]

/-- The key of a variable, if it belongs to the scope. -/
theorem mem_ownKey {v : Variable} {k : String} :
    k ∈ (if v.isQualified then [] else [v.key]) ↔ v.isQualified = false ∧ v.key = k := by
  cases v.isQualified <;> simp [eq_comm]

/-- The steps of a node bind what it records, and the variable of a loop whatever its scope. -/
theorem mem_keys_ownSteps {n : Node} {k : String} :
    k ∈ n.ownSteps.flatMap Step.keys ↔ k ∈ n.recordsHere ∨ ∃ v ∈ n.item?, v.key = k := by
  cases n with
  | assignment target value op span =>
    simp [ownSteps, recordsHere, assignsHere, loop?, item?, Step.keys]
  | forEach item iterable body span =>
    rw [ownSteps, List.flatMap_cons, List.mem_append, mem_keys_loopEntry]
    constructor
    · rintro (hk | hk)
      · exact .inr ⟨item, rfl, (List.mem_singleton.1 hk).symm⟩
      · exact .inl (List.mem_append_right _ hk)
    · rintro (hk | ⟨v, hv, rfl⟩)
      · rcases List.mem_append.1 hk with hk | hk
        · exact .inl (List.mem_singleton.2 ((mem_ownKey (v := item)).1 hk).2.symm)
        · exact .inr hk
      · obtain rfl := Option.some.inj hv
        exact .inl (List.mem_singleton.2 rfl)
  | unsupported kind span cs =>
    rw [ownSteps, mem_keys_loopEntry]
    simp [recordsHere, assignsHere, loop?, item?, Loop.assigned]
  | _ => simp [ownSteps, recordsHere, assignsHere, loop?, item?]

/-- A loop over a variable of the scope assigns it. -/
theorem mem_recordsHere_of_item {n : Node} {v : Variable} (hv : v ∈ n.item?)
    (hq : v.isQualified = false) : v.key ∈ n.recordsHere := by
  cases n with
  | forEach item iterable body span =>
    obtain rfl : item = v := Option.some.inj hv
    exact List.mem_append_left _ ((mem_ownKey (v := item)).2 ⟨hq, rfl⟩)
  | _ => cases hv

/-- A step of a node comes from a node that is read. -/
theorem mem_keys_steps_iff {n : Node} {k : String} :
    k ∈ n.steps.flatMap Step.keys ↔ ∃ m ∈ n.read, k ∈ m.ownSteps.flatMap Step.keys := by
  refine exists_mem_read_iff (P := fun n => k ∈ n.steps.flatMap Step.keys) (fun n => ?_) n
  simp only [List.mem_flatMap]
  constructor
  · rintro ⟨s, hs, hk⟩
    rcases mem_steps_iff.1 hs with hs | ⟨c, hc, hs⟩
    · exact .inl ⟨s, hs, hk⟩
    · exact .inr ⟨c, hc, s, hs, hk⟩
  · rintro (⟨s, hs, hk⟩ | ⟨c, hc, s, hs, hk⟩)
    · exact ⟨s, mem_steps_iff.2 (.inl hs), hk⟩
    · exact ⟨s, mem_steps_iff.2 (.inr ⟨c, hc, hs⟩), hk⟩

/-! ## Keys that are assigned -/

/-- The keys that are assigned inside the target of an assignment. -/
def assignedInTarget : Node → List String
  | .assignment target _ _ _ => target.assigned
  | _ => []

theorem mem_assigned_iff {n : Node} {k : String} :
    k ∈ n.assigned ↔ ∃ m ∈ n.read, k ∈ m.assignsHere ∨ k ∈ m.assignedInTarget := by
  refine exists_mem_read_iff (P := fun n => k ∈ n.assigned) (fun n => ?_) n
  rw [assigned_eq, List.mem_append, List.mem_flatMap]
  cases n with
  | assignment target value op span => simp [children, readChildren, assignedInTarget, or_assoc]
  | _ => simp [readChildren, assignedInTarget]

theorem mem_within_of_mem_read {n m : Node} (h : m ∈ n.read) : m ∈ n.within := by
  induction n using Node.induction_children with
  | step n ih =>
    rw [read_eq] at h
    rcases List.mem_cons.1 h with rfl | h
    · exact mem_within_self m
    · obtain ⟨c, hc, hm⟩ := List.mem_flatMap.1 h
      exact mem_within_of_child (mem_children_of_read hc) (ih c (mem_children_of_read hc) hm)

/-- What is recorded at a node that is read is assigned. -/
theorem mem_assigned_of_recordsHere {n m : Node} {k : String} (hm : m ∈ n.read)
    (hk : k ∈ m.recordsHere) : k ∈ n.assigned := by
  have hwithin := mem_within_of_mem_read hm
  have hassigned : k ∈ m.assigned := by
    rw [assigned_eq, List.mem_append, List.mem_flatMap]
    rcases List.mem_append.1 hk with hk | hk
    · exact .inl hk
    · cases hl : m.loop? with
      | none => simp [hl] at hk
      | some l =>
        rw [hl] at hk
        obtain ⟨c, hc, hk⟩ := List.mem_flatMap.1 hk
        exact .inr ⟨c, body_subset_children hl c hc, hk⟩
  obtain ⟨d, hd, hk⟩ := List.mem_flatMap.1 hassigned
  exact List.mem_flatMap.2 ⟨d, within_trans hwithin hd, hk⟩

/-- The keys that an assignment to a target binds are not qualified. -/
theorem not_colon_of_mem_targetKeys {n : Node} {k : String} (h : k ∈ n.targetKeys) :
    k.toList.contains ':' = false := by
  have own {v : Variable} (h : k ∈ if v.isQualified then [] else [v.key]) :
      k.toList.contains ':' = false := by
    obtain ⟨hq, rfl⟩ := mem_ownKey.1 h
    exact hq
  induction n using Node.induction_children with
  | step n ih =>
    rw [targetKeys.eq_def] at h
    cases n with
    | reference v => exact own h
    | member target name isStatic span =>
      simp only at h
      split at h
      · exact own h
      · cases h
    | cast typeName operand span => exact ih operand (by simp [children]) h
    | arrayLiteral elements span =>
      simp only [List.flatMap_subtype, List.unattach_attach] at h
      obtain ⟨e, he, hk⟩ := List.mem_flatMap.1 h
      exact ih e he hk
    | _ => cases h

theorem not_colon_of_mem_assigned {n : Node} {k : String} (h : k ∈ n.assigned) :
    k.toList.contains ':' = false := by
  obtain ⟨m, -, hk⟩ := List.mem_flatMap.1 h
  cases m with
  | assignment target value op span => exact not_colon_of_mem_targetKeys hk
  | forEach item iterable body span =>
    obtain ⟨hq, rfl⟩ := (mem_ownKey (v := item)).1 hk
    exact hq
  | _ => cases hk

end Node

/-! ## Keys of bindings -/

namespace Bindings

variable {b c : Bindings} {k : String}

theorem contains_iff : b.contains k = true ↔ k ∈ b.keys := by
  unfold contains keys
  rw [List.lookup_isSome_iff, List.mem_map]
  simp only [beq_iff_eq]
  exact exists_congr fun p => and_congr_right fun _ => eq_comm

theorem contains_record {key : String} {since : UInt32} {x : Binding} :
    (b.record key since x).contains k = true ↔ k = key ∨ b.contains k = true := by
  rw [contains_iff, contains_iff]
  exact mem_map_adjust

theorem contains_of_history_ne_nil (h : b.history k ≠ []) : b.contains k = true := by
  unfold contains
  unfold history at h
  cases hl : b.histories.lookup k with
  | none => simp [hl] at h
  | some x => rfl

theorem Recorded.contains_cases {since : UInt32} {keys : List String} (h : Recorded since keys b c)
    (hk : c.contains k = true) : k ∈ keys ∨ b.contains k = true := by
  induction h with
  | refl => exact .inr hk
  | record x _ hm ih =>
    rcases contains_record.1 hk with rfl | hk
    · exact .inl hm
    · exact ih hk

theorem contains_run_cases {steps : List Step} (hk : (b.run steps).contains k = true) :
    k ∈ steps.flatMap Step.keys ∨ b.contains k = true := by
  induction steps generalizing b with
  | nil => exact .inr hk
  | cons s steps ih =>
    rw [List.flatMap_cons, List.mem_append]
    rcases ih hk with hk | hk
    · exact .inl (.inr hk)
    · exact ((b.step_recorded s).contains_cases hk).imp_left .inl

/-- **Steps bind their keys and no others.** -/
theorem contains_run_empty {steps : List Step} :
    (empty.run steps).contains k = true ↔ k ∈ steps.flatMap Step.keys := by
  constructor
  · intro hk
    exact (contains_run_cases hk).resolve_right (by simp [contains, empty])
  · intro hk
    refine contains_of_history_ne_nil fun hnil => ?_
    have hlength := empty.length_history_run_eq steps k
    have hpos := List.count_pos_iff.2 hk
    rw [hnil, List.length_nil, history_empty, List.length_nil] at hlength
    omega

end Bindings

/-! ## Blocks -/

namespace Block

/-- The keys that are assigned anywhere in the statements. -/
def assigned (b : Block) : List String := b.statements.flatMap Node.assigned

/-- The nodes that the reading of the block goes into. -/
def read (b : Block) : List Node := b.statements.flatMap Node.read

/-- The keys that nodes which are read assign, or that are assigned in loops among them. -/
def recorded (b : Block) : List String := b.read.flatMap Node.recordsHere

/-- The variables of the loops that are read. -/
def loopItems (b : Block) : List Variable := b.read.filterMap Node.item?

variable {b : Block} {k : String}

theorem contains_bindings_iff (hp : b.params = []) :
    b.bindings.contains k = true ↔ k ∈ b.recorded ∨ ∃ v ∈ b.loopItems, v.key = k := by
  have hsteps : b.steps = b.statements.flatMap Node.steps := by
    rw [steps_eq, paramSteps, hp]
    rfl
  rw [bindings_eq, Bindings.contains_run_empty, hsteps, List.flatMap_assoc, List.mem_flatMap]
  simp only [Node.mem_keys_steps_iff, Node.mem_keys_ownSteps]
  constructor
  · rintro ⟨c, hc, m, hm, hk⟩
    have hread : m ∈ b.read := List.mem_flatMap.2 ⟨c, hc, hm⟩
    rcases hk with hk | ⟨v, hv, hk⟩
    · exact .inl (List.mem_flatMap.2 ⟨m, hread, hk⟩)
    · exact .inr ⟨v, List.mem_filterMap.2 ⟨m, hread, hv⟩, hk⟩
  · rintro (hk | ⟨v, hv, hk⟩)
    · obtain ⟨m, hm, hk⟩ := List.mem_flatMap.1 hk
      obtain ⟨c, hc, hm⟩ := List.mem_flatMap.1 hm
      exact ⟨c, hc, m, hm, .inl hk⟩
    · obtain ⟨m, hm, hv⟩ := List.mem_filterMap.1 hv
      obtain ⟨c, hc, hm⟩ := List.mem_flatMap.1 hm
      exact ⟨c, hc, m, hm, .inr ⟨v, hv, hk⟩⟩

theorem mem_assigned_iff :
    k ∈ b.assigned ↔ ∃ n ∈ b.read, k ∈ n.assignsHere ∨ k ∈ n.assignedInTarget := by
  simp only [assigned, read, List.mem_flatMap, Node.mem_assigned_iff]
  constructor
  · rintro ⟨c, hc, m, hm, hk⟩
    exact ⟨m, ⟨c, hc, hm⟩, hk⟩
  · rintro ⟨m, ⟨c, hc, hm⟩, hk⟩
    exact ⟨c, hc, m, hm, hk⟩

theorem mem_assigned_of_recorded (h : k ∈ b.recorded) : k ∈ b.assigned := by
  obtain ⟨m, hm, hk⟩ := List.mem_flatMap.1 h
  obtain ⟨c, hc, hm⟩ := List.mem_flatMap.1 hm
  exact List.mem_flatMap.2 ⟨c, hc, Node.mem_assigned_of_recordsHere hm hk⟩

theorem not_colon_of_mem_assigned (h : k ∈ b.assigned) : k.toList.contains ':' = false := by
  obtain ⟨c, -, hk⟩ := List.mem_flatMap.1 h
  exact Node.not_colon_of_mem_assigned hk

theorem mem_recorded_of_loopItem {v : Variable} (hv : v ∈ b.loopItems)
    (hq : v.isQualified = false) : v.key ∈ b.recorded := by
  obtain ⟨m, hm, hitem⟩ := List.mem_filterMap.1 hv
  exact List.mem_flatMap.2 ⟨m, hm, Node.mem_recordsHere_of_item hitem hq⟩

end Block

/-- **Bound keys and assigned keys.** In a block without parameters a key is bound if and only if it
is recorded at a node that is read, or is the key of a loop's variable. The bound keys are the
assigned ones if and only if no loop is over a variable of another scope, and what is assigned in a
target is recorded elsewhere too. A qualified key is bound by such a loop only. -/
theorem bound_iff_assigned (b : Block) (hp : b.params = []) :
    (∀ k, b.bindings.contains k = true ↔ k ∈ b.recorded ∨ ∃ v ∈ b.loopItems, v.key = k) ∧
    ((∀ k, b.bindings.contains k = true ↔ k ∈ b.assigned) ↔
      (∀ v ∈ b.loopItems, v.isQualified = false) ∧
        ∀ n ∈ b.read, ∀ k ∈ n.assignedInTarget, k ∈ b.recorded) ∧
    ∀ k, k.toList.contains ':' = true →
      (b.bindings.contains k = true ↔ ∃ v ∈ b.loopItems, v.key = k) := by
  have hbound (k : String) := Block.contains_bindings_iff (k := k) hp
  refine ⟨hbound, ⟨fun hagree => ?_, ?_⟩, fun k hcolon => ?_⟩
  · have hitems : ∀ v ∈ b.loopItems, v.isQualified = false := fun v hv =>
      Block.not_colon_of_mem_assigned ((hagree v.key).1 ((hbound v.key).2 (.inr ⟨v, hv, rfl⟩)))
    refine ⟨hitems, fun n hn k hk => ?_⟩
    have hassigned : k ∈ b.assigned := Block.mem_assigned_iff.2 ⟨n, hn, .inr hk⟩
    rcases (hbound k).1 ((hagree k).2 hassigned) with hk | ⟨v, hv, rfl⟩
    · exact hk
    · exact Block.mem_recorded_of_loopItem hv (hitems v hv)
  · rintro ⟨hitems, htargets⟩ k
    rw [hbound]
    constructor
    · rintro (hk | ⟨v, hv, rfl⟩)
      · exact Block.mem_assigned_of_recorded hk
      · exact Block.mem_assigned_of_recorded (Block.mem_recorded_of_loopItem hv (hitems v hv))
    · intro hk
      obtain ⟨n, hn, hk | hk⟩ := Block.mem_assigned_iff.1 hk
      · exact .inl (List.mem_flatMap.2 ⟨n, hn, List.mem_append_left _ hk⟩)
      · exact .inl (htargets n hn k hk)
  · rw [hbound]
    refine ⟨fun h => h.resolve_left fun hk => ?_, .inr⟩
    rw [Block.not_colon_of_mem_assigned (Block.mem_assigned_of_recorded hk)] at hcolon
    cases hcolon

/-- `$table[($key = 'cmd')] = 1`. -/
def assignmentInTarget : Node :=
  .assignment
    (.unsupported "IndexExpression" ⟨20, 41⟩
      [.reference ⟨"table", ⟨20, 26⟩⟩,
       .paren (.assignment (.reference ⟨"key", ⟨28, 32⟩⟩) (.literal "cmd" ⟨35, 40⟩) .assign
        ⟨28, 40⟩) ⟨27, 41⟩])
    (.literal "1" ⟨45, 46⟩) .assign ⟨20, 46⟩

/-- `foreach ($item in $list) { .. }` with this variable and this body. -/
def loopOverList (item : String) (body : List Node) : Block :=
  { span := ⟨0, 60⟩
    params := []
    annotations := []
    statements :=
      [.forEach ⟨item, ⟨9, 12⟩⟩ (.reference ⟨"list", ⟨13, 18⟩⟩) body ⟨0, 60⟩] }

/-- In a loop, what is assigned in a target is declared with the rest. -/
theorem bound_iff_assigned_targetInLoop :
    (loopOverList "i" [assignmentInTarget]).params = [] ∧
      "key" ∈ assignmentInTarget.assignedInTarget ∧
      ∀ k, (loopOverList "i" [assignmentInTarget]).bindings.contains k = true ↔
        k ∈ (loopOverList "i" [assignmentInTarget]).assigned :=
  ⟨rfl, by decide +kernel,
    (bound_iff_assigned _ rfl).2.1.2 ⟨by decide +kernel, by decide +kernel⟩⟩

/-- The same statement by itself: the key is assigned and not bound. A loop over a global variable:
the key is bound and not assigned. -/
theorem assigned_unbound_qualified_bound :
    (∃ b : Block, b.params = [] ∧ b.statements = [assignmentInTarget] ∧ "key" ∈ b.assigned ∧
      b.bindings.contains "key" = false) ∧
    "global:i" ∉ (loopOverList "global:i" []).assigned ∧
      (loopOverList "global:i" []).bindings.contains "global:i" = true :=
  ⟨⟨⟨⟨0, 60⟩, [], [], [assignmentInTarget]⟩, rfl, rfl, by decide +kernel, by decide +kernel⟩,
    by decide +kernel, by decide +kernel⟩

end ScriptTaint
