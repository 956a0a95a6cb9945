import ScriptTaint.Proofs.Loops

/-!
# Trees in document order

A tree is in document order if its spans are nonempty, children lie inside their parent, and
siblings follow one another. Only the nodes of one scope count; the blocks inside it are trees of
their own.

In document order a node's steps take effect between the ends of its span (`InOrder.steps_mem`), so
the steps of what stands before a node take effect before it (`InOrderFrom.steps_le`), and steps are
taken in the order of their offsets (`InOrder.steps_sorted`).
-/

set_option autoImplicit false

namespace ScriptTaint

namespace Node

/-- A node and its children are laid out in order. -/
structure OrderedHere (n : Node) : Prop where
  nonempty : n.span.start < n.span.stop
  inside : ∀ c ∈ n.children, n.span.contains c.span = true
  follow : n.children.Pairwise fun c d => c.span.stop ≤ d.span.start

instance (n : Node) : Decidable n.OrderedHere :=
  decidable_of_iff (n.span.start < n.span.stop ∧
      (∀ c ∈ n.children, n.span.contains c.span = true) ∧
      n.children.Pairwise fun c d => c.span.stop ≤ d.span.start)
    ⟨fun ⟨h₁, h₂, h₃⟩ => ⟨h₁, h₂, h₃⟩, fun ⟨h₁, h₂, h₃⟩ => ⟨h₁, h₂, h₃⟩⟩

/-- The node and all nodes inside it are laid out in order. -/
def InOrder (n : Node) : Prop := ∀ m ∈ n.within, m.OrderedHere

instance (n : Node) : Decidable n.InOrder :=
  inferInstanceAs (Decidable (∀ m ∈ n.within, m.OrderedHere))

end Node

/-- The statements of a block lie in it, in order. -/
structure Block.InOrder (b : Block) : Prop where
  each : ∀ s ∈ b.statements, s.InOrder
  inside : ∀ s ∈ b.statements, b.span.contains s.span = true
  follow : b.statements.Pairwise fun s t => s.span.stop ≤ t.span.start

instance (b : Block) : Decidable b.InOrder :=
  decidable_of_iff ((∀ s ∈ b.statements, s.InOrder) ∧
      (∀ s ∈ b.statements, b.span.contains s.span = true) ∧
      b.statements.Pairwise fun s t => s.span.stop ≤ t.span.start)
    ⟨fun ⟨h₁, h₂, h₃⟩ => ⟨h₁, h₂, h₃⟩, fun ⟨h₁, h₂, h₃⟩ => ⟨h₁, h₂, h₃⟩⟩

namespace Node

namespace InOrder

variable {n m c : Node}

theorem here (h : n.InOrder) : n.OrderedHere := h n n.mem_within_self

theorem of_within (h : n.InOrder) (hm : m ∈ n.within) : m.InOrder :=
  fun x hx => h x (within_trans hm hx)

theorem child (h : n.InOrder) (hc : c ∈ n.children) : c.InOrder :=
  h.of_within (mem_within_of_child hc c.mem_within_self)

theorem child_mem (h : n.InOrder) (hc : c ∈ n.children) :
    n.span.start ≤ c.span.start ∧ c.span.stop ≤ n.span.stop :=
  Span.contains_iff.1 (h.here.inside c hc)

/-- What is inside a node starts between the ends of its span. -/
theorem within_mem (h : n.InOrder) (hm : m ∈ n.within) :
    n.span.start ≤ m.span.start ∧ m.span.start < n.span.stop := by
  induction n using Node.induction_children with
  | step n ih =>
    rw [within_eq] at hm
    rcases List.mem_cons.1 hm with rfl | hm
    · exact ⟨UInt32.le_refl _, h.here.nonempty⟩
    · obtain ⟨c, hc, hm⟩ := List.mem_flatMap.1 hm
      have hin := h.child_mem hc
      have hcm := ih c hc (h.child hc) hm
      exact ⟨UInt32.le_trans hin.1 hcm.1, UInt32.lt_of_lt_of_le hcm.2 hin.2⟩

/-- The offset of a node's own step lies in its span. -/
theorem ownSteps_mem (h : n.InOrder) {s : Step} (hs : s ∈ n.ownSteps) :
    n.span.start ≤ s.since ∧ s.since ≤ n.span.stop := by
  have hspan := UInt32.le_of_lt h.here.nonempty
  cases n with
  | assignment target value op span =>
    obtain rfl := List.mem_singleton.1 hs
    exact ⟨hspan, UInt32.le_refl _⟩
  | forEach item iterable body span =>
    have hc : iterable ∈ (Node.forEach item iterable body span).children := by simp [children]
    have hin := h.child_mem hc
    have hit := UInt32.le_of_lt (h.child hc).here.nonempty
    have hentry : span.start ≤ iterable.span.stop ∧ iterable.span.stop ≤ span.stop :=
      ⟨UInt32.le_trans hin.1 hit, hin.2⟩
    rcases List.mem_cons.1 hs with rfl | hs
    · exact hentry
    · obtain ⟨key, -, rfl⟩ := mem_loopEntry.1 hs
      exact hentry
  | unsupported kind span children =>
    obtain ⟨key, -, rfl⟩ := mem_loopEntry.1 hs
    exact ⟨UInt32.le_refl _, hspan⟩
  | _ => cases hs

/-- **Steps take effect inside the span** of the node they are read from. -/
theorem steps_mem (h : n.InOrder) {s : Step} (hs : s ∈ n.steps) :
    n.span.start ≤ s.since ∧ s.since ≤ n.span.stop := by
  induction n using Node.induction_children with
  | step n ih =>
    rcases mem_steps hs with ⟨c, hc, hs⟩ | hown
    · have hin := h.child_mem hc
      have hcs := ih c hc (h.child hc) hs
      exact ⟨UInt32.le_trans hin.1 hcs.1, UInt32.le_trans hcs.2 hin.2⟩
    · exact h.ownSteps_mem hown

end InOrder

/-! ## Siblings -/

/-- The nodes are in order and stand behind `p`, one after the other. -/
structure InOrderFrom (p : UInt32) (ns : List Node) : Prop where
  each : ∀ n ∈ ns, n.InOrder
  behind : ∀ n ∈ ns, p ≤ n.span.start
  follow : ns.Pairwise fun c d => c.span.stop ≤ d.span.start

namespace InOrderFrom

variable {p : UInt32} {n : Node} {ns l r : List Node}

theorem head (h : InOrderFrom p (n :: ns)) : n.InOrder := h.each n List.mem_cons_self

theorem le_head (h : InOrderFrom p (n :: ns)) : p ≤ n.span.start := h.behind n List.mem_cons_self

/-- The rest stands behind the first node. -/
theorem tail (h : InOrderFrom p (n :: ns)) : InOrderFrom n.span.stop ns where
  each := fun c hc => h.each c (List.mem_cons_of_mem _ hc)
  behind := (List.pairwise_cons.1 h.follow).1
  follow := (List.pairwise_cons.1 h.follow).2

/-- The steps of what stands before a node take effect before it. -/
theorem steps_le (h : InOrderFrom p (l ++ n :: r)) {s : Step} (hs : s ∈ l.flatMap steps) :
    s.since ≤ n.span.start := by
  obtain ⟨c, hc, hs⟩ := List.mem_flatMap.1 hs
  have hstop := ((h.each c (List.mem_append_left _ hc)).steps_mem hs).2
  have hfollow := (List.pairwise_append.1 h.follow).2.2 c hc n List.mem_cons_self
  exact UInt32.le_trans hstop hfollow

theorem steps_sorted (h : InOrderFrom p ns)
    (each : ∀ n ∈ ns, n.steps.Pairwise fun s t => s.since ≤ t.since) :
    (ns.flatMap steps).Pairwise fun s t => s.since ≤ t.since := by
  refine List.pairwise_flatMap.2 ⟨each, h.follow.imp_of_mem fun hc hd hcd s hs t ht => ?_⟩
  have hstop := ((h.each _ hc).steps_mem hs).2
  have hstart := ((h.each _ hd).steps_mem ht).1
  exact UInt32.le_trans hstop (UInt32.le_trans hcd hstart)

end InOrderFrom

theorem InOrder.children_from {n : Node} (h : n.InOrder) : InOrderFrom n.span.start n.children where
  each := fun _ hc => h.child hc
  behind := fun _ hc => (h.child_mem hc).1
  follow := h.here.follow

/-- The body of a loop stands behind its entry. -/
theorem InOrder.body_from {n : Node} {l : Loop} (h : n.InOrder) (hl : n.loop? = some l) :
    InOrderFrom l.entry l.body := by
  cases n with
  | forEach item iterable body span =>
    obtain rfl := Option.some.inj hl
    exact h.children_from.tail
  | unsupported kind span children =>
    obtain rfl := Option.some.inj hl
    exact h.children_from
  | _ => cases hl

/-- What is taken before the body of a loop takes effect before its entry. -/
theorem InOrder.head_le {n : Node} {l : Loop} (h : n.InOrder) (hl : n.loop? = some l) :
    n.span.start ≤ l.entry ∧ ∀ s ∈ l.head, s.since ≤ l.entry := by
  cases n with
  | forEach item iterable body span =>
    obtain rfl := Option.some.inj hl
    have hc : iterable ∈ (Node.forEach item iterable body span).children := by simp [children]
    refine ⟨UInt32.le_trans (h.child_mem hc).1 (UInt32.le_of_lt (h.child hc).here.nonempty), ?_⟩
    intro s hs
    rcases List.mem_append.1 hs with hs | hs
    · exact ((h.child hc).steps_mem hs).2
    · obtain rfl := List.mem_singleton.1 hs
      exact UInt32.le_refl _
  | unsupported kind span children =>
    obtain rfl := Option.some.inj hl
    exact ⟨UInt32.le_refl _, by simp⟩
  | _ => cases hl

/-- **Steps are taken in the order of their offsets.** -/
theorem InOrder.steps_sorted {n : Node} (h : n.InOrder) :
    n.steps.Pairwise fun s t => s.since ≤ t.since := by
  induction n using Node.induction_children with
  | step n ih =>
    have loop {l : Loop} (hl : n.loop? = some l)
        (hhead : l.head.Pairwise fun s t => s.since ≤ t.since) :
        n.steps.Pairwise fun s t => s.since ≤ t.since := by
      have hfrom := h.body_from hl
      have hbody := hfrom.steps_sorted fun c hc =>
        ih c (body_subset_children hl c hc) (hfrom.each c hc)
      have hentry : ∀ s ∈ loopEntry l.body l.entry, s.since = l.entry := by
        intro s hs
        obtain ⟨key, -, rfl⟩ := mem_loopEntry.1 hs
        rfl
      have hbehind : ∀ t ∈ l.body.flatMap steps, l.entry ≤ t.since := by
        intro t ht
        obtain ⟨c, hc, ht⟩ := List.mem_flatMap.1 ht
        exact UInt32.le_trans (hfrom.behind c hc) ((hfrom.each c hc).steps_mem ht).1
      rw [steps_loop hl, Loop.steps]
      refine List.pairwise_append.2 ⟨hhead, List.pairwise_append.2 ⟨?_, hbody, ?_⟩, ?_⟩
      · refine List.pairwise_of_forall_mem_list fun s hs t ht => ?_
        rw [hentry s hs, hentry t ht]
        exact UInt32.le_refl _
      · intro s hs t ht
        rw [hentry s hs]
        exact hbehind t ht
      · intro s hs t ht
        refine UInt32.le_trans ((h.head_le hl).2 s hs) ?_
        rcases List.mem_append.1 ht with ht | ht
        · rw [hentry t ht]
          exact UInt32.le_refl _
        · exact hbehind t ht
    cases n with
    | assignment target value op span =>
      have hc : value ∈ (Node.assignment target value op span).children := by simp [children]
      rw [steps_assignment]
      refine List.pairwise_append.2 ⟨ih value hc (h.child hc), List.pairwise_singleton .., ?_⟩
      intro s hs t ht
      obtain rfl := List.mem_singleton.1 ht
      exact UInt32.le_trans ((h.child hc).steps_mem hs).2 (h.child_mem hc).2
    | forEach item iterable body span =>
      have hc : iterable ∈ (Node.forEach item iterable body span).children := by simp [children]
      refine loop rfl (List.pairwise_append.2 ⟨ih iterable hc (h.child hc),
        List.pairwise_singleton .., fun s hs t ht => ?_⟩)
      obtain rfl := List.mem_singleton.1 ht
      exact ((h.child hc).steps_mem hs).2
    | unsupported kind span children => exact loop rfl List.Pairwise.nil
    | _ =>
      rw [steps_passive rfl]
      exact h.children_from.steps_sorted fun c hc => ih c hc (h.child hc)

/-- An assigned value stands before the offset at which the assignment takes effect. -/
theorem InOrder.value_lt {n target value m : Node} {op : AssignOp} {since : UInt32}
    (h : n.InOrder) (hs : .assign target value op since ∈ n.steps) (hm : m ∈ value.within) :
    m.span.start < since := by
  induction n using Node.induction_children with
  | step n ih =>
    rcases mem_steps hs with ⟨c, hc, hs⟩ | hown
    · exact ih c hc (h.child hc) hs
    · obtain ⟨span, rfl, rfl⟩ := eq_assignment_of_mem_ownSteps hown
      have hc : value ∈ (Node.assignment target value op span).children := by simp [children]
      exact UInt32.lt_of_lt_of_le ((h.child hc).within_mem hm).2 (h.child_mem hc).2

end Node

theorem Block.InOrder.statements_from {b : Block} (h : b.InOrder) :
    Node.InOrderFrom b.span.start b.statements where
  each := h.each
  behind := fun s hs => (Span.contains_iff.1 (h.inside s hs)).1
  follow := h.follow

end ScriptTaint
