import ScriptTaint.Flow.Steps
import ScriptTaint.Proofs.Histories

/-!
# Laws of binding steps

What a step does is said once: it records bindings at its own offset, under its own keys
(`Bindings.step_recorded`). Everything else follows by induction on the records and then on the
steps: other histories stay (`history_run_of_not_mem`), histories only grow, by events that do not
precede the steps and that are varying if anything was recorded before (`extends_run`), and they
stay below any bound on the offsets (`run_le`). What only declarations bind is never constant
(`run_varying`).
-/

set_option autoImplicit false

namespace ScriptTaint

/-- Induction over the nodes of one scope. -/
theorem Node.induction_children {P : Node → Prop} (step : ∀ n, (∀ c ∈ n.children, P c) → P n)
    (n : Node) : P n :=
  step n fun c _ => Node.induction_children step c
termination_by sizeOf n
decreasing_by exact Node.sizeOf_child ‹_›

theorem Node.mem_within_self (n : Node) : n ∈ n.within := by
  rw [within_eq]; exact List.mem_cons_self

theorem Node.mem_within_of_child {n c m : Node} (hc : c ∈ n.children) (hm : m ∈ c.within) :
    m ∈ n.within := by
  rw [within_eq]
  exact List.mem_cons_of_mem _ (List.mem_flatMap.2 ⟨c, hc, hm⟩)

theorem Node.within_trans {n c m : Node} (hc : c ∈ n.within) (hm : m ∈ c.within) :
    m ∈ n.within := by
  induction n using Node.induction_children with
  | step n ih =>
    rw [within_eq] at hc
    rcases List.mem_cons.1 hc with rfl | hc
    · exact hm
    · obtain ⟨d, hd, hc⟩ := List.mem_flatMap.1 hc
      exact mem_within_of_child hd (ih d hd hc)

/-! ## Histories that grow -/

namespace History

/-- `h'` is `h` and further events, none of them before `lo`, and none of them constant if there
was one before. -/
def GrowsFrom (lo : UInt32) (h h' : History) : Prop :=
  ∃ events : List Event, h' = h ++ events ∧ (∀ e ∈ events, lo ≤ e.since) ∧
    (h ≠ [] → ∀ e ∈ events, e.binding.constancy = .varying)

namespace GrowsFrom

variable {lo since : UInt32} {h h' h'' : History}

theorem refl (lo : UInt32) (h : History) : GrowsFrom lo h h := ⟨[], by simp, by simp, by simp⟩

theorem trans (h₁ : GrowsFrom lo h h') (h₂ : GrowsFrom lo h' h'') : GrowsFrom lo h h'' := by
  obtain ⟨es, rfl, hlo, hv⟩ := h₁
  obtain ⟨fs, rfl, hlo', hv'⟩ := h₂
  refine ⟨es ++ fs, List.append_assoc .., fun e he => ?_, fun hn e he => ?_⟩
  · exact (List.mem_append.1 he).elim (hlo e) (hlo' e)
  · exact (List.mem_append.1 he).elim (hv hn e) (hv' (by simp [hn]) e)

end GrowsFrom

theorem le_since_next (h : History) (since : UInt32) (b : Binding) :
    since ≤ (h.next since b).since := by
  unfold next
  cases h.getLast? with
  | none => exact UInt32.le_refl _
  | some last =>
    simp only
    split
    · rename_i hlt; exact UInt32.le_of_lt hlt
    · exact UInt32.le_refl _

theorem grows_record (h : History) (since : UInt32) (b : Binding) :
    GrowsFrom since h (h.record since b) := by
  refine ⟨[h.next since b], record_eq .., fun e he => ?_, fun hn e he => ?_⟩
  · rw [List.mem_singleton.1 he]; exact h.le_since_next since b
  · rw [List.mem_singleton.1 he]; exact next_varying hn since b

theorem tail_record {h : History} (since : UInt32) (b : Binding)
    (ht : ∀ e ∈ h.tail, e.binding.constancy = .varying) :
    ∀ e ∈ (h.record since b).tail, e.binding.constancy = .varying := by
  rw [record_eq]
  cases h with
  | nil => simp
  | cons f h =>
    intro e he
    rcases List.mem_append.1 he with he | he
    · exact ht e he
    · rw [List.mem_singleton.1 he]
      exact next_varying (List.cons_ne_nil f h) since b

theorem record_le {h : History} {since hi : UInt32} (b : Binding) (hs : since ≤ hi)
    (hh : ∀ e ∈ h, e.since ≤ hi) : ∀ e ∈ h.record since b, e.since ≤ hi := by
  intro e he
  rw [record_eq, List.mem_append, List.mem_singleton] at he
  rcases he with he | rfl
  · exact hh e he
  · unfold next
    cases hl : h.getLast? with
    | none => exact hs
    | some last =>
      simp only
      split
      · exact hh last (List.mem_of_getLast? hl)
      · exact hs

end History

/-! ## One step -/

/-- The offset at which a step takes effect. -/
def Step.since : Step → UInt32
  | .declare _ since => since
  | .assign _ _ _ since => since

/-- The variables that a step binds. -/
def Step.keys : Step → List String
  | .declare key _ => [key]
  | .assign target _ _ _ => target.targetKeys

namespace Bindings

/-- The second bindings are the first ones after records at `since` under some of the keys. -/
inductive Recorded (since : UInt32) (keys : List String) (b : Bindings) : Bindings → Prop
  | refl : Recorded since keys b b
  | record {c : Bindings} {key : String} (x : Binding) : Recorded since keys b c → key ∈ keys →
      Recorded since keys b (c.record key since x)

namespace Recorded

variable {since : UInt32} {keys keys' : List String} {b c d : Bindings}

theorem trans (h₁ : Recorded since keys b c) (h₂ : Recorded since keys c d) :
    Recorded since keys b d := by
  induction h₂ with
  | refl => exact h₁
  | record x _ hk ih => exact .record x ih hk

theorem mono (h : Recorded since keys b c) (hk : ∀ k ∈ keys, k ∈ keys') :
    Recorded since keys' b c := by
  induction h with
  | refl => exact .refl
  | record x _ hm ih => exact .record x ih (hk _ hm)

theorem history_of_not_mem (h : Recorded since keys b c) {k : String} (hk : k ∉ keys) :
    c.history k = b.history k := by
  induction h with
  | refl => rfl
  | @record c key x _ hm ih =>
    have hne : k ≠ key := fun he => hk (he ▸ hm)
    rw [history_record_ne _ hne, ih]

theorem grows (h : Recorded since keys b c) (k : String) :
    History.GrowsFrom since (b.history k) (c.history k) := by
  induction h with
  | refl => exact .refl ..
  | @record c key x _ _ ih =>
    rw [history_record]
    split
    · exact ih.trans (History.grows_record ..)
    · exact ih

theorem tail_varying (h : Recorded since keys b c) {k : String}
    (hb : ∀ e ∈ (b.history k).tail, e.binding.constancy = .varying) :
    ∀ e ∈ (c.history k).tail, e.binding.constancy = .varying := by
  induction h with
  | refl => exact hb
  | record x _ _ ih =>
    rw [history_record]
    split
    · exact History.tail_record _ x ih
    · exact ih

theorem le (h : Recorded since keys b c) {k : String} {hi : UInt32} (hs : since ≤ hi)
    (hb : ∀ e ∈ b.history k, e.since ≤ hi) : ∀ e ∈ c.history k, e.since ≤ hi := by
  induction h with
  | refl => exact hb
  | record x _ _ ih =>
    rw [history_record]
    split
    · exact History.record_le x hs ih
    · exact ih

end Recorded

end Bindings

theorem Node.targetKeys_arrayLiteral (elements : List Node) (span : Span) :
    (Node.arrayLiteral elements span).targetKeys = elements.flatMap targetKeys := by
  rw [targetKeys.eq_def]; simp [List.flatMap_subtype]

namespace Bindings

theorem bind_arrayLiteral (b : Bindings) (since : UInt32) (x : Binding) (elements : List Node)
    (span : Span) : b.bind since x (.arrayLiteral elements span) =
      elements.foldl (fun b e => b.bind since x e) b := by
  rw [bind.eq_def]; simp

theorem bind_recorded (b : Bindings) (since : UInt32) (x : Binding) (target : Node) :
    Recorded since target.targetKeys b (b.bind since x target) := by
  induction target using Node.induction_children generalizing b with
  | step target ih =>
    cases target with
    | reference v =>
      rw [bind.eq_def, Node.targetKeys.eq_def]
      simp only
      split
      · exact .refl
      · exact .record x .refl (by simp)
    | cast name operand span =>
      rw [bind.eq_def, Node.targetKeys.eq_def]
      simp only
      exact ih operand (by simp [Node.children]) b
    | member target name isStatic span =>
      rw [bind.eq_def, Node.targetKeys.eq_def]
      simp only
      split
      · split
        · exact .refl
        · exact .record _ .refl (by simp)
      · exact .refl
    | arrayLiteral elements span =>
      rw [bind_arrayLiteral, Node.targetKeys_arrayLiteral]
      simp only [Node.children] at ih
      induction elements generalizing b with
      | nil => exact .refl
      | cons e es ihs =>
        have head := ih e List.mem_cons_self b
        have tail := ihs (b.bind since x e) fun c hc => ih c (List.mem_cons_of_mem _ hc)
        rw [List.flatMap_cons, List.foldl_cons]
        exact (head.mono fun k hk => List.mem_append_left _ hk).trans
          (tail.mono fun k hk => List.mem_append_right _ hk)
    | _ => rw [bind.eq_def]; exact .refl

/-- **What a step does**: it records bindings at its offset, under its keys. -/
theorem step_recorded (b : Bindings) (s : Step) : Recorded s.since s.keys b (b.step s) := by
  cases s with
  | declare key since => exact .record _ .refl (by simp [Step.keys])
  | assign target value op since => exact bind_recorded ..

/-- An assignment to a variable of the scope is one record. -/
theorem step_reference (b : Bindings) {v : Variable} (hq : v.isQualified = false) (value : Node)
    (op : AssignOp) (since : UInt32) :
    b.step (.assign (.reference v) value op since) =
      b.record v.key since
        ⟨match op with
          | .assign => value.constancy b
          | .compound => .varying,
        value.carriesEscaped b⟩ := by
  simp only [step]
  rw [bind.eq_def]
  cases op <;> simp [hq]

/-! ## Many steps -/

/-- The bindings after the steps. -/
def run (b : Bindings) (steps : List Step) : Bindings := steps.foldl step b

@[simp] theorem run_nil (b : Bindings) : b.run [] = b := rfl

@[simp] theorem run_cons (b : Bindings) (s : Step) (steps : List Step) :
    b.run (s :: steps) = (b.step s).run steps := rfl

theorem run_append (b : Bindings) (l r : List Step) : b.run (l ++ r) = (b.run l).run r :=
  List.foldl_append

theorem history_run_of_not_mem {k : String} {steps : List Step} (hk : ∀ s ∈ steps, k ∉ s.keys)
    (b : Bindings) : (b.run steps).history k = b.history k := by
  induction steps generalizing b with
  | nil => rfl
  | cons s steps ih =>
    rw [run_cons, ih (fun s' hs => hk s' (List.mem_cons_of_mem _ hs)),
      (b.step_recorded s).history_of_not_mem (hk s List.mem_cons_self)]

/-- **Histories only grow**, by events that do not precede the steps, and only their first event
can be constant. -/
theorem extends_run (b : Bindings) (steps : List Step) (k : String) :
    ∃ events : List Event, (b.run steps).history k = b.history k ++ events ∧
      (∀ e ∈ events, ∃ s ∈ steps, s.since ≤ e.since) ∧
      (b.history k ≠ [] → ∀ e ∈ events, e.binding.constancy = .varying) := by
  induction steps generalizing b with
  | nil => exact ⟨[], by simp, by simp, by simp⟩
  | cons s steps ih =>
    obtain ⟨es, he, hlo, hv⟩ := (b.step_recorded s).grows k
    obtain ⟨fs, hf, hlo', hv'⟩ := ih (b.step s)
    refine ⟨es ++ fs, by rw [run_cons, hf, he, List.append_assoc], fun e hm => ?_,
      fun hn e hm => ?_⟩
    · rcases List.mem_append.1 hm with hm | hm
      · exact ⟨s, List.mem_cons_self, hlo e hm⟩
      · obtain ⟨s', hs, hle⟩ := hlo' e hm
        exact ⟨s', List.mem_cons_of_mem _ hs, hle⟩
    · exact (List.mem_append.1 hm).elim (hv hn e) (hv' (by simp [he, hn]) e)

/-- A variable that a varying event was recorded for before a use is varying there, whatever is
read later. -/
theorem constancy_run_of_varying {b : Bindings} {v : Variable} {l r : History} {e : Event}
    (hb : b.history v.key = l ++ e :: r) (hl : ∀ x ∈ l, x.since ≤ v.span.start)
    (he : e.since ≤ v.span.start) (hv : ∀ x ∈ e :: r, x.binding.constancy = .varying)
    (steps : List Step) : (b.run steps).constancy v = .varying := by
  by_cases hq : v.isQualified = true
  · simp [constancy, binding?, hq]
  obtain ⟨later, hrun, -, hlater⟩ := b.extends_run steps v.key
  have hall : ∀ x ∈ e :: (r ++ later), x.binding.constancy = .varying := by
    intro x hx
    rw [← List.cons_append] at hx
    exact (List.mem_append.1 hx).elim (hv x) (hlater (by simp [hb]) x)
  rw [constancy_eq _ (by simpa using hq), hrun, hb, List.append_assoc, List.cons_append,
    History.bindingAt?_varying hl he hall]
  rfl

/-- Behind the first event of a history there are only varying ones. -/
theorem tail_varying_run (steps : List Step) {b : Bindings} {k : String}
    (hb : ∀ e ∈ (b.history k).tail, e.binding.constancy = .varying) :
    ∀ e ∈ ((b.run steps).history k).tail, e.binding.constancy = .varying := by
  induction steps generalizing b with
  | nil => exact hb
  | cons s steps ih => exact ih ((b.step_recorded s).tail_varying hb)

theorem run_le {hi : UInt32} {k : String} {steps : List Step} (hs : ∀ s ∈ steps, s.since ≤ hi)
    {b : Bindings} (hb : ∀ e ∈ b.history k, e.since ≤ hi) :
    ∀ e ∈ (b.run steps).history k, e.since ≤ hi := by
  induction steps generalizing b with
  | nil => exact hb
  | cons s steps ih =>
    exact ih (fun s' hs' => hs s' (List.mem_cons_of_mem _ hs'))
      ((b.step_recorded s).le (hs s List.mem_cons_self) hb)

theorem length_history_record (b : Bindings) (key : String) (since : UInt32) (x : Binding)
    (k : String) : ((b.record key since x).history k).length =
      (b.history k).length + [key].count k := by
  by_cases hk : k = key
  · subst hk
    simp [history_record_self, History.record_eq]
  · simp [history_record_ne _ hk, Ne.symm hk]

theorem length_history_bind (b : Bindings) (since : UInt32) (x : Binding) (target : Node)
    (k : String) : ((b.bind since x target).history k).length =
      (b.history k).length + target.targetKeys.count k := by
  induction target using Node.induction_children generalizing b with
  | step target ih =>
    cases target with
    | reference v =>
      rw [bind.eq_def, Node.targetKeys.eq_def]
      simp only
      split
      · rfl
      · exact length_history_record ..
    | cast name operand span =>
      rw [bind.eq_def, Node.targetKeys.eq_def]
      exact ih operand (by simp [Node.children]) b
    | member target name isStatic span =>
      rw [bind.eq_def, Node.targetKeys.eq_def]
      simp only
      split
      · split
        · rfl
        · exact length_history_record ..
      · rfl
    | arrayLiteral elements span =>
      rw [bind_arrayLiteral, Node.targetKeys_arrayLiteral]
      simp only [Node.children] at ih
      induction elements generalizing b with
      | nil => rfl
      | cons e es ihs =>
        rw [List.foldl_cons, ihs _ fun c hc => ih c (List.mem_cons_of_mem _ hc),
          ih e List.mem_cons_self, List.flatMap_cons, List.count_append, Nat.add_assoc]
    | _ => rw [bind.eq_def, Node.targetKeys.eq_def]; rfl

/-- **Histories grow with the steps**: a step appends one event for each time it binds the key. -/
theorem length_history_run_eq (b : Bindings) (steps : List Step) (k : String) :
    ((b.run steps).history k).length =
      (b.history k).length + (steps.flatMap Step.keys).count k := by
  induction steps generalizing b with
  | nil => rfl
  | cons s steps ih =>
    have hstep : ((b.step s).history k).length = (b.history k).length + s.keys.count k := by
      cases s with
      | declare key since => exact length_history_record ..
      | assign target value op since => exact length_history_bind ..
    rw [run_cons, ih, hstep, List.flatMap_cons, List.count_append, Nat.add_assoc]

/-- A declaration makes a history longer. -/
theorem length_history_run {key : String} {since : UInt32} {steps : List Step}
    (hm : .declare key since ∈ steps) (b : Bindings) :
    (b.history key).length < ((b.run steps).history key).length := by
  have hcount : 0 < (steps.flatMap Step.keys).count key :=
    List.count_pos_iff.2 (List.mem_flatMap.2 ⟨_, hm, List.mem_cons_self⟩)
  rw [length_history_run_eq]
  omega

/-- Nothing but varying events is recorded for a key that only declarations bind for the first
time. -/
theorem run_varying {k : String} {steps : List Step} {b : Bindings}
    (h : b.history k = [] → ∀ s ∈ steps, k ∈ s.keys → ∃ key since, s = .declare key since) :
    ∃ events : List Event, (b.run steps).history k = b.history k ++ events ∧
      ∀ e ∈ events, e.binding.constancy = .varying := by
  induction steps generalizing b with
  | nil => exact ⟨[], by simp, by simp⟩
  | cons s steps ih =>
    by_cases hn : b.history k = []
    · by_cases hk : k ∈ s.keys
      · obtain ⟨key, since, rfl⟩ := h hn s List.mem_cons_self hk
        obtain rfl : k = key := List.mem_singleton.1 hk
        have hfirst : (b.step (.declare k since)).history k = [⟨since, ⟨.varying, false⟩⟩] := by
          rw [step, declare, history_record_self, hn]; rfl
        obtain ⟨events, he, hv⟩ := ih (b := b.step (.declare k since)) (by simp [hfirst])
        refine ⟨⟨since, ⟨.varying, false⟩⟩ :: events, by rw [run_cons, he, hfirst, hn]; rfl, ?_⟩
        intro e hm
        rcases List.mem_cons.1 hm with rfl | hm
        · rfl
        · exact hv e hm
      · have hsame := (b.step_recorded s).history_of_not_mem hk
        rw [run_cons, ← hsame]
        exact ih fun _ s' hs => h hn s' (List.mem_cons_of_mem _ hs)
    · obtain ⟨events, he, -, hv⟩ := b.extends_run (s :: steps) k
      exact ⟨events, he, hv hn⟩

end Bindings

end ScriptTaint
