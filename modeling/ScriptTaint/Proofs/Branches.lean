import ScriptTaint.Proofs.LaterCode
import ScriptTaint.Proofs.Noninterference

/-!
# Assignments in branches

A scope is read once, from left to right, and the branches of a conditional one after the other as
if all of them ran. So a variable that nothing but a conditional binds is constant behind it if and
only if the reading of the conditional binds it once, by an assignment of a constant to the variable
itself (`Node.SetsOnce`). `conditional_constant_iff` says so. Two branches that assign it, or a loop
in a branch, make it varying; a branch that does not assign it, or no last branch, does not:
`lone_branch_constant` is a script where the variable may be unset, and is called constant.

The value of the assignment is judged at the end of the scope as it was when it was read
(`Node.InOrder.constancy_value`), since in document order all later steps take effect behind it.
-/

set_option autoImplicit false

namespace ScriptTaint

namespace Node

/-- The target names the variable itself, and no part of it. -/
inductive Names (k : String) : Node → Prop
  | whole {v : Variable} : v.isQualified = false → v.key = k → Names k (.reference v)
  | cast {typeName : String} {operand : Node} {span : Span} :
      Names k operand → Names k (.cast typeName operand span)
  | element {elements : List Node} {e : Node} {span : Span} :
      e ∈ elements → Names k e → Names k (.arrayLiteral elements span)

/-- The keys that the reading of a node binds, each as often as it does. -/
def boundKeys (n : Node) : List String := n.steps.flatMap Step.keys

/-- The reading of the node binds the key once, by `=` and to the variable itself. -/
def SetsOnce (n : Node) (k : String) (value : Node) : Prop :=
  n.boundKeys.count k = 1 ∧
    ∃ target since, .assign target value .assign since ∈ n.steps ∧ target.Names k

theorem Names.mem_targetKeys {k : String} {target : Node} (h : target.Names k) :
    k ∈ target.targetKeys := by
  induction h with
  | whole hq hk =>
    rw [targetKeys.eq_def]
    simp [hq, hk]
  | cast _ ih =>
    rw [targetKeys.eq_def]
    exact ih
  | element he _ ih =>
    rw [targetKeys_arrayLiteral]
    exact List.mem_flatMap.2 ⟨_, he, ih⟩

end Node

/-! ## A single binding -/

namespace Bindings

variable {b : Bindings} {k : String}

theorem history_record_first (hb : b.history k = []) (since : UInt32) (x : Binding) :
    (b.record k since x).history k = [⟨since, x⟩] := by
  rw [history_record_self, hb]
  rfl

/-- A target that binds a new key once binds it to the value if it names it, else to an unknown
one. -/
theorem history_bind_once (since : UInt32) (x : Binding) {target : Node} (hb : b.history k = [])
    (hk : target.targetKeys.count k = 1) :
    (target.Names k → (b.bind since x target).history k = [⟨since, x⟩]) ∧
      (¬ target.Names k →
        (b.bind since x target).history k = [⟨since, ⟨.varying, false⟩⟩]) := by
  have only {key : String} (h : [key].count k = 1) : k = key :=
    List.mem_singleton.1 (List.count_pos_iff.1 (by omega))
  induction target using Node.induction_children generalizing b with
  | step target ih =>
    cases target with
    | reference v =>
      rw [Node.targetKeys.eq_def] at hk
      rw [bind.eq_def]
      simp only at hk ⊢
      split at hk
      · cases hk
      · rename_i hq
        obtain rfl := only hk
        rw [if_neg hq]
        exact ⟨fun _ => history_record_first hb since x,
          fun hn => absurd (.whole (by simpa using hq) rfl) hn⟩
    | cast name operand span =>
      rw [Node.targetKeys.eq_def] at hk
      rw [bind.eq_def]
      obtain ⟨hnamed, hunnamed⟩ := ih operand (by simp [Node.children]) hb hk
      refine ⟨fun hn => ?_, fun hn => hunnamed fun h => hn (.cast h)⟩
      cases hn with
      | cast h => exact hnamed h
    | member target name isStatic span =>
      rw [Node.targetKeys.eq_def] at hk
      rw [bind.eq_def]
      simp only at hk ⊢
      cases hv : target.baseVariable? with
      | none => simp [hv] at hk
      | some v =>
        simp only [hv] at hk ⊢
        split at hk
        · cases hk
        · rename_i hq
          obtain rfl := only hk
          rw [if_neg hq]
          exact ⟨fun hn => (by cases hn), fun _ => history_record_first hb since _⟩
    | arrayLiteral elements span =>
      simp only [Node.children] at ih
      induction elements generalizing b with
      | nil =>
        rw [Node.targetKeys_arrayLiteral] at hk
        cases hk
      | cons e es ihs =>
        rw [Node.targetKeys_arrayLiteral, List.flatMap_cons, List.count_append] at hk
        rw [bind_arrayLiteral, List.foldl_cons, ← bind_arrayLiteral _ _ _ es span]
        by_cases he : k ∈ e.targetKeys
        · -- The first element binds the key, and the others do not.
          have hpos := List.count_pos_iff.2 he
          have hothers : k ∉ (Node.arrayLiteral es span).targetKeys := by
            rw [Node.targetKeys_arrayLiteral]
            exact List.count_eq_zero.1 (by omega)
          rw [(bind_recorded _ since x _).history_of_not_mem hothers]
          obtain ⟨hnamed, hunnamed⟩ := ih e List.mem_cons_self hb (by omega)
          refine ⟨fun hn => ?_, fun hn => hunnamed fun h => hn (.element List.mem_cons_self h)⟩
          cases hn with
          | element hm h =>
            rcases List.mem_cons.1 hm with rfl | hm
            · exact hnamed h
            · exact absurd (Node.Names.element hm h).mem_targetKeys hothers
        · have hb' := (b.bind_recorded since x e).history_of_not_mem he
          rw [hb] at hb'
          have hes : (Node.arrayLiteral es span).targetKeys.count k = 1 := by
            rw [Node.targetKeys_arrayLiteral, ← hk, List.count_eq_zero.2 he, Nat.zero_add]
          obtain ⟨hnamed, hunnamed⟩ := ihs hb' (fun c hc => ih c (List.mem_cons_of_mem _ hc)) hes
          refine ⟨fun hn => hnamed ?_, fun hn => hunnamed fun h => hn ?_⟩
          · cases hn with
            | element hm h =>
              rcases List.mem_cons.1 hm with rfl | hm
              · exact absurd h.mem_targetKeys he
              · exact .element hm h
          · cases h with
            | element hm h => exact .element (List.mem_cons_of_mem _ hm) h
    | _ =>
      rw [Node.targetKeys.eq_def] at hk
      cases hk

/-- A step that binds a new key once settles it if and only if it assigns it a constant. -/
theorem settled_step_iff {s : Step} (hb : b.history k = []) (hk : s.keys.count k = 1) :
    (b.step s).Settled k ↔ ∃ target value since,
      s = .assign target value .assign since ∧ target.Names k ∧ value.constancy b = .constant := by
  have settled {c : Bindings} {since : UInt32} {x : Binding} (hc : c.history k = [⟨since, x⟩]) :
      c.Settled k ↔ x.constancy = .constant := by
    constructor
    · rintro ⟨e, he, hconst⟩
      rw [hc, List.singleton_inj] at he
      subst he
      exact hconst
    · exact fun hconst => ⟨_, hc, hconst⟩
  cases s with
  | declare key since =>
    have hpos : 0 < [key].count k := Nat.lt_of_lt_of_eq Nat.one_pos hk.symm
    obtain rfl : k = key := List.mem_singleton.1 (List.count_pos_iff.1 hpos)
    rw [step, declare, settled (history_record_first hb since _)]
    simp
  | assign target value op since =>
    have bound (c : Constancy) : (b.bind since ⟨c, value.carriesEscaped b⟩ target).Settled k ↔
        target.Names k ∧ c = .constant := by
      obtain ⟨hnamed, hunnamed⟩ := history_bind_once since ⟨c, value.carriesEscaped b⟩ hb hk
      by_cases hn : target.Names k
      · rw [settled (hnamed hn)]
        simp [hn]
      · rw [settled (hunnamed hn)]
        simp [hn]
    cases op with
    | assign => exact (bound _).trans (by simp)
    | compound => exact (bound _).trans (by simp)

/-- Steps that bind a key once do so in one place. -/
theorem exists_split {steps : List Step} {s : Step} (hs : s ∈ steps) (hk : k ∈ s.keys)
    (hcount : (steps.flatMap Step.keys).count k = 1) :
    ∃ before after, steps = before ++ s :: after ∧ (∀ t ∈ before, k ∉ t.keys) ∧
      s.keys.count k = 1 ∧ ∀ t ∈ after, k ∉ t.keys := by
  obtain ⟨before, after, rfl⟩ := List.append_of_mem hs
  rw [List.flatMap_append, List.flatMap_cons, List.count_append, List.count_append] at hcount
  have hpos := List.count_pos_iff.2 hk
  have none {l : List Step} (hl : (l.flatMap Step.keys).count k = 0) : ∀ t ∈ l, k ∉ t.keys :=
    fun t ht hkt => List.count_eq_zero.1 hl (List.mem_flatMap.2 ⟨t, ht, hkt⟩)
  exact ⟨before, after, rfl, none (by omega), by omega, none (by omega)⟩

/-- What steps settle is settled by the one of them that binds it. -/
theorem settled_run_iff {before after : List Step} {s : Step} (hb : b.history k = [])
    (hbefore : ∀ t ∈ before, k ∉ t.keys) (hk : s.keys.count k = 1)
    (hafter : ∀ t ∈ after, k ∉ t.keys) :
    (b.run (before ++ s :: after)).Settled k ↔ ∃ target value since,
      s = .assign target value .assign since ∧ target.Names k ∧
        value.constancy (b.run before) = .constant := by
  have hrun : (b.run (before ++ s :: after)).history k = ((b.run before).step s).history k := by
    rw [run_append, run_cons, history_run_of_not_mem hafter]
  rw [← settled_step_iff (by rw [history_run_of_not_mem hbefore, hb]) hk, Settled, Settled, hrun]

end Bindings

/-! ## Behind a statement -/

/-- **A value is judged at the end as it was when it was read.** -/
theorem Node.InOrder.constancy_value {n target value : Node} {op : AssignOp} {since : UInt32}
    {before after rest : List Step} (h : n.InOrder)
    (hs : n.steps = before ++ .assign target value op since :: after)
    (hrest : ∀ s ∈ rest, n.span.stop ≤ s.since) (b : Bindings) :
    value.constancy (b.run (n.steps ++ rest)) = value.constancy (b.run before) := by
  have hmem : .assign target value op since ∈ n.steps := by simp [hs]
  -- The assignment and all steps behind it take effect after it.
  have hlater : ∀ s ∈ .assign target value op since :: (after ++ rest), since ≤ s.since := by
    have hsorted := h.steps_sorted
    rw [hs] at hsorted
    intro s hm
    rcases List.mem_cons.1 hm with rfl | hm
    · exact UInt32.le_refl _
    · rcases List.mem_append.1 hm with hm | hm
      · exact (List.pairwise_cons.1 (List.pairwise_append.1 hsorted).2.1).1 s hm
      · exact UInt32.le_trans (h.steps_mem hmem).2 (hrest s hm)
  rw [hs, List.append_assoc, List.cons_append, Bindings.run_append]
  refine Node.constancy_congr fun v hv => Bindings.binding?_run _ fun s hm => ?_
  exact UInt32.lt_of_lt_of_le (h.value_lt hmem hv) (hlater s hm)

/-- Only the statement `n` of the block, between `l` and `r`, may bind the key. -/
structure Block.BindsOnlyAt (b : Block) (l : List Node) (n : Node) (r : List Node) (k : String) :
    Prop where
  split : b.statements = l ++ n :: r
  params : ∀ p ∈ b.params, Text.lower p.name ≠ k
  others : k ∉ (l ++ r).flatMap Node.boundKeys

/-- The bindings before the statement that follows `l`. -/
def Block.bindingsBehind (b : Block) (l : List Node) : Bindings :=
  Bindings.empty.run (b.paramSteps ++ l.flatMap Node.steps)

namespace Block.BindsOnlyAt

variable {b : Block} {l r : List Node} {n : Node} {k : String}

theorem bindings_eq (h : b.BindsOnlyAt l n r k) :
    b.bindings = (b.bindingsBehind l).run (n.steps ++ r.flatMap Node.steps) := by
  rw [Block.bindings_eq, Block.steps_eq, h.split]
  simp [bindingsBehind, Bindings.run_append]

theorem not_mem_keys (h : b.BindsOnlyAt l n r k) {ns : List Node} (hns : ∀ m ∈ ns, m ∈ l ++ r) :
    ∀ s ∈ ns.flatMap Node.steps, k ∉ s.keys := by
  intro s hs hk
  obtain ⟨m, hm, hs⟩ := List.mem_flatMap.1 hs
  exact h.others (List.mem_flatMap.2 ⟨m, hns m hm, List.mem_flatMap.2 ⟨s, hs, hk⟩⟩)

theorem history_before (h : b.BindsOnlyAt l n r k) : (b.bindingsBehind l).history k = [] := by
  refine Bindings.history_run_of_not_mem (fun s hs hk => ?_) _
  rcases List.mem_append.1 hs with hs | hs
  · obtain ⟨p, hp, rfl⟩ := List.mem_map.1 hs
    exact h.params p hp (List.mem_singleton.1 hk).symm
  · exact h.not_mem_keys (fun m hm => List.mem_append_left _ hm) s hs hk

theorem history_eq (h : b.BindsOnlyAt l n r k) :
    b.bindings.history k = ((b.bindingsBehind l).run n.steps).history k := by
  rw [h.bindings_eq, Bindings.run_append,
    Bindings.history_run_of_not_mem (h.not_mem_keys fun m hm => List.mem_append_right _ hm)]

/-- What is known of the key at the end took effect in the statement. -/
theorem since_le (h : b.BindsOnlyAt l n r k) (ho : b.InOrder) :
    ∀ e ∈ b.bindings.history k, e.since ≤ n.span.stop := by
  have hn : n.InOrder := ho.each n (by simp [h.split])
  rw [h.history_eq]
  refine Bindings.run_le (fun s hs => (hn.steps_mem hs).2) ?_
  rw [h.history_before]
  simp

/-- Behind the statement, a use is constant if and only if the statement settles the key. -/
theorem constancy_iff_settled {u : Variable} (h : b.BindsOnlyAt l n r u.key) (ho : b.InOrder)
    (hq : u.isQualified = false) (hu : n.span.stop ≤ u.span.start) :
    b.bindings.constancy u = .constant ↔ ((b.bindingsBehind l).run n.steps).Settled u.key := by
  have hseen : (b.bindings.history u.key).bindingAt? u.span.start =
      (b.bindings.history u.key).getLast?.map (·.binding) :=
    History.bindingAt?_of_le fun e he => UInt32.le_trans (h.since_le ho e he) hu
  have htail : ∀ e ∈ (b.bindings.history u.key).tail, e.binding.constancy = .varying :=
    Bindings.tail_varying_run b.steps (b := .empty) (by simp)
  rw [Bindings.constancy_eq _ hq, hseen, History.getLast?_constant_iff htail, h.history_eq]
  rfl

/-- A value that the statement assigns is judged at the end as it was when it was read. -/
theorem constancy_value (h : b.BindsOnlyAt l n r k) (ho : b.InOrder) {target value : Node}
    {op : AssignOp} {since : UInt32} {before after : List Step}
    (hs : n.steps = before ++ .assign target value op since :: after) :
    value.constancy b.bindings = value.constancy ((b.bindingsBehind l).run before) := by
  have hfrom := ho.statements_from
  rw [h.split] at hfrom
  have hfollow := (List.pairwise_cons.1 (List.pairwise_append.1 hfrom.follow).2.1).1
  rw [h.bindings_eq]
  refine (hfrom.each n (by simp)).constancy_value hs (fun s hs => ?_) _
  obtain ⟨m, hm, hs⟩ := List.mem_flatMap.1 hs
  exact UInt32.le_trans (hfollow m hm) ((hfrom.each m (by simp [hm])).steps_mem hs).1

/-- A variable that only one statement binds is constant behind it if and only if the statement sets
it once, to a constant. -/
theorem constancy_iff {u : Variable} (h : b.BindsOnlyAt l n r u.key) (ho : b.InOrder)
    (hq : u.isQualified = false) (hu : n.span.stop ≤ u.span.start) :
    b.bindings.constancy u = .constant ↔
      ∃ value, n.SetsOnce u.key value ∧ value.constancy b.bindings = .constant := by
  rw [h.constancy_iff_settled ho hq hu]
  constructor
  · intro hsettled
    -- One event was recorded, so one step binds the key.
    have hcount : n.boundKeys.count u.key = 1 := by
      have hlength := (b.bindingsBehind l).length_history_run_eq n.steps u.key
      obtain ⟨e, he, -⟩ := hsettled
      rw [he, h.history_before] at hlength
      simpa [Node.boundKeys] using hlength.symm
    obtain ⟨s, hs, hk⟩ := List.mem_flatMap.1 (List.count_pos_iff.1 (Nat.lt_of_lt_of_eq
      Nat.one_pos hcount.symm))
    obtain ⟨before, after, hsplit, hbefore, hone, hafter⟩ := Bindings.exists_split hs hk hcount
    rw [hsplit, Bindings.settled_run_iff h.history_before hbefore hone hafter] at hsettled
    obtain ⟨target, value, since, rfl, hnames, hconstant⟩ := hsettled
    exact ⟨value, ⟨hcount, target, since, hs, hnames⟩,
      (h.constancy_value ho hsplit).trans hconstant⟩
  · rintro ⟨value, ⟨hcount, target, since, hs, hnames⟩, hconstant⟩
    obtain ⟨before, after, hsplit, hbefore, hone, hafter⟩ :=
      Bindings.exists_split hs hnames.mem_targetKeys hcount
    rw [hsplit, Bindings.settled_run_iff h.history_before hbefore hone hafter]
    exact ⟨target, value, since, rfl, hnames, (h.constancy_value ho hsplit).symm.trans hconstant⟩

end Block.BindsOnlyAt

/-! ## Conditionals -/

/-- **Branches are read as if all of them ran.** In a block in document order, let nothing but one
conditional bind an ordinary variable. Behind the conditional the variable is constant if and only
if the conditional sets it once, to a constant; otherwise it is varying. -/
theorem conditional_constant_iff {b : Block} {l r : List Node} {clauses : List Clause}
    {otherwise : Option (List Node)} {span : Span} {u : Variable} (ho : b.InOrder)
    (hb : b.BindsOnlyAt l (.conditional clauses otherwise span) r u.key)
    (hq : u.isQualified = false) (ha : u.isAutomatic = false) (hu : span.stop ≤ u.span.start) :
    (Node.reference u).constancy b.bindings = .constant ↔
      ∃ value, (Node.conditional clauses otherwise span).SetsOnce u.key value ∧
        value.constancy b.bindings = .constant := by
  rw [Node.constancy_reference, ha]
  exact hb.constancy_iff ho hq hu

/-- The bodies of which a conditional runs one. Without a last one it may run none. -/
def branches (clauses : List Clause) (otherwise : Option (List Node)) : List (List Node) :=
  clauses.map (·.body) ++ [otherwise.getD []]

/-- A clause `($param) { $cmd = 'text' }`. -/
def commandClause (param : String) (start : UInt32) (text : String) : Clause :=
  ⟨.reference ⟨param, ⟨start, start + 2⟩⟩,
    [.assignment (.reference ⟨"cmd", ⟨start + 6, start + 10⟩⟩)
      (.literal text ⟨start + 13, start + 23⟩) .assign ⟨start + 6, start + 23⟩]⟩

/-- The use of the variable behind the conditional. -/
def commandUse : Variable := ⟨"cmd", ⟨66, 70⟩⟩

/-- `iex $cmd`. -/
def evaluatedCommand : Node :=
  .command ⟨.literal "iex" ⟨62, 65⟩, [.argument (.reference commandUse)], ⟨62, 70⟩⟩

/-- `if ..; iex $cmd`, with the parameters `p` and `q`, and without a last branch. -/
def branchedCommand (clauses : List Clause) : Block :=
  { span := ⟨0, 80⟩
    params := [⟨"p", ⟨0, 1⟩, none⟩, ⟨"q", ⟨1, 2⟩, none⟩]
    annotations := []
    statements := [.conditional clauses none ⟨3, 60⟩, evaluatedCommand] }

theorem branchedCommand_bindsOnlyAt (clauses : List Clause) :
    (branchedCommand clauses).BindsOnlyAt [] (.conditional clauses none ⟨3, 60⟩) [evaluatedCommand]
      commandUse.key := by
  have hparams : ∀ name ∈ ["p", "q"], Text.lower name ≠ commandUse.key := by decide +kernel
  have hothers : commandUse.key ∉ [evaluatedCommand].flatMap Node.boundKeys := by decide +kernel
  refine ⟨rfl, fun p hp => hparams p.name ?_, hothers⟩
  exact List.mem_map_of_mem (f := Param.name) hp

def oneBranch : List Clause := [commandClause "p" 7 "Get-Date"]

def twoBranches : List Clause := [commandClause "p" 7 "Get-Date", commandClause "q" 35 "Get-Host"]

/-- Two branches assign constants, so the variable is varying. -/
theorem conditional_constant_iff_twoBranches :
    (branchedCommand twoBranches).InOrder ∧
      (Node.reference commandUse).constancy (branchedCommand twoBranches).bindings =
        .varying := by
  have ho : (branchedCommand twoBranches).InOrder := by decide +kernel
  have hiff := conditional_constant_iff (u := commandUse) ho
    (branchedCommand_bindsOnlyAt twoBranches) (by decide) (by decide) (by decide)
  have hne : ¬ ∃ value, (Node.conditional twoBranches none ⟨3, 60⟩).SetsOnce commandUse.key value ∧
      value.constancy (branchedCommand twoBranches).bindings = .constant := by
    rintro ⟨value, ⟨hcount, -⟩, -⟩
    exact absurd hcount (by decide +kernel)
  exact ⟨ho, Constancy.ne_constant_iff.1 (mt hiff.1 hne)⟩

/-- `if ($p) { $cmd = 'Get-Date' }; iex $cmd`: one branch assigns the variable, the other does not,
and the variable is constant behind them. -/
theorem lone_branch_constant :
    (branchedCommand oneBranch).InOrder ∧
      (branchedCommand oneBranch).BindsOnlyAt [] (.conditional oneBranch none ⟨3, 60⟩)
        [evaluatedCommand] commandUse.key ∧
      commandUse.isQualified = false ∧ commandUse.isAutomatic = false ∧
      (∃ body ∈ branches oneBranch none, commandUse.key ∈ body.flatMap Node.assigned) ∧
      (∃ body ∈ branches oneBranch none, commandUse.key ∉ body.flatMap Node.assigned) ∧
      (Node.reference commandUse).constancy (branchedCommand oneBranch).bindings =
        .constant :=
  ⟨by decide +kernel, branchedCommand_bindsOnlyAt oneBranch, by decide, by decide,
    ⟨_, List.mem_cons_self, by decide +kernel⟩,
    ⟨[], List.mem_cons_of_mem _ List.mem_cons_self, by simp⟩, by decide +kernel⟩

end ScriptTaint
