import ScriptTaint.Proofs.Annotations
import ScriptTaint.Proofs.Related

/-!
# Taint only grows

Bindings are below others if whatever is constant under the others is constant under them
(`Bindings.Below`). The order is one of histories: either event follows event at the same offsets,
and none has become constant, or the greater history holds nothing constant at all. Each step of a
scope keeps the order (`Bindings.Below.step`), hence so does a whole reading (`Bindings.Below.run`),
whatever the offsets are. One more parameter takes the bindings of a block upwards
(`Block.bindings_below`), and nothing else in the file moves. So what was varying stays varying,
and a span that was reported for varying input is reported again (`taint_monotone`).
-/

set_option autoImplicit false

namespace ScriptTaint

open List (Forall₂)

/-! ## The order -/

/-- What is constant in the second history is constant in the first one, at every offset, and stays
so whatever is recorded in both. -/
inductive History.Below : History → History → Prop
  | events {h h' : History}
      (hevents : Forall₂ (fun e e' => e'.since = e.since ∧
        (e'.binding.constancy = .constant → e.binding.constancy = .constant)) h h') : Below h h'
  /-- A history that has begun without a constant has none later. -/
  | varying {h h' : History} (hne : h' ≠ [])
      (hvarying : ∀ e ∈ h', e.binding.constancy = .varying) : Below h h'

theorem History.record_ne_nil (h : History) (since : UInt32) (x : Binding) :
    h.record since x ≠ [] := by
  rw [record_eq]
  exact List.append_ne_nil_of_right_ne_nil _ (List.cons_ne_nil _ _)

/-- A history without a constant gets none, unless as its first event. -/
theorem History.record_varying {h : History} {x : Binding}
    (hvarying : ∀ e ∈ h, e.binding.constancy = .varying) (hx : h = [] → x.constancy = .varying)
    (since : UInt32) : ∀ e ∈ h.record since x, e.binding.constancy = .varying := by
  intro e he
  rw [record_eq] at he
  rcases List.mem_append.1 he with he | he
  · exact hvarying e he
  · rw [List.mem_singleton.1 he]
    by_cases hn : h = []
    · subst hn
      exact hx rfl
    · exact next_varying hn since x

namespace History.Below

variable {h h' : History} {x x' : Binding}

theorem refl (h : History) : Below h h :=
  .events (List.forall₂_same.2 fun _ _ => ⟨rfl, id⟩)

theorem record (hh : Below h h') (since : UInt32)
    (hx : x'.constancy = .constant → x.constancy = .constant) :
    Below (h.record since x) (h'.record since x') := by
  cases hh with
  | events hevents =>
    have hlast := rel_getLast? hevents
    rw [record_eq, record_eq]
    refine .events (List.rel_append hevents (.cons ?_ .nil))
    unfold next
    generalize h.getLast? = last, h'.getLast? = last' at hlast ⊢
    cases hlast with
    | none => exact ⟨rfl, hx⟩
    | some he => exact ⟨by simp only [he.1], fun hc => by cases hc⟩
  | varying hne hvarying =>
    exact .varying (record_ne_nil h' since x')
      (record_varying hvarying (fun hn => absurd hn hne) since)

/-- A use that sees a constant in the greater history sees one in the lesser. -/
theorem constant (hh : Below h h') {offset : UInt32}
    (hc : (h'.bindingAt? offset).map (·.constancy) = some .constant) :
    (h.bindingAt? offset).map (·.constancy) = some .constant := by
  unfold bindingAt? at hc ⊢
  rw [Option.map_map] at hc ⊢
  cases hh with
  | events hevents =>
    have hlast := rel_getLast? (forall₂_takeWhile (p := (·.since ≤ offset))
      (q := (·.since ≤ offset)) hevents fun e e' he => by rw [he.1])
    generalize (h.takeWhile (·.since ≤ offset)).getLast? = last,
      (h'.takeWhile (·.since ≤ offset)).getLast? = last' at hlast hc ⊢
    cases hlast with
    | none => cases hc
    | some he => exact congrArg some (he.2 (Option.some.inj hc))
  | varying _ hvarying =>
    obtain ⟨e, he, hconstant⟩ := Option.map_eq_some_iff.1 hc
    have hmem : e ∈ h' := (List.takeWhile_sublist _).mem (List.mem_of_getLast? he)
    exact absurd ((hvarying e hmem).symm.trans hconstant) (by simp)

end History.Below

/-- What is constant under the second bindings is constant under the first ones. -/
def Bindings.Below (b b' : Bindings) : Prop := ∀ key, (b.history key).Below (b'.history key)

namespace Bindings.Below

variable {b b' : Bindings}

theorem refl (b : Bindings) : b.Below b := fun key => .refl (b.history key)

theorem record (h : b.Below b') (key : String) (since : UInt32) {x x' : Binding}
    (hx : x'.constancy = .constant → x.constancy = .constant) :
    (b.record key since x).Below (b'.record key since x') := by
  intro k
  rw [history_record, history_record]
  split
  · exact (h k).record since hx
  · exact h k

theorem constancy (h : b.Below b') {v : Variable} (hv : b'.constancy v = .constant) :
    b.constancy v = .constant := by
  have hq := not_isQualified_of_constant hv
  rw [constancy_eq _ hq] at hv ⊢
  have hseen : ((b'.history v.key).bindingAt? v.span.start).map (·.constancy) =
      some .constant := by
    cases hb : ((b'.history v.key).bindingAt? v.span.start).map (·.constancy) with
    | none => rw [hb] at hv; cases hv
    | some c => rw [hb] at hv; exact congrArg some hv
  rw [(h v.key).constant hseen]
  rfl

end Bindings.Below

/-- An expression that is constant under greater bindings is constant under lesser ones. -/
theorem Node.constancy_below {b b' : Bindings} (h : b.Below b') {n : Node}
    (hn : n.constancy b' = .constant) : n.constancy b = .constant := by
  induction n using Node.induction_children with
  | step n ih =>
    cases n with
    | literal | typeLiteral | scriptBlock => rw [constancy.eq_def]
    | expandable value holes span =>
      rw [constancy_expandable, Constancy.joinAll_eq_constant, List.forall_mem_map] at hn ⊢
      exact fun c hc => ih c hc (hn c hc)
    | arrayLiteral elements span =>
      rw [constancy_arrayLiteral, Constancy.joinAll_eq_constant, List.forall_mem_map] at hn ⊢
      exact fun c hc => ih c hc (hn c hc)
    | reference v =>
      rw [constancy_reference] at hn ⊢
      split
      · rfl
      · next hauto =>
        rw [if_neg hauto] at hn
        exact h.constancy hn
    | assignment target value op span =>
      rw [constancy.eq_def] at hn ⊢
      exact ih value (by simp [children]) hn
    | binary op left right span =>
      rw [constancy_binary, Constancy.join_eq_constant] at hn ⊢
      exact ⟨ih left (by simp [children]) hn.1, ih right (by simp [children]) hn.2⟩
    | paren inner span =>
      rw [constancy_paren] at hn ⊢
      exact ih inner (by simp [children]) hn
    | cast typeName operand span =>
      rw [constancy_cast] at hn ⊢
      exact ih operand (by simp [children]) hn
    | pipeline elements span =>
      obtain ⟨single, rfl, hcommand, hsingle⟩ := (constancy_pipeline b').1 hn
      exact (constancy_pipeline b).2 ⟨single, rfl, hcommand, ih single (by simp [children]) hsingle⟩
    | _ =>
      rw [constancy.eq_def] at hn
      cases hn

/-! ## Steps -/

namespace Bindings.Below

variable {b b' : Bindings}

theorem bind (h : b.Below b') (since : UInt32) {x x' : Binding}
    (hx : x'.constancy = .constant → x.constancy = .constant) (target : Node) :
    (b.bind since x target).Below (b'.bind since x' target) := by
  induction target using Node.induction_children generalizing b b' with
  | step target ih =>
    cases target with
    | arrayLiteral elements span =>
      rw [bind_arrayLiteral, bind_arrayLiteral]
      simp only [Node.children] at ih
      induction elements generalizing b b' with
      | nil => exact h
      | cons e es ihs =>
        have hhead := ih e List.mem_cons_self h
        exact ihs hhead fun c hc => ih c (List.mem_cons_of_mem _ hc)
    | reference v =>
      rw [bind.eq_def, bind.eq_def b']
      dsimp only
      split
      · exact h
      · exact h.record v.key since hx
    | cast typeName operand span =>
      rw [bind.eq_def, bind.eq_def b']
      exact ih operand (by simp [Node.children]) h
    | member target name isStatic span =>
      rw [bind.eq_def, bind.eq_def b']
      dsimp only
      split
      · split
        · exact h
        · exact h.record _ since id
      · exact h
    | _ =>
      rw [bind.eq_def, bind.eq_def b']
      exact h

/-- A step keeps the order. -/
theorem step (h : b.Below b') (s : Step) : (b.step s).Below (b'.step s) := by
  cases s with
  | declare key since => exact h.record key since id
  | assign target value op since =>
    refine h.bind since ?_ target
    cases op with
    | assign => exact Node.constancy_below h
    | compound => exact id

/-- Steps keep the order. -/
theorem run (h : b.Below b') (steps : List Step) : (b.run steps).Below (b'.run steps) := by
  induction steps generalizing b b' with
  | nil => exact h
  | cons s steps ih => exact ih (h.step s)

/-- Where nothing is constant, a declaration goes upwards. -/
theorem declare {key : String}
    (hvarying : ∀ e ∈ b.history key, e.binding.constancy = .varying) (since : UInt32) :
    b.Below (b.declare key since) := by
  intro k
  by_cases hk : k = key
  · subst hk
    rw [Bindings.declare, history_record_self]
    exact .varying (History.record_ne_nil _ since _)
      (History.record_varying hvarying (fun _ => rfl) since)
  · rw [Bindings.declare, history_record, if_neg hk]
    exact .refl _

end Bindings.Below

/-! ## One more parameter -/

/-- The block with other parameters. -/
def Block.withParams (b : Block) (params : List Param) : Block := { b with params }

section block
variable {b : Block} {before after : List Param} {p : Param}

/-- A parameter takes the bindings of its block upwards, wherever it stands among the others. -/
theorem Block.bindings_below (hparams : b.params = before ++ after) :
    b.bindings.Below (b.withParams (before ++ p :: after)).bindings := by
  let declares (ps : List Param) : List Step :=
    ps.map fun p => .declare (Text.lower p.name) b.span.start
  let rest : List Step := declares after ++ b.statements.flatMap Node.steps
  let first : Bindings := Bindings.empty.run (declares before)
  have hb : b.bindings = first.run rest := by
    rw [bindings_eq, steps_eq, paramSteps, hparams, List.map_append, List.append_assoc,
      Bindings.run_append]
  have hb' : (b.withParams (before ++ p :: after)).bindings =
      (first.declare (Text.lower p.name) b.span.start).run rest := by
    rw [bindings_eq, steps_eq, paramSteps, withParams, List.map_append, List.map_cons,
      List.append_assoc, Bindings.run_append, List.cons_append, Bindings.run_cons]
    rfl
  -- what stands before the parameter are declarations, which record nothing constant
  have hdeclares : ∀ s ∈ declares before, ∃ key since, s = Step.declare key since := by
    intro s hs
    obtain ⟨q, -, rfl⟩ := List.mem_map.1 hs
    exact ⟨_, _, rfl⟩
  obtain ⟨events, hevents, hvarying⟩ := Bindings.run_varying (k := Text.lower p.name)
    (b := .empty) fun _ s hs _ => hdeclares s hs
  rw [hb, hb']
  refine (Bindings.Below.declare (fun e he => hvarying e ?_) _).run rest
  rwa [hevents] at he

theorem Block.nodes_withParams (hparams : b.params = before ++ after) (hp : p.default? = none) :
    (b.withParams (before ++ p :: after)).nodes = b.nodes := by
  simp only [nodes, withParams, hparams, List.filterMap_append, List.filterMap_cons_none hp]

end block

/-! ## Walks -/

/-- The second visit meets the same node under greater bindings. -/
inductive Visit.Below : Visit → Visit → Prop
  | block (frame frame' : Frame) : Below (.block frame) (.block frame')
  | node {frame frame' : Frame} {n n' : Node} (hnode : n' = n)
      (hbindings : frame.bindings.Below frame'.bindings) : Below (.node frame n) (.node frame' n')

namespace Visit.Below

variable {v v' : Visit}

theorem refl (v : Visit) : v.Below v := by
  cases v with
  | block frame => exact .block frame frame
  | node frame n => exact .node rfl (.refl _)

theorem shell (h : v.Below v') : v.shell.Below v'.shell := by
  cases h with
  | block frame frame' => exact .block _ _
  | node hnode hbindings => exact .node (congrArg Node.shell hnode) hbindings

theorem isNode (h : v.Below v') : v.isNode = v'.isNode := by
  cases h <;> rfl

end Visit.Below

theorem Node.visits_below {frame frame' : Frame} (h : frame.bindings.Below frame'.bindings)
    (n : Node) : Forall₂ Visit.Below (n.visits frame) (n.visits frame') := by
  induction n using Node.induction_children with
  | step n ih =>
    cases hb : n.block? with
    | some b =>
      -- the block inside reads its own bindings
      rw [visits_block hb, visits_block hb]
      exact .cons (.node rfl h) (List.forall₂_same.2 fun v _ => .refl v)
    | none =>
      rw [visits_children hb, visits_children hb]
      exact .cons (.node rfl h) (forall₂_flatMap (List.forall₂_same.2 ih) fun _ _ hc => hc)

/-- A block that reads greater bindings and has the same nodes is walked upwards. -/
theorem Block.visits_below {b b' : Block} (hnodes : b'.nodes = b.nodes)
    (h : b.bindings.Below b'.bindings) : Forall₂ Visit.Below b.visits b'.visits := by
  rw [visits_eq, visits_eq, hnodes]
  exact .cons (.block _ _) (forall₂_flatMap (List.forall₂_same.2 fun n _ => n.visits_below h)
    fun _ _ hn => hn)

section files
variable {t t' : SyntaxTree} {path : List Slot} {b b' : Block}

/-- Where a block of a file is walked upwards, so is the file. -/
theorem SyntaxTree.seen_below (hb : t.block? path = some b) (hspan : b'.span = b.span)
    (h : Forall₂ Visit.Below b.visits b'.visits) :
    Forall₂ Visit.Below t.seen (t.putBlock path b').seen := by
  obtain ⟨l, r, hwalk⟩ := visits_putBlock hb
  have hself : t.putBlock path b = t := by
    rw [putBlock, Block.putBlock_self hb]
  have hshell : Forall₂ Visit.Below (b.visits.map Visit.shell) (b'.visits.map Visit.shell) :=
    List.forall₂_map_left_iff.2 (List.forall₂_map_right_iff.2 (h.imp fun _ _ hv => hv.shell))
  have hrefl (vs : List Visit) : Forall₂ Visit.Below vs vs :=
    List.forall₂_same.2 fun v _ => .refl v
  refine forall₂_filter ?_ fun _ _ hv => hv.isNode
  rw [← hself, hwalk b rfl, hself, hwalk b' hspan]
  exact List.rel_append (List.rel_append (hrefl l) hshell) (hrefl r)

/-- What detectors see of a file are its positions, each in the frame of its block. -/
theorem SyntaxTree.seen_eq (t : SyntaxTree) :
    t.seen = t.positions.map fun q => Visit.shell (.node q.scope.frame q.node) := by
  have hfilter (vs : List Visit) : (vs.map Visit.shell).filter Visit.isNode =
      vs.flatMap fun v => [v.shell].filter Visit.isNode := by
    induction vs with
    | nil => rfl
    | cons v vs ih => rw [List.flatMap_cons, ← ih, List.map_cons, ← List.filter_append]; rfl
  rw [seen, hfilter, ← t.flatMap_visits fun _ => rfl, List.map_eq_flatMap]
  rfl

/-- The positions of the second file are those of the first one, under greater bindings. -/
theorem SyntaxTree.positions_below (h : Forall₂ Visit.Below t.seen t'.seen) :
    Forall₂ (fun q q' => q'.node.shell = q.node.shell ∧
      q.scope.bindings.Below q'.scope.bindings) t.positions t'.positions := by
  rw [seen_eq, seen_eq, List.forall₂_map_left_iff, List.forall₂_map_right_iff] at h
  refine h.imp fun q q' hq => ?_
  cases hq with
  | node hnode hbindings => exact ⟨hnode, hbindings⟩

end files

/-! ## Reports -/

section reports
variable {t t' : SyntaxTree} {r : SinkRegistry} {a : Aliases} {v v' : Visit}

theorem SyntaxTree.aliases_below (h : Forall₂ Visit.Below t.seen t'.seen) :
    t'.aliases r = t.aliases r := by
  have hshell := Visit.aliasDefinition?_shell r
  have hdefinitions : t.seen.filterMap (·.aliasDefinition? r) =
      t'.seen.filterMap (·.aliasDefinition? r) := by
    rw [List.filterMap_eq_flatMap_toList, List.filterMap_eq_flatMap_toList]
    refine flatMap_eq_of_forall₂ (h.imp fun v v' hv => ?_)
    cases hv with
    | block => rfl
    | @node _ _ _ n hnode =>
      subst hnode
      cases n <;> rfl
  unfold aliases
  rw [← filterMap_seen hshell fun _ => rfl, ← hdefinitions, filterMap_seen hshell fun _ => rfl]

theorem Node.varying_below {b b' : Bindings} (h : b.Below b') {n : Node}
    (hn : n.constancy b = .varying) : n.constancy b' = .varying := by
  cases hc : n.constancy b' with
  | varying => rfl
  | constant => rw [constancy_below h hc] at hn; cases hn

theorem Node.isVarying_below {b b' : Bindings} (h : b.Below b') {n : Node}
    (hn : (n.constancy b).isVarying = true) : (n.constancy b').isVarying = true := by
  cases hc : n.constancy b with
  | varying => rw [varying_below h hc]; rfl
  | constant => rw [hc] at hn; cases hn

/-- The site of a call under greater bindings is tainted if it was. -/
theorem SinkCall.isTaintedSite_below {b b' : Bindings} (h : b.Below b') (k : SinkCall)
    {c : Category} (hk : Detector.isTaintedSite c (k.site b) = true) :
    Detector.isTaintedSite c (k.site b') = true := by
  simp only [Detector.isTaintedSite, site, Bool.and_eq_true, List.any_eq_true] at hk ⊢
  obtain ⟨hcategory, n, hn, hvarying⟩ := hk
  exact ⟨hcategory, n, hn, n.isVarying_below h hvarying⟩

theorem Visit.Below.exists_site (h : v.Below v') {c : Category} :
    ∀ s ∈ v.sites r a, Detector.isTaintedSite c s = true →
      ∃ s' ∈ v'.sites r a, Detector.isTaintedSite c s' = true ∧ s'.span = s.span := by
  intro s hs htainted
  cases h with
  | block => cases hs
  | @node _ frame' _ n hnode hbindings =>
    subst hnode
    obtain ⟨k, hk, rfl⟩ := List.mem_map.1 hs
    exact ⟨k.site frame'.bindings, List.mem_map_of_mem hk,
      k.isTaintedSite_below hbindings htainted, rfl⟩

theorem Detector.isComputed_below {f f' : Frame} (h : f.bindings.Below f'.bindings) {name : Node}
    (hname : isComputed f name = true) : isComputed f' name = true := by
  rw [isComputed, Bool.and_eq_true] at hname ⊢
  exact ⟨hname.1, name.isVarying_below h hname.2⟩

/-- A computed member stays one. -/
theorem Visit.Below.computedMember? (h : v.Below v') {m : Detector.ComputedMember}
    (hm : Detector.computedMember? v = some m) : Detector.computedMember? v' = some m := by
  cases h with
  | block => exact hm
  | @node _ _ _ n hnode hbindings =>
    subst hnode
    cases n with
    | invocation | member =>
      obtain ⟨hname, hm⟩ := Option.ite_none_right_eq_some.1 hm
      exact Option.ite_none_right_eq_some.2 ⟨Detector.isComputed_below hbindings hname, hm⟩
    | _ => exact hm

/-- Every tainted site of the first file has its like in the second one. -/
theorem SyntaxTree.exists_codeSite (h : Forall₂ Visit.Below t.seen t'.seen) {c : Category}
    {s : CodeSite} (hs : s ∈ t.codeSites r) (htainted : Detector.isTaintedSite c s = true) :
    ∃ s' ∈ t'.codeSites r, Detector.isTaintedSite c s' = true ∧ s'.span = s.span := by
  have hshell := Visit.sites_shell r (t.aliases r)
  unfold codeSites at hs ⊢
  rw [← flatMap_seen hshell fun _ => rfl] at hs
  rw [aliases_below h, ← flatMap_seen hshell fun _ => rfl]
  obtain ⟨v, hv, hs⟩ := List.mem_flatMap.1 hs
  obtain ⟨v', hv', hbelow⟩ := exists_mem_of_forall₂ h hv
  obtain ⟨s', hs', htainted', hspan⟩ := hbelow.exists_site s hs htainted
  exact ⟨s', List.mem_flatMap.2 ⟨v', hv', hs'⟩, htainted', hspan⟩

theorem SyntaxTree.computedMember_below (h : Forall₂ Visit.Below t.seen t'.seen)
    {m : Detector.ComputedMember} (hm : m ∈ t.visits.filterMap Detector.computedMember?) :
    m ∈ t'.visits.filterMap Detector.computedMember? := by
  have hshell := Detector.computedMember?_shell
  rw [← filterMap_seen hshell fun _ => rfl] at hm ⊢
  obtain ⟨v, hv, hm⟩ := List.mem_filterMap.1 hm
  obtain ⟨v', hv', hbelow⟩ := exists_mem_of_forall₂ h hv
  exact List.mem_filterMap.2 ⟨v', hv', hbelow.computedMember? hm⟩

namespace Detector

/-- The detectors of varying input. -/
def ofTaint : List Detector :=
  [invokeExpression, dangerousMethod, addType, commandInjection, forEachObject, memberInjection]

/-- The detector reports in the second file every span that it reports in the first one. -/
def ReportsAgain (d : Detector) (r : SinkRegistry) (t t' : SyntaxTree) : Prop :=
  ∃ fs fs', d.check t r = .ok fs ∧ d.check t' r = .ok fs' ∧ ∀ f ∈ fs, ∃ f' ∈ fs', f'.span = f.span

theorem reportsAgain_ofSites (h : Forall₂ Visit.Below t.seen t'.seen) (p : Profile) (c : Category)
    (message : String → String) (suggestion : String) :
    (ofSites p (isTaintedSite c) message suggestion).ReportsAgain r t t' := by
  obtain ⟨fs, hcheck, hspans⟩ := spans_ofSites p (isTaintedSite c) message suggestion t r
  obtain ⟨fs', hcheck', hspans'⟩ := spans_ofSites p (isTaintedSite c) message suggestion t' r
  refine ⟨fs, fs', hcheck, hcheck', fun f hf => (hspans' f.span).2 ?_⟩
  obtain ⟨s, hs, htainted, hspan⟩ := (hspans f.span).1 ⟨f, hf, rfl⟩
  obtain ⟨s', hs', htainted', hspan'⟩ := SyntaxTree.exists_codeSite h hs htainted
  exact ⟨s', hs', htainted', hspan'.trans hspan⟩

theorem reportsAgain_memberInjection (h : Forall₂ Visit.Below t.seen t'.seen) :
    memberInjection.ReportsAgain r t t' := by
  refine ⟨_, _, rfl, rfl, fun f hf => Finding.exists_span_firstPerSpan.2 ?_⟩
  obtain ⟨g, hg, hspan⟩ := Finding.exists_span_firstPerSpan.1 ⟨f, hf, rfl⟩
  obtain ⟨m, hm, rfl⟩ := List.mem_map.1 hg
  exact ⟨_, List.mem_map_of_mem (SyntaxTree.computedMember_below h hm), hspan⟩

theorem reportsAgain_of_mem (h : Forall₂ Visit.Below t.seen t'.seen) {d : Detector}
    (hd : d ∈ ofTaint) : d.ReportsAgain r t t' := by
  have hbuiltin : d ∈ builtin := List.mem_append_left [handEscaping] hd
  obtain ⟨p, c, message, suggestion, rfl⟩ | rfl | rfl := builtin_cases hbuiltin
  · exact reportsAgain_ofSites h p c message suggestion
  · exact reportsAgain_memberInjection h
  · -- The detector of escaping by hand is not in the list; its id tells it apart.
    have hid : "IH007" ∈ ofTaint.map (·.profile.id) := List.mem_map_of_mem hd
    exact absurd hid (by decide)

end Detector

end reports

/-- The second file has the nodes of the first one, down to the contents of blocks. What is varying
in its scope in the first file is varying in its scope in the second one. -/
def SyntaxTree.VariesAgain (t t' : SyntaxTree) : Prop :=
  Forall₂ (fun q q' => q'.node.shell = q.node.shell ∧
    (q.node.constancy q.scope.bindings = .varying →
      q'.node.constancy q'.scope.bindings = .varying)) t.positions t'.positions

/-- **Taint is monotone.** Give a block of a file one more parameter, anywhere among those it has
and without a default. What was varying is still varying, and each detector of varying input reports
the spans that it reported, whatever the sinks are. -/
theorem taint_monotone (t : SyntaxTree) (path : List Slot) (b : Block) (before after : List Param)
    (name : String) (span : Span) (hb : t.block? path = some b)
    (hparams : b.params = before ++ after) :
    let t' := t.putBlock path (b.withParams (before ++ ⟨name, span, none⟩ :: after))
    t.VariesAgain t' ∧ ∀ d ∈ Detector.ofTaint, ∀ r, d.ReportsAgain r t t' := by
  intro t'
  have hvisits := Block.visits_below (Block.nodes_withParams (p := ⟨name, span, none⟩) hparams rfl)
    (Block.bindings_below hparams)
  have hseen : Forall₂ Visit.Below t.seen t'.seen := SyntaxTree.seen_below hb rfl hvisits
  refine ⟨(SyntaxTree.positions_below hseen).imp fun q q' hq => ⟨hq.1, fun hvarying => ?_⟩,
    fun d hd r => Detector.reportsAgain_of_mem hseen hd⟩
  rw [← Node.constancy_shell] at hvarying ⊢
  rw [hq.1]
  exact Node.varying_below hq.2 hvarying

/-- A block that starts behind all that is in it: it evaluates a constant and its parameter. -/
def startingLate : Block :=
  { span := ⟨90, 10⟩, annotations := []
    params := [⟨"p", ⟨4, 6⟩, none⟩, ⟨"q", ⟨7, 9⟩, some (.literal "1" ⟨8, 9⟩)⟩]
    statements :=
      [.assignment (.reference ⟨"x", ⟨12, 14⟩⟩) (.literal "Get-Date" ⟨17, 27⟩) .assign ⟨12, 27⟩,
       .command
        { name := .literal "iex" ⟨30, 33⟩
          elements := [.argument (.reference ⟨"x", ⟨34, 36⟩⟩)]
          span := ⟨30, 36⟩ },
       .command
        { name := .literal "iex" ⟨40, 43⟩
          elements := [.argument (.reference ⟨"p", ⟨44, 46⟩⟩)]
          span := ⟨40, 46⟩ }] }

/-- A parameter between the others hides the constant. -/
theorem taint_monotone_startingLate :
    let late : Node := .function "Get-Late" ⟨0, 60⟩ startingLate
    let t : SyntaxTree := ⟨"late.ps1", [0], ⟨⟨0, 100⟩, [], [], [late]⟩⟩
    let t' := t.putBlock [.statement 0] (startingLate.withParams
      ([⟨"p", ⟨4, 6⟩, none⟩] ++ ⟨"X", ⟨6, 7⟩, none⟩ ::
        [⟨"q", ⟨7, 9⟩, some (.literal "1" ⟨8, 9⟩)⟩]))
    let spans (t : SyntaxTree) := (Detector.invokeExpression.check t .builtin).toOption.map
      (·.map (·.span))
    t.block? [.statement 0] = some startingLate ∧
    startingLate.params =
      [⟨"p", ⟨4, 6⟩, none⟩] ++ [⟨"q", ⟨7, 9⟩, some (.literal "1" ⟨8, 9⟩)⟩] ∧
    t.VariesAgain t' ∧
    Detector.invokeExpression.ReportsAgain .builtin t t' ∧
    spans t = some [⟨40, 46⟩] ∧
    spans t' = some [⟨30, 36⟩, ⟨40, 46⟩] := by
  intro late t t' spans
  have hblock : t.block? [.statement 0] = some startingLate := rfl
  obtain ⟨hvaries, hreports⟩ := taint_monotone t [.statement 0] startingLate
    [⟨"p", ⟨4, 6⟩, none⟩] [⟨"q", ⟨7, 9⟩, some (.literal "1" ⟨8, 9⟩)⟩] "X" ⟨6, 7⟩ hblock rfl
  exact ⟨hblock, rfl, hvaries, hreports _ List.mem_cons_self .builtin, by decide +kernel,
    by decide +kernel⟩

end ScriptTaint
