import Mathlib.Data.List.Forall2
import ScriptTaint.Proofs.BoundKeys
import ScriptTaint.Proofs.SinkShells
import ScriptTaint.Proofs.Sites

/-!
# A variable in between

Code may be given to a sink directly, or be kept in a fresh variable first. `indirection_eq_inline`
is the main statement: the call is judged alike in both cases, whatever comes before it and wherever
in a file it stands. The bindings read up to the assignment are the bindings of the whole scope in
which the code is inline (`Block.bindings_indirect`), so what is recorded of the variable is what is
known of the code.
-/

set_option autoImplicit false

namespace ScriptTaint

/-! ## The same call with another argument -/

/-- Two elements of a command that differ in spans, and in the argument if there is one. -/
inductive Element.Twin (d e : Node) : Element → Element → Prop
  | argument : Twin d e (.argument d) (.argument e)
  | switch (name : String) (s s' : Span) :
      Twin d e (.parameter name none s) (.parameter name none s')
  | bound (name : String) (s s' : Span) :
      Twin d e (.parameter name (some d) s) (.parameter name (some e) s')

/-- Two calls that differ in spans and in their only argument, which is `d` in one and `e` in the
other. A method is called on a type. -/
inductive SameCall (d e : Node) : Node → Node → Prop
  | command (name : String) (n n' s s' : Span) {elements elements' : List Element} :
      List.Forall₂ (Element.Twin d e) elements elements' →
      elements'.filterMap Element.operand? = [e] →
      SameCall d e (.command ⟨.literal name n, elements, s⟩)
        (.command ⟨.literal name n', elements', s'⟩)
  | method (type name : String) (isStatic : Bool) (y y' n n' s s' : Span) :
      SameCall d e (.invocation ⟨.typeLiteral type y, .literal name n, [d], isStatic, s⟩)
        (.invocation ⟨.typeLiteral type y', .literal name n', [e], isStatic, s'⟩)

/-- Neither argument is given, or `d` is given in one call and `e` in the other. -/
inductive Both (d e : Node) : Option Node → Option Node → Prop
  | neither : Both d e none none
  | given : Both d e (some d) (some e)

section twins
variable {d e : Node} {es es' : List Element}

theorem Both.or {x x' y y' : Option Node} (hx : Both d e x x') (hy : Both d e y y') :
    Both d e (x.or y) (x'.or y') := by
  cases hx with
  | neither => exact hy
  | given => exact .given

theorem Both.getElem? {l l' : List Node} (h : List.Forall₂ (fun a b => a = d ∧ b = e) l l')
    (i : Nat) : Both d e l[i]? l'[i]? := by
  induction h generalizing i with
  | nil => exact .neither
  | cons hab _ ih =>
    obtain ⟨rfl, rfl⟩ := hab
    cases i with
    | zero => exact .given
    | succ i => exact ih i

theorem Element.Twin.isParameter {x y : Element} (h : Element.Twin d e x y) (names : List String) :
    x.isParameter names = y.isParameter names := by
  cases h <;> rfl

theorem Element.Twin.operand? {x y : Element} (h : Element.Twin d e x y) :
    Both d e x.operand? y.operand? := by
  cases h with
  | argument => exact .given
  | switch => exact .neither
  | bound => exact .given

theorem namedIn?_twins (names : List String) (h : List.Forall₂ (Element.Twin d e) es es') :
    Both d e (Element.namedIn? names es) (Element.namedIn? names es') := by
  induction h with
  | nil => exact .neither
  | @cons x y xs ys hxy hrest ih =>
    simp only [Element.namedIn?]
    rw [hxy.isParameter names]
    by_cases hname : y.isParameter names = true
    · rw [if_pos hname, if_pos hname]
      refine hxy.operand?.or ?_
      cases hrest with
      | nil => exact .neither
      | cons hnext _ =>
        cases hnext with
        | argument => exact .given
        | switch => exact .neither
        | bound => exact .neither
    · rw [if_neg hname, if_neg hname]
      exact ih

theorem filterMap_twins {f : Element → Option Node}
    (hf : ∀ x y, Element.Twin d e x y → Both d e (f x) (f y))
    (h : List.Forall₂ (Element.Twin d e) es es') :
    List.Forall₂ (fun a b => a = d ∧ b = e) (es.filterMap f) (es'.filterMap f) := by
  induction h with
  | nil => exact .nil
  | @cons x y xs ys hxy _ ih =>
    have hboth := hf x y hxy
    rw [List.filterMap_cons, List.filterMap_cons]
    generalize f x = fx at hboth
    generalize f y = fy at hboth
    cases hboth with
    | neither => exact ih
    | given => exact .cons ⟨rfl, rfl⟩ ih

theorem CommandSink.code?_twins (sink : CommandSink)
    (h : List.Forall₂ (Element.Twin d e) es es') (n n' : Node) (s s' : Span) :
    Both d e (sink.code? ⟨n, es, s⟩) (sink.code? ⟨n', es', s'⟩) := by
  refine Both.or (namedIn?_twins sink.parameters h) ?_
  cases sink.position with
  | none => exact .neither
  | some i =>
    refine Both.getElem? (filterMap_twins (fun x y hxy => ?_) h) i
    cases hxy with
    | argument => exact .given
    | switch => exact .neither
    | bound => exact .neither

end twins

/-! ## Steps and aliases of a call -/

/-- A node without parts that binds nothing and defines no alias. -/
def Node.IsLeaf : Node → Prop
  | .literal .. | .typeLiteral .. => True
  | _ => False

/-- The aliases that a node and what is inside it define. -/
def Node.definitions (r : SinkRegistry) (n : Node) (frame : Frame) : List (String × String) :=
  (n.visits frame).filterMap (·.aliasDefinition? r)

namespace Node

variable {r : SinkRegistry} {a : Aliases} {n : Node}

theorem definitions_frame (frame frame' : Frame) :
    n.definitions r frame = n.definitions r frame' := by
  have hmap : (n.visits frame).map (·.aliasDefinition? r) =
      (n.visits frame').map (·.aliasDefinition? r) :=
    n.map_visits_congr _ fun m => by cases m <;> rfl
  have hfilter (f : Visit → Option (String × String)) (vs : List Visit) :
      vs.filterMap f = (vs.map f).filterMap id := by
    rw [List.filterMap_map]
    rfl
  unfold definitions
  rw [hfilter, hmap, ← hfilter]

theorem definitions_children (h : n.block? = none) (frame : Frame) :
    n.definitions r frame =
      (Visit.aliasDefinition? r (.node frame n)).toList ++
        n.children.flatMap (·.definitions r frame) := by
  unfold definitions
  rw [visits_children h, List.filterMap_cons, List.filterMap_flatMap]
  cases Visit.aliasDefinition? r (.node frame n) <;> rfl

theorem IsLeaf.steps_eq (h : n.IsLeaf) : n.steps = [] := by
  cases n with
  | literal | typeLiteral =>
    rw [steps_passive rfl]
    rfl
  | _ => exact h.elim

theorem IsLeaf.definitions_eq (h : n.IsLeaf) {frame : Frame} : n.definitions r frame = [] := by
  cases n with
  | literal | typeLiteral =>
    rw [definitions_children rfl]
    rfl
  | _ => exact h.elim

end Node

/-- A registered name keeps its meaning, whatever aliases are defined. -/
theorem SinkRegistry.resolve?_of_empty {r : SinkRegistry} {written : String} {sink : CommandSink}
    (h : r.resolve? .empty written = some sink) (a : Aliases) :
    r.resolve? a written = some sink := by
  unfold resolve? at h ⊢
  rw [follow?] at h ⊢
  cases hnamed : r.named? (commandName written) with
  | some s =>
    rw [hnamed] at h
    exact h
  | none =>
    rw [hnamed] at h
    cases h

/-- A command that gives code to a sink defines no alias. -/
theorem Command.aliasDefinition?_of_runs {r : SinkRegistry} {a : Aliases} {c : Command}
    {k : SinkCall} (h : c.Runs r a k) : c.aliasDefinition? r = none := by
  have resolved {written : String} {sink : CommandSink} (hname : c.name? = some written)
      (hsink : r.resolve? a written = some sink) (hcat : sink.category ≠ .aliasDefinition) :
      c.aliasDefinition? r = none := by
    unfold aliasDefinition? SinkRegistry.commandSink?
    rw [hname, Option.bind_some]
    cases hempty : r.resolve? .empty written with
    | none => rfl
    | some s =>
      have hs := SinkRegistry.resolve?_of_empty hempty a
      obtain rfl : s = sink := Option.some.inj (hs.symm.trans hsink)
      simp only [Option.bind_eq_bind, Option.bind_some, if_neg hcat]
  cases h with
  | code hname hsink hcat _ =>
    refine resolved hname hsink fun halias => ?_
    rw [halias] at hcat
    simp at hcat
  | interpreter hname hsink hcat _ _ => exact resolved hname hsink (by simp [hcat])
  | launcher hname hsink hcat _ _ _ _ _ _ => exact resolved hname hsink (by simp [hcat])

theorem Node.aliasDefinition?_of_sinkCalls {r : SinkRegistry} {a : Aliases} {n : Node}
    (h : n.sinkCalls r a ≠ []) {frame : Frame} :
    Visit.aliasDefinition? r (.node frame n) = none := by
  cases n with
  | command c =>
    cases hc : c.sinkCall? r a with
    | none => simp [sinkCalls, hc] at h
    | some k => exact Command.aliasDefinition?_of_runs (Command.sinkCall?_eq_some.1 hc)
  | _ => rfl

namespace SameCall

variable {d e n m : Node} (h : SameCall d e n m)

include h

/-- A call is judged by its argument. If one of the calls gives code to a sink, so does the other,
and the code is the argument. -/
theorem sinkCalls_eq {r : SinkRegistry} {a : Aliases} {k : SinkCall} (hk : k ∈ m.sinkCalls r a)
    (hkind : k.category ∈ [.dynamicEvaluation, .typeDefinition, .perItemOperator] ∨
      ∃ i, m = .invocation i) :
    m.sinkCalls r a = [⟨k.category, k.sink, m.span, [e]⟩] ∧
      n.sinkCalls r a = [⟨k.category, k.sink, n.span, [d]⟩] := by
  cases h with
  | @command name p p' s s' elements elements' htwins honly =>
    have hk' := Command.sinkCall?_eq_some.1 (Option.mem_toList.1 hk)
    have hcode : k.category ∈ [.dynamicEvaluation, .typeDefinition, .perItemOperator] := by
      refine hkind.resolve_right ?_
      rintro ⟨i, hi⟩
      cases hi
    cases hk' with
    | @code written sink code hname hsink hcat hc =>
      obtain rfl : name = written := Option.some.inj hname
      have hboth := sink.code?_twins htwins (.literal name p) (.literal name p') s s'
      rw [hc] at hboth
      generalize hd : sink.code? ⟨.literal name p, elements, s⟩ = code? at hboth
      cases hboth with
      | given =>
        have hn : Command.sinkCall? r a ⟨.literal name p, elements, s⟩ =
            some ⟨sink.category, name, s, [d]⟩ :=
          Command.sinkCall?_eq_some.2 (.code rfl hsink hcat hd)
        have hm : Command.sinkCall? r a ⟨.literal name p', elements', s'⟩ =
            some ⟨sink.category, name, s', [e]⟩ :=
          Command.sinkCall?_eq_some.2 (.code rfl hsink hcat hc)
        simp only [Node.sinkCalls, hn, hm, Option.toList_some, Node.span, and_self]
    | interpreter => simp at hcode
    | launcher => simp at hcode
  | method type name isStatic y y' p p' s s' =>
    obtain ⟨written, sink, code, hname, hsink, hcode, rfl⟩ :=
      Invocation.sinkCall?_eq_some.1 (Option.mem_toList.1 hk)
    obtain rfl : name = written := Option.some.inj hname
    have hzero : sink.position = 0 := by
      have hlt := (List.getElem?_eq_some_iff.1 hcode).1
      simpa using hlt
    have hsink' : r.methodSink? ⟨.typeLiteral type y, .literal name p, [d], isStatic, s⟩ =
        some sink := hsink
    have hn : Invocation.sinkCall? r ⟨.typeLiteral type y, .literal name p, [d], isStatic, s⟩ =
        some ⟨sink.category, name, s, [d]⟩ :=
      Invocation.sinkCall?_eq_some.2 ⟨name, sink, d, rfl, hsink', by rw [hzero]; rfl, rfl⟩
    have hm : Invocation.sinkCall? r ⟨.typeLiteral type y', .literal name p', [e], isStatic, s'⟩ =
        some ⟨sink.category, name, s', [e]⟩ :=
      Invocation.sinkCall?_eq_some.2 ⟨name, sink, e, rfl, hsink, by rw [hzero]; rfl, rfl⟩
    simp only [Node.sinkCalls, hn, hm, Option.toList_some, Node.span, and_self]

theorem children_eq : (∃ heads : List Node, n.children = heads ++ [d] ∧ ∀ c ∈ heads, c.IsLeaf) ∧
    ∃ heads : List Node, m.children = heads ++ [e] ∧ ∀ c ∈ heads, c.IsLeaf := by
  cases h with
  | @command name p p' s s' elements elements' htwins honly =>
    have honly' : elements.filterMap Element.operand? = [d] := by
      have hoperands := filterMap_twins (fun x y hxy => hxy.operand?) htwins
      rw [honly] at hoperands
      generalize elements.filterMap Element.operand? = operands at hoperands
      cases hoperands with
      | cons hd hnil =>
        cases hnil with
        | nil => rw [hd.1]
    refine ⟨⟨[.literal name p], ?_, by simp [Node.IsLeaf]⟩, [.literal name p'], ?_,
      by simp [Node.IsLeaf]⟩
    · simp only [Node.children, honly', List.singleton_append]
    · simp only [Node.children, honly, List.singleton_append]
  | method type name isStatic y y' p p' s s' =>
    exact ⟨⟨[.typeLiteral type y, .literal name p], rfl, by simp [Node.IsLeaf]⟩,
      [.typeLiteral type y', .literal name p'], rfl, by simp [Node.IsLeaf]⟩

theorem isPassive_eq : n.isPassive = true ∧ m.isPassive = true := by
  cases h <;> exact ⟨rfl, rfl⟩

theorem block?_eq : n.block? = none ∧ m.block? = none := by
  cases h <;> exact ⟨rfl, rfl⟩

/-- The steps of a call are those of its argument. -/
theorem steps_eq : n.steps = d.steps ∧ m.steps = e.steps := by
  obtain ⟨⟨heads, hn, hleaf⟩, heads', hm, hleaf'⟩ := h.children_eq
  have hpassive := h.isPassive_eq
  have hnil (cs : List Node) (hcs : ∀ c ∈ cs, c.IsLeaf) : cs.flatMap Node.steps = [] :=
    List.flatMap_eq_nil_iff.2 fun c hc => (hcs c hc).steps_eq
  constructor
  · rw [Node.steps_passive hpassive.1, hn, List.flatMap_append, hnil heads hleaf,
      List.flatMap_singleton, List.nil_append]
  · rw [Node.steps_passive hpassive.2, hm, List.flatMap_append, hnil heads' hleaf',
      List.flatMap_singleton, List.nil_append]

/-- The aliases that a call of a sink defines are those that its argument defines. -/
theorem definitions_eq {r : SinkRegistry} {a : Aliases} (hn : n.sinkCalls r a ≠ [])
    (hm : m.sinkCalls r a ≠ []) (frame : Frame) :
    n.definitions r frame = d.definitions r frame ∧
      m.definitions r frame = e.definitions r frame := by
  obtain ⟨⟨heads, hnc, hleaf⟩, heads', hmc, hleaf'⟩ := h.children_eq
  have hblock := h.block?_eq
  have hnil (cs : List Node) (hcs : ∀ c ∈ cs, c.IsLeaf) :
      cs.flatMap (·.definitions r frame) = [] :=
    List.flatMap_eq_nil_iff.2 fun c hc => (hcs c hc).definitions_eq
  constructor
  · rw [Node.definitions_children hblock.1, Node.aliasDefinition?_of_sinkCalls hn, hnc,
      List.flatMap_append, hnil heads hleaf, List.flatMap_singleton]
    rfl
  · rw [Node.definitions_children hblock.2, Node.aliasDefinition?_of_sinkCalls hm, hmc,
      List.flatMap_append, hnil heads' hleaf', List.flatMap_singleton]
    rfl

end SameCall

/-! ## The bindings of both scopes -/

/-- The block with further statements at its end. -/
def Block.append (b : Block) (ns : List Node) : Block := { b with statements := b.statements ++ ns }

theorem Block.bindings_append (b : Block) (ns : List Node) :
    (b.append ns).bindings = b.bindings.run (ns.flatMap Node.steps) := by
  have hsteps : (b.append ns).steps = b.steps ++ ns.flatMap Node.steps := by
    rw [steps_eq, steps_eq, append, List.flatMap_append, List.append_assoc]
    rfl
  rw [bindings_eq, bindings_eq, hsteps, Bindings.run_append]

/-- A variable of the scope that has no fixed value, and that the block does not bind. -/
structure Variable.FreshIn (x : Variable) (b : Block) : Prop where
  unqualified : x.isQualified = false
  notAutomatic : x.isAutomatic = false
  notParameter : ∀ p ∈ b.params, Text.lower p.name ≠ x.key
  notAssigned : x.key ∉ b.statements.flatMap Node.assigned

/-- A step binds what the node assigns, or a variable of another scope. -/
theorem Node.mem_keys_steps {n : Node} {s : Step} {k : String} (hs : s ∈ n.steps)
    (hk : k ∈ s.keys) :
    k ∈ n.assigned ∨ k.toList.contains ':' = true := by
  obtain ⟨m, hm, hk⟩ := mem_keys_steps_iff.1 (List.mem_flatMap.2 ⟨s, hs, hk⟩)
  rcases mem_keys_ownSteps.1 hk with hk | ⟨v, hv, rfl⟩
  · exact .inl (mem_assigned_of_recordsHere hm hk)
  · cases hq : v.isQualified with
    | true => exact .inr hq
    | false => exact .inl (mem_assigned_of_recordsHere hm (mem_recordsHere_of_item hv hq))

section fresh
variable {x use : Variable} {b : Block} {e : Node}

theorem Variable.FreshIn.history_eq (h : x.FreshIn b) (he : x.key ∉ e.assigned) :
    (b.bindings.run e.steps).history x.key = [] := by
  have hcolon : ¬ x.key.toList.contains ':' = true := by
    have := h.unqualified
    unfold isQualified at this
    rw [this]
    exact Bool.false_ne_true
  have hblock : ∀ s ∈ b.steps, x.key ∉ s.keys := by
    intro s hs hk
    rw [Block.steps_eq, List.mem_append] at hs
    rcases hs with hs | hs
    · obtain ⟨p, hp, rfl⟩ := List.mem_map.1 hs
      exact h.notParameter p hp (List.mem_singleton.1 hk).symm
    · obtain ⟨n, hn, hs⟩ := List.mem_flatMap.1 hs
      rcases Node.mem_keys_steps hs hk with hassigned | hqualified
      · exact h.notAssigned (List.mem_flatMap.2 ⟨n, hn, hassigned⟩)
      · exact hcolon hqualified
  have hvalue : ∀ s ∈ e.steps, x.key ∉ s.keys := by
    intro s hs hk
    rcases Node.mem_keys_steps hs hk with hassigned | hqualified
    · exact he hassigned
    · exact hcolon hqualified
  rw [Bindings.history_run_of_not_mem hvalue, Block.bindings_eq,
    Bindings.history_run_of_not_mem hblock, Bindings.history_empty]

/-- Where the code is kept in a fresh variable, the scope binds what the scope with the code inline
binds, and the variable to what is known there of the code. -/
theorem Block.bindings_indirect {call₁ call₂ : Node}
    (hcall : SameCall (.reference use) e call₁ call₂) (hq : x.isQualified = false) (s : Span) :
    (b.append [.assignment (.reference x) e .assign s, call₁]).bindings =
      (b.append [call₂]).bindings.record x.key s.stop
        ⟨e.constancy (b.append [call₂]).bindings,
          e.carriesEscaped (b.append [call₂]).bindings⟩ := by
  have huse : (Node.reference use).steps = [] := by rw [Node.steps_passive rfl]; rfl
  have hsteps : [.assignment (.reference x) e .assign s, call₁].flatMap Node.steps =
      e.steps ++ [.assign (.reference x) e .assign s.stop] := by
    simp only [List.flatMap_cons, List.flatMap_nil, Node.steps_assignment, hcall.steps_eq.1, huse,
      List.append_nil]
  have hinline : (b.append [call₂]).bindings = b.bindings.run e.steps := by
    rw [bindings_append, List.flatMap_singleton, hcall.steps_eq.2]
  rw [bindings_append, hsteps, Bindings.run_append, hinline, Bindings.run_cons, Bindings.run_nil,
    Bindings.step_reference _ hq]

/-- A use behind the only record of a variable sees it. -/
theorem Bindings.binding?_record {b : Bindings} {since : UInt32} {binding : Binding}
    (hq : use.isQualified = false) (hfresh : b.history use.key = [])
    (hsince : since ≤ use.span.start) :
    (b.record use.key since binding).binding? use = some binding := by
  unfold binding? bindingAt?
  rw [hq, history_record_self, hfresh, History.record_eq, History.next_nil]
  exact History.bindingAt?_of_le (by simpa using hsince)

theorem Node.constancy_of_binding? {b : Bindings} {binding : Binding}
    (hautomatic : use.isAutomatic = false) (h : b.binding? use = some binding) :
    (Node.reference use).constancy b = binding.constancy := by
  rw [constancy.eq_def]
  simp only [hautomatic, Bool.false_eq_true, if_false, Bindings.constancy, h, Option.map_some,
    Option.getD_some]

theorem Node.carriesEscaped_of_binding? {b : Bindings} {binding : Binding}
    (h : b.binding? use = some binding) :
    (Node.reference use).carriesEscaped b = binding.escaped := by
  unfold carriesEscaped
  rw [within_eq]
  simp only [children, List.flatMap_nil, List.any_cons, List.any_nil, Bool.or_false, isEscapedHere,
    escapedOperand?, Option.any_none, Bool.false_or, Bindings.isEscaped, h, Option.any_some]

end fresh

/-! ## Both files -/

section files
variable {r : SinkRegistry} {t : SyntaxTree} {path : List Slot} {B F F' : Block}

theorem filterMap_shell_aliasDefinition? (vs : List Visit) :
    (vs.map Visit.shell).filterMap (·.aliasDefinition? r) =
      vs.filterMap (·.aliasDefinition? r) := by
  rw [List.filterMap_map]
  exact List.filterMap_congr fun v _ => v.aliasDefinition?_shell r

theorem Block.filterMap_visits (b : Block) : b.visits.filterMap (·.aliasDefinition? r) =
    b.nodes.flatMap (·.definitions r b.frame) := by
  rw [visits_eq, List.filterMap_cons, List.filterMap_flatMap]
  rfl

/-- Two blocks that define the same aliases in one place of a file give it the same aliases. -/
theorem SyntaxTree.aliases_putBlock (hB : t.block? path = some B) (hF : F.span = B.span)
    (hF' : F'.span = B.span)
    (h : F.nodes.flatMap (·.definitions r F.frame) = F'.nodes.flatMap (·.definitions r F'.frame)) :
    (t.putBlock path F).aliases r = (t.putBlock path F').aliases r := by
  obtain ⟨before, after, hwalk⟩ := visits_putBlock hB
  have hdefinitions (G : Block) (hG : G.span = B.span) :
      (t.putBlock path G).visits.filterMap (·.aliasDefinition? r) =
        before.filterMap (·.aliasDefinition? r) ++ G.nodes.flatMap (·.definitions r G.frame) ++
          after.filterMap (·.aliasDefinition? r) := by
    rw [← filterMap_shell_aliasDefinition?, hwalk G hG, List.filterMap_append,
      List.filterMap_append, filterMap_shell_aliasDefinition?, Block.filterMap_visits]
  unfold aliases
  rw [hdefinitions F hF, hdefinitions F' hF', h]

/-- The code defines the same aliases in the assignment and in the call. -/
theorem Block.definitions_indirect {x use : Variable} {e call₁ call₂ : Node} {s : Span}
    {a : Aliases} (hcall : SameCall (.reference use) e call₁ call₂)
    (h₁ : call₁.sinkCalls r a ≠ []) (h₂ : call₂.sinkCalls r a ≠ []) (frame frame' : Frame) :
    (B.append [.assignment (.reference x) e .assign s, call₁]).nodes.flatMap
        (·.definitions r frame) =
      (B.append [call₂]).nodes.flatMap (·.definitions r frame') := by
  have hreference (v : Variable) : (Node.reference v).definitions r frame' = [] := by
    rw [Node.definitions_children rfl]
    rfl
  have hassignment : (Node.assignment (.reference x) e .assign s).definitions r frame' =
      e.definitions r frame' := by
    rw [Node.definitions_children rfl]
    simp only [Visit.aliasDefinition?, Option.toList_none, List.nil_append, Node.children,
      List.flatMap_cons, List.flatMap_nil, hreference, List.append_nil]
  obtain ⟨hfirst, hsecond⟩ := hcall.definitions_eq h₁ h₂ frame'
  rw [List.flatMap_congr fun n _ => n.definitions_frame frame frame']
  simp only [nodes, append, List.flatMap_append, List.flatMap_cons, List.flatMap_nil, hassignment,
    hfirst, hsecond, hreference, List.append_nil]

end files

/-- What the use of the variable sees is what is known of the code where it is inline. -/
theorem Variable.FreshIn.binding?_indirect {B : Block} {x use : Variable} {e call₁ call₂ : Node}
    {s : Span} (hfresh : x.FreshIn B) (he : x.key ∉ e.assigned) (huse : use.key = x.key)
    (hlater : s.stop ≤ use.span.start) (hcall : SameCall (.reference use) e call₁ call₂) :
    (B.append [.assignment (.reference x) e .assign s, call₁]).bindings.binding? use =
      some ⟨e.constancy (B.append [call₂]).bindings,
        e.carriesEscaped (B.append [call₂]).bindings⟩ := by
  have hhistory : (B.append [call₂]).bindings.history use.key = [] := by
    rw [Block.bindings_append, List.flatMap_singleton, hcall.steps_eq.2, huse]
    exact hfresh.history_eq he
  have hq : use.isQualified = false := by
    unfold Variable.isQualified
    rw [huse]
    exact hfresh.unqualified
  rw [Block.bindings_indirect hcall hfresh.unqualified, ← huse]
  exact Bindings.binding?_record hq hhistory hlater

/-- **Indirection is equivalent to inlining.** Take a block with its statements anywhere in a file,
an expression `e` and a variable `x` that neither the block nor `e` binds. Behind the statements,
give `e` to a sink as the only argument of a call, or assign it to `x` and give `x` to the same sink
later on. Either way the call is one code site of the file, and both sites have the same category and
the same flags. The sink runs its argument as code: it evaluates it, compiles it or applies it to
each item, or it is a method. -/
theorem indirection_eq_inline (r : SinkRegistry) (t : SyntaxTree) (path : List Slot) (B : Block)
    (x use : Variable) (e call₁ call₂ : Node) (s : Span) (hB : t.block? path = some B)
    (hfresh : x.FreshIn B) (he : x.key ∉ e.assigned) (huse : use.key = x.key)
    (hlater : s.stop ≤ use.span.start) (hcall : SameCall (.reference use) e call₁ call₂)
    (hsink : ∃ k ∈ call₂.sinkCalls r ((t.putBlock path (B.append [call₂])).aliases r),
      k.category ∈ [.dynamicEvaluation, .typeDefinition, .perItemOperator] ∨
        ∃ i, call₂ = .invocation i) :
    let t₁ := t.putBlock path (B.append [.assignment (.reference x) e .assign s, call₁])
    let t₂ := t.putBlock path (B.append [call₂])
    ∃ s₁ s₂,
      t₁.sitesAt r (path ++ [.statement (B.statements.length + 1)]) = [s₁] ∧ s₁ ∈ t₁.codeSites r ∧
      t₂.sitesAt r (path ++ [.statement B.statements.length]) = [s₂] ∧ s₂ ∈ t₂.codeSites r ∧
      s₁.category = s₂.category ∧ s₁.tainted = s₂.tainted ∧ s₁.escaped = s₂.escaped := by
  intro t₁ t₂
  obtain ⟨k, hk, hkind⟩ := hsink
  obtain ⟨hcalls₂, hcalls₁⟩ := hcall.sinkCalls_eq hk hkind
  have haliases : t₁.aliases r = t₂.aliases r :=
    SyntaxTree.aliases_putBlock hB rfl rfl
      (Block.definitions_indirect hcall (hcalls₁ ▸ List.cons_ne_nil _ _)
        (hcalls₂ ▸ List.cons_ne_nil _ _) _ _)
  have hfind₁ : t₁.find? (path ++ [.statement (B.statements.length + 1)]) =
      some (B.append [.assignment (.reference x) e .assign s, call₁], call₁) :=
    SyntaxTree.find?_of_block? (Block.blockAt?_putBlock hB) (by simp [Block.at?, Block.append])
  have hfind₂ : t₂.find? (path ++ [.statement B.statements.length]) =
      some (B.append [call₂], call₂) :=
    SyntaxTree.find?_of_block? (Block.blockAt?_putBlock hB) (by simp [Block.at?, Block.append])
  have hseen := hfresh.binding?_indirect he huse hlater hcall
  have hautomatic : use.isAutomatic = false := by
    unfold Variable.isAutomatic
    rw [huse]
    exact hfresh.notAutomatic
  have hsites₁ := SyntaxTree.sitesAt_of_find? (r := r) hfind₁
  have hsites₂ := SyntaxTree.sitesAt_of_find? (r := r) hfind₂
  rw [haliases, hcalls₁, List.map_singleton] at hsites₁
  rw [hcalls₂, List.map_singleton] at hsites₂
  refine ⟨_, _, hsites₁, ?_, hsites₂, ?_, rfl, ?_, ?_⟩
  · exact SyntaxTree.mem_codeSites_of_sitesAt (hsites₁ ▸ List.mem_singleton_self _)
  · exact SyntaxTree.mem_codeSites_of_sitesAt (hsites₂ ▸ List.mem_singleton_self _)
  · simp only [SinkCall.site, List.any_cons, List.any_nil,
      Node.constancy_of_binding? hautomatic hseen]
  · simp only [SinkCall.site, List.any_cons, List.any_nil, Node.carriesEscaped_of_binding? hseen]

/-- A body that escapes the quotes in its parameter. -/
def quotedInput : Block :=
  { span := ⟨20, 120⟩, params := [⟨"p", ⟨27, 29⟩, none⟩], annotations := []
    statements :=
      [.assignment (.reference ⟨"q", ⟨31, 33⟩⟩)
        (.binary .replace (.reference ⟨"p", ⟨36, 38⟩⟩)
          (.arrayLiteral [.literal "'" ⟨48, 51⟩, .literal "''" ⟨53, 57⟩] ⟨48, 57⟩) ⟨36, 57⟩)
        .assign ⟨31, 57⟩] }

/-- A file with a function of that body. -/
def quotedInputFile : SyntaxTree where
  path := "item.ps1"
  lineStarts := [0]
  root :=
    { span := ⟨0, 120⟩, params := [], annotations := []
      statements := [.function "Find-Item" ⟨0, 120⟩ quotedInput] }

/-- Code around the escaped parameter. -/
def quotedCode : Node := .expandable "Get-Item '$q'" [.reference ⟨"q", ⟨75, 77⟩⟩] ⟨65, 79⟩

/-- The call of `Invoke-Expression -Verbose -Command` from `start` on. -/
def evaluation (start : UInt32) (code : Node) : Node :=
  .command
    { name := .literal "Invoke-Expression" ⟨start, start + 1⟩
      elements :=
        [.parameter "Verbose" none ⟨start + 2, start + 3⟩,
         .parameter "Command" (some code) ⟨start + 4, start + 30⟩]
      span := ⟨start, start + 30⟩ }

theorem indirection_eq_inline_quotedInput :
    let t₁ := quotedInputFile.putBlock [.statement 0] (quotedInput.append
      [.assignment (.reference ⟨"code", ⟨58, 63⟩⟩) quotedCode .assign ⟨58, 79⟩,
       evaluation 80 (.reference ⟨"Code", ⟨90, 95⟩⟩)])
    let t₂ := quotedInputFile.putBlock [.statement 0]
      (quotedInput.append [evaluation 60 quotedCode])
    t₂.sitesAt .builtin [.statement 0, .statement 1] =
      [⟨.dynamicEvaluation, "Invoke-Expression", ⟨60, 90⟩, true, true⟩] ∧
    ∃ s₁ s₂,
      t₁.sitesAt .builtin [.statement 0, .statement 2] = [s₁] ∧ s₁ ∈ t₁.codeSites .builtin ∧
      t₂.sitesAt .builtin [.statement 0, .statement 1] = [s₂] ∧ s₂ ∈ t₂.codeSites .builtin ∧
      s₁.category = s₂.category ∧ s₁.tainted = s₂.tainted ∧ s₁.escaped = s₂.escaped := by
  have hsink : ((evaluation 60 quotedCode).sinkCalls .builtin
      ((quotedInputFile.putBlock [.statement 0]
        (quotedInput.append [evaluation 60 quotedCode])).aliases .builtin)).any
      (·.category ∈ [.dynamicEvaluation, .typeDefinition, .perItemOperator]) = true := by
    decide +kernel
  obtain ⟨k, hk, hkind⟩ := List.any_eq_true.1 hsink
  refine ⟨by decide +kernel, ?_⟩
  refine indirection_eq_inline .builtin quotedInputFile [.statement 0] quotedInput
    ⟨"code", ⟨58, 63⟩⟩ ⟨"Code", ⟨90, 95⟩⟩ quotedCode (evaluation 80 (.reference ⟨"Code", ⟨90, 95⟩⟩))
    (evaluation 60 quotedCode) ⟨58, 79⟩ rfl ?_ (by decide +kernel) (by decide +kernel) (by decide)
    ?_ ⟨k, hk, .inl (of_decide_eq_true hkind)⟩
  · exact ⟨by decide +kernel, by decide +kernel, by decide +kernel, by decide +kernel⟩
  · exact .command "Invoke-Expression" _ _ _ _
      (.cons (.switch "Verbose" _ _) (.cons (.bound "Command" _ _) .nil)) rfl

end ScriptTaint
