import Mathlib.Data.List.Forall2
import ScriptTaint.Proofs.Positions
import ScriptTaint.Sink.Site

/-!
# Every sink, once

`Occurrence.IsSink` says, without regard to any walk, what is a call of a sink at a position of a
file and what code the call runs. `sink_coverage` is the main statement: the code sites of a file
are the calls of sinks in it, one site for each, and no position has two. That a command which
evaluates what the pipeline feeds it is not also a site by itself rests on
`Command.sinkCall?_of_pipedCall?`.
-/

set_option autoImplicit false

namespace ScriptTaint

/-- A call of a sink at the position of the called command or method. -/
structure Occurrence where
  path : List Slot
  scope : Block
  call : SinkCall

section
variable (r : SinkRegistry) (a : Aliases)

/-- A command runs what it is given as an argument. -/
inductive Command.Runs (c : Command) : SinkCall → Prop
  | code {written : String} {sink : CommandSink} {code : Node} :
      c.name? = some written → r.resolve? a written = some sink →
      sink.category ∈ [.dynamicEvaluation, .typeDefinition, .perItemOperator] →
      sink.code? c = some code →
      Runs c ⟨sink.category, written, c.span, [code]⟩
  | interpreter {written : String} {sink : CommandSink} {line : List Node} :
      c.name? = some written → r.resolve? a written = some sink →
      sink.category = .externalInterpreter →
      line = commandLine (c.elements.flatMap Element.tokens) → line ≠ [] →
      Runs c ⟨.externalInterpreter, written, c.span, line⟩
  | launcher {written program : String} {sink : CommandSink} {file arguments : Node}
      {line : List Node} :
      c.name? = some written → r.resolve? a written = some sink →
      sink.category = .processLauncher →
      c.argument? ["FilePath"] (some 0) = some file → file.literal? = some program →
      r.isInterpreter program = true → sink.code? c = some arguments →
      line = commandLine arguments.tokens → line ≠ [] →
      Runs c ⟨.externalInterpreter, program, c.span, line⟩

end

/-- The calls of sinks in a file. -/
inductive Occurrence.IsSink (t : SyntaxTree) (r : SinkRegistry) : Occurrence → Prop
  | command {path : List Slot} {scope : Block} {c : Command} {call : SinkCall} :
      t.find? path = some (scope, .command c) → c.Runs r (t.aliases r) call →
      IsSink t r ⟨path, scope, call⟩
  /-- A command behind another element of a pipeline that has no code of its own. -/
  | piped {path : List Slot} {scope : Block} {elements : List Node} {span : Span} {i : Nat}
      {feed : Node} {c : Command} {written : String} {sink : CommandSink} :
      t.find? path = some (scope, .pipeline elements span) →
      elements[i]? = some feed → elements[i + 1]? = some (.command c) →
      c.name? = some written → r.resolve? (t.aliases r) written = some sink →
      sink.category = .dynamicEvaluation → sink.code? c = none →
      IsSink t r ⟨path ++ [.element (i + 1)], scope, ⟨.dynamicEvaluation, written, c.span, [feed]⟩⟩
  | method {path : List Slot} {scope : Block} {i : Invocation} {written : String}
      {sink : MethodSink} {code : Node} :
      t.find? path = some (scope, .invocation i) →
      i.name? = some written → r.methodSink? i = some sink →
      i.arguments[sink.position]? = some code →
      IsSink t r ⟨path, scope, ⟨sink.category, written, i.span, [code]⟩⟩

/-! ## What a command runs -/

section
variable {r : SinkRegistry} {a : Aliases} {c : Command} {call : SinkCall}

theorem Command.lineCall?_eq_some {sink : String} {tokens : List Token} :
    c.lineCall? sink tokens = some call ↔
      commandLine tokens ≠ [] ∧
        call = ⟨.externalInterpreter, sink, c.span, commandLine tokens⟩ := by
  by_cases h : commandLine tokens = []
  · simp [lineCall?, h]
  · simp [lineCall?, h, eq_comm (a := call)]

theorem Command.launched?_eq_some {program : String} :
    c.launched? r = some program ↔
      ∃ file, c.argument? ["FilePath"] (some 0) = some file ∧ file.literal? = some program ∧
        r.isInterpreter program = true := by
  simp only [launched?, Option.filter_eq_some_iff, Option.bind_eq_some_iff]
  constructor
  · rintro ⟨⟨file, hf, hl⟩, hi⟩
    exact ⟨file, hf, hl, hi⟩
  · rintro ⟨file, hf, hl, hi⟩
    exact ⟨⟨file, hf, hl⟩, hi⟩

theorem Command.sinkCall?_eq_some : c.sinkCall? r a = some call ↔ c.Runs r a call := by
  constructor
  · intro h
    obtain ⟨written, hw, h⟩ := Option.bind_eq_some_iff.1 h
    obtain ⟨sink, hs, h⟩ := Option.bind_eq_some_iff.1 h
    cases hcat : sink.category with
    | dynamicEvaluation | typeDefinition | perItemOperator =>
      simp only [hcat] at h
      obtain ⟨code, hc, h⟩ := Option.bind_eq_some_iff.1 h
      obtain rfl := Option.some.inj h
      rw [← hcat]
      exact .code hw hs (by simp [hcat]) hc
    | externalInterpreter =>
      simp only [hcat] at h
      obtain ⟨hne, rfl⟩ := lineCall?_eq_some.1 h
      exact .interpreter hw hs hcat rfl hne
    | processLauncher =>
      simp only [hcat] at h
      obtain ⟨program, hp, h⟩ := Option.bind_eq_some_iff.1 h
      obtain ⟨arguments, ha, h⟩ := Option.bind_eq_some_iff.1 h
      obtain ⟨file, hf, hl, hi⟩ := launched?_eq_some.1 hp
      obtain ⟨hne, rfl⟩ := lineCall?_eq_some.1 h
      exact .launcher hw hs hcat hf hl hi ha rfl hne
    | reflectiveMethod | aliasDefinition => simp [hcat] at h
  · intro h
    cases h with
    | code hw hs hcat hc =>
      simp only [List.mem_cons, List.not_mem_nil, or_false] at hcat
      rcases hcat with hcat | hcat | hcat <;> simp [sinkCall?, hw, hs, hcat, hc]
    | interpreter hw hs hcat hline hne =>
      subst hline
      simp [sinkCall?, hw, hs, hcat, lineCall?_eq_some, hne]
    | launcher hw hs hcat hf hl hi hc hline hne =>
      subst hline
      have hp := launched?_eq_some.2 ⟨_, hf, hl, hi⟩
      simp [sinkCall?, hw, hs, hcat, hp, hc, lineCall?_eq_some, hne]

theorem Command.pipedCall?_eq_some {feed : Node} :
    c.pipedCall? r a feed = some call ↔
      ∃ written sink, c.name? = some written ∧ r.resolve? a written = some sink ∧
        sink.category = .dynamicEvaluation ∧ sink.code? c = none ∧
        call = ⟨.dynamicEvaluation, written, c.span, [feed]⟩ := by
  constructor
  · intro h
    obtain ⟨written, hw, h⟩ := Option.bind_eq_some_iff.1 h
    obtain ⟨sink, hs, h⟩ := Option.bind_eq_some_iff.1 h
    split at h
    · rename_i hcond
      obtain rfl := Option.some.inj h
      exact ⟨written, sink, hw, hs, hcond.1, Option.isNone_iff_eq_none.1 hcond.2, rfl⟩
    · cases h
  · rintro ⟨written, sink, hw, hs, hcat, hc, rfl⟩
    simp [pipedCall?, hw, hs, hcat, hc]

theorem Invocation.sinkCall?_eq_some {i : Invocation} :
    i.sinkCall? r = some call ↔
      ∃ written sink code, i.name? = some written ∧ r.methodSink? i = some sink ∧
        i.arguments[sink.position]? = some code ∧
        call = ⟨sink.category, written, i.span, [code]⟩ := by
  simp only [sinkCall?, Option.bind_eq_bind, Option.bind_eq_some_iff, Option.pure_def,
    Option.some.injEq]
  constructor
  · rintro ⟨written, hw, sink, hs, code, hc, rfl⟩
    exact ⟨written, sink, code, hw, hs, hc, rfl⟩
  · rintro ⟨written, sink, code, hw, hs, hc, rfl⟩
    exact ⟨written, hw, sink, hs, code, hc, rfl⟩

/-- A command that evaluates what it is fed has no code of its own to run. -/
theorem Command.sinkCall?_of_pipedCall? {feed : Node} (h : c.pipedCall? r a feed = some call) :
    c.sinkCall? r a = none := by
  obtain ⟨written, sink, hw, hs, hcat, hc, -⟩ := pipedCall?_eq_some.1 h
  simp [sinkCall?, hw, hs, hcat, hc]

end

/-! ## The calls at a position -/

section
variable (r : SinkRegistry) (a : Aliases)

/-- The call that the node makes with its own arguments. -/
def Node.ownCall? : Node → Option SinkCall
  | .command c => c.sinkCall? r a
  | .invocation i => i.sinkCall? r
  | _ => none

/-- The call that an element of a pipeline makes with the one before it. -/
def pipedCall? : Node × Node → Option SinkCall
  | (feed, .command c) => c.pipedCall? r a feed
  | _ => none

/-- The calls of sinks that the walk finds at a position. Those in a pipeline are made by its
elements. -/
def Position.calls (q : Position) : List Occurrence :=
  match q.node with
  | .pipeline elements _ =>
    (elements.zip elements.tail).zipIdx.filterMap fun (p, i) =>
      (pipedCall? r a p).map (⟨q.path ++ [.element (i + 1)], q.scope, ·⟩)
  | n => (n.ownCall? r a).toList.map (⟨q.path, q.scope, ·⟩)

/-- A call at a position is made by its node, or by an element of it that is fed by the one
before. -/
inductive Position.Makes (q : Position) : Occurrence → Prop
  | own {call : SinkCall} : q.node.ownCall? r a = some call → Makes q ⟨q.path, q.scope, call⟩
  | piped {elements : List Node} {span : Span} {i : Nat} {feed : Node} {c : Command}
      {call : SinkCall} :
      q.node = .pipeline elements span →
      elements[i]? = some feed → elements[i + 1]? = some (.command c) →
      c.pipedCall? r a feed = some call →
      Makes q ⟨q.path ++ [.element (i + 1)], q.scope, call⟩

theorem Position.map_calls (q : Position) :
    (q.calls r a).map (fun o => o.call.site o.scope.bindings) =
      Visit.sites r a (.node q.scope.frame q.node) := by
  obtain ⟨path, scope, n⟩ := q
  cases n with
  | pipeline elements span =>
    let l := elements.zip elements.tail
    let site (call : SinkCall) := call.site scope.bindings
    calc (Position.calls r a ⟨path, scope, .pipeline elements span⟩).map
            (fun o => o.call.site o.scope.bindings)
        = l.zipIdx.filterMap (fun p => (pipedCall? r a p.1).map site) := by
          simp only [calls, List.map_filterMap, Option.map_map]; rfl
      _ = (l.zipIdx.map (·.1)).filterMap (fun p => (pipedCall? r a p).map site) := by
          rw [List.filterMap_map]; rfl
      _ = (l.filterMap (pipedCall? r a)).map site := by
          rw [List.zipIdx_map_fst, List.map_filterMap]
      _ = Visit.sites r a (.node scope.frame (.pipeline elements span)) := rfl
  | _ => simp [calls, Node.ownCall?, Visit.sites, Node.sinkCalls, Block.frame]

end

section
variable {r : SinkRegistry} {a : Aliases} {t : SyntaxTree} {q : Position} {o : Occurrence}

theorem pipedCall?_eq_some {p : Node × Node} {call : SinkCall} :
    pipedCall? r a p = some call ↔ ∃ c, p.2 = .command c ∧ c.pipedCall? r a p.1 = some call := by
  obtain ⟨feed, n⟩ := p
  cases n with
  | command c => simp [pipedCall?]
  | _ => simp [pipedCall?]

theorem Position.mem_calls : o ∈ q.calls r a ↔ q.Makes r a o := by
  obtain ⟨path, scope, n⟩ := q
  cases n with
  | pipeline elements span =>
    simp only [calls, List.mem_filterMap, List.mem_zipIdx_iff_getElem?, Option.map_eq_some_iff,
      pipedCall?_eq_some]
    constructor
    · rintro ⟨⟨p, i⟩, hp, call, ⟨c, hc, hcall⟩, rfl⟩
      obtain ⟨hfeed, hnext⟩ := List.getElem?_zip_eq_some.1 hp
      rw [List.getElem?_tail, hc] at hnext
      exact .piped rfl hfeed hnext hcall
    · rintro (hcall | ⟨hn, hfeed, hc, hcall⟩)
      · cases hcall
      · cases hn
        rename_i i feed c call
        refine ⟨((feed, .command c), i), ?_, call, ⟨c, rfl, hcall⟩, rfl⟩
        exact List.getElem?_zip_eq_some.2 ⟨hfeed, by rwa [List.getElem?_tail]⟩
  | _ =>
    simp only [calls, List.mem_map, Option.mem_toList]
    constructor
    · rintro ⟨call, hcall, rfl⟩
      exact .own hcall
    · rintro (hcall | ⟨hn, _, _, _⟩)
      · exact ⟨_, hcall, rfl⟩
      · cases hn

/-- No two calls at one position are made by one node. -/
theorem Position.nodup_calls (q : Position) : ((q.calls r a).map (·.path)).Nodup := by
  obtain ⟨path, scope, n⟩ := q
  cases n with
  | pipeline elements span =>
    rw [calls, List.Nodup, List.pairwise_map, List.pairwise_filterMap]
    refine (pairwise_zipIdx _).imp fun {p p'} hne o ho o' ho' => ?_
    obtain ⟨call, -, rfl⟩ := Option.map_eq_some_iff.1 ho
    obtain ⟨call', -, rfl⟩ := Option.map_eq_some_iff.1 ho'
    simpa using hne
  | command c => cases h : c.sinkCall? r a <;> simp [calls, Node.ownCall?, h]
  | invocation i => cases h : i.sinkCall? r <;> simp [calls, Node.ownCall?, h]
  | _ => simp [calls, Node.ownCall?]

/-- A command that a pipeline feeds is not found as a call by itself. -/
theorem Position.own_ne_piped {q' : Position} {c : Command} {elements : List Node} {span : Span}
    {i : Nat} {feed : Node} {call call' : SinkCall}
    (hq : q ∈ t.positions) (hown : q.node.ownCall? r a = some call)
    (hq' : q' ∈ t.positions) (hn : q'.node = .pipeline elements span)
    (hc : elements[i + 1]? = some (.command c)) (hpiped : c.pipedCall? r a feed = some call') :
    q.path ≠ q'.path ++ [.element (i + 1)] := by
  intro hpath
  rw [SyntaxTree.mem_positions] at hq hq'
  have hc : q'.node.at? (.element (i + 1)) = some (.command c) := by rw [hn]; exact hc
  rw [hpath, SyntaxTree.find?_snoc hq' hc] at hq
  obtain ⟨-, hnode⟩ := Prod.mk.inj (Option.some.inj hq)
  rw [← hnode, Node.ownCall?, Command.sinkCall?_of_pipedCall? hpiped] at hown
  cases hown

/-- Calls at two positions are made by two nodes. -/
theorem Position.Makes.path_ne {q' : Position} {o' : Occurrence} (ho : q.Makes r a o)
    (ho' : q'.Makes r a o') (hq : q ∈ t.positions) (hq' : q' ∈ t.positions)
    (hne : q.path ≠ q'.path) : o.path ≠ o'.path := by
  cases ho with
  | own hcall =>
    cases ho' with
    | own => exact hne
    | piped hn _ hc hcall' => exact own_ne_piped hq hcall hq' hn hc hcall'
  | piped hn _ hc hcall =>
    cases ho' with
    | own hcall' => exact (own_ne_piped hq' hcall' hq hn hc hcall).symm
    | piped => exact fun h => hne (List.append_inj' h rfl).1

/-- The calls at the positions of a file are the calls of sinks in it. -/
theorem Occurrence.isSink_iff :
    o.IsSink t r ↔ ∃ q ∈ t.positions, q.Makes r (t.aliases r) o := by
  constructor
  · intro h
    cases h with
    | command hfind hruns =>
      exact ⟨⟨_, _, _⟩, SyntaxTree.mem_positions.2 hfind, .own (Command.sinkCall?_eq_some.2 hruns)⟩
    | piped hfind hfeed hc hw hs hcat hcode =>
      exact ⟨⟨_, _, _⟩, SyntaxTree.mem_positions.2 hfind,
        .piped rfl hfeed hc (Command.pipedCall?_eq_some.2 ⟨_, _, hw, hs, hcat, hcode, rfl⟩)⟩
    | method hfind hw hs hcode =>
      exact ⟨⟨_, _, _⟩, SyntaxTree.mem_positions.2 hfind,
        .own (Invocation.sinkCall?_eq_some.2 ⟨_, _, _, hw, hs, hcode, rfl⟩)⟩
  · rintro ⟨⟨path, scope, n⟩, hq, hm⟩
    have hfind := SyntaxTree.mem_positions.1 hq
    cases hm with
    | own hcall =>
      cases n with
      | command c => exact .command hfind (Command.sinkCall?_eq_some.1 hcall)
      | invocation i =>
        obtain ⟨written, sink, code, hw, hs, hcode, rfl⟩ := Invocation.sinkCall?_eq_some.1 hcall
        exact .method hfind hw hs hcode
      | _ => cases hcall
    | piped hn hfeed hc hcall =>
      obtain rfl := hn
      obtain ⟨written, sink, hw, hs, hcat, hcode, rfl⟩ := Command.pipedCall?_eq_some.1 hcall
      exact .piped hfind hfeed hc hw hs hcat hcode

end

/-- What a site says of a call in a block. -/
structure CodeSite.Reports (s : CodeSite) (o : Occurrence) : Prop where
  category : s.category = o.call.category
  sink : s.sink = o.call.sink
  span : s.span = o.call.span
  tainted : s.tainted = true ↔ ∃ n ∈ o.call.code, n.constancy o.scope.bindings = .varying
  escaped : s.escaped = true ↔ ∃ n ∈ o.call.code, n.carriesEscaped o.scope.bindings = true

theorem Occurrence.site_reports (o : Occurrence) :
    (o.call.site o.scope.bindings).Reports o where
  category := rfl
  sink := rfl
  span := rfl
  tainted := by simp [SinkCall.site, Constancy.isVarying]
  escaped := by simp [SinkCall.site]

/-- **Every sink, once.** The code sites of a file are the calls of sinks in it: one for each, none
for anything else, and no two for one node. Each says what holds of the code of its call under the
bindings of the block that encloses the call most closely. -/
theorem sink_coverage (t : SyntaxTree) (r : SinkRegistry) :
    ∃ calls : List Occurrence,
      (calls.map (·.path)).Nodup ∧
      (∀ o, o ∈ calls ↔ o.IsSink t r) ∧
      List.Forall₂ CodeSite.Reports (t.codeSites r) calls := by
  let a := t.aliases r
  refine ⟨t.positions.flatMap (·.calls r a), ?_, fun o => ?_, ?_⟩
  · rw [List.Nodup, List.pairwise_map, List.pairwise_flatMap]
    have hpositions := t.nodup_positions
    rw [List.Nodup, List.pairwise_map] at hpositions
    refine ⟨fun q _ => List.pairwise_map.1 q.nodup_calls, ?_⟩
    refine hpositions.imp_of_mem fun hq hq' hne o ho o' ho' => ?_
    exact (Position.mem_calls.1 ho).path_ne (Position.mem_calls.1 ho') hq hq' hne
  · rw [Occurrence.isSink_iff]
    simp only [List.mem_flatMap, Position.mem_calls, a]
  · have hsites : t.codeSites r =
        (t.positions.flatMap (·.calls r a)).map fun o => o.call.site o.scope.bindings := by
      rw [SyntaxTree.codeSites, ← t.flatMap_visits fun _ => rfl, List.map_flatMap]
      exact List.flatMap_congr fun q _ => (q.map_calls r a).symm
    rw [hsites, List.forall₂_map_left_iff, List.forall₂_same]
    exact fun o _ => o.site_reports

end ScriptTaint
