import ScriptTaint.Detect.Builtin
import ScriptTaint.Proofs.SinkCoverage

/-!
# Where code sites come from

A code site of a file is a call that the node at some position makes, judged under the bindings of
the block around it (`SyntaxTree.mem_codeSites`). Its span is the span of a node of the file
(`SyntaxTree.span_of_mem_codeSites`). `SyntaxTree.sitesAt` are the sites of one position. A detector
of sites reports the spans of the sites it looks for, one finding for each
(`Detector.spans_ofSites`).
-/

set_option autoImplicit false

namespace ScriptTaint

namespace SyntaxTree

variable {t : SyntaxTree} {r : SinkRegistry} {s : CodeSite}

/-- The sites of the calls that the node at a path makes. -/
def sitesAt (t : SyntaxTree) (r : SinkRegistry) (path : List Slot) : List CodeSite :=
  match t.find? path with
  | some (scope, n) => (n.sinkCalls r (t.aliases r)).map (·.site scope.bindings)
  | none => []

theorem sitesAt_of_find? {path : List Slot} {scope : Block} {n : Node}
    (h : t.find? path = some (scope, n)) :
    t.sitesAt r path = (n.sinkCalls r (t.aliases r)).map (·.site scope.bindings) := by
  unfold sitesAt
  rw [h]

theorem codeSites_eq (t : SyntaxTree) (r : SinkRegistry) :
    t.codeSites r = t.positions.flatMap fun q => t.sitesAt r q.path := by
  have hsites : ∀ q ∈ t.positions, t.sitesAt r q.path =
      Visit.sites r (t.aliases r) (.node q.scope.frame q.node) :=
    fun q hq => sitesAt_of_find? (mem_positions.1 hq)
  rw [List.flatMap_congr hsites, t.flatMap_visits fun _ => rfl]
  rfl

theorem mem_codeSites :
    s ∈ t.codeSites r ↔ ∃ q ∈ t.positions, ∃ call ∈ q.node.sinkCalls r (t.aliases r),
      call.site q.scope.bindings = s := by
  rw [codeSites_eq, List.mem_flatMap]
  constructor
  · rintro ⟨q, hq, hs⟩
    rw [sitesAt_of_find? (mem_positions.1 hq)] at hs
    exact ⟨q, hq, List.mem_map.1 hs⟩
  · rintro ⟨q, hq, hs⟩
    refine ⟨q, hq, ?_⟩
    rw [sitesAt_of_find? (mem_positions.1 hq)]
    exact List.mem_map.2 hs

theorem mem_codeSites_of_sitesAt {path : List Slot} (h : s ∈ t.sitesAt r path) :
    s ∈ t.codeSites r := by
  unfold sitesAt at h
  split at h
  · rename_i scope n hfind
    exact mem_codeSites.2 ⟨⟨path, scope, n⟩, mem_positions.2 hfind, List.mem_map.1 h⟩
  · cases h

end SyntaxTree

/-! ## The span of a site -/

section
variable {r : SinkRegistry} {a : Aliases} {c : Command} {call : SinkCall}

theorem Command.span_of_runs (h : c.Runs r a call) : call.span = c.span := by
  cases h <;> rfl

/-- A call that a node makes with its own arguments has the span of the node. -/
theorem Node.span_of_ownCall? {n : Node} (h : n.ownCall? r a = some call) :
    call.span = n.span := by
  cases n with
  | command c => exact Command.span_of_runs (Command.sinkCall?_eq_some.1 h)
  | invocation i =>
    obtain ⟨written, sink, code, -, -, -, rfl⟩ := Invocation.sinkCall?_eq_some.1 h
    rfl
  | _ => cases h

/-- The span of a code site is the span of a node of the file: of the call itself, also where the
code comes from the element before it in a pipeline. -/
theorem SyntaxTree.span_of_mem_codeSites {t : SyntaxTree} {s : CodeSite}
    (h : s ∈ t.codeSites r) : ∃ q ∈ t.positions, q.node.span = s.span := by
  obtain ⟨q, hq, call, hcall, rfl⟩ := mem_codeSites.1 h
  have hsite : call.site q.scope.bindings ∈
      (q.calls r (t.aliases r)).map fun o => o.call.site o.scope.bindings := by
    rw [Position.map_calls]
    exact List.mem_map_of_mem hcall
  obtain ⟨o, ho, heq⟩ := List.mem_map.1 hsite
  have hspan : o.call.span = (call.site q.scope.bindings).span := congrArg CodeSite.span heq
  rw [← hspan]
  cases Position.mem_calls.1 ho with
  | own hown => exact ⟨q, hq, (Node.span_of_ownCall? hown).symm⟩
  | @piped elements span i feed c call hn hfeed hc hpiped =>
    obtain ⟨written, sink, -, -, -, -, rfl⟩ := Command.pipedCall?_eq_some.1 hpiped
    have hat : q.node.at? (.element (i + 1)) = some (.command c) := by
      rw [hn]
      exact hc
    have hfind := find?_snoc (mem_positions.1 hq) hat
    exact ⟨⟨_, _, .command c⟩, mem_positions.2 hfind, rfl⟩

end

/-! ## The spans of findings -/

namespace Finding

/-- One step of `firstPerSpan`. -/
def keep (kept : List Finding) (f : Finding) : List Finding :=
  if kept.any (·.span == f.span) then kept else kept ++ [f]

theorem mem_keep {kept : List Finding} {f g : Finding} (h : g ∈ keep kept f) :
    g ∈ kept ∨ g = f := by
  unfold keep at h
  split at h
  · exact .inl h
  · exact (List.mem_append.1 h).imp_right List.mem_singleton.1

theorem subset_keep (kept : List Finding) (f : Finding) : ∀ g ∈ kept, g ∈ keep kept f := by
  intro g hg
  unfold keep
  split
  · exact hg
  · exact List.mem_append_left _ hg

theorem exists_span_keep (kept : List Finding) (f : Finding) :
    ∃ g ∈ keep kept f, g.span = f.span := by
  unfold keep
  split
  · rename_i h
    obtain ⟨g, hg, hspan⟩ := List.any_eq_true.1 h
    exact ⟨g, hg, by simpa using hspan⟩
  · exact ⟨f, by simp, rfl⟩

/-- What is kept is kept for good, and every finding read has one of its span among the kept. -/
theorem spans_foldl_keep (fs kept : List Finding) :
    (∀ g ∈ kept, g ∈ fs.foldl keep kept) ∧ (∀ g ∈ fs.foldl keep kept, g ∈ kept ∨ g ∈ fs) ∧
      ∀ f ∈ fs, ∃ g ∈ fs.foldl keep kept, g.span = f.span := by
  induction fs generalizing kept with
  | nil => exact ⟨fun g hg => hg, fun g hg => .inl hg, by simp⟩
  | cons f fs ih =>
    obtain ⟨hgrow, horigin, hspan⟩ := ih (keep kept f)
    rw [List.foldl_cons]
    refine ⟨fun g hg => hgrow g (subset_keep kept f g hg), fun g hg => ?_, fun x hx => ?_⟩
    · rcases horigin g hg with hg | hg
      · rcases mem_keep hg with hg | rfl
        · exact .inl hg
        · exact .inr List.mem_cons_self
      · exact .inr (List.mem_cons_of_mem _ hg)
    · rcases List.mem_cons.1 hx with rfl | hx
      · obtain ⟨g, hg, hs⟩ := exists_span_keep kept x
        exact ⟨g, hgrow g hg, hs⟩
      · exact hspan x hx

theorem mem_of_mem_firstPerSpan {fs : List Finding} {f : Finding} (h : f ∈ firstPerSpan fs) :
    f ∈ fs :=
  ((spans_foldl_keep fs []).2.1 f h).resolve_left List.not_mem_nil

/-- The spans of findings are those of the first findings of each span. -/
theorem exists_span_firstPerSpan {fs : List Finding} {s : Span} :
    (∃ f ∈ firstPerSpan fs, f.span = s) ↔ ∃ f ∈ fs, f.span = s := by
  constructor
  · rintro ⟨f, hf, hs⟩
    exact ⟨f, mem_of_mem_firstPerSpan hf, hs⟩
  · rintro ⟨f, hf, rfl⟩
    exact (spans_foldl_keep fs []).2.2 f hf

end Finding

/-- A built-in detector looks for the tainted sites of a category, for computed members or for sites
with code that was escaped by hand. -/
theorem Detector.builtin_cases {d : Detector} (hd : d ∈ builtin) :
    (∃ p c message suggestion, d = ofSites p (isTaintedSite c) message suggestion) ∨
      d = memberInjection ∨ d = handEscaping := by
  simp only [builtin, List.mem_cons, List.not_mem_nil, or_false] at hd
  rcases hd with rfl | rfl | rfl | rfl | rfl | rfl | rfl
  case inr.inr.inr.inr.inr.inl => exact .inr (.inl rfl)
  case inr.inr.inr.inr.inr.inr => exact .inr (.inr rfl)
  all_goals exact .inl ⟨_, _, _, _, rfl⟩

/-- A detector of sites reports the spans of the sites it looks for. -/
theorem Detector.spans_ofSites (p : Profile) (reports : CodeSite → Bool)
    (message : String → String) (suggestion : String) (t : SyntaxTree) (r : SinkRegistry) :
    ∃ fs, (ofSites p reports message suggestion).check t r = .ok fs ∧
      ∀ s, (∃ f ∈ fs, f.span = s) ↔
        ∃ site ∈ t.codeSites r, reports site = true ∧ site.span = s := by
  refine ⟨_, rfl, fun s => ?_⟩
  rw [Finding.exists_span_firstPerSpan]
  constructor
  · rintro ⟨f, hf, hs⟩
    obtain ⟨site, hsite, rfl⟩ := List.mem_map.1 hf
    obtain ⟨hmem, hr⟩ := List.mem_filter.1 hsite
    exact ⟨site, hmem, hr, hs⟩
  · rintro ⟨site, hmem, hr, hs⟩
    exact ⟨_, List.mem_map_of_mem (List.mem_filter.2 ⟨hmem, hr⟩), hs⟩

end ScriptTaint
