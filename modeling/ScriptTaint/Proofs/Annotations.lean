import Mathlib.Data.List.Basic
import ScriptTaint.Proofs.Resolution
import ScriptTaint.Proofs.SinkShells
import ScriptTaint.Proofs.Sites
import ScriptTaint.Report

/-!
# What an annotation does

The detectors see the nodes of a file, each under the bindings of its scope, and not the annotations
of its blocks (`SyntaxTree.LooksLike.run_eq`). The scopes of a file carry the suppressions that its
blocks declare (`SyntaxTree.suppressions_scopes`), and where they stand does not depend on them
(`SyntaxTree.unmarked_scopes_putBlock`). So one more annotation on a block silences the findings of
the rule it names inside the span of the block, and changes nothing else
(`annotation_moves_findings`).
-/

set_option autoImplicit false

namespace ScriptTaint

/-! ## What detectors see -/

def Visit.isNode : Visit → Bool
  | .block _ => false
  | .node .. => true

/-- The nodes that a walk meets, as far as detectors look at them. -/
def SyntaxTree.seen (t : SyntaxTree) : List Visit := (t.visits.map Visit.shell).filter Visit.isNode

/-- The two files show the same to a detector. -/
structure SyntaxTree.LooksLike (t' t : SyntaxTree) : Prop where
  path : t'.path = t.path
  lineStarts : t'.lineStarts = t.lineStarts
  seen : t'.seen = t.seen

section seen
variable {α : Type} {t t' : SyntaxTree}

theorem SyntaxTree.flatMap_seen {f : Visit → List α} (hshell : ∀ v : Visit, f v.shell = f v)
    (hblock : ∀ frame, f (.block frame) = []) : t.seen.flatMap f = t.visits.flatMap f := by
  unfold seen
  induction t.visits with
  | nil => rfl
  | cons v vs ih =>
    cases v with
    | block frame =>
      rw [List.map_cons, List.filter_cons_of_neg (by simp [Visit.shell, Visit.isNode]), ih,
        List.flatMap_cons, hblock, List.nil_append]
    | node frame n =>
      rw [List.map_cons, List.filter_cons_of_pos (by simp [Visit.shell, Visit.isNode]),
        List.flatMap_cons, List.flatMap_cons, ih, hshell]

theorem SyntaxTree.filterMap_seen {f : Visit → Option α} (hshell : ∀ v : Visit, f v.shell = f v)
    (hblock : ∀ frame, f (.block frame) = none) : t.seen.filterMap f = t.visits.filterMap f := by
  rw [List.filterMap_eq_flatMap_toList, List.filterMap_eq_flatMap_toList]
  exact flatMap_seen (fun v => by rw [hshell]) (fun frame => by rw [hblock]; rfl)

namespace SyntaxTree.LooksLike

variable (h : t'.LooksLike t) (r : SinkRegistry)

include h

theorem aliases_eq : t'.aliases r = t.aliases r := by
  have hshell := Visit.aliasDefinition?_shell r
  unfold aliases
  rw [← filterMap_seen hshell fun _ => rfl, h.seen, filterMap_seen hshell fun _ => rfl]

theorem codeSites_eq : t'.codeSites r = t.codeSites r := by
  have hshell := Visit.sites_shell r (t.aliases r)
  unfold codeSites
  rw [h.aliases_eq r, ← flatMap_seen hshell fun _ => rfl, h.seen, flatMap_seen hshell fun _ => rfl]

omit r in
theorem computedMembers_eq :
    t'.visits.filterMap Detector.computedMember? = t.visits.filterMap Detector.computedMember? := by
  have hshell := Detector.computedMember?_shell
  rw [← filterMap_seen hshell fun _ => rfl, h.seen, filterMap_seen hshell fun _ => rfl]

omit r in
theorem finding_eq (p : Profile) (s : Span) (message suggestion : String) :
    p.finding t' s message suggestion = p.finding t s message suggestion := by
  unfold Profile.finding location
  rw [h.path, h.lineStarts]

theorem check_ofSites (p : Profile) (reports : CodeSite → Bool) (message : String → String)
    (suggestion : String) :
    (Detector.ofSites p reports message suggestion).check t' r =
      (Detector.ofSites p reports message suggestion).check t r := by
  simp only [Detector.ofSites, h.codeSites_eq r, h.finding_eq]

theorem check_eq {d : Detector} (hd : d ∈ Detector.builtin) : d.check t' r = d.check t r := by
  obtain ⟨p, c, message, suggestion, rfl⟩ | rfl | rfl := Detector.builtin_cases hd
  · exact h.check_ofSites r p _ message suggestion
  · simp only [Detector.memberInjection, h.computedMembers_eq, h.finding_eq]
  · exact h.check_ofSites r _ _ _ _

omit r in
/-- Files that look alike have the same findings and faults. -/
theorem run_eq {r : Roster} (hr : r.detectors = Detector.builtin) : r.run t' = r.run t := by
  unfold Roster.run
  refine List.foldl_ext _ _ _ fun state d hd => ?_
  have hmem : d ∈ Detector.builtin := hr ▸ (List.mem_filter.1 hd).1
  simp only [h.check_eq r.sinks hmem]

end SyntaxTree.LooksLike

end seen

theorem Config.detectors_roster (cfg : Config) : cfg.roster.detectors = Detector.builtin := by
  unfold Config.roster
  simp only
  split <;> rfl

/-! ## The suppressions of a file -/

/-- The suppressions that a visit meets: those that a block declares. -/
def Visit.suppressions : Visit → List Suppression
  | .block frame => frame.block.suppressions
  | .node .. => []

theorem Visit.suppressions_shell (v : Visit) : v.shell.suppressions = v.suppressions := by
  cases v <;> rfl

theorem ScopeTree.suppressions_create (t : ScopeTree) (kind : ScopeKind) (parent : Option Nat)
    (b : Block) (name : Option String) :
    (t.create kind parent b name).suppressions = t.suppressions ++ b.suppressions := by
  have hadopt (id : Nat) (s : Scope) : (if parent = some s.id then
      { s with children := s.children ++ [id] } else s).suppressions = s.suppressions := by
    split <;> rfl
  simp only [create, suppressions, List.flatMap_append, List.flatMap_map, hadopt,
    List.flatMap_singleton]

theorem suppressions_foldl_addScopes (nodes : List Node) {scope : Nat} {frame : Frame}
    (h : ∀ n ∈ nodes, ∀ t : ScopeTree, (n.addScopes scope t).suppressions =
      t.suppressions ++ (n.visits frame).flatMap Visit.suppressions) (t : ScopeTree) :
    (nodes.foldl (fun t n => n.addScopes scope t) t).suppressions =
      t.suppressions ++ (nodes.flatMap (·.visits frame)).flatMap Visit.suppressions := by
  induction nodes generalizing t with
  | nil => simp
  | cons n nodes ih =>
    rw [List.foldl_cons, ih (fun m hm => h m (List.mem_cons_of_mem _ hm)),
      h n List.mem_cons_self, List.flatMap_cons, List.flatMap_append, List.append_assoc]

/-- The scopes in a node carry the suppressions that its walk meets, in their order. -/
theorem Node.suppressions_addScopes (n : Node) (scope : Nat) (frame : Frame) (t : ScopeTree) :
    (n.addScopes scope t).suppressions =
      t.suppressions ++ (n.visits frame).flatMap Visit.suppressions := by
  induction n using Node.induction_parts generalizing scope frame t with
  | step n ih =>
    have inside (nodes : List Node) (hnodes : n.parts.map (·.2) = nodes) (scope : Nat)
        (frame : Frame) : ∀ m ∈ nodes, ∀ t : ScopeTree, (m.addScopes scope t).suppressions =
          t.suppressions ++ (m.visits frame).flatMap Visit.suppressions := by
      intro m hm t
      obtain ⟨p, hp, rfl⟩ := List.mem_map.1 (hnodes ▸ hm)
      exact ih p hp scope frame t
    cases hb : n.block? with
    | some b =>
      obtain ⟨kind, name, hadd⟩ := n.addScopes_block hb scope t
      rw [hadd, Block.addScopes_eq, visits_block hb, Block.visits_eq,
        suppressions_foldl_addScopes b.nodes
          (inside b.nodes (map_snd_parts_block hb) t.size b.frame),
        ScopeTree.suppressions_create, List.append_assoc]
      rfl
    | none =>
      rw [addScopes_children hb, visits_children hb,
        suppressions_foldl_addScopes n.children (inside n.children (map_snd_parts hb) scope frame)]
      rfl

/-- The suppressions of a file are those that its walk meets. -/
theorem SyntaxTree.suppressions_scopes (t : SyntaxTree) :
    t.scopes.suppressions = (t.visits.map Visit.shell).flatMap Visit.suppressions := by
  have hroot := suppressions_foldl_addScopes t.root.nodes
    (fun n _ => n.suppressions_addScopes 0 t.root.frame)
    (ScopeTree.empty.create .script none t.root none)
  rw [List.flatMap_map]
  simp only [Visit.suppressions_shell]
  unfold scopes
  rw [Block.addScopes_eq, hroot, ScopeTree.suppressions_create, visits, Block.visits_eq]
  rfl

/-! ## Where scopes stand -/

/-- The scope without its suppressions. -/
def Scope.unmarked (s : Scope) : Scope := { s with suppressions := [] }

/-- The scopes without their suppressions. -/
def ScopeTree.unmarked (t : ScopeTree) : ScopeTree := ⟨t.scopes.map Scope.unmarked⟩

namespace ScopeTree

variable {t t' : ScopeTree}

theorem size_of_unmarked (h : t'.unmarked = t.unmarked) : t'.size = t.size := by
  have hlength : t'.unmarked.scopes.length = t.unmarked.scopes.length := by rw [h]
  simpa [unmarked, size] using hlength

theorem unmarked_create (h : t'.unmarked = t.unmarked) (kind : ScopeKind) (parent : Option Nat)
    {b b' : Block} (hb : b'.span = b.span) (name : Option String) :
    (t'.create kind parent b' name).unmarked = (t.create kind parent b name).unmarked := by
  have hscopes : t'.scopes.map Scope.unmarked = t.scopes.map Scope.unmarked := congrArg scopes h
  have hadopt (id : Nat) (l : List Scope) :
      (l.map fun s => if parent = some s.id then { s with children := s.children ++ [id] }
        else s).map Scope.unmarked =
      (l.map Scope.unmarked).map fun s => if parent = some s.id then
        { s with children := s.children ++ [id] } else s := by
    rw [List.map_map, List.map_map]
    refine List.map_congr_left fun s _ => ?_
    by_cases hs : parent = some s.id <;> simp [Scope.unmarked, hs]
  simp only [unmarked, create, List.map_append, hadopt, hscopes, size_of_unmarked h, List.map_cons,
    List.map_nil, Scope.unmarked, hb]

/-- Nesting is a matter of where scopes stand. -/
theorem Nested.of_unmarked (h : t'.unmarked = t.unmarked) (hn : t.Nested) : t'.Nested := by
  have hscopes : t'.scopes.map Scope.unmarked = t.scopes.map Scope.unmarked := congrArg scopes h
  have twin : ∀ c ∈ t'.scopes, ∃ d ∈ t.scopes,
      d.id = c.id ∧ d.parent = c.parent ∧ d.span = c.span := by
    intro c hc
    have hmem : c.unmarked ∈ t.scopes.map Scope.unmarked :=
      hscopes ▸ List.mem_map_of_mem hc
    obtain ⟨d, hd, heq⟩ := List.mem_map.1 hmem
    simp only [Scope.unmarked, Scope.mk.injEq] at heq
    obtain ⟨hid, -, -, hparent, -, hspan, -⟩ := heq
    exact ⟨d, hd, hid, hparent, hspan⟩
  constructor
  · intro c hc p hp hparent
    obtain ⟨c₀, hc₀, -, hcp, hcs⟩ := twin c hc
    obtain ⟨p₀, hp₀, hpi, -, hps⟩ := twin p hp
    rw [← hcs, ← hps]
    exact hn.inside c₀ hc₀ p₀ hp₀ (by rw [hcp, hparent, hpi])
  · intro c hc d hd hparent hid
    obtain ⟨c₀, hc₀, hci, hcp, hcs⟩ := twin c hc
    obtain ⟨d₀, hd₀, hdi, hdp, hds⟩ := twin d hd
    rw [← hcs, ← hds]
    exact hn.apart c₀ hc₀ d₀ hd₀ (by rw [hcp, hdp, hparent]) (by rwa [hci, hdi])

end ScopeTree

theorem unmarked_foldl_addScopes (nodes : List Node) {scope : Nat} {t t' : ScopeTree}
    (h : t'.unmarked = t.unmarked)
    (hnodes : ∀ n ∈ nodes, ∀ t t' : ScopeTree, t'.unmarked = t.unmarked →
      (n.addScopes scope t').unmarked = (n.addScopes scope t).unmarked) :
    (nodes.foldl (fun t n => n.addScopes scope t) t').unmarked =
      (nodes.foldl (fun t n => n.addScopes scope t) t).unmarked := by
  induction nodes generalizing t t' with
  | nil => exact h
  | cons n nodes ih =>
    exact ih (hnodes n List.mem_cons_self t t' h) fun m hm => hnodes m (List.mem_cons_of_mem _ hm)

theorem Node.unmarked_addScopes (n : Node) (scope : Nat) {t t' : ScopeTree}
    (h : t'.unmarked = t.unmarked) :
    (n.addScopes scope t').unmarked = (n.addScopes scope t).unmarked := by
  induction n using Node.induction_parts generalizing scope t t' with
  | step n ih =>
    have inside (nodes : List Node) (hnodes : n.parts.map (·.2) = nodes) (scope : Nat) :
        ∀ m ∈ nodes, ∀ t t' : ScopeTree, t'.unmarked = t.unmarked →
          (m.addScopes scope t').unmarked = (m.addScopes scope t).unmarked := by
      intro m hm t t' ht
      obtain ⟨p, hp, rfl⟩ := List.mem_map.1 (hnodes ▸ hm)
      exact ih p hp scope ht
    cases n with
    | scriptBlock b | function _ _ b =>
      rw [addScopes.eq_def, addScopes.eq_def _ _ t]
      simp only [Block.addScopes_eq, ScopeTree.size_of_unmarked h]
      exact unmarked_foldl_addScopes b.nodes (ScopeTree.unmarked_create h _ _ rfl _)
        (inside b.nodes (map_snd_parts_block rfl) t.size)
    | _ =>
      rw [addScopes_children rfl, addScopes_children rfl]
      exact unmarked_foldl_addScopes _ h (inside _ (map_snd_parts rfl) scope)

/-- The block has the span and the nodes of `B`. -/
structure Block.FitsIn (F B : Block) : Prop where
  span : F.span = B.span
  nodes : F.nodes = B.nodes

section fits
variable {F B b : Block} {path : List Slot} {s : Slot} {t t' : ScopeTree}

theorem Node.addScopes_setBlock {n : Node} (h : n.block? = some b) :
    ∃ kind name, ∀ (F : Block) (scope : Nat) (t : ScopeTree), (n.setBlock F).addScopes scope t =
      F.addScopes t.size (t.create kind (some scope) F name) := by
  cases n with
  | scriptBlock =>
    exact ⟨.scriptBlock, none, fun F scope t => by rw [setBlock, addScopes.eq_def]⟩
  | function name =>
    exact ⟨.function, some name, fun F scope t => by rw [setBlock, addScopes.eq_def]⟩
  | _ => exact absurd h (by simp [block?])

theorem unmarked_foldl_append {l r : List Node} {c c' : Node} {scope : Nat}
    (hc : ∀ t t' : ScopeTree, t'.unmarked = t.unmarked →
      (c'.addScopes scope t').unmarked = (c.addScopes scope t).unmarked)
    (h : t'.unmarked = t.unmarked) :
    ((l ++ c' :: r).foldl (fun t n => n.addScopes scope t) t').unmarked =
      ((l ++ c :: r).foldl (fun t n => n.addScopes scope t) t).unmarked := by
  have rest (nodes : List Node) {t t' : ScopeTree} (h : t'.unmarked = t.unmarked) :=
    unmarked_foldl_addScopes nodes h fun n _ t t' ht => n.unmarked_addScopes scope ht
  rw [List.foldl_append, List.foldl_append, List.foldl_cons, List.foldl_cons]
  exact rest r (hc _ _ (rest l h))

theorem Block.unmarked_putBlock (path : List Slot) (hF : F.FitsIn B)
    (h : b.blockAt? path = some B)
    (ih : ∀ (s : Slot) (rest : List Slot) (c : Node), path = s :: rest → c.blockAt? rest = some B →
      ∀ (scope : Nat) (t t' : ScopeTree), t'.unmarked = t.unmarked →
        ((c.putBlock rest F).addScopes scope t').unmarked = (c.addScopes scope t).unmarked)
    (scope : Nat) (ht : t'.unmarked = t.unmarked) :
    ((b.putBlock path F).addScopes scope t').unmarked = (b.addScopes scope t).unmarked := by
  rw [addScopes_eq, addScopes_eq]
  cases path with
  | nil =>
    obtain rfl : b = B := Option.some.inj h
    rw [putBlock, hF.nodes]
    exact unmarked_foldl_addScopes _ ht fun n _ t t' ht => n.unmarked_addScopes scope ht
  | cons s rest =>
    obtain ⟨c, hc, hB⟩ := Option.bind_eq_some_iff.1 h
    obtain ⟨l, r, hnodes⟩ := exists_nodes_putBlock rest hc
    have hself : b.nodes = l ++ c :: r := by
      have hput := hnodes B
      rwa [putBlock_self h, Node.putBlock_self hB] at hput
    rw [hnodes F, hself]
    exact unmarked_foldl_append (ih s rest c rfl hB scope) ht

theorem Block.span_putBlock (hF : F.FitsIn B) (h : b.blockAt? path = some B) :
    (b.putBlock path F).span = b.span := by
  cases path with
  | nil =>
    obtain rfl : b = B := Option.some.inj h
    exact hF.span
  | cons s rest => rfl

/-- The place of each scope in a node depends on the span and the nodes of its blocks. -/
theorem Node.unmarked_putBlock {n : Node} (hF : F.FitsIn B) (h : n.blockAt? path = some B)
    (scope : Nat) (ht : t'.unmarked = t.unmarked) :
    ((n.putBlock path F).addScopes scope t').unmarked = (n.addScopes scope t).unmarked := by
  induction path generalizing n scope t t' with
  | nil =>
    obtain ⟨kind, name, hadd⟩ := addScopes_setBlock (n := n) (b := B) h
    have hself := hadd B scope t
    rw [setBlock_self h] at hself
    rw [putBlock, hadd, hself, ScopeTree.size_of_unmarked ht]
    exact Block.unmarked_putBlock [] hF rfl (by simp) t.size
      (ScopeTree.unmarked_create ht kind _ hF.span name)
  | cons s path ih =>
    cases hb : n.block? with
    | some b =>
      have hB : b.blockAt? (s :: path) = some B := (blockAt?_of_block? hb).symm.trans h
      obtain ⟨kind, name, hadd⟩ := addScopes_setBlock hb
      have hself := hadd b scope t
      rw [setBlock_self hb] at hself
      rw [putBlock_of_block? hb, hadd, hself, ScopeTree.size_of_unmarked ht]
      refine Block.unmarked_putBlock (s :: path) hF hB ?_ t.size
        (ScopeTree.unmarked_create ht kind _ (Block.span_putBlock hF hB) name)
      rintro s' rest c heq hc scope t t' ht
      obtain ⟨-, rfl⟩ := List.cons.inj heq
      exact ih hc scope ht
    | none =>
      obtain ⟨c, hc, hB⟩ := Option.bind_eq_some_iff.1 h
      obtain ⟨l, r, hchildren⟩ := exists_children_putBlock path hb hc
      have hself : n.children = l ++ c :: r := by
        have hput := hchildren B
        rwa [putBlock_self h, putBlock_self hB] at hput
      rw [addScopes_children (block?_putBlock_cons hb), addScopes_children hb, hchildren F, hself]
      exact unmarked_foldl_append (fun t t' ht => ih hB scope ht) ht

/-- Scopes stand where they stood if a block is replaced by one with its span and its nodes. -/
theorem SyntaxTree.unmarked_scopes_putBlock {t : SyntaxTree} (h : t.block? path = some B)
    (hF : F.FitsIn B) : (t.putBlock path F).scopes.unmarked = t.scopes.unmarked :=
  Block.unmarked_putBlock path hF h
    (fun _ _ _ _ hc scope _ _ ht => Node.unmarked_putBlock hF hc scope ht)
    0 (ScopeTree.unmarked_create rfl .script none (Block.span_putBlock hF h) none)

end fits

/-! ## Findings have the spans of nodes -/

theorem Ranking.exists_of_mem_apply {k : Ranking} {p : Profile} {fs : List Finding} {f : Finding}
    (h : f ∈ k.apply p fs) : ∃ g ∈ fs, g.span = f.span := by
  obtain ⟨g, hg, rfl⟩ := List.mem_map.1 (List.mem_filter.1 h).1
  exact ⟨g, hg, rfl⟩

/-- A finding of a run has the span of a finding of one of its detectors. -/
theorem Roster.exists_check_of_mem_run {r : Roster} {t : SyntaxTree} {f : Finding}
    (h : f ∈ (r.run t).1) :
    ∃ d ∈ r.detectors, ∃ fs, d.check t r.sinks = .ok fs ∧ ∃ g ∈ fs, g.span = f.span := by
  let Known (f : Finding) : Prop :=
    ∃ d ∈ r.detectors, ∃ fs, d.check t r.sinks = .ok fs ∧ ∃ g ∈ fs, g.span = f.span
  suffices hrun : ∀ f ∈ (r.run t).1, Known f from hrun f h
  unfold run
  -- The invariant of the fold: every finding collected so far is known.
  refine List.foldlRecOn (motive := fun state : List Finding × List DetectorFault =>
    ∀ f ∈ state.1, Known f) _ _ (by simp) ?_
  intro state hstate d hd f hf
  have hmem : d ∈ r.detectors := (List.mem_filter.1 hd).1
  cases hcheck : d.check t r.sinks with
  | error e =>
    rw [hcheck] at hf
    exact hstate f hf
  | ok fs =>
    rw [hcheck] at hf
    rcases List.mem_append.1 hf with hf | hf
    · exact hstate f hf
    · exact ⟨d, hmem, fs, hcheck, Ranking.exists_of_mem_apply hf⟩

theorem Detector.span_of_computedMember? {frame : Frame} {n : Node} {m : ComputedMember}
    (h : computedMember? (.node frame n) = some m) : m.span = n.span := by
  cases n with
  | invocation i =>
    simp only [computedMember?] at h
    split at h
    · exact (Option.some.inj h) ▸ rfl
    · cases h
  | member target name isStatic span =>
    simp only [computedMember?] at h
    split at h
    · exact (Option.some.inj h) ▸ rfl
    · cases h
  | _ => cases h

section spans
variable {t : SyntaxTree} {r : SinkRegistry} {fs : List Finding} {f : Finding}

theorem Detector.span_of_mem_ofSites {p : Profile} {reports : CodeSite → Bool}
    {message : String → String} {suggestion : String}
    (hfs : (ofSites p reports message suggestion).check t r = .ok fs) (hf : f ∈ fs) :
    ∃ q ∈ t.positions, q.node.span = f.span := by
  obtain ⟨fs', hfs', hspans⟩ := spans_ofSites p reports message suggestion t r
  obtain rfl : fs' = fs := Except.ok.inj (hfs'.symm.trans hfs)
  obtain ⟨site, hsite, -, hspan⟩ := (hspans f.span).1 ⟨f, hf, rfl⟩
  obtain ⟨q, hq, hnode⟩ := SyntaxTree.span_of_mem_codeSites hsite
  exact ⟨q, hq, hnode.trans hspan⟩

theorem Detector.span_of_mem_memberInjection (hfs : memberInjection.check t r = .ok fs)
    (hf : f ∈ fs) : ∃ q ∈ t.positions, q.node.span = f.span := by
  obtain rfl := Except.ok.inj hfs
  obtain ⟨g, hg, hspan⟩ := Finding.exists_span_firstPerSpan.1 ⟨f, hf, rfl⟩
  obtain ⟨m, hm, rfl⟩ := List.mem_map.1 hg
  rw [List.filterMap_eq_flatMap_toList, ← t.flatMap_visits fun _ => rfl] at hm
  obtain ⟨q, hq, hm⟩ := List.mem_flatMap.1 hm
  have hnode : m.span = q.node.span := span_of_computedMember? (Option.mem_toList.1 hm)
  exact ⟨q, hq, hnode.symm.trans hspan⟩

theorem Detector.span_of_mem_check {d : Detector} (hd : d ∈ builtin) (hfs : d.check t r = .ok fs)
    (hf : f ∈ fs) : ∃ q ∈ t.positions, q.node.span = f.span := by
  obtain ⟨p, c, message, suggestion, rfl⟩ | rfl | rfl := builtin_cases hd
  · exact span_of_mem_ofSites hfs hf
  · exact span_of_mem_memberInjection hfs hf
  · exact span_of_mem_ofSites hfs hf

end spans

/-- A finding of the built-in detectors has the span of a node of the file. -/
theorem Config.span_of_mem_run {cfg : Config} {t : SyntaxTree} {f : Finding}
    (h : f ∈ (cfg.roster.run t).1) : ∃ q ∈ t.positions, q.node.span = f.span := by
  obtain ⟨d, hd, fs, hfs, g, hg, hspan⟩ := Roster.exists_check_of_mem_run h
  rw [cfg.detectors_roster] at hd
  obtain ⟨q, hq, hnode⟩ := Detector.span_of_mem_check hd hfs hg
  exact ⟨q, hq, hnode.trans hspan⟩

/-! ## One more annotation -/

/-- The block with other annotations. -/
def Block.annotated (b : Block) (annotations : List Annotation) : Block :=
  { b with annotations := annotations }

theorem Block.fitsIn_annotated (b : Block) (annotations : List Annotation) :
    (b.annotated annotations).FitsIn b :=
  ⟨rfl, rfl⟩

section annotated
variable {t : SyntaxTree} {F : Block} {path : List Slot}

/-- Walks of two files that differ in the annotations of a block differ in the visit of the
block. -/
theorem SyntaxTree.visits_annotated (hF : t.block? path = some F) (annotations : List Annotation) :
    ∃ l r, t.visits.map Visit.shell = l ++ Visit.shell (.block F.frame) :: r ∧
      (t.putBlock path (F.annotated annotations)).visits.map Visit.shell =
        l ++ Visit.shell (.block (F.annotated annotations).frame) :: r := by
  obtain ⟨l, r, hlr⟩ := visits_putBlock hF
  have hself : t.putBlock path F = t := by
    unfold putBlock
    rw [Block.putBlock_self hF]
  have hold := hlr F rfl
  have hnew := hlr (F.annotated annotations) rfl
  beta_reduce at hold hnew
  have hinside : ((F.annotated annotations).nodes.flatMap
        (·.visits (F.annotated annotations).frame)).map Visit.shell =
      (F.nodes.flatMap (·.visits F.frame)).map Visit.shell := by
    rw [List.map_flatMap, List.map_flatMap]
    refine List.flatMap_congr fun n _ => n.map_visits_congr Visit.shell fun m => ?_
    rfl
  refine ⟨l, (F.nodes.flatMap (·.visits F.frame)).map Visit.shell ++ r, ?_, ?_⟩
  · rw [hself, Block.visits_eq] at hold
    simpa only [List.map_cons, List.append_assoc, List.cons_append] using hold
  · rw [Block.visits_eq, List.map_cons, hinside] at hnew
    simpa only [List.append_assoc, List.cons_append] using hnew

theorem SyntaxTree.looksLike_annotated (hF : t.block? path = some F)
    (annotations : List Annotation) :
    (t.putBlock path (F.annotated annotations)).LooksLike t := by
  obtain ⟨l, r, hold, hnew⟩ := visits_annotated hF annotations
  refine ⟨rfl, rfl, ?_⟩
  unfold seen
  rw [hold, hnew, List.filter_append, List.filter_append]
  rfl

theorem ScopeTree.Nested.isSuppressed_iff {s : ScopeTree} (hn : s.Nested) (hwf : s.WellFormed)
    {detector : String} {span : Span} (hspan : span.start < span.stop) :
    s.isSuppressed detector span = true ↔
      ∃ x ∈ s.suppressions, x.detector = detector ∧ x.body.contains span = true := by
  rw [← exists_silences]
  constructor
  · intro h
    obtain ⟨c, hc⟩ := Option.isSome_iff_exists.1 h
    obtain ⟨hmem, hsil⟩ := covering?_silences hc
    exact ⟨c, hmem, hsil⟩
  · rintro ⟨c, hmem, hsil⟩
    obtain ⟨d, hd, -⟩ := hn.covering?_mem_ancestors hwf hspan hmem hsil
    exact Option.isSome_iff_exists.2 ⟨d, hd⟩

/-- Where scopes nest, one more annotation silences what it covers, and no more. -/
theorem SyntaxTree.isSuppressed_annotated (hF : t.block? path = some F) (hn : t.scopes.Nested)
    {before after : List Annotation} (hannotations : F.annotations = before ++ after)
    (a : Annotation) {detector : String} {span : Span} (hspan : span.start < span.stop) :
    (t.putBlock path (F.annotated (before ++ a :: after))).scopes.isSuppressed detector span =
      (t.scopes.isSuppressed detector span || (a.rule == detector && F.span.contains span)) := by
  have hnested := hn.of_unmarked
    (unmarked_scopes_putBlock hF (F.fitsIn_annotated (before ++ a :: after)))
  obtain ⟨l, r, hold, hnew⟩ := visits_annotated hF (before ++ a :: after)
  have hmarks : F.suppressions = before.map (fun a => ⟨a.rule, a.justification, F.span⟩) ++
      after.map fun a => ⟨a.rule, a.justification, F.span⟩ := by
    rw [Block.suppressions, hannotations, List.map_append]
  have hmarks' : (F.annotated (before ++ a :: after)).suppressions =
      before.map (fun a => ⟨a.rule, a.justification, F.span⟩) ++
        ⟨a.rule, a.justification, F.span⟩ ::
          after.map fun a => ⟨a.rule, a.justification, F.span⟩ := by
    rw [Block.suppressions, Block.annotated, List.map_append, List.map_cons]
  have hmem (x : Suppression) :
      x ∈ (t.putBlock path (F.annotated (before ++ a :: after))).scopes.suppressions ↔
        x ∈ t.scopes.suppressions ∨ x = ⟨a.rule, a.justification, F.span⟩ := by
    have hblock (b : Block) : Visit.suppressions (.block b.frame) = b.suppressions := rfl
    rw [suppressions_scopes, suppressions_scopes, hold, hnew]
    simp only [List.flatMap_append, List.flatMap_cons, List.mem_append, Visit.suppressions_shell,
      hblock, hmarks, hmarks', List.mem_cons]
    tauto
  rw [Bool.eq_iff_iff, Bool.or_eq_true, hnested.isSuppressed_iff (scopes_wellFormed _) hspan,
    hn.isSuppressed_iff t.scopes_wellFormed hspan, Bool.and_eq_true, beq_iff_eq]
  constructor
  · rintro ⟨x, hx, hdetector, hbody⟩
    rcases (hmem x).1 hx with hx | rfl
    · exact .inl ⟨x, hx, hdetector, hbody⟩
    · exact .inr ⟨hdetector, hbody⟩
  · rintro (⟨x, hx, hdetector, hbody⟩ | ⟨hdetector, hbody⟩)
    · exact ⟨x, (hmem x).2 (.inl hx), hdetector, hbody⟩
    · exact ⟨⟨a.rule, a.justification, F.span⟩, (hmem _).2 (.inr rfl), hdetector, hbody⟩

end annotated

theorem Roster.findings_report (r : Roster) (t : SyntaxTree) : (r.report t).findings =
    (r.run t).1.filter fun f => !t.scopes.isSuppressed f.detector f.span := by
  simp only [report, List.partition_eq_filter_filter]
  rfl

theorem Roster.suppressed_report (r : Roster) (t : SyntaxTree) : (r.report t).suppressed =
    (r.run t).1.filter fun f => t.scopes.isSuppressed f.detector f.span := by
  simp only [report, List.partition_eq_filter_filter]

/-- **An annotation moves findings and does nothing else.** In a file whose nodes have nonempty
spans and whose scopes nest, put one more annotation on a block, before, between or after those it
has. The detectors find what they found, and break down where they did. Of the findings that stood,
those of the rule that the annotation names stand no more if they lie inside the block. The
silenced findings are those that were silenced and these, in the order of the run. -/
theorem annotation_moves_findings (cfg : Config) (t : SyntaxTree) (path : List Slot) (F : Block)
    (before after : List Annotation) (a : Annotation) (hF : t.block? path = some F)
    (hannotations : F.annotations = before ++ after)
    (hspans : ∀ q ∈ t.positions, q.node.span.start < q.node.span.stop) (hn : t.scopes.Nested) :
    let t' := t.putBlock path (F.annotated (before ++ a :: after))
    let moved (f : Finding) : Bool := a.rule == f.detector && F.span.contains f.span
    cfg.roster.run t' = cfg.roster.run t ∧
    (cfg.roster.report t').faults = (cfg.roster.report t).faults ∧
    (cfg.roster.report t').findings = (cfg.roster.report t).findings.filter (fun f => !moved f) ∧
    (cfg.roster.report t').suppressed =
      (cfg.roster.run t).1.filter fun f =>
        t.scopes.isSuppressed f.detector f.span || moved f := by
  intro t' moved
  have hrun : cfg.roster.run t' = cfg.roster.run t :=
    (SyntaxTree.looksLike_annotated hF _).run_eq cfg.detectors_roster
  have hsuppressed : ∀ f ∈ (cfg.roster.run t).1, t'.scopes.isSuppressed f.detector f.span =
      (t.scopes.isSuppressed f.detector f.span || moved f) := by
    intro f hf
    obtain ⟨q, hq, hspan⟩ := Config.span_of_mem_run hf
    exact SyntaxTree.isSuppressed_annotated hF hn hannotations a (hspan ▸ hspans q hq)
  refine ⟨hrun, ?_, ?_, ?_⟩
  · exact congrArg Prod.snd hrun
  · rw [Roster.findings_report, Roster.findings_report, hrun, List.filter_filter]
    refine List.filter_congr fun f hf => ?_
    rw [hsuppressed f hf, Bool.not_or, Bool.and_comm]
  · rw [Roster.suppressed_report, hrun]
    exact List.filter_congr hsuppressed

/-- A function that evaluates its parameter. -/
def evaluating (name : String) (start : UInt32) (annotations : List Annotation) : Node :=
  .function name ⟨start, start + 40⟩
    { span := ⟨start + 10, start + 40⟩
      params := [⟨"p", ⟨start + 12, start + 14⟩, none⟩]
      annotations
      statements :=
        [.command
          { name := .literal "iex" ⟨start + 30, start + 33⟩
            elements := [.argument (.reference ⟨"p", ⟨start + 34, start + 36⟩⟩)]
            span := ⟨start + 30, start + 36⟩ }] }

/-- Two functions that evaluate their parameters; the first has an annotation for another rule. -/
def evaluatingTwice : SyntaxTree where
  path := "module.psm1"
  lineStarts := [0]
  root :=
    { span := ⟨0, 100⟩, params := [], annotations := []
      statements :=
        [evaluating "Get-First" 0 [⟨"InjectionRisk.AddType", some "reviewed", ⟨16, 28⟩⟩],
         evaluating "Get-Second" 50 []] }

theorem annotation_moves_findings_evaluatingTwice :
    ∃ F, evaluatingTwice.block? [.statement 0] = some F ∧
    F.annotations = [⟨"InjectionRisk.AddType", some "reviewed", ⟨16, 28⟩⟩] ++ [] ∧
    (∀ q ∈ evaluatingTwice.positions, q.node.span.start < q.node.span.stop) ∧
    evaluatingTwice.scopes.Nested ∧
    let a : Annotation := ⟨"InjectionRisk.InvokeExpression", none, ⟨29, 30⟩⟩
    let t' := evaluatingTwice.putBlock [.statement 0]
      (F.annotated ([⟨"InjectionRisk.AddType", some "reviewed", ⟨16, 28⟩⟩] ++ a :: []))
    let r := ({} : Config).roster
    r.run t' = r.run evaluatingTwice ∧
    ((r.report evaluatingTwice).findings.map (·.span) = [⟨30, 36⟩, ⟨80, 86⟩] ∧
      (r.report evaluatingTwice).suppressed = []) ∧
    ((r.report t').findings.map (·.span) = [⟨80, 86⟩] ∧
      (r.report t').suppressed.map (·.span) = [⟨30, 36⟩]) := by
  refine ⟨_, rfl, rfl, by decide +kernel, by decide +kernel, ?_⟩
  obtain ⟨hrun, -, hfindings, hsuppressed⟩ := annotation_moves_findings {} evaluatingTwice
    [.statement 0] _ [⟨"InjectionRisk.AddType", some "reviewed", ⟨16, 28⟩⟩] []
    ⟨"InjectionRisk.InvokeExpression", none, ⟨29, 30⟩⟩ rfl rfl (by decide +kernel)
    (by decide +kernel)
  refine ⟨hrun, by decide +kernel, ?_⟩
  rw [hfindings, hsuppressed]
  decide +kernel

end ScriptTaint
