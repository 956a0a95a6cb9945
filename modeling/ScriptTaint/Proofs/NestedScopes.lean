import ScriptTaint.Proofs.LayoutLaws
import ScriptTaint.Proofs.Walks

/-!
# Scopes of sound trees

Scopes nest where the spans of a file are sound. A scope has the span of a block, and blocks are
parts like all others: each lies inside the parts around it, and apart from what it stands beside
(`SyntaxTree.scopes_nested`). Along the way `Nest` says the same of the scopes created so far, for the
nodes they were created from.
-/

set_option autoImplicit false

namespace ScriptTaint

/-! ## The nodes of one scope -/

/-- The node that a constituent adds to the scope in which it stands. -/
def Part.scoped? : Part → Option Node
  | .node n => some n
  | .element e => e.operand?
  | .param p => p.default?
  | .block _ | .nameUse _ | .suppression _ | .token _ => none

theorem Part.within_of_scoped? {p : Part} {n : Node} (h : p.scoped? = some n) :
    (Part.node n).Within p := by
  cases p with
  | node m =>
    obtain rfl : m = n := Option.some.inj h
    exact .self _
  | element e => exact .deeper (by simp [constituents, show e.operand? = some n from h]) (.self _)
  | param q => exact .deeper (by simp [constituents, show q.default? = some n from h]) (.self _)
  | _ => cases h

theorem Node.filterMap_scoped? {n : Node} (h : n.block? = none) :
    (Part.node n).constituents.filterMap Part.scoped? = n.children := by
  have hnodes (ns : List Node) : (ns.map Part.node).filterMap Part.scoped? = ns := by
    rw [List.filterMap_map]
    exact List.filterMap_some
  cases n with
  | command c =>
    show c.name :: (c.elements.map Part.element).filterMap Part.scoped? = _
    rw [List.filterMap_map]
    rfl
  | forEach item iterable body span =>
    show iterable :: (body.map Part.node).filterMap Part.scoped? = _
    rw [hnodes]
    rfl
  | scriptBlock | function => cases h
  | _ => exact hnodes _

theorem Node.constituents_of_block? {n : Node} {b : Block} (h : n.block? = some b) :
    (Part.node n).constituents = [.block b] := by
  cases n with
  | scriptBlock c | function _ _ c =>
    obtain rfl : c = b := Option.some.inj h
    rfl
  | _ => cases h

theorem Block.filterMap_scoped? (b : Block) :
    (Part.block b).constituents.filterMap Part.scoped? = b.nodes := by
  have hnone : b.annotations.filterMap (Part.scoped? ∘ Part.suppression) = [] :=
    List.filterMap_eq_nil_iff.2 fun _ _ => rfl
  have hsome : b.statements.filterMap (Part.scoped? ∘ Part.node) = b.statements :=
    List.filterMap_some
  rw [Part.constituents, List.filterMap_append, List.filterMap_append, List.filterMap_map,
    List.filterMap_map, List.filterMap_map, hnone, hsome, List.append_nil]
  rfl

/-- The nodes that a sound part adds to its scope lie inside it and apart from each other. -/
theorem Part.Sound.scoped {p : Part} (h : p.Sound) :
    (∀ n ∈ p.constituents.filterMap scoped?,
      (Part.node n).Sound ∧ p.span.contains n.span = true) ∧
    (p.constituents.filterMap scoped?).Pairwise fun m n => ¬m.span.Overlaps n.span := by
  constructor
  · intro n hn
    obtain ⟨q, hq, hqn⟩ := List.mem_filterMap.1 hn
    exact h.within (.deeper hq (within_of_scoped? hqn))
  · refine h.apart_within.filterMap scoped? fun q r hqr m hm n hn => ?_
    exact hqr (.node m) (.node n) (within_of_scoped? hm) (within_of_scoped? hn)

/-! ## Scopes created one after the other -/

/-- Scopes are created from `next` on for nodes of `scope` with these spans. Each lies in one of the
spans, and in its parent if that is among them; those with one parent are apart. -/
structure Nest (spans : List Span) (next : Nat) (scope : Option Nat) (cs : List Creation) :
    Prop where
  inside : ∀ c ∈ cs, ∃ s ∈ spans, s.contains c.block.span = true
  parent : ∀ c ∈ cs, c.parent = scope ∨ ∃ p d, c.parent = some (next + p) ∧ cs[p]? = some d ∧
    d.block.span.contains c.block.span = true
  apart : cs.Pairwise fun c d => c.parent = d.parent → ¬c.block.span.Overlaps d.block.span

namespace Nest

variable {spans spans' : List Span} {next : Nat} {scope : Option Nat} {cs cs' : List Creation}

theorem nil (spans : List Span) (next : Nat) (scope : Option Nat) : Nest spans next scope [] :=
  ⟨by simp, by simp, List.Pairwise.nil⟩

theorem widen {s : Span} (h : Nest spans next scope cs)
    (hs : ∀ t ∈ spans, s.contains t = true) : Nest [s] next scope cs where
  inside c hc := by
    obtain ⟨t, ht, hcontains⟩ := h.inside c hc
    exact ⟨s, List.mem_singleton_self s, Span.contains_trans (hs t ht) hcontains⟩
  parent := h.parent
  apart := h.apart

theorem append (h : Nest spans next scope cs) (h' : Nest spans' (next + cs.length) scope cs')
    (hspans : ∀ s ∈ spans, ∀ t ∈ spans', ¬s.Overlaps t) :
    Nest (spans ++ spans') next scope (cs ++ cs') where
  inside c hc := by
    rcases List.mem_append.1 hc with hc | hc
    · obtain ⟨s, hs, hcontains⟩ := h.inside c hc
      exact ⟨s, List.mem_append_left _ hs, hcontains⟩
    · obtain ⟨s, hs, hcontains⟩ := h'.inside c hc
      exact ⟨s, List.mem_append_right _ hs, hcontains⟩
  parent c hc := by
    rcases List.mem_append.1 hc with hc | hc
    · refine (h.parent c hc).imp_right ?_
      rintro ⟨p, d, hp, hd, hcontains⟩
      refine ⟨p, d, hp, ?_, hcontains⟩
      rw [List.getElem?_append_left (List.getElem?_eq_some_iff.1 hd).1, hd]
    · refine (h'.parent c hc).imp_right ?_
      rintro ⟨p, d, hp, hd, hcontains⟩
      refine ⟨cs.length + p, d, by rw [hp, Nat.add_assoc], ?_, hcontains⟩
      rw [List.getElem?_append_right (by omega), Nat.add_sub_cancel_left, hd]
  apart := by
    refine List.pairwise_append.2 ⟨h.apart, h'.apart, fun c hc d hd _ => ?_⟩
    obtain ⟨s, hs, hcs⟩ := h.inside c hc
    obtain ⟨t, ht, hdt⟩ := h'.inside d hd
    exact Span.not_overlaps_within (hspans s hs t ht) hcs hdt

/-- The scope of a block is created before the scopes inside the block. -/
theorem block {b : Block} (h : Nest [b.span] (next + 1) (some next) cs)
    (hscope : ∀ i, scope = some i → i < next) (kind : ScopeKind) (name : Option String) :
    Nest [b.span] next scope (⟨kind, scope, b, name⟩ :: cs) where
  inside := List.forall_mem_cons.2 ⟨⟨b.span, by simp, b.span.contains_refl⟩, h.inside⟩
  parent := by
    refine List.forall_mem_cons.2 ⟨.inl rfl, fun c hc => .inr ?_⟩
    rcases h.parent c hc with hparent | ⟨p, d, hp, hd, hcontains⟩
    · obtain ⟨s, hs, hcontains⟩ := h.inside c hc
      rw [List.mem_singleton.1 hs] at hcontains
      exact ⟨0, _, hparent, rfl, hcontains⟩
    · refine ⟨p + 1, d, ?_, hd, hcontains⟩
      rw [hp]
      congr 1
      omega
  apart := by
    refine List.pairwise_cons.2 ⟨fun c hc hparent => ?_, h.apart⟩
    -- The scopes inside have parents from `next` on, and the block's own parent is older.
    rcases h.parent c hc with hc' | ⟨p, -, hp, -⟩
    · have := hscope next (hparent.trans hc')
      omega
    · have := hscope _ (hparent.trans hp)
      omega

end Nest

theorem exists_nest_foldl {nodes : List Node} {scope : Nat}
    (h : ∀ n ∈ nodes, ∀ t : ScopeTree, scope < t.size → ∃ cs,
      n.addScopes scope t = t.makeAll cs ∧ Nest [n.span] t.size (some scope) cs)
    (hapart : nodes.Pairwise fun m n => ¬m.span.Overlaps n.span) (t : ScopeTree)
    (ht : scope < t.size) :
    ∃ cs, nodes.foldl (fun t n => n.addScopes scope t) t = t.makeAll cs ∧
      Nest (nodes.map (·.span)) t.size (some scope) cs := by
  induction nodes generalizing t with
  | nil => exact ⟨[], rfl, .nil _ _ _⟩
  | cons n nodes ih =>
    rw [List.forall_mem_cons] at h
    obtain ⟨hfirst, hrest⟩ := List.pairwise_cons.1 hapart
    obtain ⟨cs, hcs, hnest⟩ := h.1 t ht
    have hsize := t.size_makeAll cs
    obtain ⟨cs', hcs', hnest'⟩ := ih h.2 hrest (t.makeAll cs) (by omega)
    rw [hsize] at hnest'
    refine ⟨cs ++ cs', ?_, hnest.append hnest' ?_⟩
    · rw [List.foldl_cons, hcs, hcs', ScopeTree.makeAll_append]
    · intro s hs u hu
      obtain ⟨m, hm, rfl⟩ := List.mem_map.1 hu
      rw [List.mem_singleton.1 hs]
      exact hfirst m hm

/-- The scope of a sound block and those inside it nest. -/
theorem Block.exists_nest {b : Block} (hb : (Part.block b).Sound)
    (h : ∀ n ∈ b.nodes, ∀ (scope : Nat) (t : ScopeTree), scope < t.size → ∃ cs,
      n.addScopes scope t = t.makeAll cs ∧ Nest [n.span] t.size (some scope) cs)
    (kind : ScopeKind) (parent : Option Nat) (name : Option String) (t : ScopeTree)
    (hparent : ∀ i, parent = some i → i < t.size) :
    ∃ cs, b.addScopes t.size (t.create kind parent b name) = t.makeAll cs ∧
      Nest [b.span] t.size parent cs := by
  obtain ⟨hinside, hapart⟩ := hb.scoped
  rw [b.filterMap_scoped?] at hinside hapart
  have hsize : (t.create kind parent b name).size = t.size + 1 := ScopeTree.size_create ..
  obtain ⟨cs, hcs, hnest⟩ := exists_nest_foldl (fun n hn => h n hn t.size) hapart
    (t.create kind parent b name) (by omega)
  rw [hsize] at hnest
  have hwide : Nest [b.span] (t.size + 1) (some t.size) cs := by
    refine hnest.widen fun s hs => ?_
    obtain ⟨n, hn, rfl⟩ := List.mem_map.1 hs
    exact (hinside n hn).2
  refine ⟨⟨kind, parent, b, name⟩ :: cs, ?_, hwide.block hparent kind name⟩
  rw [Block.addScopes_eq, hcs]
  rfl

theorem Node.exists_nest {n : Node} (hn : (Part.node n).Sound) (scope : Nat) (t : ScopeTree)
    (ht : scope < t.size) :
    ∃ cs, n.addScopes scope t = t.makeAll cs ∧ Nest [n.span] t.size (some scope) cs := by
  induction n using Node.induction_parts generalizing scope t with
  | step n ih =>
    have inside (nodes : List Node) (hnodes : n.parts.map (·.2) = nodes)
        (hsound : ∀ m ∈ nodes, (Part.node m).Sound) :
        ∀ m ∈ nodes, ∀ (scope : Nat) (t : ScopeTree), scope < t.size → ∃ cs,
          m.addScopes scope t = t.makeAll cs ∧ Nest [m.span] t.size (some scope) cs := by
      intro m hm
      obtain ⟨p, hp, rfl⟩ := List.mem_map.1 (hnodes ▸ hm)
      exact ih p hp (hsound _ hm)
    cases hb : n.block? with
    | some b =>
      have hmem : Part.block b ∈ (Part.node n).constituents := by
        rw [constituents_of_block? hb]
        exact List.mem_singleton_self _
      have hsound := hn.inner hmem
      obtain ⟨hscoped, -⟩ := hsound.scoped
      rw [b.filterMap_scoped?] at hscoped
      obtain ⟨kind, name, hadd⟩ := n.addScopes_block hb scope t
      obtain ⟨cs, hcs, hnest⟩ := b.exists_nest hsound
        (inside _ (map_snd_parts_block hb) fun m hm => (hscoped m hm).1) kind (some scope) name t
        (fun i hi => Option.some.inj hi ▸ ht)
      refine ⟨cs, hadd.trans hcs, hnest.widen fun s hs => ?_⟩
      rw [List.mem_singleton.1 hs]
      exact hn.covers hmem
    | none =>
      obtain ⟨hscoped, hapart⟩ := hn.scoped
      rw [n.filterMap_scoped? hb] at hscoped hapart
      obtain ⟨cs, hcs, hnest⟩ := exists_nest_foldl
        (fun m hm => inside _ (map_snd_parts hb) (fun m hm => (hscoped m hm).1) m hm scope)
        hapart t ht
      refine ⟨cs, (addScopes_children hb scope t).trans hcs, hnest.widen fun s hs => ?_⟩
      obtain ⟨m, hm, rfl⟩ := List.mem_map.1 hs
      exact (hscoped m hm).2

/-- The scopes of a file nest if the spans in it are sound. -/
theorem SyntaxTree.scopes_nested {t : SyntaxTree} (h : (Part.block t.root).Sound) :
    t.scopes.Nested := by
  obtain ⟨hscoped, -⟩ := h.scoped
  rw [t.root.filterMap_scoped?] at hscoped
  obtain ⟨cs, hcs, hnest⟩ := t.root.exists_nest h
    (fun n hn => Node.exists_nest (hscoped n hn).1) .script none none .empty (fun i hi => by cases hi)
  have hscopes : t.scopes = ScopeTree.empty.makeAll cs := hcs
  have made (c : Scope) (hc : c ∈ t.scopes.scopes) :
      ∃ x, cs[c.id]? = some x ∧ c.parent = x.parent ∧ c.span = x.block.span := by
    obtain ⟨i, hi⟩ := List.mem_iff_getElem?.1 hc
    obtain ⟨x, hx, hchildless⟩ := ScopeTree.exists_creation (hscopes ▸ hi)
    obtain rfl : c.id = i := congrArg Scope.id hchildless
    exact ⟨x, hx, congrArg Scope.parent hchildless, congrArg Scope.span hchildless⟩
  constructor
  · intro c hc p hp hparent
    obtain ⟨x, hx, hxparent, hxspan⟩ := made c hc
    obtain ⟨y, hy, -, hyspan⟩ := made p hp
    rw [hxparent] at hparent
    rcases hnest.parent x (List.mem_of_getElem? hx) with hnone | ⟨i, d, hi, hd, hcontains⟩
    · rw [hnone] at hparent
      cases hparent
    · obtain rfl : p.id = i := by
        rw [hparent] at hi
        exact (Option.some.inj hi).trans (Nat.zero_add i)
      obtain rfl : y = d := Option.some.inj (hy.symm.trans hd)
      rwa [hxspan, hyspan]
  · intro c hc d hd hparent hne
    obtain ⟨x, hx, hxparent, hxspan⟩ := made c hc
    obtain ⟨y, hy, hyparent, hyspan⟩ := made d hd
    rw [hxparent, hyparent] at hparent
    rw [hxspan, hyspan]
    obtain ⟨hlt, rfl⟩ := List.getElem?_eq_some_iff.1 hx
    obtain ⟨hlt', rfl⟩ := List.getElem?_eq_some_iff.1 hy
    have hapart := List.pairwise_iff_getElem.1 hnest.apart
    rcases Nat.lt_or_gt_of_ne hne with h | h
    · exact hapart _ _ hlt hlt' h hparent
    · exact Span.not_overlaps_symm (hapart _ _ hlt' hlt h hparent.symm)

end ScriptTaint
