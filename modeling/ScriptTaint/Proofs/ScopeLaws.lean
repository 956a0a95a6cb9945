import ScriptTaint.Scope.Tree

/-!
# Laws of the scope tree

A scope is created under one that exists, or under none. Every tree made so is `ScopeTree.Linked`:
ids are places, parents come before their children, and parents and children know each other. On a
linked tree the bound on the ways outwards and inwards is never felt. `ScopeTree.ancestors` unfolds
along the parents (`Linked.ancestors_eq`), and a way inwards goes through scopes that contain the
span (`Linked.inwards_path`) to one of which no child does (`Linked.inwards_end`).

What building a file's scopes does is said once: it creates scopes under scopes that exist
(`ScopeTree.Grown`). So the tree is `ScopeTree.WellFormed`: it is linked, and one scope has no
parent. The depth of a scope falls on the way outwards (`WellFormed.depth_lt`).
-/

set_option autoImplicit false

namespace ScriptTaint

namespace ScopeTree

variable {t t' t'' : ScopeTree} {i p : Nat} {c s : Scope}

theorem get?_lt (h : t.get? i = some s) : i < t.size :=
  (List.getElem?_eq_some_iff.1 h).1

theorem mem_of_get? (h : t.get? i = some s) : s ∈ t.scopes := List.mem_of_getElem? h

/-! ## Creating a scope -/

section create
variable (t : ScopeTree) (kind : ScopeKind) (parent : Option Nat) (b : Block)
  (name : Option String)

theorem size_create : (t.create kind parent b name).size = t.size + 1 := by
  simp [create, size]

theorem get?_create_size : (t.create kind parent b name).get? t.size =
    some ⟨t.size, kind, name, parent, [], b.span, b.suppressions⟩ := by
  simp [create, get?, size]

theorem get?_create_of_lt (h : i < t.size) : (t.create kind parent b name).get? i =
    (t.get? i).map fun s => { s with
      children := s.children ++ if parent = some s.id then [t.size] else [] } := by
  simp only [create, get?]
  rw [List.getElem?_append_left (by simpa [size] using h), List.getElem?_map]
  congr 1
  funext s
  split <;> simp

end create

/-- A scope after a creation is the new one, or an old one that may have a child more. -/
theorem get?_create_cases {kind : ScopeKind} {parent : Option Nat} {b : Block}
    {name : Option String} (h : (t.create kind parent b name).get? i = some s) :
    (i = t.size ∧ s = ⟨t.size, kind, name, parent, [], b.span, b.suppressions⟩) ∨
    ∃ c, t.get? i = some c ∧ s = { c with
      children := c.children ++ if parent = some c.id then [t.size] else [] } := by
  have hlt := get?_lt h
  rw [size_create] at hlt
  by_cases hi : i = t.size
  · subst hi
    rw [get?_create_size] at h
    exact .inl ⟨rfl, (Option.some.inj h).symm⟩
  · rw [get?_create_of_lt t kind parent b name (by omega)] at h
    obtain ⟨c, hc, rfl⟩ := Option.map_eq_some_iff.1 h
    exact .inr ⟨c, hc, rfl⟩

/-- `t'` is `t` with further scopes, each created under a scope that was there. -/
inductive Grown (t : ScopeTree) : ScopeTree → Prop
  | refl : Grown t t
  | create {t' : ScopeTree} {p : Nat} (kind : ScopeKind) (b : Block) (name : Option String) :
      Grown t t' → p < t'.size → Grown t (t'.create kind (some p) b name)

namespace Grown

theorem trans (h₁ : Grown t t') (h₂ : Grown t' t'') : Grown t t'' := by
  induction h₂ with
  | refl => exact h₁
  | create kind b name _ hp ih => exact .create kind b name ih hp

theorem size_le (h : Grown t t') : t.size ≤ t'.size := by
  induction h with
  | refl => exact Nat.le_refl _
  | create kind b name _ _ ih => rw [size_create]; omega

theorem foldl {nodes : List Node} {f : ScopeTree → Node → ScopeTree}
    (hf : ∀ n ∈ nodes, ∀ t : ScopeTree, p < t.size → Grown t (f t n)) (hp : p < t.size) :
    Grown t (nodes.foldl f t) := by
  induction nodes generalizing t with
  | nil => exact .refl
  | cons n nodes ih =>
    have hn := hf n List.mem_cons_self t hp
    have hrest := ih (fun m hm => hf m (List.mem_cons_of_mem _ hm)) (t := f t n)
      (Nat.lt_of_lt_of_le hp hn.size_le)
    exact hn.trans hrest

end Grown

end ScopeTree

/-! ## The scopes of a file -/

theorem Block.addScopes_eq (b : Block) (scope : Nat) (t : ScopeTree) :
    b.addScopes scope t = b.nodes.foldl (fun t n => n.addScopes scope t) t := by
  rw [addScopes]; simp [List.foldl_subtype]

/-- A node that opens a block gets a scope for it, and the block is searched under that scope. -/
theorem Node.addScopes_block {n : Node} {b : Block} (h : n.block? = some b) (scope : Nat)
    (t : ScopeTree) : ∃ kind name,
      n.addScopes scope t = b.addScopes t.size (t.create kind (some scope) b name) := by
  cases n with
  | scriptBlock body =>
    obtain rfl : body = b := Option.some.inj h
    exact ⟨.scriptBlock, none, by rw [addScopes.eq_def]⟩
  | function name span body =>
    obtain rfl : body = b := Option.some.inj h
    exact ⟨.function, some name, by rw [addScopes.eq_def]⟩
  | _ => exact absurd h (by simp [block?])

theorem Node.addScopes_children {n : Node} (h : n.block? = none) (scope : Nat) (t : ScopeTree) :
    n.addScopes scope t = n.children.foldl (fun t c => c.addScopes scope t) t := by
  rw [addScopes.eq_def]
  cases n with
  | scriptBlock | function => exact absurd h (by simp [block?])
  | _ => simp [List.foldl_subtype]

mutual

/-- The scopes inside a block are created under its own scope or under one another. -/
theorem Block.addScopes_grown (b : Block) {scope : Nat} {t : ScopeTree} (h : scope < t.size) :
    t.Grown (b.addScopes scope t) := by
  rw [Block.addScopes_eq]
  exact .foldl (fun n hn t ht => n.addScopes_grown ht) h
termination_by sizeOf b
decreasing_by exact Block.sizeOf_node hn

theorem Node.addScopes_grown (n : Node) {scope : Nat} {t : ScopeTree} (h : scope < t.size) :
    t.Grown (n.addScopes scope t) := by
  match hb : n.block? with
  | some b =>
    obtain ⟨kind, name, hn⟩ := n.addScopes_block hb scope t
    rw [hn]
    refine (ScopeTree.Grown.create kind b name .refl h).trans (b.addScopes_grown ?_)
    rw [ScopeTree.size_create]
    omega
  | none =>
    rw [Node.addScopes_children hb]
    exact .foldl (fun c hc t ht => c.addScopes_grown ht) h
termination_by sizeOf n
decreasing_by
  · exact Node.sizeOf_block hb
  · exact Node.sizeOf_child hc

end

namespace ScopeTree

variable {t t' : ScopeTree} {i p : Nat}

/-- What holds of scopes that were created under earlier ones, or under none. -/
structure Linked (t : ScopeTree) : Prop where
  id_eq {i : Nat} {s : Scope} : t.get? i = some s → s.id = i
  parent_lt {i p : Nat} {s : Scope} : t.get? i = some s → s.parent = some p → p < i
  mem_children {i c : Nat} {s : Scope} : t.get? i = some s →
    (c ∈ s.children ↔ ∃ d, t.get? c = some d ∧ d.parent = some i)
  /-- Children are in the order of their creation, each of them once. -/
  sorted_children {i : Nat} {s : Scope} : t.get? i = some s → s.children.Pairwise (· < ·)

namespace Linked

theorem empty : empty.Linked := by
  have hnone {i : Nat} {s : Scope} (h : ScopeTree.empty.get? i = some s) : False :=
    absurd (get?_lt h) (by simp [ScopeTree.empty, size])
  exact ⟨fun h => (hnone h).elim, fun h => (hnone h).elim, fun h => (hnone h).elim,
    fun h => (hnone h).elim⟩

/-- Creating a scope makes it a child of its parent and moves no other. -/
theorem exists_parent_create {parent : Option Nat} {c : Nat} (kind : ScopeKind) (b : Block)
    (name : Option String) :
    (∃ d, (t.create kind parent b name).get? c = some d ∧ d.parent = some i) ↔
      (∃ d, t.get? c = some d ∧ d.parent = some i) ∨ (c = t.size ∧ parent = some i) := by
  constructor
  · rintro ⟨d, hd, hi⟩
    rcases get?_create_cases hd with ⟨rfl, rfl⟩ | ⟨d', hd', rfl⟩
    · exact .inr ⟨rfl, hi⟩
    · exact .inl ⟨d', hd', hi⟩
  · rintro (⟨d, hd, hi⟩ | ⟨rfl, rfl⟩)
    · rw [get?_create_of_lt t kind _ b name (get?_lt hd), hd]
      exact ⟨_, rfl, hi⟩
    · exact ⟨_, get?_create_size t kind _ b name, rfl⟩

/-- Creating a scope under one that exists, or under none, keeps a tree linked. -/
theorem create (h : t.Linked) (kind : ScopeKind) (b : Block) (name : Option String)
    {parent : Option Nat} (hp : ∀ p, parent = some p → p < t.size) :
    (t.create kind parent b name).Linked := by
  constructor
  · intro i s hs
    rcases get?_create_cases hs with ⟨rfl, rfl⟩ | ⟨c, hc, rfl⟩
    · rfl
    · exact (h.id_eq hc :)
  · intro i q s hs hq
    rcases get?_create_cases hs with ⟨rfl, rfl⟩ | ⟨c, hc, rfl⟩
    · exact hp q hq
    · exact h.parent_lt hc hq
  · intro i k s hs
    rw [exists_parent_create]
    rcases get?_create_cases hs with ⟨rfl, rfl⟩ | ⟨c, hc, rfl⟩
    · -- Nothing has the new scope as its parent: parents come before their children.
      refine ⟨fun hk => absurd hk List.not_mem_nil, ?_⟩
      rintro (⟨d, hd, hi⟩ | ⟨-, hi⟩)
      · have := h.parent_lt hd hi
        have := get?_lt hd
        omega
      · exact absurd (hp _ hi) (Nat.lt_irrefl _)
    · rw [List.mem_append, h.mem_children hc, h.id_eq hc]
      by_cases hpi : parent = some i <;> simp [hpi]
  · intro i s hs
    rcases get?_create_cases hs with ⟨rfl, rfl⟩ | ⟨c, hc, rfl⟩
    · exact List.Pairwise.nil
    · refine List.pairwise_append.2 ⟨h.sorted_children hc, ?_, fun k hk m hm => ?_⟩
      · split
        · exact List.pairwise_singleton ..
        · exact List.Pairwise.nil
      · -- The new scope comes behind all others.
        obtain ⟨d, hd, -⟩ := (h.mem_children hc).1 hk
        split at hm
        · rw [List.mem_singleton.1 hm]
          exact get?_lt hd
        · exact absurd hm List.not_mem_nil

end Linked

/-- What holds of the scopes of every file. -/
structure WellFormed (t : ScopeTree) : Prop extends Linked t where
  /-- Only the scope of the file has no parent. -/
  eq_root {i : Nat} {s : Scope} : t.get? i = some s → s.parent = none → i = 0
  /-- A suppression covers the block it is declared on. -/
  body_eq {i : Nat} {s : Scope} {x : Suppression} : t.get? i = some s → x ∈ s.suppressions →
    x.body = s.span

namespace WellFormed

theorem root (b : Block) : (empty.create .script none b none).WellFormed where
  toLinked := Linked.empty.create .script b none (by simp)
  eq_root h _ := by
    have hlt := get?_lt h
    rw [size_create] at hlt
    exact Nat.lt_one_iff.1 hlt
  body_eq h hx := by
    rcases get?_create_cases h with ⟨-, rfl⟩ | ⟨c, hc, -⟩
    · obtain ⟨a, -, rfl⟩ := List.mem_map.1 hx
      rfl
    · exact absurd (get?_lt hc) (by simp [empty, size])

/-- Creating a scope under one that exists keeps a tree well-formed. -/
theorem create (h : t.WellFormed) (kind : ScopeKind) (b : Block) (name : Option String)
    (hp : p < t.size) : (t.create kind (some p) b name).WellFormed where
  toLinked := h.toLinked.create kind b name fun _ hq => Option.some.inj hq ▸ hp
  eq_root hs hq := by
    rcases get?_create_cases hs with ⟨rfl, rfl⟩ | ⟨c, hc, rfl⟩
    · cases hq
    · exact h.eq_root hc hq
  body_eq hs hx := by
    rcases get?_create_cases hs with ⟨rfl, rfl⟩ | ⟨c, hc, rfl⟩
    · obtain ⟨a, -, rfl⟩ := List.mem_map.1 hx
      rfl
    · exact (h.body_eq hc hx :)

theorem of_grown (h : t.WellFormed) (hg : Grown t t') : t'.WellFormed := by
  induction hg with
  | refl => exact h
  | create kind b name _ hp ih => exact ih.create kind b name hp

end WellFormed

end ScopeTree

theorem SyntaxTree.scopes_wellFormed (t : SyntaxTree) : t.scopes.WellFormed :=
  (ScopeTree.WellFormed.root t.root).of_grown
    (t.root.addScopes_grown (by rw [ScopeTree.size_create]; omega))

/-! ## The way outwards -/

namespace ScopeTree

variable {t : ScopeTree} {i : Nat} {c s : Scope}

/-- The number of scopes around a scope, itself included. -/
def depth (t : ScopeTree) (i : Nat) : Nat := (t.ancestors i).length

theorem mem_outwards {bound : Nat} (h : c ∈ t.outwards bound i) : c ∈ t.scopes := by
  induction bound generalizing i with
  | zero => exact absurd h List.not_mem_nil
  | succ bound ih =>
    rw [outwards] at h
    match hs : t.get? i with
    | none => simp [hs] at h
    | some s =>
      simp only [hs, List.mem_cons] at h
      rcases h with rfl | h
      · exact mem_of_get? hs
      · match hp : s.parent with
        | none => simp [hp] at h
        | some p => exact ih (i := p) (by simpa [hp] using h)

theorem exists_get?_of_mem_ancestors (hc : c ∈ t.ancestors i) : ∃ s, t.get? i = some s := by
  rw [ancestors] at hc
  match hs : t.get? i with
  | some s => exact ⟨s, rfl⟩
  | none =>
    cases hn : t.size with
    | zero => simp [hn, outwards] at hc
    | succ n => simp [hn, outwards, hs] at hc

namespace Linked

theorem root?_eq (h : t.Linked) (hc : c ∈ t.scopes) : t.root? = some 0 := by
  have hpos : 0 < t.scopes.length := List.length_pos_of_mem hc
  have hroot : t.get? 0 = some t.scopes[0] := List.getElem?_eq_getElem hpos
  rw [root?, List.head?_eq_getElem?, List.getElem?_eq_getElem hpos, Option.map_some, h.id_eq hroot]

theorem get?_id (h : t.Linked) (hc : c ∈ t.scopes) : t.get? c.id = some c := by
  obtain ⟨i, hi⟩ := List.getElem?_of_mem hc
  have hi : t.get? i = some c := hi
  rwa [h.id_eq hi]

/-- Parents come before their children, so any bound above the id gives the whole way. -/
theorem outwards_stable (h : t.Linked) {m n : Nat} (hm : i < m) (hn : i < n) :
    t.outwards m i = t.outwards n i := by
  induction m generalizing i n with
  | zero => omega
  | succ m ih =>
    obtain ⟨n, rfl⟩ : ∃ k, n = k + 1 := ⟨n - 1, by omega⟩
    rw [outwards, outwards]
    match hs : t.get? i with
    | none => rfl
    | some s =>
      match hp : s.parent with
      | none => simp [hp]
      | some p =>
        have := h.parent_lt hs hp
        simp [hp, ih (i := p) (n := n) (by omega) (by omega)]

theorem ancestors_eq (h : t.Linked) (hs : t.get? i = some s) :
    t.ancestors i = s :: (s.parent.map t.ancestors).getD [] := by
  have hi := get?_lt hs
  obtain ⟨n, hn⟩ : ∃ n, t.size = n + 1 := ⟨t.size - 1, by omega⟩
  rw [ancestors, hn, outwards, hs]
  match hp : s.parent with
  | none => simp [hp]
  | some p =>
    have := h.parent_lt hs hp
    simp [hp, ancestors, h.outwards_stable (i := p) (m := n) (n := t.size) (by omega) (by omega)]

theorem ancestors_root (h : t.Linked) (hs : t.get? i = some s) (hp : s.parent = none) :
    t.ancestors i = [s] := by
  rw [h.ancestors_eq hs, hp]; rfl

theorem ancestors_child (h : t.Linked) (hs : t.get? i = some s) {p : Nat}
    (hp : s.parent = some p) : t.ancestors i = s :: t.ancestors p := by
  rw [h.ancestors_eq hs, hp]; rfl

/-- Induction from scopes without a parent inwards. -/
theorem induction_inwards (h : t.Linked) {P : ∀ i s, t.get? i = some s → Prop}
    (root : ∀ i s hs, s.parent = none → P i s hs)
    (child : ∀ i s p d hs hd, s.parent = some p → P p d hd → P i s hs)
    (i : Nat) (s : Scope) (hs : t.get? i = some s) : P i s hs := by
  induction i using Nat.strongRecOn generalizing s with
  | ind i ih =>
    match hp : s.parent with
    | none => exact root i s hs hp
    | some p =>
      have hlt := h.parent_lt hs hp
      have hsize : p < t.scopes.length := Nat.lt_trans hlt (get?_lt hs)
      have hd : t.get? p = some t.scopes[p] := List.getElem?_eq_getElem hsize
      exact child i s p _ hs hd hp (ih p hlt _ hd)

end Linked

namespace WellFormed

/-- Induction from the root inwards. -/
theorem induction_inwards (h : t.WellFormed) {P : ∀ i s, t.get? i = some s → Prop}
    (root : ∀ s hs, s.parent = none → P 0 s hs)
    (child : ∀ i s p d hs hd, s.parent = some p → P p d hd → P i s hs)
    (i : Nat) (s : Scope) (hs : t.get? i = some s) : P i s hs := by
  refine h.toLinked.induction_inwards (fun i s hs hp => ?_) child i s hs
  obtain rfl := h.eq_root hs hp
  exact root s hs hp

/-- A scope around another one is less deep. -/
theorem depth_lt (h : t.WellFormed) (hs : t.get? i = some s) (hc : c ∈ t.ancestors i) :
    c = s ∨ t.depth c.id < t.depth i := by
  induction i, s, hs using h.induction_inwards with
  | root s hs hp =>
    rw [h.ancestors_root hs hp] at hc
    exact .inl (List.mem_singleton.1 hc)
  | child i s p d hs hd hp ih =>
    have hdepth : t.depth i = t.depth p + 1 := by
      rw [depth, h.ancestors_child hs hp, List.length_cons, depth]
    rw [h.ancestors_child hs hp] at hc
    rcases List.mem_cons.1 hc with rfl | hc
    · exact .inl rfl
    · rcases ih hc with rfl | hlt
      · rw [h.id_eq hd]
        exact .inr (by omega)
      · exact .inr (by omega)

end WellFormed

/-! ## The way inwards -/

namespace Linked

variable {b : Span}

/-- One step inwards goes to a child that contains the span. -/
theorem exists_child (h : t.Linked) {k : Nat} (hk : (((t.get? i).map (·.children)).getD []).find?
    (fun c => (t.get? c).any (·.span.contains b)) = some k) :
    ∃ d, t.get? k = some d ∧ d.parent = some i ∧ d.span.contains b = true := by
  have hmem := List.mem_of_find?_eq_some hk
  cases hi : t.get? i with
  | none => simp [hi] at hmem
  | some s =>
    obtain ⟨d, hd, hp⟩ := (h.mem_children hi).1 (by simpa [hi] using hmem)
    exact ⟨d, hd, hp, by simpa [hd] using List.find?_some hk⟩

/-- The way inwards goes through scopes that contain the span. -/
theorem inwards_path (h : t.Linked) (b : Span) (bound i : Nat) :
    ∃ path, t.ancestors (t.inwards b bound i) = path ++ t.ancestors i ∧
      ∀ c ∈ path, c.span.contains b = true := by
  induction bound generalizing i with
  | zero => exact ⟨[], rfl, by simp⟩
  | succ bound ih =>
    rw [inwards]
    split
    · exact ⟨[], rfl, by simp⟩
    · rename_i k hk
      obtain ⟨d, hd, hp, hin⟩ := h.exists_child hk
      obtain ⟨path, hpath, hall⟩ := ih k
      refine ⟨path ++ [d], by rw [hpath, h.ancestors_child hd hp]; simp, fun c hc => ?_⟩
      rcases List.mem_append.1 hc with hc | hc
      · exact hall c hc
      · rw [List.mem_singleton.1 hc]
        exact hin

/-- Children come behind their parents, so any bound that reaches to the last scope gives the whole
way. -/
theorem inwards_stable (h : t.Linked) {m n : Nat} (hm : t.size ≤ i + m) (hn : t.size ≤ i + n)
    (hs : t.get? i = some s) : t.inwards b m i = t.inwards b n i := by
  have hi := get?_lt hs
  induction m generalizing i n s with
  | zero => omega
  | succ m ih =>
    obtain ⟨n, rfl⟩ : ∃ k, n = k + 1 := ⟨n - 1, by omega⟩
    rw [inwards, inwards]
    cases hk : (((t.get? i).map (·.children)).getD []).find?
        (fun c => (t.get? c).any (·.span.contains b)) with
    | none => rfl
    | some k =>
      obtain ⟨d, hd, hp, -⟩ := h.exists_child hk
      have := h.parent_lt hd hp
      exact ih (by omega) (by omega) hd (get?_lt hd)

/-- Such a way ends where no child contains the span. -/
theorem inwards_end (h : t.Linked) {bound : Nat} (hb : t.size ≤ i + bound)
    (hs : t.get? i = some s) :
    ∃ d, t.get? (t.inwards b bound i) = some d ∧
      ∀ k e, t.get? k = some e → e.parent = some (t.inwards b bound i) →
        e.span.contains b = false := by
  induction bound generalizing i s with
  | zero =>
    have := get?_lt hs
    omega
  | succ bound ih =>
    rw [inwards]
    split
    · rename_i hnone
      refine ⟨s, hs, fun k e he hp => ?_⟩
      have hk : k ∈ s.children := (h.mem_children hs).2 ⟨e, he, hp⟩
      simpa [hs, he] using List.find?_eq_none.1 hnone k (by simpa [hs] using hk)
    · rename_i k hk
      obtain ⟨d, hd, hp, -⟩ := h.exists_child hk
      have := h.parent_lt hd hp
      exact ih (by omega) hd

end Linked

end ScopeTree

end ScriptTaint
