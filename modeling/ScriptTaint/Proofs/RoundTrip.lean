import Mathlib.Data.List.Sort
import ScriptTaint.Proofs.Rereading

/-!
# Reading back what was written

The written form of a file is always accepted (`SyntaxTree.contract_toJson`), and read as a file
that differs from the first at most in its nodes (`SyntaxTree.decode_toJson`). `Node.reread` is what
becomes of a node. It is the node itself exactly if all unsupported nodes in it are settled
(`Node.reread_eq_self_iff_positions`), so a file comes back exactly if all of its are
(`SyntaxTree.decode_toJson_eq_self`).

A node is tried as a modelled one first, and an unsupported node takes all the nodes that it finds
in its fields for its children, sorted. These are the two ways to come back changed.
-/

set_option autoImplicit false

namespace ScriptTaint

open Json (Recast Distinct)

/-! ## A node read back -/

/-- The node that the written form of a node is read as. -/
def Node.reread (n : Node) : Node := (Node.ofJson? n.toJson).getD n

/-- What one step of reading makes of a node if `g` tells what becomes of the nodes inside. -/
def Node.readStep (g : Node → Node) : Node → Node
  | .unsupported kind span children =>
    ((Kind.ofTag? (.text kind)).bind (·.bare? span)).getD
      (.unsupported kind span (sortByStart (children.map g)))
  | n => n.mapFields fun _ => g

theorem Node.readStep_of_hasKind {g : Node → Node} {n : Node} (h : n.HasKind) :
    n.readStep g = n.mapFields fun _ => g := by
  cases n with
  | unsupported => exact h.elim
  | _ => rfl

theorem Node.ofJsonWithin?_readStep {n : Node} {levels : Nat} {g : Node → Node}
    (h : ∀ ψ, Recast ψ → ∀ c ∈ n.parts.map (·.2), ofJsonWithin? levels (ψ c.toJson) = some (g c))
    {φ : Json → Json} (hφ : Recast φ) :
    ofJsonWithin? (levels + 1) (φ n.toJson) = some (n.readStep g) := by
  rw [ofJsonWithin?_succ]
  by_cases hn : n.HasKind
  · rw [modelled?_recast hφ hn (h φ hφ), readStep_of_hasKind hn]
    rfl
  · cases n with
    | unsupported kind span children =>
      -- The children are made canonical before they are read, which is a recasting like any other.
      have hchildren : ∀ c ∈ children, ofJsonWithin? levels (φ c.toJson).canonical = some (g c) :=
        fun c hc => h _ (Recast.canonical.comp hφ) c (by simpa [parts, map_snd_listed] using hc)
      rw [modelled?_unsupported hφ, unsupported?_recast hφ kind span hchildren, readStep]
      cases (Kind.ofTag? (.text kind)).bind (·.bare? span) <;> rfl
    | _ => exact absurd trivial hn

/-- The node is read as the same one however its written form is recast, and with any room to
spare. -/
def Node.Rereads (n : Node) : Prop :=
  ∀ φ, Recast φ → ∀ levels, n.toJson.nesting ≤ levels →
    ofJsonWithin? levels (φ n.toJson) = some n.reread

theorem Node.ofJsonWithin?_of_rereads {n : Node} (h : ∀ p ∈ n.parts, p.2.Rereads)
    {φ : Json → Json} (hφ : Recast φ) {levels : Nat} (hlevels : n.toJson.nesting ≤ levels) :
    ofJsonWithin? levels (φ n.toJson) = some (n.readStep reread) := by
  cases levels with
  | zero =>
    obtain ⟨fields, hn, -⟩ := n.toJson_eq_object
    have hpart : (Json.text n.title).nesting < n.toJson.nesting :=
      Json.nesting_part (by simp [hn, Json.parts])
    omega
  | succ levels =>
    refine ofJsonWithin?_readStep (fun ψ hψ c hc => ?_) hφ
    have hlt := nesting_part hc
    obtain ⟨p, hp, rfl⟩ := List.mem_map.1 hc
    exact h p hp ψ hψ levels (by omega)

theorem Node.reread_of_rereads {n : Node} (h : ∀ p ∈ n.parts, p.2.Rereads) :
    n.reread = n.readStep reread := by
  have hn := ofJsonWithin?_of_rereads h Recast.refl (Nat.le_refl _)
  rw [reread, ofJson?, hn]
  rfl

/-- Every node rereads: the nodes inside it do, and one level less is room enough for them. -/
theorem Node.rereads (n : Node) : n.Rereads := by
  induction n using Node.induction_parts with
  | step n ih =>
    intro φ hφ levels hlevels
    rw [reread_of_rereads ih]
    exact ofJsonWithin?_of_rereads ih hφ hlevels

theorem Node.reread_eq (n : Node) : n.reread = n.readStep reread :=
  reread_of_rereads fun p _ => p.2.rereads

/-- Reading the written form of a node never fails. -/
theorem Node.ofJson?_toJson (n : Node) : Node.ofJson? n.toJson = some n.reread :=
  n.rereads _ Recast.refl _ (Nat.le_refl _)

/-! ## Nodes that come back -/

/-- The order in which the children of an unsupported node are read. -/
def Node.StartsBy (c d : Node) : Prop := c.span.start ≤ d.span.start

instance : DecidableRel Node.StartsBy := fun c d =>
  inferInstanceAs (Decidable (c.span.start ≤ d.span.start))

theorem Node.sortByStart_eq (ns : List Node) : sortByStart ns = ns.insertionSort StartsBy := by
  have hinsert (n : Node) (ms : List Node) : insertByStart n ms = ms.orderedInsert StartsBy n := by
    induction ms with
    | nil => rfl
    | cons m ms ih =>
      rw [insertByStart, List.orderedInsert_cons, ih]
      rfl
  induction ns with
  | nil => rfl
  | cons n ns ih =>
    rw [sortByStart, List.foldr_cons, ← sortByStart, hinsert, ih, List.insertionSort_cons]

instance : Std.Total Node.StartsBy := ⟨fun c d => UInt32.le_total c.span.start d.span.start⟩

instance : IsTrans Node Node.StartsBy := ⟨fun _ _ _ => UInt32.le_trans⟩

/-- Sorting nodes that were changed gives the nodes themselves only if they were sorted and the
changes kept them: a change keeps where a node starts. -/
theorem Node.sortByStart_map_eq_self {g : Node → Node} (hg : ∀ n, (g n).span = n.span)
    {ns : List Node} :
    sortByStart (ns.map g) = ns ↔ ns.Pairwise StartsBy ∧ ∀ n ∈ ns, g n = n := by
  have hsorted : (ns.map g).Pairwise StartsBy ↔ ns.Pairwise StartsBy := by
    rw [List.pairwise_map]
    exact List.Pairwise.iff fun c d => by simp only [StartsBy, hg]
  have hmap : ns.map g = ns ↔ ∀ n ∈ ns, g n = n := by
    simpa using List.map_inj_left (f := g) (g := id) (l := ns)
  rw [sortByStart_eq]
  constructor
  · intro h
    have hns : ns.Pairwise StartsBy := h ▸ List.pairwise_insertionSort StartsBy (ns.map g)
    rw [(hsorted.2 hns).insertionSort_eq] at h
    exact ⟨hns, hmap.1 h⟩
  · rintro ⟨hns, h⟩
    rw [(hsorted.2 hns).insertionSort_eq]
    exact hmap.2 h

theorem Kind.of_bare?_eq_some {span : Span} {k : Kind} {n : Node} (h : k.bare? span = some n) :
    n.span = span ∧ n.HasKind := by
  cases k <;> cases h <;> exact ⟨rfl, trivial⟩

/-- The titles of the kinds that can do without fields. -/
theorem Kind.bind_bare?_eq_none (span : Span) (kind : String) :
    (ofTag? (.text kind)).bind (·.bare? span) = none ↔
      kind ≠ "ArrayLiteral" ∧ kind ≠ "SubExpression" ∧ kind ≠ "ScriptBlock" := by
  cases htag : ofTag? (.text kind) with
  | none =>
    have hne (k : Kind) : kind ≠ k.title := by
      intro heq
      exact List.find?_eq_none.1 htag k (by cases k <;> decide) (beq_iff_eq.2 heq.symm)
    exact iff_of_true rfl ⟨hne .arrayLiteral, hne .subExpression, hne .scriptBlock⟩
  | some k =>
    obtain rfl : k.title = kind := by simpa using List.find?_some htag
    cases k <;> simp [bare?, title]

theorem Node.span_reread (n : Node) : n.reread.span = n.span := by
  rw [reread_eq]
  cases n with
  | unsupported kind span children =>
    rw [readStep]
    cases h : (Kind.ofTag? (.text kind)).bind (·.bare? span) with
    | none => rfl
    | some m =>
      obtain ⟨k, -, hk⟩ := Option.bind_eq_some_iff.1 h
      exact (Kind.of_bare?_eq_some hk).1
  | _ => rfl

/-- An unsupported node has a kind of its own and its children in order. -/
def Node.Settled (n : Node) : Prop :=
  ∀ kind span children, n = .unsupported kind span children →
    (kind ≠ "ArrayLiteral" ∧ kind ≠ "SubExpression" ∧ kind ≠ "ScriptBlock") ∧
      children.Pairwise StartsBy

/-- A node comes back exactly if it is settled and the nodes in its fields come back. -/
theorem Node.reread_eq_self {n : Node} :
    n.reread = n ↔ n.Settled ∧ ∀ s c, n.at? s = some c → c.reread = c := by
  rw [reread_eq]
  by_cases hn : n.HasKind
  · have hsettled : n.Settled := by
      rintro kind span children rfl
      exact hn.elim
    rw [readStep_of_hasKind hn, mapFields_eq_self_iff]
    exact (and_iff_right hsettled).symm
  · cases n with
    | unsupported kind span children =>
      have hfields : (∀ s c, (unsupported kind span children).at? s = some c → c.reread = c) ↔
          ∀ c ∈ children, c.reread = c := by
        constructor
        · intro h c hc
          obtain ⟨i, hi⟩ := List.mem_iff_getElem?.1 hc
          exact h (.child i) c hi
        · intro h s c hc
          cases s with
          | child i => exact h c (List.mem_of_getElem? hc)
          | _ => cases hc
      rw [readStep, hfields]
      cases h : (Kind.ofTag? (.text kind)).bind (·.bare? span) with
      | none =>
        simp [Settled, (Kind.bind_bare?_eq_none span kind).1 h, sortByStart_map_eq_self span_reread]
      | some m =>
        -- The node comes back as a modelled one, which it is not.
        have hkind : ¬(kind ≠ "ArrayLiteral" ∧ kind ≠ "SubExpression" ∧ kind ≠ "ScriptBlock") := by
          rw [← Kind.bind_bare?_eq_none span, h]
          exact Option.some_ne_none m
        obtain ⟨k, -, hk⟩ := Option.bind_eq_some_iff.1 h
        refine iff_of_false ?_ fun hsettled => hkind (hsettled.1 kind span children rfl).1
        rintro rfl
        exact (Kind.of_bare?_eq_some hk).2
    | _ => exact absurd trivial hn

theorem forall_mem_positionsIn {scope : Block} {parts : List (Slot × Node)} {P : Node → Prop} :
    (∀ q ∈ positionsIn scope parts, P q.node) ↔
      ∀ p ∈ parts, ∀ q ∈ p.2.positions scope, P q.node := by
  simp only [positionsIn, List.forall_mem_flatMap, List.forall_mem_map, Position.under]

theorem Node.reread_eq_self_iff_positions (n : Node) (scope : Block) :
    n.reread = n ↔ ∀ q ∈ n.positions scope, q.node.Settled := by
  induction n using Node.induction_parts generalizing scope with
  | step n ih =>
    rw [reread_eq_self, positions_eq, List.forall_mem_cons, forall_mem_positionsIn]
    refine and_congr_right fun _ => ?_
    constructor
    · intro h p hp
      exact (ih p hp _).1 (h p.1 p.2 (mem_parts.1 hp))
    · intro h s c hc
      have hp := mem_parts.2 hc
      exact (ih _ hp _).2 (h _ hp)

/-! ## Contracts -/

namespace Json.Contract

@[simp] theorem text_text (s : String) : Contract.text (.text s) = none := rfl

@[simp] theorem offset_natural (o : UInt32) : offset (.natural o.toNat) = none := by
  have ho := Json.offset?_recast Recast.refl o
  simp [offset, scalar, ho]

theorem optional_ofOption {α : Type} {c : Contract} {write : α → Json} {x : Option α}
    (h : ∀ a, x = some a → c (write a) = none) : optional c (Json.ofOption write x) = none := by
  cases x with
  | none => rfl
  | some a =>
    unfold Json.ofOption optional
    split
    · rfl
    · exact h a rfl

theorem list_map {α : Type} {c : Contract} {write : α → Json} {l : List α}
    (h : ∀ a ∈ l, c (write a) = none) : list c (.array (l.map write)) = none := by
  rw [list, List.findSome?_eq_none_iff]
  exact List.forall_mem_map.2 h

end Json.Contract

@[simp] theorem Node.contract_toJson (n : Node) : Json.Contract.node n.toJson = none := by
  have hintact : n.toJson.readFault? = none := n.intact_toJson
  simp [Json.Contract.node, Json.Contract.whole, hintact, n.ofJson?_toJson]

section
open Json.Contract (record)

@[simp] theorem Span.contract_toJson (s : Span) : Span.contract s.toJson = none := by
  simp [contract, toJson, record, Json.Contract.fields]

theorem Param.contract_toJson (p : Param) : Param.contract p.toJson = none := by
  obtain ⟨name, span, default?⟩ := p
  have hdefault : Json.Contract.optional .node (Json.ofOption Node.toJson default?) = none :=
    Json.Contract.optional_ofOption fun n _ => n.contract_toJson
  simp [contract, toJson, record, Json.Contract.fields, hdefault]

theorem Annotation.contract_toJson (a : Annotation) : Annotation.contract a.toJson = none := by
  have hjustification :
      Json.Contract.optional .text (Json.ofOption .text a.justification) = none :=
    Json.Contract.optional_ofOption fun s _ => Json.Contract.text_text s
  simp [contract, toJson, record, Json.Contract.fields, hjustification]

theorem Block.contract_toJson (b : Block) : Block.contract b.toJson = none := by
  obtain ⟨span, params, annotations, statements⟩ := b
  have hparams := Json.Contract.list_map fun p (_ : p ∈ params) => p.contract_toJson
  have hannotations := Json.Contract.list_map fun a (_ : a ∈ annotations) => a.contract_toJson
  have hstatements := Json.Contract.list_map fun n (_ : n ∈ statements) => n.contract_toJson
  simp [contract, toJson, fields, record, Json.Contract.fields, hparams, hannotations, hstatements]

/-- The written form of a file is never refused. -/
theorem SyntaxTree.contract_toJson (t : SyntaxTree) : SyntaxTree.contract t.toJson = none := by
  have hlines :=
    Json.Contract.list_map fun o (_ : o ∈ t.lineStarts) => Json.Contract.offset_natural o
  simp [contract, toJson, record, Json.Contract.fields, hlines, t.root.contract_toJson]

end

/-! ## Files -/

/-- Reading the written form of a file changes nothing but its nodes. -/
theorem SyntaxTree.ofJson?_toJson (t : SyntaxTree) :
    SyntaxTree.ofJson? t.toJson =
      some { t with root := t.root.mapFields fun _ => Node.reread } := by
  obtain ⟨path, lineStarts, root⟩ := t
  have hroot : Block.ofJson? Node.ofJson? root.toJson =
      some (root.mapFields fun _ => Node.reread) := by
    have hd : Distinct root.fields := by simp [Distinct, root.keys_fields]
    exact Block.ofJson?_shown Recast.refl root (Recast.refl.object hd) fun c _ => c.ofJson?_toJson
  have hlines : Json.list? Json.offset? (.array (lineStarts.map fun o => .natural o.toNat)) =
      some (lineStarts.map fun o => o) :=
    Json.list?_recast Recast.refl fun o _ => Json.offset?_recast Recast.refl o
  unfold ofJson? toJson
  refine (Recast.refl.object (by simp [Distinct])).read fun m hget => ?_
  simp [Json.required, Json.defaulted, hget, Json.lookup?_cons, hroot, hlines,
    Json.text?_recast Recast.refl]

theorem SyntaxTree.decode_toJson (t : SyntaxTree) :
    SyntaxTree.decode t.toJson =
      .ok { t with root := t.root.mapFields fun _ => Node.reread } := by
  rw [decode, t.contract_toJson, t.ofJson?_toJson]

/-- A file comes back from its written form exactly if no unsupported node has the title of a kind
that can do without fields, and all of them have their children in order. -/
theorem SyntaxTree.decode_toJson_eq_self (t : SyntaxTree) :
    SyntaxTree.decode t.toJson = .ok t ↔
      ∀ q ∈ t.positions, ∀ kind span children, q.node = .unsupported kind span children →
        (kind ≠ "ArrayLiteral" ∧ kind ≠ "SubExpression" ∧ kind ≠ "ScriptBlock") ∧
          children.Pairwise fun c d => c.span.start ≤ d.span.start := by
  have hroot : SyntaxTree.decode t.toJson = .ok t ↔ ∀ p ∈ t.root.parts, p.2.reread = p.2 := by
    have hfields : t.root.mapFields (fun _ => Node.reread) = t.root ↔
        ∀ p ∈ t.root.parts, p.2.reread = p.2 := by
      rw [Block.mapFields_eq_self_iff, Prod.forall]
      simp only [Block.mem_parts]
    rw [decode_toJson, ← hfields]
    constructor
    · intro h
      exact (SyntaxTree.mk.injEq .. ▸ Except.ok.inj h).2.2
    · intro h
      rw [h]
  show _ ↔ ∀ q ∈ t.positions, q.node.Settled
  rw [hroot, positions, forall_mem_positionsIn]
  exact forall₂_congr fun p _ => p.2.reread_eq_self_iff_positions t.root

end ScriptTaint
