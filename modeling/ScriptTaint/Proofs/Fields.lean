import Mathlib.Data.List.Basic
import ScriptTaint.Proofs.Positions

/-!
# Changing the fields of a node

`Node.mapFields` changes the node in each field of a node, and may look at the field to choose the
change. The fields stay where they are (`Node.parts_mapFields`, `Node.at?_mapFields`), and a change
counts only by what it does to the nodes that are there (`Node.mapFields_congr`).
-/

set_option autoImplicit false

namespace ScriptTaint

def Param.mapDefault (g : Node → Node) (p : Param) : Param :=
  { p with default? := p.default?.map g }

def Element.mapOperand (g : Node → Node) : Element → Element
  | .argument value => .argument (g value)
  | .parameter name bound span => .parameter name (bound.map g) span

/-- The block with the node in each of its fields changed. -/
def Block.mapFields (g : Slot → Node → Node) (b : Block) : Block :=
  { b with
    params := b.params.mapIdx fun i => Param.mapDefault (g (.default i))
    statements := b.statements.mapIdx fun i => g (.statement i) }

/-- The node with the node in each of its fields changed. -/
def Node.mapFields (g : Slot → Node → Node) : Node → Node
  | .literal value span => .literal value span
  | .expandable value holes span => .expandable value (holes.mapIdx fun i => g (.hole i)) span
  | .reference v => .reference v
  | .typeLiteral name span => .typeLiteral name span
  | .assignment target value op span => .assignment (g .target target) (g .value value) op span
  | .binary op left right span => .binary op (g .left left) (g .right right) span
  | .arrayLiteral elements span => .arrayLiteral (elements.mapIdx fun i => g (.element i)) span
  | .paren inner span => .paren (g .inner inner) span
  | .subExpression statements span =>
    .subExpression (statements.mapIdx fun i => g (.statement i)) span
  | .cast typeName operand span => .cast typeName (g .operand operand) span
  | .command c =>
    .command ⟨g .name c.name,
      c.elements.mapIdx fun i => Element.mapOperand (g (.argument i)), c.span⟩
  | .pipeline elements span => .pipeline (elements.mapIdx fun i => g (.element i)) span
  | .invocation i =>
    .invocation ⟨g .target i.target, g .name i.name,
      i.arguments.mapIdx fun k => g (.argument k), i.isStatic, i.span⟩
  | .member target name isStatic span =>
    .member (g .target target) (g .name name) isStatic span
  | .scriptBlock b => .scriptBlock (b.mapFields g)
  | .function name span body => .function name span (body.mapFields g)
  | .conditional clauses otherwise span =>
    .conditional
      (clauses.mapIdx fun i c =>
        ⟨g (.condition i) c.condition, c.body.mapIdx fun j => g (.branch i j)⟩)
      (otherwise.map fun body => body.mapIdx fun i => g (.otherwise i)) span
  | .forEach item iterable body span =>
    .forEach item (g .iterable iterable) (body.mapIdx fun i => g (.body i)) span
  | .unsupported kind span children =>
    .unsupported kind span (children.mapIdx fun i => g (.child i))

theorem mapIdx_eq_map {α β : Type} (f : α → β) (l : List α) : l.mapIdx (fun _ => f) = l.map f := by
  apply List.ext_getElem?
  intro i
  rw [List.getElem?_mapIdx, List.getElem?_map]

theorem mapIdx_congr {α β : Type} {f g : Nat → α → β} {l : List α}
    (h : ∀ i a, l[i]? = some a → f i a = g i a) : l.mapIdx f = l.mapIdx g := by
  rw [List.mapIdx_eq_mapIdx_iff]
  intro i hi
  exact h i l[i] (List.getElem?_eq_getElem hi)

section congruence
variable {g h : Slot → Node → Node}

theorem Param.mapDefault_congr {f k : Node → Node} {p : Param}
    (h : ∀ n, p.default? = some n → f n = k n) : p.mapDefault f = p.mapDefault k := by
  obtain ⟨name, span, default?⟩ := p
  cases default? with
  | none => rfl
  | some n => simp only [mapDefault, Option.map_some, h n rfl]

theorem Element.mapOperand_congr {f k : Node → Node} {e : Element}
    (h : ∀ n, e.operand? = some n → f n = k n) : e.mapOperand f = e.mapOperand k := by
  cases e with
  | argument value => simp only [mapOperand, h value rfl]
  | parameter name bound span =>
    cases bound with
    | none => rfl
    | some n => simp only [mapOperand, Option.map_some, h n rfl]

theorem Block.mapFields_congr {b : Block} (H : ∀ s c, b.at? s = some c → g s c = h s c) :
    b.mapFields g = b.mapFields h := by
  have hparams : b.params.mapIdx (fun i => Param.mapDefault (g (.default i))) =
      b.params.mapIdx fun i => Param.mapDefault (h (.default i)) := by
    refine mapIdx_congr fun i p hp => Param.mapDefault_congr fun n hn => ?_
    exact H (.default i) n (by simp only [at?, hp, Option.bind_some, hn])
  unfold mapFields
  rw [hparams, mapIdx_congr fun i n hn => H (.statement i) n hn]

/-- Two changes that agree on the fields of a node give the same node. -/
theorem Node.mapFields_congr {n : Node} (H : ∀ s c, n.at? s = some c → g s c = h s c) :
    n.mapFields g = n.mapFields h := by
  cases n with
  | literal | reference | typeLiteral => rfl
  | expandable value holes span =>
    simp only [mapFields, mapIdx_congr fun i c hc => H (.hole i) c hc]
  | assignment target value op span =>
    simp only [mapFields, H .target target rfl, H .value value rfl]
  | binary op left right span => simp only [mapFields, H .left left rfl, H .right right rfl]
  | arrayLiteral elements span | pipeline elements span =>
    simp only [mapFields, mapIdx_congr fun i c hc => H (.element i) c hc]
  | paren inner span => simp only [mapFields, H .inner inner rfl]
  | subExpression statements span =>
    simp only [mapFields, mapIdx_congr fun i c hc => H (.statement i) c hc]
  | cast typeName operand span => simp only [mapFields, H .operand operand rfl]
  | command c =>
    have helements : c.elements.mapIdx (fun i => Element.mapOperand (g (.argument i))) =
        c.elements.mapIdx fun i => Element.mapOperand (h (.argument i)) := by
      refine mapIdx_congr fun i e he => Element.mapOperand_congr fun n hn => ?_
      exact H (.argument i) n (by simp only [at?, he, Option.bind_some, hn])
    simp only [mapFields, H .name c.name rfl, helements]
  | invocation i =>
    simp only [mapFields, H .target i.target rfl, H .name i.name rfl,
      mapIdx_congr fun k c hc => H (.argument k) c hc]
  | member target name isStatic span =>
    simp only [mapFields, H .target target rfl, H .name name rfl]
  | scriptBlock b | function _ _ b => simp only [mapFields, Block.mapFields_congr H]
  | conditional clauses otherwise span =>
    have hclauses : clauses.mapIdx (fun i c => (⟨g (.condition i) c.condition,
          c.body.mapIdx fun j => g (.branch i j)⟩ : Clause)) =
        clauses.mapIdx fun i c => ⟨h (.condition i) c.condition,
          c.body.mapIdx fun j => h (.branch i j)⟩ := by
      refine mapIdx_congr fun i c hc => ?_
      rw [H (.condition i) c.condition (by simp only [at?, hc, Option.map_some]),
        mapIdx_congr fun j d hd => H (.branch i j) d (by simp only [at?, hc, Option.bind_some, hd])]
    cases otherwise with
    | none => simp only [mapFields, hclauses, Option.map_none]
    | some body =>
      simp only [mapFields, hclauses, Option.map_some,
        mapIdx_congr fun i c hc => H (.otherwise i) c hc]
  | forEach item iterable body span =>
    simp only [mapFields, H .iterable iterable rfl, mapIdx_congr fun i c hc => H (.body i) c hc]
  | unsupported kind span children =>
    simp only [mapFields, mapIdx_congr fun i c hc => H (.child i) c hc]

end congruence

theorem Param.mapDefault_id (p : Param) : p.mapDefault (fun n => n) = p := by
  obtain ⟨name, span, default?⟩ := p
  cases default? <;> rfl

theorem Element.mapOperand_id (e : Element) : e.mapOperand (fun n => n) = e := by
  cases e with
  | argument value => rfl
  | parameter name bound span => cases bound <;> rfl

theorem mapIdx_id {α : Type} (l : List α) : l.mapIdx (fun _ a => a) = l := by
  rw [mapIdx_eq_map, List.map_id']

theorem Block.mapFields_id (b : Block) : b.mapFields (fun _ c => c) = b := by
  obtain ⟨span, params, annotations, statements⟩ := b
  simp only [mapFields, mapIdx_eq_map, List.map_id']
  rw [List.map_congr_left fun p _ => p.mapDefault_id, List.map_id']

theorem Node.mapFields_id (n : Node) : n.mapFields (fun _ c => c) = n := by
  cases n with
  | command c =>
    obtain ⟨name, elements, span⟩ := c
    have h := List.map_congr_left fun e (_ : e ∈ elements) => e.mapOperand_id
    simp only [mapFields, mapIdx_eq_map, h, List.map_id']
  | invocation i =>
    obtain ⟨target, name, arguments, isStatic, span⟩ := i
    simp only [mapFields, mapIdx_id]
  | scriptBlock b | function _ _ b => simp only [mapFields, Block.mapFields_id]
  | conditional clauses otherwise span =>
    have hclauses : clauses.mapIdx (fun _ c => (⟨c.condition, c.body⟩ : Clause)) = clauses := by
      rw [mapIdx_eq_map, List.map_congr_left fun c _ => show _ = c by cases c; rfl, List.map_id']
    cases otherwise <;> simp only [mapFields, mapIdx_id, hclauses, Option.map_none, Option.map_some]
  | _ => simp only [mapFields, mapIdx_id]

/-- A change that leaves every field alone leaves the node alone. -/
theorem Node.mapFields_eq_self {n : Node} {g : Slot → Node → Node}
    (h : ∀ s c, n.at? s = some c → g s c = c) : n.mapFields g = n := by
  rw [mapFields_congr h, mapFields_id]

theorem Block.mapFields_eq_self {b : Block} {g : Slot → Node → Node}
    (h : ∀ s c, b.at? s = some c → g s c = c) : b.mapFields g = b := by
  rw [mapFields_congr h, mapFields_id]

section parts
variable {α : Type} {l : List α} {g : Slot → Node → Node}

theorem indexed_mapIdx {change : Nat → α → α} {fields : Nat → α → List (Slot × Node)} :
    indexed (l.mapIdx change) fields = indexed l fun i a => fields i (change i a) := by
  have h : (l.mapIdx change).zipIdx = l.zipIdx.map fun p => (change p.2 p.1, p.2) := by
    apply List.ext_getElem?
    intro i
    simp only [List.getElem?_zipIdx, List.getElem?_mapIdx, List.getElem?_map]
    cases l[i]? <;> simp
  simp only [indexed, h, List.flatMap_map]

theorem listed_mapIdx {slot : Nat → Slot} {node? : α → Option Node} {change : Nat → α → α}
    (h : ∀ i a, node? (change i a) = (node? a).map (g (slot i))) :
    listed slot node? (l.mapIdx change) =
      (listed slot node? l).map fun p => (p.1, g p.1 p.2) := by
  simp only [listed, indexed_mapIdx, h]
  simp only [indexed, List.map_flatMap]
  refine List.flatMap_congr fun p _ => ?_
  cases node? p.1 <;> simp

theorem Block.parts_mapFields (b : Block) :
    (b.mapFields g).parts = b.parts.map fun p => (p.1, g p.1 p.2) := by
  simp only [parts, mapFields, List.map_append]
  congr 1
  · exact listed_mapIdx fun i p => rfl
  · exact listed_mapIdx fun i n => rfl

/-- The fields stay where they are, each with its changed node. -/
theorem Node.parts_mapFields (n : Node) :
    (n.mapFields g).parts = n.parts.map fun p => (p.1, g p.1 p.2) := by
  have nodes {slot : Nat → Slot} (ns : List Node) :
      listed slot some (ns.mapIdx fun i => g (slot i)) =
        (listed slot some ns).map fun p => (p.1, g p.1 p.2) :=
    listed_mapIdx fun i n => rfl
  cases n with
  | command c =>
    have helements : listed .argument Element.operand?
          (c.elements.mapIdx fun i => Element.mapOperand (g (.argument i))) =
        (listed .argument Element.operand? c.elements).map fun p => (p.1, g p.1 p.2) :=
      listed_mapIdx fun i e => by cases e <;> rfl
    simp only [mapFields, parts, List.map_cons, helements]
  | scriptBlock b | function _ _ b => exact b.parts_mapFields
  | conditional clauses otherwise span =>
    simp only [mapFields, parts, List.map_append, indexed_mapIdx, nodes]
    congr 1
    · simp only [indexed, List.map_flatMap, List.map_cons]
    · cases otherwise with
      | none => rfl
      | some body => exact nodes body
  | _ => simp only [mapFields, parts, List.map_cons, List.map_nil, nodes]

theorem Node.at?_mapFields (n : Node) (s : Slot) : (n.mapFields g).at? s = (n.at? s).map (g s) := by
  apply Option.ext
  intro c
  rw [← mem_parts, parts_mapFields, Option.map_eq_some_iff]
  simp only [← mem_parts, List.mem_map, Prod.mk.injEq, Prod.exists]
  constructor
  · rintro ⟨s, d, hd, rfl, rfl⟩
    exact ⟨d, hd, rfl⟩
  · rintro ⟨d, hd, rfl⟩
    exact ⟨s, d, hd, rfl, rfl⟩

theorem Node.mapFields_eq_self_iff {n : Node} :
    n.mapFields g = n ↔ ∀ s c, n.at? s = some c → g s c = c := by
  constructor
  · intro h s c hc
    have hs := n.at?_mapFields (g := g) s
    rw [h, hc] at hs
    exact (Option.some.inj hs).symm
  · exact mapFields_eq_self

theorem Block.mapFields_eq_self_iff {b : Block} :
    b.mapFields g = b ↔ ∀ s c, b.at? s = some c → g s c = c := by
  constructor
  · intro h
    have hblock : (Node.scriptBlock b).mapFields g = .scriptBlock b := by rw [Node.mapFields, h]
    exact Node.mapFields_eq_self_iff.1 hblock
  · exact mapFields_eq_self

end parts

section composition
variable {g h : Slot → Node → Node}

@[simp] theorem Block.span_mapFields (b : Block) : (b.mapFields g).span = b.span := rfl

theorem Node.block?_mapFields (n : Node) :
    (n.mapFields g).block? = n.block?.map (·.mapFields g) := by
  cases n <;> rfl

theorem Node.mapFields_mapFields {n : Node} (hb : n.block? = none) :
    (n.mapFields g).mapFields h = n.mapFields fun s c => h s (g s c) := by
  cases n with
  | command c =>
    have helements : ∀ i,
        Element.mapOperand (h (.argument i)) ∘ Element.mapOperand (g (.argument i)) =
          Element.mapOperand fun n => h (.argument i) (g (.argument i) n) := by
      intro i
      funext e
      cases e with
      | argument value => rfl
      | parameter name bound span => cases bound <;> rfl
    simp only [mapFields, List.mapIdx_mapIdx, helements]
  | conditional clauses otherwise span =>
    cases otherwise <;>
      simp only [mapFields, List.mapIdx_mapIdx, Option.map_none, Option.map_some, Function.comp_def]
  | scriptBlock | function => exact absurd hb (by simp [block?])
  | _ => simp only [mapFields, List.mapIdx_mapIdx, Function.comp_def]

end composition

end ScriptTaint
