import Mathlib.Data.List.Basic
import ScriptTaint.Walk.Visit

/-!
# Positions in a file

A position is a path of slots, each of them a field of the syntax that holds a node, from the block
of the file inwards. `SyntaxTree.find?` looks a path up, and says which block encloses the node most
closely. `SyntaxTree.positions` lists what can be found: every position of the file, once. A walk
meets the positions in that order, each in the frame of its block (`SyntaxTree.flatMap_visits`).
-/

set_option autoImplicit false

namespace ScriptTaint

/-- A field of a node or block that holds a node. -/
inductive Slot
  | target
  | value
  | left
  | right
  | inner
  | operand
  | name
  | iterable
  | hole (i : Nat)
  | element (i : Nat)
  | argument (i : Nat)
  | child (i : Nat)
  | condition (clause : Nat)
  | branch (clause i : Nat)
  | otherwise (i : Nat)
  | body (i : Nat)
  | default (param : Nat)
  | statement (i : Nat)
deriving DecidableEq

/-- The node in a field of a block. -/
def Block.at? (b : Block) : Slot → Option Node
  | .default i => b.params[i]?.bind (·.default?)
  | .statement i => b.statements[i]?
  | _ => none

/-- The node in a field of a node. A node that opens a block has the fields of the block. -/
def Node.at? : Node → Slot → Option Node
  | .literal .., _ | .reference _, _ | .typeLiteral .., _ => none
  | .expandable _ holes _, .hole i => holes[i]?
  | .assignment target _ _ _, .target => some target
  | .assignment _ value _ _, .value => some value
  | .binary _ left _ _, .left => some left
  | .binary _ _ right _, .right => some right
  | .arrayLiteral elements _, .element i => elements[i]?
  | .paren inner _, .inner => some inner
  | .subExpression statements _, .statement i => statements[i]?
  | .cast _ operand _, .operand => some operand
  | .command c, .name => some c.name
  | .command c, .argument i => c.elements[i]?.bind Element.operand?
  | .pipeline elements _, .element i => elements[i]?
  | .invocation call, .target => some call.target
  | .invocation call, .name => some call.name
  | .invocation call, .argument i => call.arguments[i]?
  | .member target _ _ _, .target => some target
  | .member _ name _ _, .name => some name
  | .scriptBlock b, slot | .function _ _ b, slot => b.at? slot
  | .conditional clauses _ _, .condition i => clauses[i]?.map (·.condition)
  | .conditional clauses _ _, .branch i j => clauses[i]?.bind (·.body[j]?)
  | .conditional _ otherwise _, .otherwise i => otherwise.bind (·[i]?)
  | .forEach _ iterable _ _, .iterable => some iterable
  | .forEach _ _ body _, .body i => body[i]?
  | .unsupported _ _ children, .child i => children[i]?
  | _, _ => none

/-- The block that encloses the fields of a node in `scope` most closely. -/
def Node.inner (n : Node) (scope : Block) : Block := n.block?.getD scope

/-- Follows a path from a node in `scope`, to a node and the block around it. -/
def Node.find? (n : Node) (scope : Block) : List Slot → Option (Block × Node)
  | [] => some (scope, n)
  | slot :: path => (n.at? slot).bind fun c => c.find? (n.inner scope) path

/-- The node at a path from the block of the file, and the block that encloses it most closely. -/
def SyntaxTree.find? (t : SyntaxTree) : List Slot → Option (Block × Node)
  | [] => none
  | slot :: path => (t.root.at? slot).bind fun n => n.find? t.root path

theorem Node.find?_snoc {n m c : Node} {scope b : Block} {path : List Slot} {s : Slot}
    (h : n.find? scope path = some (b, m)) (hc : m.at? s = some c) :
    n.find? scope (path ++ [s]) = some (m.inner b, c) := by
  induction path generalizing n scope with
  | nil =>
    obtain ⟨rfl, rfl⟩ := Prod.mk.inj (Option.some.inj h)
    simp [find?, hc]
  | cons s' path ih =>
    obtain ⟨d, hd, h⟩ := Option.bind_eq_some_iff.1 h
    simp only [List.cons_append, find?, hd, Option.bind_some]
    exact ih h

theorem SyntaxTree.find?_snoc {t : SyntaxTree} {m c : Node} {b : Block} {path : List Slot}
    {s : Slot} (h : t.find? path = some (b, m)) (hc : m.at? s = some c) :
    t.find? (path ++ [s]) = some (m.inner b, c) := by
  cases path with
  | nil => cases h
  | cons s' path =>
    obtain ⟨d, hd, h⟩ := Option.bind_eq_some_iff.1 h
    simp only [List.cons_append, find?, hd, Option.bind_some]
    exact Node.find?_snoc h hc

/-! ## The fields of a node, listed -/

/-- What the members of a list hold, each with its index. -/
def indexed {α : Type} (l : List α) (fields : Nat → α → List (Slot × Node)) : List (Slot × Node) :=
  l.zipIdx.flatMap fun (a, i) => fields i a

/-- The nodes that the members of a list hold, at most one each. -/
def listed {α : Type} (slot : Nat → Slot) (node? : α → Option Node) (l : List α) :
    List (Slot × Node) :=
  indexed l fun i a => (node? a).toList.map (slot i, ·)

def Block.parts (b : Block) : List (Slot × Node) :=
  listed .default (·.default?) b.params ++ listed .statement some b.statements

def Node.parts : Node → List (Slot × Node)
  | .literal .. | .reference _ | .typeLiteral .. => []
  | .expandable _ holes _ => listed .hole some holes
  | .assignment target value _ _ => [(.target, target), (.value, value)]
  | .binary _ left right _ => [(.left, left), (.right, right)]
  | .arrayLiteral elements _ | .pipeline elements _ => listed .element some elements
  | .paren inner _ => [(.inner, inner)]
  | .subExpression statements _ => listed .statement some statements
  | .cast _ operand _ => [(.operand, operand)]
  | .command c => (.name, c.name) :: listed .argument Element.operand? c.elements
  | .invocation call =>
    (.target, call.target) :: (.name, call.name) :: listed .argument some call.arguments
  | .member target name _ _ => [(.target, target), (.name, name)]
  | .scriptBlock b | .function _ _ b => b.parts
  | .conditional clauses otherwise _ =>
    indexed clauses (fun i c => (.condition i, c.condition) :: listed (.branch i) some c.body) ++
      listed .otherwise some (otherwise.getD [])
  | .forEach _ iterable body _ => (.iterable, iterable) :: listed .body some body
  | .unsupported _ _ children => listed .child some children

section indexed
variable {α : Type} {l : List α} {fields : Nat → α → List (Slot × Node)} {slot : Nat → Slot}
  {node? : α → Option Node} {p : Slot × Node}

theorem mem_indexed : p ∈ indexed l fields ↔ ∃ i a, l[i]? = some a ∧ p ∈ fields i a := by
  simp only [indexed, List.mem_flatMap, Prod.exists, List.mem_zipIdx_iff_getElem?]
  constructor
  · rintro ⟨a, i, h⟩
    exact ⟨i, a, h⟩
  · rintro ⟨i, a, h⟩
    exact ⟨a, i, h⟩

theorem mem_listed :
    p ∈ listed slot node? l ↔ ∃ i, p.1 = slot i ∧ l[i]?.bind node? = some p.2 := by
  simp only [listed, mem_indexed, List.mem_map, Option.mem_toList, Option.bind_eq_some_iff]
  constructor
  · rintro ⟨i, a, ha, n, hn, rfl⟩
    exact ⟨i, rfl, a, ha, hn⟩
  · rintro ⟨i, hs, a, ha, hn⟩
    exact ⟨i, a, ha, p.2, hn, by rw [← hs]⟩

theorem slot_of_mem_listed (h : p ∈ listed slot node? l) : ∃ i, p.1 = slot i := by
  obtain ⟨i, hi, -⟩ := mem_listed.1 h
  exact ⟨i, hi⟩

theorem map_snd_indexed (nodes : α → List Node) (h : ∀ i a, (fields i a).map (·.2) = nodes a) :
    (indexed l fields).map (·.2) = l.flatMap nodes := by
  calc (indexed l fields).map (·.2)
      = l.zipIdx.flatMap (fun p => nodes p.1) := by simp only [indexed, List.map_flatMap, h]
    _ = (l.zipIdx.map (·.1)).flatMap nodes := by rw [List.flatMap_map]
    _ = l.flatMap nodes := by rw [List.zipIdx_map_fst]

theorem map_snd_listed : (listed slot node? l).map (·.2) = l.filterMap node? := by
  have h (i : Nat) (a : α) : ((node? a).toList.map (slot i, ·)).map (·.2) = (node? a).toList := by
    cases node? a <;> rfl
  rw [listed, map_snd_indexed (fun a => (node? a).toList) h, List.filterMap_eq_flatMap_toList]

theorem pairwise_zipIdx (l : List α) : l.zipIdx.Pairwise fun p q => p.2 ≠ q.2 := by
  rw [← List.pairwise_map (R := (· ≠ ·)), List.zipIdx_map_snd]
  exact List.nodup_range'

/-- Slots do not repeat if they do not repeat in a member and tell the members apart. -/
theorem nodup_indexed (h : ∀ i a, ((fields i a).map (·.1)).Nodup)
    (hne : ∀ i j a b, i ≠ j → ∀ p ∈ fields i a, ∀ q ∈ fields j b, p.1 ≠ q.1) :
    ((indexed l fields).map (·.1)).Nodup := by
  rw [indexed, List.Nodup, List.pairwise_map, List.pairwise_flatMap]
  refine ⟨fun p _ => ?_, (pairwise_zipIdx l).imp fun hpq => hne _ _ _ _ hpq⟩
  exact List.pairwise_map.1 (h p.2 p.1)

theorem nodup_listed (h : ∀ i j, slot i = slot j → i = j) :
    ((listed slot node? l).map (·.1)).Nodup := by
  refine nodup_indexed (fun i a => ?_) fun i j a b hij p hp q hq => ?_
  · cases node? a <;> simp
  · obtain ⟨m, -, rfl⟩ := List.mem_map.1 hp
    obtain ⟨k, -, rfl⟩ := List.mem_map.1 hq
    exact fun heq => hij (h i j heq)

end indexed

theorem Block.mem_parts {b : Block} {s : Slot} {n : Node} :
    (s, n) ∈ b.parts ↔ b.at? s = some n := by
  simp only [parts, List.mem_append, mem_listed]
  cases s <;> simp [at?]

theorem Node.mem_parts {n c : Node} {s : Slot} : (s, c) ∈ n.parts ↔ n.at? s = some c := by
  cases n with
  | scriptBlock b | function _ _ b => exact Block.mem_parts
  | conditional clauses otherwise _ =>
    simp only [parts, List.mem_append, mem_indexed, List.mem_cons, mem_listed, Prod.mk.injEq]
    cases s with
    | condition i =>
      simp only [at?, Option.map_eq_some_iff]
      constructor
      · rintro (⟨k, clause, hk, ⟨hs, rfl⟩ | ⟨j, hs, -⟩⟩ | ⟨j, hs, -⟩) <;> cases hs
        exact ⟨clause, hk, rfl⟩
      · rintro ⟨clause, hi, rfl⟩
        exact .inl ⟨i, clause, hi, .inl ⟨rfl, rfl⟩⟩
    | branch i j =>
      simp only [at?, Option.bind_eq_some_iff]
      constructor
      · rintro (⟨k, clause, hk, ⟨hs, rfl⟩ | ⟨j, hs, hc⟩⟩ | ⟨j, hs, -⟩) <;> cases hs
        exact ⟨clause, hk, by simpa using hc⟩
      · rintro ⟨clause, hi, hc⟩
        exact .inl ⟨i, clause, hi, .inr ⟨j, rfl, by simpa using hc⟩⟩
    | otherwise i => cases otherwise <;> simp [at?]
    | _ => simp [at?]
  | _ =>
    simp only [parts, List.mem_cons, mem_listed, List.not_mem_nil, Prod.mk.injEq]
    cases s <;> simp [at?, eq_comm]

theorem Block.map_snd_parts (b : Block) : b.parts.map (·.2) = b.nodes := by
  simp [parts, nodes, map_snd_listed]

theorem Node.map_snd_parts_block {n : Node} {b : Block} (h : n.block? = some b) :
    n.parts.map (·.2) = b.nodes := by
  cases n with
  | scriptBlock body | function _ _ body =>
    obtain rfl : body = b := Option.some.inj h
    exact body.map_snd_parts
  | _ => exact absurd h (by simp [block?])

theorem Node.map_snd_parts {n : Node} (h : n.block? = none) : n.parts.map (·.2) = n.children := by
  cases n with
  | scriptBlock | function => exact absurd h (by simp [block?])
  | conditional clauses otherwise _ =>
    have hclauses : (indexed clauses fun i c =>
        (.condition i, c.condition) :: listed (.branch i) some c.body).map (·.2) =
        clauses.flatMap fun c => c.condition :: c.body :=
      map_snd_indexed _ (by simp [map_snd_listed])
    simp [parts, children, map_snd_listed, hclauses]
  | _ => simp [parts, children, map_snd_listed]

theorem Block.nodup_parts (b : Block) : (b.parts.map (·.1)).Nodup := by
  rw [parts, List.map_append, List.nodup_append]
  refine ⟨nodup_listed (by simp), nodup_listed (by simp), fun s hs s' hs' => ?_⟩
  obtain ⟨p, hp, rfl⟩ := List.mem_map.1 hs
  obtain ⟨q, hq, rfl⟩ := List.mem_map.1 hs'
  obtain ⟨i, hi⟩ := slot_of_mem_listed hp
  obtain ⟨j, hj⟩ := slot_of_mem_listed hq
  simp [hi, hj]

/-- What a clause of a conditional holds. -/
theorem slot_of_mem_clause {i : Nat} {c : Clause} {p : Slot × Node}
    (h : p ∈ (.condition i, c.condition) :: listed (.branch i) some c.body) :
    p.1 = .condition i ∨ ∃ j, p.1 = .branch i j := by
  rcases List.mem_cons.1 h with rfl | h
  · exact .inl rfl
  · exact .inr (slot_of_mem_listed h)

theorem Node.nodup_parts (n : Node) : (n.parts.map (·.1)).Nodup := by
  cases n with
  | scriptBlock b | function _ _ b => exact b.nodup_parts
  | conditional clauses otherwise _ =>
    rw [parts, List.map_append, List.nodup_append]
    refine ⟨nodup_indexed (fun i c => ?_) fun i j c d hij p hp q hq => ?_, nodup_listed (by simp),
      fun s hs s' hs' => ?_⟩
    · simp [nodup_listed, mem_listed]
    · rcases slot_of_mem_clause hp with hp | ⟨k, hp⟩ <;>
        rcases slot_of_mem_clause hq with hq | ⟨m, hq⟩ <;> simp [hp, hq, hij]
    · obtain ⟨p, hp, rfl⟩ := List.mem_map.1 hs
      obtain ⟨q, hq, rfl⟩ := List.mem_map.1 hs'
      obtain ⟨i, c, -, hp⟩ := mem_indexed.1 hp
      obtain ⟨j, hq⟩ := slot_of_mem_listed hq
      rcases slot_of_mem_clause hp with hp | ⟨k, hp⟩ <;> simp [hp, hq]
  | _ => simp [parts, nodup_listed, mem_listed]

theorem Node.sizeOf_part {n : Node} {p : Slot × Node} (h : p ∈ n.parts) :
    sizeOf p.2 < sizeOf n := by
  have hmem := List.mem_map_of_mem (f := (·.2)) h
  cases hb : n.block? with
  | some b =>
    rw [map_snd_parts_block hb] at hmem
    exact Nat.lt_trans (Block.sizeOf_node hmem) (Node.sizeOf_block hb)
  | none =>
    rw [map_snd_parts hb] at hmem
    exact Node.sizeOf_child hmem

/-- Induction over all nodes of a file, also through blocks. -/
theorem Node.induction_parts {P : Node → Prop} (step : ∀ n, (∀ p ∈ n.parts, P p.2) → P n)
    (n : Node) : P n :=
  step n fun p _ => Node.induction_parts step p.2
termination_by sizeOf n
decreasing_by exact Node.sizeOf_part ‹_›

/-! ## All positions -/

structure Position where
  path : List Slot
  /-- The block that encloses the node most closely. -/
  scope : Block
  node : Node

def Position.under (slot : Slot) (p : Position) : Position := { p with path := slot :: p.path }

/-- A node in `scope` and all positions inside it, each before what is inside it. -/
def Node.positions (n : Node) (scope : Block) : List Position :=
  ⟨[], scope, n⟩ ::
    n.parts.attach.flatMap fun ⟨p, _⟩ => (p.2.positions (n.inner scope)).map (·.under p.1)
termination_by sizeOf n
decreasing_by exact Node.sizeOf_part ‹_›

/-- The positions inside the fields of something whose fields belong to `scope`. -/
def positionsIn (scope : Block) (parts : List (Slot × Node)) : List Position :=
  parts.flatMap fun p => (p.2.positions scope).map (·.under p.1)

theorem Node.positions_eq (n : Node) (scope : Block) :
    n.positions scope = ⟨[], scope, n⟩ :: positionsIn (n.inner scope) n.parts := by
  rw [positions, positionsIn, List.flatMap_subtype (fun _ _ => rfl), List.unattach_attach]

/-- All positions of a file. -/
def SyntaxTree.positions (t : SyntaxTree) : List Position := positionsIn t.root t.root.parts

theorem mem_positionsIn {scope : Block} {parts : List (Slot × Node)} {q : Position} :
    q ∈ positionsIn scope parts ↔
      ∃ s n path, q.path = s :: path ∧ (s, n) ∈ parts ∧
        ⟨path, q.scope, q.node⟩ ∈ n.positions scope := by
  simp only [positionsIn, List.mem_flatMap, List.mem_map, Prod.exists]
  constructor
  · rintro ⟨s, n, hp, q, hq, rfl⟩
    exact ⟨s, n, q.path, rfl, hp, hq⟩
  · rintro ⟨s, n, path, hpath, hp, hq⟩
    exact ⟨s, n, hp, _, hq, by rw [Position.under, ← hpath]⟩

/-- The positions of a node are those that can be found. -/
theorem Node.mem_positions {n : Node} {scope : Block} {q : Position} :
    q ∈ n.positions scope ↔ n.find? scope q.path = some (q.scope, q.node) := by
  induction n using Node.induction_parts generalizing scope q with
  | step n ih =>
    obtain ⟨path, b, m⟩ := q
    rw [positions_eq, List.mem_cons, mem_positionsIn]
    cases path with
    | nil => simp [find?, eq_comm]
    | cons s path =>
      simp only [find?, Option.bind_eq_some_iff, ← Node.mem_parts]
      constructor
      · rintro (h | ⟨s, c, path, h, hc, hq⟩)
        · cases h
        · cases h
          exact ⟨c, hc, (ih (s, c) hc).1 hq⟩
      · rintro ⟨c, hc, hq⟩
        exact .inr ⟨s, c, path, rfl, hc, (ih (s, c) hc).2 hq⟩

theorem SyntaxTree.mem_positions {t : SyntaxTree} {q : Position} :
    q ∈ t.positions ↔ t.find? q.path = some (q.scope, q.node) := by
  obtain ⟨path, b, m⟩ := q
  rw [positions, mem_positionsIn]
  cases path with
  | nil => simp [find?]
  | cons s path =>
    simp only [find?, Option.bind_eq_some_iff, ← Block.mem_parts]
    constructor
    · rintro ⟨s, n, path, h, hn, hq⟩
      cases h
      exact ⟨n, hn, Node.mem_positions.1 hq⟩
    · rintro ⟨n, hn, hq⟩
      exact ⟨s, n, path, rfl, hn, Node.mem_positions.2 hq⟩

/-- Paths through different slots differ. -/
theorem nodup_positionsIn {scope : Block} {parts : List (Slot × Node)}
    (hslots : (parts.map (·.1)).Nodup)
    (h : ∀ p ∈ parts, ((p.2.positions scope).map (·.path)).Nodup) :
    ((positionsIn scope parts).map (·.path)).Nodup := by
  rw [List.Nodup, List.pairwise_map] at hslots ⊢
  rw [positionsIn, List.pairwise_flatMap]
  refine ⟨fun p hp => ?_, hslots.imp fun hpq x hx y hy => ?_⟩
  · rw [List.pairwise_map]
    have := h p hp
    rw [List.Nodup, List.pairwise_map] at this
    refine this.imp fun hxy => ?_
    simpa [Position.under] using hxy
  · obtain ⟨x, -, rfl⟩ := List.mem_map.1 hx
    obtain ⟨y, -, rfl⟩ := List.mem_map.1 hy
    simp [Position.under, hpq]

theorem Node.nodup_positions (n : Node) (scope : Block) :
    ((n.positions scope).map (·.path)).Nodup := by
  induction n using Node.induction_parts generalizing scope with
  | step n ih =>
    rw [positions_eq, List.map_cons, List.nodup_cons]
    refine ⟨fun h => ?_, nodup_positionsIn n.nodup_parts fun p hp => ih p hp _⟩
    obtain ⟨q, hq, hpath⟩ := List.mem_map.1 h
    obtain ⟨s, c, path, hcons, -⟩ := mem_positionsIn.1 hq
    rw [hcons] at hpath
    cases hpath

/-- No two positions of a file have one path. -/
theorem SyntaxTree.nodup_positions (t : SyntaxTree) : (t.positions.map (·.path)).Nodup :=
  nodup_positionsIn t.root.nodup_parts fun p _ => p.2.nodup_positions t.root

/-! ## Walks -/

theorem Block.visits_eq (b : Block) :
    b.visits = .block b.frame :: b.nodes.flatMap (·.visits b.frame) := by
  rw [visits]; simp [List.flatMap_subtype]

theorem Node.visits_block {n : Node} {b : Block} (h : n.block? = some b) (frame : Frame) :
    n.visits frame = .node frame n :: b.visits := by
  rw [visits]
  split <;> simp_all

theorem Node.visits_children {n : Node} (h : n.block? = none) (frame : Frame) :
    n.visits frame = .node frame n :: n.children.flatMap (·.visits frame) := by
  rw [visits]
  split
  · simp_all
  · simp [List.flatMap_subtype]

section walks
variable {α : Type} {f : Visit → List α}

theorem flatMap_positionsIn {scope : Block} {parts : List (Slot × Node)}
    (h : ∀ p ∈ parts, (p.2.positions scope).flatMap (fun q => f (.node q.scope.frame q.node)) =
      (p.2.visits scope.frame).flatMap f) :
    (positionsIn scope parts).flatMap (fun q => f (.node q.scope.frame q.node)) =
      ((parts.map (·.2)).flatMap (·.visits scope.frame)).flatMap f := by
  rw [positionsIn, List.flatMap_assoc, List.flatMap_map, List.flatMap_assoc]
  refine List.flatMap_congr fun p hp => ?_
  rw [List.flatMap_map]
  exact h p hp

variable (hf : ∀ frame, f (.block frame) = [])

include hf

/-- The walk of a node meets its positions in their order, each in the frame of its block. -/
theorem Node.flatMap_visits (n : Node) (scope : Block) :
    (n.positions scope).flatMap (fun q => f (.node q.scope.frame q.node)) =
      (n.visits scope.frame).flatMap f := by
  induction n using Node.induction_parts generalizing scope with
  | step n ih =>
    rw [positions_eq, List.flatMap_cons, flatMap_positionsIn fun p hp => ih p hp _]
    cases hb : n.block? with
    | some b =>
      rw [visits_block hb, map_snd_parts_block hb, Block.visits_eq]
      simp [inner, hb, hf]
    | none =>
      rw [visits_children hb, map_snd_parts hb]
      simp [inner, hb]

/-- The walk of a file meets its positions in their order, each in the frame of its block. -/
theorem SyntaxTree.flatMap_visits (t : SyntaxTree) :
    t.positions.flatMap (fun q => f (.node q.scope.frame q.node)) = t.visits.flatMap f := by
  rw [positions, flatMap_positionsIn fun p _ => p.2.flatMap_visits hf t.root, Block.map_snd_parts,
    visits, Block.visits_eq, List.flatMap_cons, hf, List.nil_append]

end walks

end ScriptTaint
