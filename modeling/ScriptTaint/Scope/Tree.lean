import ScriptTaint.Script.Node

/-!
# The scope tree of a file

One scope for the file, for each function body and for each script-block literal, numbered in the
order of their creation. A scope knows its parent and its children, and carries the suppressions
declared on its block.
-/

set_option autoImplicit false

namespace ScriptTaint

/-- A declared suppression: it silences one detector for findings inside the body. -/
structure Suppression where
  detector : String
  justification : Option String := none
  body : Span
deriving DecidableEq, Repr

inductive ScopeKind
  | script
  | function
  | scriptBlock
deriving DecidableEq, Repr

structure Scope where
  id : Nat
  kind : ScopeKind
  name : Option String
  parent : Option Nat
  children : List Nat
  span : Span
  suppressions : List Suppression

/-- The suppressions declared on a block. Each covers the block. -/
def Block.suppressions (b : Block) : List Suppression :=
  b.annotations.map fun a => ⟨a.rule, a.justification, b.span⟩

/-- Scopes in the order of their creation; a scope's id is its place. -/
structure ScopeTree where
  scopes : List Scope := []

namespace ScopeTree

def empty : ScopeTree := {}

def size (t : ScopeTree) : Nat := t.scopes.length

def isEmpty (t : ScopeTree) : Bool := t.scopes.isEmpty

def get? (t : ScopeTree) (id : Nat) : Option Scope := t.scopes[id]?

/-- The scope created first. -/
def root? (t : ScopeTree) : Option Nat := t.scopes.head?.map (·.id)

/-- Adds a scope for `b` and enters it with its parent. -/
def create (t : ScopeTree) (kind : ScopeKind) (parent : Option Nat) (b : Block)
    (name : Option String) : ScopeTree :=
  let id := t.size
  let adopt (s : Scope) : Scope :=
    if parent = some s.id then { s with children := s.children ++ [id] } else s
  ⟨t.scopes.map adopt ++ [⟨id, kind, name, parent, [], b.span, b.suppressions⟩]⟩

/-- The scope, its parent and so on outwards, at most `bound` of them. -/
def outwards (t : ScopeTree) : Nat → Nat → List Scope
  | 0, _ => []
  | bound + 1, id =>
    match t.get? id with
    | none => []
    | some s => s :: (s.parent.map (t.outwards bound)).getD []

/-- A scope and all scopes around it, from the inside outwards. -/
def ancestors (t : ScopeTree) (id : Nat) : List Scope := t.outwards t.size id

/-- From `id` inwards through the first child that contains the span, at most `bound` steps. -/
def inwards (t : ScopeTree) (s : Span) : Nat → Nat → Nat
  | 0, id => id
  | bound + 1, id =>
    let children := ((t.get? id).map (·.children)).getD []
    match children.find? fun c => (t.get? c).any (·.span.contains s) with
    | none => id
    | some c => t.inwards s bound c

/-- The innermost scope around a span. The root holds everything, whatever its own span. -/
def innermost? (t : ScopeTree) (s : Span) : Option Nat := t.root?.map (t.inwards s t.size)

end ScopeTree

mutual

/-- Adds the scopes of the blocks inside a block whose own scope is `scope`. -/
def Block.addScopes (b : Block) (scope : Nat) (t : ScopeTree) : ScopeTree :=
  b.nodes.attach.foldl (fun t ⟨n, _⟩ => n.addScopes scope t) t
termination_by sizeOf b
decreasing_by exact Block.sizeOf_node ‹_›

/-- Adds the scopes of the blocks in a node that belongs to `scope`. -/
def Node.addScopes (n : Node) (scope : Nat) (t : ScopeTree) : ScopeTree :=
  match n with
  | .function name _ body =>
    body.addScopes t.size (t.create .function (some scope) body (some name))
  | .scriptBlock b => b.addScopes t.size (t.create .scriptBlock (some scope) b none)
  | n => n.children.attach.foldl (fun t ⟨c, _⟩ => c.addScopes scope t) t
termination_by sizeOf n
decreasing_by
  · exact Node.sizeOf_block (n := .function name _ body) rfl
  · exact Node.sizeOf_block (n := .scriptBlock b) rfl
  · exact Node.sizeOf_child ‹_›

end

/-- The scopes of a file. -/
def SyntaxTree.scopes (t : SyntaxTree) : ScopeTree :=
  t.root.addScopes 0 (ScopeTree.empty.create .script none t.root none)

end ScriptTaint
