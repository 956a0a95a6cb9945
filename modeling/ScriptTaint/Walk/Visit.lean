import ScriptTaint.Flow.Steps

/-!
# Walking a tree

A walk meets every block and every node of a file, each before what is inside it, together with
the frame of the scope it belongs to. Bodies of functions and script blocks are walked in a frame of
their own. `SyntaxTree.visits` lists a whole walk. `SyntaxTree.walk` lets a visitor see one visit
after the other and stop.
-/

set_option autoImplicit false

namespace ScriptTaint

/-- A scope during a walk: its block, and what the block binds. -/
structure Frame where
  block : Block
  bindings : Bindings

def Block.frame (b : Block) : Frame := ⟨b, b.bindings⟩

/-- What a walk meets. -/
inductive Visit
  | block (frame : Frame)
  | node (frame : Frame) (n : Node)

mutual

/-- The visits of a block's walk. -/
def Block.visits (b : Block) : List Visit :=
  let frame := b.frame
  .block frame :: b.nodes.attach.flatMap fun ⟨n, _⟩ => n.visits frame
termination_by sizeOf b
decreasing_by exact Block.sizeOf_node ‹_›

/-- The visits of a node's walk in the frame of its scope. -/
def Node.visits (n : Node) (frame : Frame) : List Visit :=
  .node frame n ::
    match _h : n.block? with
    | some b => b.visits
    | none => n.children.attach.flatMap fun ⟨c, _⟩ => c.visits frame
termination_by sizeOf n
decreasing_by
  · exact Node.sizeOf_block _h
  · exact Node.sizeOf_child ‹_›

end

/-- All visits of a file, in order. -/
def SyntaxTree.visits (t : SyntaxTree) : List Visit := t.root.visits

section
variable {σ : Type}

/-- A visitor's answer: its new state, and whether the walk goes on. -/
inductive Flow (σ : Type)
  | go (state : σ)
  | stop (state : σ)

namespace Flow

def state : Flow σ → σ
  | .go s | .stop s => s

/-- Goes on with `f`, unless the walk has stopped. -/
def andThen : Flow σ → (σ → Flow σ) → Flow σ
  | .go s, f => f s
  | .stop s, _ => .stop s

end Flow

variable (visit : σ → Visit → Flow σ)

mutual

def Block.walk (b : Block) (s : σ) : Flow σ :=
  let frame := b.frame
  b.nodes.attach.foldl (fun flow ⟨n, _⟩ => flow.andThen (n.walk frame)) (visit s (.block frame))
termination_by sizeOf b
decreasing_by exact Block.sizeOf_node ‹_›

def Node.walk (n : Node) (frame : Frame) (s : σ) : Flow σ :=
  (visit s (.node frame n)).andThen fun s =>
    match _h : n.block? with
    | some b => b.walk s
    | none => n.children.attach.foldl (fun flow ⟨c, _⟩ => flow.andThen (c.walk frame)) (.go s)
termination_by sizeOf n
decreasing_by
  · exact Node.sizeOf_block _h
  · exact Node.sizeOf_child ‹_›

end

/-- Shows the visits of a file to a visitor, until it stops. -/
def SyntaxTree.walk (t : SyntaxTree) (s : σ) : Flow σ := t.root.walk visit s

end

end ScriptTaint
