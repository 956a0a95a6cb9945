import Mathlib.Data.List.Basic
import ScriptTaint.Proofs.Fields
import ScriptTaint.Proofs.Shells

/-!
# Replacing a block of a file

`SyntaxTree.putBlock` puts a block in the place of another one, wherever in the file that stands.
What is around the place sees of the new block only its span: a walk of the file is the walk of the
new block with the same visits before it and after it, up to shells (`SyntaxTree.visits_putBlock`).
-/

set_option autoImplicit false

namespace ScriptTaint

/-! ## Shells of changed nodes -/

section shells
variable {g : Slot → Node → Node}

/-- The shell of a node that opens no block is made of the shells in its fields. -/
theorem Node.shell_eq_mapFields {n : Node} (hb : n.block? = none) :
    n.shell = n.mapFields fun _ => shell := by
  cases n with
  | command c =>
    have helement : Element.shell = Element.mapOperand shell := by
      funext e
      cases e with
      | argument value => rw [Element.shell, Element.mapOperand]
      | parameter name bound span => cases bound <;> rw [Element.shell, Element.mapOperand] <;> rfl
    rw [shell, Command.shell_eq, mapFields, mapIdx_eq_map, helement]
  | invocation i => rw [shell, Invocation.shell_eq, mapFields, mapIdx_eq_map]
  | conditional clauses otherwise span =>
    have hclause : Clause.shell = fun c => ⟨c.condition.shell, c.body.map shell⟩ :=
      funext Clause.shell_eq
    cases otherwise <;>
      simp only [shell, bodyShell, mapFields, mapIdx_eq_map, shells_eq_map, Clause.shells_eq_map,
        hclause, Option.map_none, Option.map_some]
  | scriptBlock | function => exact absurd hb (by simp [block?])
  | _ => simp only [shell, mapFields, mapIdx_eq_map, shells_eq_map]

/-- Changes inside the shells of the fields do not show in the shell. -/
theorem Node.shell_mapFields {n : Node} (H : ∀ s c, n.at? s = some c → (g s c).shell = c.shell) :
    (n.mapFields g).shell = n.shell := by
  cases hb : n.block? with
  | none =>
    have hb' : (n.mapFields g).block? = none := by rw [block?_mapFields, hb]; rfl
    rw [shell_eq_mapFields hb', shell_eq_mapFields hb, mapFields_mapFields hb]
    exact mapFields_congr H
  | some b =>
    cases n with
    | scriptBlock | function => simp only [mapFields, shell, Block.emptied, Block.span_mapFields]
    | _ => exact absurd hb (by simp [block?])

theorem Block.shell_mapFields {b : Block} (H : ∀ s c, b.at? s = some c → (g s c).shell = c.shell) :
    (b.mapFields g).shell = b.shell := by
  have hparams : (b.params.mapIdx fun i => Param.mapDefault (g (.default i))).map Param.shell =
      b.params.map Param.shell := by
    apply List.ext_getElem?
    intro i
    rw [List.getElem?_map, List.getElem?_mapIdx, List.getElem?_map, Option.map_map]
    refine Option.map_congr fun p hp => ?_
    obtain ⟨name, span, default?⟩ := p
    cases default? with
    | none => rfl
    | some c =>
      have hc := H (.default i) c (by simp only [at?, hp, Option.bind_some])
      simp only [Function.comp_apply, Param.mapDefault, Param.shell, Option.map_some, hc]
  have hstatements : (b.statements.mapIdx fun i => g (.statement i)).map Node.shell =
      b.statements.map Node.shell := by
    apply List.ext_getElem?
    intro i
    rw [List.getElem?_map, List.getElem?_mapIdx, List.getElem?_map, Option.map_map]
    exact Option.map_congr fun c hc => H (.statement i) c hc
  simp only [mapFields, shell, hparams, hstatements]

end shells

/-! ## Putting a block in the place of another one -/

/-- The change of the field `s` alone. -/
def Slot.only (s : Slot) (change : Node → Node) (s' : Slot) (c : Node) : Node :=
  if s' = s then change c else c

/-- The node with `F` as the block it opens. -/
def Node.setBlock (F : Block) : Node → Node
  | .scriptBlock _ => .scriptBlock F
  | .function name span _ => .function name span F
  | n => n

/-- The block that the node at the end of a path opens. -/
def Node.blockAt? (n : Node) : List Slot → Option Block
  | [] => n.block?
  | s :: path => (n.at? s).bind fun c => c.blockAt? path

/-- Puts `F` in the place of the block at the end of a path. -/
def Node.putBlock : Node → List Slot → Block → Node
  | n, [], F => n.setBlock F
  | n, s :: path, F => n.mapFields (s.only fun c => c.putBlock path F)

def Block.blockAt? (b : Block) : List Slot → Option Block
  | [] => some b
  | s :: path => (b.at? s).bind fun c => c.blockAt? path

def Block.putBlock (b : Block) : List Slot → Block → Block
  | [], F => F
  | s :: path, F => b.mapFields (s.only fun c => c.putBlock path F)

/-- The block of a file at a path. The block of the file itself is at the empty path. -/
def SyntaxTree.block? (t : SyntaxTree) (path : List Slot) : Option Block := t.root.blockAt? path

/-- The file with `F` in the place of the block at a path. -/
def SyntaxTree.putBlock (t : SyntaxTree) (path : List Slot) (F : Block) : SyntaxTree :=
  { t with root := t.root.putBlock path F }

section places
variable {n c : Node} {b B F : Block} {s : Slot} {path : List Slot}

theorem Node.blockAt?_of_block? (h : n.block? = some b) : n.blockAt? path = b.blockAt? path := by
  cases n with
  | scriptBlock body | function _ _ body =>
    obtain rfl : body = b := Option.some.inj h
    cases path <;> rfl
  | _ => exact absurd h (by simp [block?])

theorem Node.putBlock_of_block? (h : n.block? = some b) :
    n.putBlock path F = n.setBlock (b.putBlock path F) := by
  cases n with
  | scriptBlock body | function _ _ body =>
    obtain rfl : body = b := Option.some.inj h
    cases path <;> rfl
  | _ => exact absurd h (by simp [block?])

theorem Node.block?_setBlock (h : n.block? = some b) : (n.setBlock F).block? = some F := by
  cases n with
  | scriptBlock | function => rfl
  | _ => exact absurd h (by simp [block?])

theorem Node.shell_setBlock (h : n.block? = some b) (hF : F.span = b.span) :
    (n.setBlock F).shell = n.shell := by
  cases n with
  | scriptBlock body | function _ _ body =>
    obtain rfl : body = b := Option.some.inj h
    simp only [setBlock, shell, Block.emptied, hF]
  | _ => exact absurd h (by simp [block?])

theorem Node.setBlock_self (h : n.block? = some b) : n.setBlock b = n := by
  cases n with
  | scriptBlock body | function _ _ body =>
    obtain rfl : body = b := Option.some.inj h
    rfl
  | _ => exact absurd h (by simp [block?])

/-- A change of one field that some view does not show is a change that the view does not show at
any field. -/
theorem Slot.view_only {β : Type} (view : Node → β) {look : Slot → Option Node}
    {change : Node → Node} (hc : look s = some c) (h : view (change c) = view c) {s' : Slot}
    {d : Node} (hd : look s' = some d) : view (s.only change s' d) = view d := by
  rw [only]
  split
  · next hs =>
    obtain rfl : c = d := Option.some.inj (hc.symm.trans (hs ▸ hd))
    exact h
  · rfl

theorem Node.putBlock_self (h : n.blockAt? path = some B) : n.putBlock path B = n := by
  induction path generalizing n with
  | nil => exact setBlock_self h
  | cons s path ih =>
    obtain ⟨c, hc, hB⟩ := Option.bind_eq_some_iff.1 h
    exact mapFields_eq_self fun s' d hd => Slot.view_only (fun m => m) hc (ih hB) hd

theorem Block.putBlock_self (h : b.blockAt? path = some B) : b.putBlock path B = b := by
  have hnode := Node.putBlock_self (n := .scriptBlock b) ((Node.blockAt?_of_block? rfl).trans h)
  rw [Node.putBlock_of_block? rfl] at hnode
  exact Node.scriptBlock.inj hnode

/-- The block that is put at a place is found there. -/
theorem Node.blockAt?_putBlock (h : n.blockAt? path = some B) :
    (n.putBlock path F).blockAt? path = some F := by
  induction path generalizing n with
  | nil => exact block?_setBlock h
  | cons s path ih =>
    obtain ⟨c, hc, hB⟩ := Option.bind_eq_some_iff.1 h
    have hat : (n.putBlock (s :: path) F).at? s = some (c.putBlock path F) := by
      rw [putBlock, at?_mapFields, hc, Option.map_some, Slot.only, if_pos rfl]
    rw [blockAt?, hat]
    exact ih hB

theorem Block.blockAt?_putBlock (h : b.blockAt? path = some B) :
    (b.putBlock path F).blockAt? path = some F := by
  have hnode := Node.blockAt?_putBlock (F := F) (n := .scriptBlock b)
    ((Node.blockAt?_of_block? rfl).trans h)
  rw [Node.putBlock_of_block? rfl] at hnode
  exact (Node.blockAt?_of_block? (b := b.putBlock path F) rfl).symm.trans hnode

/-- What is around a block sees its span alone. -/
theorem Node.shell_putBlock (h : n.blockAt? path = some B) (hF : F.span = B.span) :
    (n.putBlock path F).shell = n.shell := by
  induction path generalizing n with
  | nil => exact shell_setBlock h hF
  | cons s path ih =>
    obtain ⟨c, hc, hB⟩ := Option.bind_eq_some_iff.1 h
    exact shell_mapFields fun s' d hd => Slot.view_only Node.shell hc (ih hB) hd

theorem Block.shell_putBlock_cons (h : b.blockAt? (s :: path) = some B) (hF : F.span = B.span) :
    (b.putBlock (s :: path) F).shell = b.shell := by
  obtain ⟨c, hc, hB⟩ := Option.bind_eq_some_iff.1 h
  exact shell_mapFields fun s' d hd => Slot.view_only Node.shell hc (Node.shell_putBlock hB hF) hd

/-- The fields around a changed field stay. -/
theorem exists_only {parts : List (Slot × Node)} (hnodup : (parts.map (·.1)).Nodup)
    (h : (s, c) ∈ parts) :
    ∃ l r, ∀ change : Node → Node,
      (parts.map fun p => (p.1, s.only change p.1 p.2)).map (·.2) = l ++ change c :: r := by
  obtain ⟨before, after, rfl⟩ := List.append_of_mem h
  rw [List.map_append, List.map_cons, List.nodup_append, List.nodup_cons] at hnodup
  have hbefore : ∀ p ∈ before, p.1 ≠ s := fun p hp =>
    hnodup.2.2 p.1 (List.mem_map_of_mem hp) s List.mem_cons_self
  have hafter : ∀ p ∈ after, p.1 ≠ s := fun p hp hs =>
    hnodup.2.1.1 (List.mem_map.2 ⟨p, hp, hs⟩)
  have rest (change : Node → Node) (ps : List (Slot × Node)) (hps : ∀ p ∈ ps, p.1 ≠ s) :
      (ps.map fun p => (p.1, s.only change p.1 p.2)).map (·.2) = ps.map (·.2) := by
    rw [List.map_map]
    refine List.map_congr_left fun p hp => ?_
    simp only [Function.comp_apply, Slot.only, if_neg (hps p hp)]
  refine ⟨before.map (·.2), after.map (·.2), fun change => ?_⟩
  rw [List.map_append, List.map_append, List.map_cons, List.map_cons, rest change before hbefore,
    rest change after hafter, Slot.only, if_pos rfl]

theorem Block.exists_nodes_putBlock (path : List Slot) (hc : b.at? s = some c) :
    ∃ l r, ∀ F, (b.putBlock (s :: path) F).nodes = l ++ c.putBlock path F :: r := by
  obtain ⟨l, r, hlr⟩ := exists_only b.nodup_parts (mem_parts.2 hc)
  refine ⟨l, r, fun F => ?_⟩
  rw [← map_snd_parts, putBlock, parts_mapFields]
  exact hlr fun c => c.putBlock path F

theorem Node.block?_putBlock_cons (hb : n.block? = none) :
    (n.putBlock (s :: path) F).block? = none := by
  rw [putBlock, block?_mapFields, hb]
  rfl

theorem Node.exists_children_putBlock (path : List Slot) (hb : n.block? = none)
    (hc : n.at? s = some c) :
    ∃ l r, ∀ F, (n.putBlock (s :: path) F).children = l ++ c.putBlock path F :: r := by
  obtain ⟨l, r, hlr⟩ := exists_only n.nodup_parts (mem_parts.2 hc)
  refine ⟨l, r, fun F => ?_⟩
  rw [← map_snd_parts (block?_putBlock_cons hb), putBlock, parts_mapFields]
  exact hlr fun c => c.putBlock path F

end places

theorem Node.find?_of_blockAt? {n c : Node} {scope b : Block} {s : Slot} {path : List Slot}
    (hb : n.blockAt? path = some b) (hc : b.at? s = some c) :
    n.find? scope (path ++ [s]) = some (b, c) := by
  induction path generalizing n scope with
  | nil =>
    have hat : n.at? s = some c := by
      rw [← mem_parts] at *
      cases n with
      | scriptBlock body | function _ _ body =>
        obtain rfl : body = b := Option.some.inj hb
        exact Block.mem_parts.2 hc
      | _ => exact absurd hb (by simp [blockAt?, block?])
    have hb : n.block? = some b := hb
    simp only [List.nil_append, find?, hat, Option.bind_some, inner, hb, Option.getD_some]
  | cons s' path ih =>
    obtain ⟨d, hd, hb⟩ := Option.bind_eq_some_iff.1 hb
    simp only [List.cons_append, find?, hd, Option.bind_some]
    exact ih hb

/-- A field of a block of the file is a position in that block. -/
theorem SyntaxTree.find?_of_block? {t : SyntaxTree} {b : Block} {path : List Slot} {s : Slot}
    {c : Node} (hb : t.block? path = some b) (hc : b.at? s = some c) :
    t.find? (path ++ [s]) = some (b, c) := by
  cases path with
  | nil =>
    obtain rfl : t.root = b := Option.some.inj hb
    simp only [List.nil_append, find?, hc, Option.bind_some, Node.find?]
  | cons s' path =>
    obtain ⟨d, hd, hb⟩ := Option.bind_eq_some_iff.1 hb
    simp only [List.cons_append, find?, hd, Option.bind_some]
    exact Node.find?_of_blockAt? hb hc

/-! ## Walks around a block -/

/-- The frame with what its block holds forgotten. -/
def Frame.emptied (frame : Frame) : Frame := ⟨frame.block.emptied, frame.bindings⟩

/-- The visit with the blocks inside it emptied. -/
def Visit.shell : Visit → Visit
  | .block frame => .block ⟨frame.block.shell, frame.bindings⟩
  | .node frame n => .node frame.emptied n.shell

/-- A view that does not tell two frames apart does not tell the walks in them apart. -/
theorem Node.map_visits_congr {β : Type} (view : Visit → β) {frame frame' : Frame}
    (h : ∀ n, view (.node frame n) = view (.node frame' n)) (n : Node) :
    (n.visits frame).map view = (n.visits frame').map view := by
  induction n using Node.induction_children with
  | step n ih =>
    cases hb : n.block? with
    | some b => rw [visits_block hb, visits_block hb, List.map_cons, List.map_cons, h]
    | none =>
      rw [visits_children hb, visits_children hb, List.map_cons, List.map_cons, h, List.map_flatMap,
        List.map_flatMap, List.flatMap_congr ih]

theorem Block.frame_shell {b b' : Block} (h : b'.shell = b.shell) :
    Visit.shell (.block b'.frame) = Visit.shell (.block b.frame) ∧
      b'.frame.emptied = b.frame.emptied := by
  have hbindings : b'.bindings = b.bindings := by rw [← bindings_shell b', h, bindings_shell]
  have hspan : b'.span = b.span := show b'.shell.span = b.shell.span by rw [h]
  simp only [Visit.shell, Frame.emptied, frame, emptied, h, hbindings, hspan, and_self]

section walks
variable {n : Node} {b B : Block} {s : Slot} {path : List Slot}

/-- Siblings of a changed node are walked as before. -/
theorem map_shell_flatMap_visits {frame frame' : Frame} (h : frame'.emptied = frame.emptied)
    {c : Node} {l r : List Node} :
    ((l ++ c :: r).flatMap (·.visits frame')).map Visit.shell =
      (l.flatMap (·.visits frame)).map Visit.shell ++ (c.visits frame).map Visit.shell ++
        (r.flatMap (·.visits frame)).map Visit.shell := by
  have hcongr (m : Node) : (m.visits frame').map Visit.shell = (m.visits frame).map Visit.shell :=
    m.map_visits_congr Visit.shell fun k => by simp only [Visit.shell, h]
  simp only [List.flatMap_append, List.flatMap_cons, List.map_append, List.map_flatMap, hcongr,
    List.append_assoc]

/-- The visits before and after a block do not depend on what is in it. -/
def WalksAround (B : Block) (walk : Block → List Visit) : Prop :=
  ∃ l r, ∀ F : Block, F.span = B.span →
    (walk F).map Visit.shell = l ++ F.visits.map Visit.shell ++ r

theorem Block.visits_putBlock_cons (h : b.blockAt? (s :: path) = some B)
    (ih : ∀ (c : Node) (frame : Frame), c.blockAt? path = some B →
      WalksAround B fun F => (c.putBlock path F).visits frame) :
    WalksAround B fun F => (b.putBlock (s :: path) F).visits := by
  obtain ⟨c, hc, hB⟩ := Option.bind_eq_some_iff.1 h
  obtain ⟨before, after, hnodes⟩ := exists_nodes_putBlock path hc
  obtain ⟨l, r, hlr⟩ := ih c b.frame hB
  refine ⟨Visit.shell (.block b.frame) :: (before.flatMap (·.visits b.frame)).map Visit.shell ++ l,
    r ++ (after.flatMap (·.visits b.frame)).map Visit.shell, fun F hF => ?_⟩
  obtain ⟨hvisit, hframe⟩ := frame_shell (shell_putBlock_cons h hF)
  simp only [visits_eq, List.map_cons, hnodes, map_shell_flatMap_visits hframe, hlr F hF, hvisit,
    List.append_assoc, List.cons_append]

/-- The walk of a node around a block in it. -/
theorem Node.visits_putBlock (h : n.blockAt? path = some B) (frame : Frame) :
    WalksAround B fun F => (n.putBlock path F).visits frame := by
  induction path generalizing n frame with
  | nil =>
    refine ⟨[Visit.shell (.node frame n)], [], fun F hF => ?_⟩
    have hshell := shell_setBlock h hF
    simp only [putBlock, visits_block (block?_setBlock h), List.map_cons, Visit.shell, hshell,
      List.append_nil, List.singleton_append]
  | cons s path ih =>
    cases hb : n.block? with
    | some b =>
      have hB : b.blockAt? (s :: path) = some B := (blockAt?_of_block? hb).symm.trans h
      obtain ⟨l, r, hlr⟩ := Block.visits_putBlock_cons hB fun c frame hc => ih hc frame
      refine ⟨Visit.shell (.node frame n) :: l, r, fun F hF => ?_⟩
      have hshell := shell_putBlock h hF
      beta_reduce
      rw [putBlock_of_block? hb] at hshell ⊢
      rw [visits_block (block?_setBlock hb), List.map_cons, hlr F hF]
      simp only [Visit.shell, hshell, List.cons_append]
    | none =>
      obtain ⟨c, hc, hB⟩ := Option.bind_eq_some_iff.1 h
      obtain ⟨before, after, hchildren⟩ := exists_children_putBlock path hb hc
      obtain ⟨l, r, hlr⟩ := ih hB frame
      refine ⟨Visit.shell (.node frame n) :: (before.flatMap (·.visits frame)).map Visit.shell ++ l,
        r ++ (after.flatMap (·.visits frame)).map Visit.shell, fun F hF => ?_⟩
      have hshell := shell_putBlock h hF
      beta_reduce
      rw [visits_children (block?_putBlock_cons hb), List.map_cons, hchildren,
        map_shell_flatMap_visits rfl, hlr F hF]
      simp only [Visit.shell, hshell, List.append_assoc, List.cons_append]

/-- The walk of a file around one of its blocks. -/
theorem SyntaxTree.visits_putBlock {t : SyntaxTree} (h : t.block? path = some B) :
    WalksAround B fun F => (t.putBlock path F).visits := by
  cases path with
  | nil => exact ⟨[], [], fun F _ => by simp [putBlock, Block.putBlock, visits]⟩
  | cons s path =>
    exact Block.visits_putBlock_cons h fun c frame hc => Node.visits_putBlock hc frame

end walks

end ScriptTaint
