import Mathlib.Data.List.Infix
import ScriptTaint.Proofs.Related
import ScriptTaint.Proofs.SinkShells
import ScriptTaint.Proofs.Sites

/-!
# Scopes are isolated

`Block.Rewritten` says that a block differs from another one in what some of the blocks inside it
hold, at any depth: their parameters, annotations and statements, but not their spans. A position
that does not lead into one of these has the same node as before, down to the contents of blocks,
in a block that binds the same (`Block.find?_putBlock` for one changed block,
`Block.Rewritten.find?_eq` for all of them). So everything that is judged of the node stays as it
was, and so do the code sites there (`scopes_isolated`).
-/

set_option autoImplicit false

namespace ScriptTaint

/-- The node at a path from a block, and the block that encloses it most closely. -/
def Block.find? (b : Block) : List Slot → Option (Block × Node)
  | [] => none
  | s :: path => (b.at? s).bind fun n => n.find? b path

theorem SyntaxTree.find?_eq (t : SyntaxTree) (p : List Slot) : t.find? p = t.root.find? p := by
  cases p <;> rfl

/-- What can be seen of a position from outside the blocks in its node and in its scope. -/
def seenFrom (x : Block × Node) : Block × Node := (x.1.shell, x.2.shell)

/-! ## One changed block -/

/-- The position does not lead into the block at `path`. The node that opens the block is outside
as well. -/
def Outside (path p : List Slot) : Prop := path <+: p → path = p

instance (path p : List Slot) : Decidable (Outside path p) :=
  inferInstanceAs (Decidable (path <+: p → path = p))

section
variable {n : Node} {b B F scope scope' : Block} {s : Slot} {path p : List Slot}

theorem Outside.tail (h : Outside (s :: path) (s :: p)) : Outside path p := by
  intro hp
  exact (List.cons.inj (h ((List.prefix_cons_inj s).2 hp))).2

theorem Outside.ne_nil (h : Outside path (s :: p)) : path ≠ [] := by
  rintro rfl
  cases h List.nil_prefix

/-- The scope around a node is passed on. -/
theorem Node.map_find?_congr (n : Node) (p : List Slot) (h : scope'.shell = scope.shell) :
    (n.find? scope' p).map seenFrom = (n.find? scope p).map seenFrom := by
  induction p generalizing n scope scope' with
  | nil => simp only [find?, Option.map_some, seenFrom, h]
  | cons s p ih =>
    have hinner : (n.inner scope').shell = (n.inner scope).shell := by
      unfold inner
      cases n.block? with
      | none => exact h
      | some b => rfl
    simp only [find?]
    cases n.at? s with
    | none => rfl
    | some c => exact ih c hinner

theorem Node.inner_putBlock (h : n.blockAt? (s :: path) = some B) (hF : F.span = B.span)
    (hscope : scope'.shell = scope.shell) :
    ((n.putBlock (s :: path) F).inner scope').shell = (n.inner scope).shell := by
  unfold inner
  cases hb : n.block? with
  | none =>
    rw [block?_putBlock_cons hb]
    exact hscope
  | some b =>
    rw [putBlock_of_block? hb, block?_setBlock hb]
    exact Block.shell_putBlock_cons ((blockAt?_of_block? hb).symm.trans h) hF

/-- A change inside a block does not show at a position outside it. -/
theorem Node.find?_putBlock (h : n.blockAt? path = some B) (hF : F.span = B.span)
    (hp : Outside path p) (hscope : scope'.shell = scope.shell) :
    ((n.putBlock path F).find? scope' p).map seenFrom = (n.find? scope p).map seenFrom := by
  induction p generalizing n path scope scope' with
  | nil => simp only [find?, Option.map_some, seenFrom, shell_putBlock h hF, hscope]
  | cons s' p ih =>
    obtain ⟨s, path, rfl⟩ := List.exists_cons_of_ne_nil hp.ne_nil
    have hinner := inner_putBlock h hF hscope
    obtain ⟨c, hc, hB⟩ := Option.bind_eq_some_iff.1 h
    have hat : (n.putBlock (s :: path) F).at? s' =
        (n.at? s').map (s.only (fun c => c.putBlock path F) s') := by
      rw [putBlock, at?_mapFields]
    simp only [find?, hat]
    by_cases hs : s' = s
    · subst hs
      simp only [hc, Option.map_some, Option.bind_some, Slot.only, if_true]
      exact ih hB hp.tail hinner
    · -- The path and the position part here.
      cases n.at? s' with
      | none => rfl
      | some d =>
        simp only [Option.map_some, Option.bind_some, Slot.only, if_neg hs]
        exact d.map_find?_congr p hinner

theorem Block.find?_putBlock (h : b.blockAt? (s :: path) = some B) (hF : F.span = B.span)
    (hp : Outside (s :: path) p) :
    ((b.putBlock (s :: path) F).find? p).map seenFrom = (b.find? p).map seenFrom := by
  cases p with
  | nil => rfl
  | cons s' p =>
    -- The block is looked up as the literal that opens it.
    have hnode := Node.find?_putBlock (n := .scriptBlock b)
      ((Node.blockAt?_of_block? rfl).trans h) hF hp (rfl : b.shell = b.shell)
    rw [Node.putBlock_of_block? rfl] at hnode
    exact hnode

end

/-! ## Any number of changed blocks -/

/-- `b'` is `b` with other contents in the blocks at `paths`, all of them inside `b`, one after the
other. The blocks keep their spans. -/
inductive Block.Rewritten (b : Block) : List (List Slot) → Block → Prop
  | refl : Rewritten b [] b
  | change {paths : List (List Slot)} {b' B F : Block} {s : Slot} {path : List Slot}
      (h : Rewritten b paths b') (hB : b'.blockAt? (s :: path) = some B) (hF : F.span = B.span) :
      Rewritten b ((s :: path) :: paths) (b'.putBlock (s :: path) F)

namespace Block.Rewritten

variable {b b' : Block} {paths : List (List Slot)}

theorem shell_eq (h : b.Rewritten paths b') : b'.shell = b.shell := by
  induction h with
  | refl => rfl
  | change _ hB hF ih => rw [shell_putBlock_cons hB hF, ih]

theorem find?_eq (h : b.Rewritten paths b') {p : List Slot} (hp : ∀ path ∈ paths, Outside path p) :
    (b'.find? p).map seenFrom = (b.find? p).map seenFrom := by
  induction h with
  | refl => rfl
  | change _ hB hF ih =>
    rw [find?_putBlock hB hF (hp _ List.mem_cons_self),
      ih fun path hpath => hp path (List.mem_cons_of_mem _ hpath)]

end Block.Rewritten

/-! ## What is judged -/

/-- The nodes are the same down to the contents of blocks, and stand in blocks that bind the same.
Under any bindings they are of one constancy and carry the same marks, and they escape the same
operand, of one constancy, or none. -/
structure JudgedAlike (x x' : Block × Node) : Prop where
  shell : x'.2.shell = x.2.shell
  bindings : x'.1.bindings = x.1.bindings
  constancy (b : Bindings) : x'.2.constancy b = x.2.constancy b
  carriesEscaped (b : Bindings) : x'.2.carriesEscaped b = x.2.carriesEscaped b
  escapedOperand? (b : Bindings) :
    x'.2.escapedOperand?.map (fun n => (n.shell, n.constancy b)) =
      x.2.escapedOperand?.map fun n => (n.shell, n.constancy b)

section
variable {x x' : Block × Node}

/-- What is judged of a position can be seen from outside. -/
theorem judgedAlike_of_seenFrom (h : seenFrom x' = seenFrom x) : JudgedAlike x x' := by
  obtain ⟨hscope, hnode⟩ := Prod.mk.inj h
  -- An operand is judged by its shell.
  have hoperand (n : Node) (b : Bindings) :
      n.escapedOperand?.map (fun m => (m.shell, m.constancy b)) =
        n.shell.escapedOperand?.map fun m => (m, m.constancy b) := by
    rw [Node.escapedOperand?_shell, Option.map_map]
    simp only [Function.comp_def, Node.constancy_shell]
  constructor
  · exact hnode
  · rw [← Block.bindings_shell, hscope, Block.bindings_shell]
  · intro b
    rw [← Node.constancy_shell, hnode, Node.constancy_shell]
  · intro b
    rw [← Node.carriesEscaped_shell, hnode, Node.carriesEscaped_shell]
  · intro b
    rw [hoperand, hoperand, hnode]

theorem JudgedAlike.sites_eq (h : JudgedAlike x x') (r : SinkRegistry) (a : Aliases) :
    (x'.2.sinkCalls r a).map (·.site x'.1.bindings) =
      (x.2.sinkCalls r a).map (·.site x.1.bindings) := by
  have hshell (n : Node) (b : Bindings) :
      (n.shell.sinkCalls r a).map (·.site b) = (n.sinkCalls r a).map (·.site b) := by
    rw [Node.sinkCalls_shell, List.map_map]
    exact List.map_congr_left fun k _ => k.site_shell b
  rw [← hshell, h.shell, hshell, h.bindings]

end

/-- **Scopes are isolated.** Change the parameters, annotations and statements of any blocks inside
a block, at any depth, but not their spans. The block binds what it bound. At every position that
does not lead into a changed block there is a node as before, if there was one, which is judged as
before. If the block is that of a file and the file keeps its aliases, the code sites at such a
position stay as they were. -/
theorem scopes_isolated {b b' : Block} {paths : List (List Slot)} (h : b.Rewritten paths b') :
    b'.bindings = b.bindings ∧
    ∀ p, (∀ path ∈ paths, Outside path p) →
      Option.Rel JudgedAlike (b.find? p) (b'.find? p) ∧
      ∀ (r : SinkRegistry) (t t' : SyntaxTree), t.root = b → t'.root = b' →
        t'.aliases r = t.aliases r → t'.sitesAt r p = t.sitesAt r p := by
  refine ⟨?_, fun p hp => ?_⟩
  · rw [← Block.bindings_shell, h.shell_eq, Block.bindings_shell]
  have hfind := h.find?_eq hp
  have halike : Option.Rel JudgedAlike (b.find? p) (b'.find? p) := by
    generalize b.find? p = found, b'.find? p = found' at hfind ⊢
    cases found with
    | none =>
      obtain rfl := Option.map_eq_none_iff.1 hfind
      exact .none
    | some x =>
      obtain ⟨x', rfl, hx⟩ := Option.map_eq_some_iff.1 hfind
      exact .some (judgedAlike_of_seenFrom hx)
  refine ⟨halike, ?_⟩
  rintro r t t' rfl rfl haliases
  rw [← t.find?_eq, ← t'.find?_eq] at halike
  unfold SyntaxTree.sitesAt
  rw [haliases]
  generalize t.find? p = found, t'.find? p = found' at halike ⊢
  cases halike with
  | none => rfl
  | some hx => exact hx.sites_eq r (t.aliases r)

/-- The assignment of the parameter `p` to `x`, from `start` on. -/
def passesInput (start : UInt32) : Node :=
  .assignment (.reference ⟨"x", ⟨start, start + 2⟩⟩) (.reference ⟨"p", ⟨start + 5, start + 7⟩⟩)
    .assign ⟨start, start + 7⟩

/-- A function and an array with a script block, then the evaluation of the array. -/
def evaluatedArray : Block :=
  { span := ⟨0, 120⟩, params := [⟨"p", ⟨6, 8⟩, none⟩], annotations := []
    statements :=
      [.function "Get-Part" ⟨10, 40⟩ ⟨⟨20, 40⟩, [], [], []⟩,
       .assignment (.reference ⟨"x", ⟨42, 44⟩⟩)
        (.arrayLiteral [.scriptBlock ⟨⟨50, 70⟩, [], [], []⟩, .literal "Get-Date" ⟨72, 82⟩] ⟨48, 84⟩)
        .assign ⟨42, 84⟩,
       .command
        { name := .literal "iex" ⟨90, 93⟩
          elements := [.argument (.reference ⟨"x", ⟨94, 96⟩⟩)]
          span := ⟨90, 96⟩ }] }

/-- Both blocks inside assign the parameter to the variable that is evaluated outside. -/
theorem scopes_isolated_evaluatedArray :
    let b := evaluatedArray
    let literal : List Slot := [.statement 1, .value, .element 0]
    let b' := (b.putBlock [.statement 0] ⟨⟨20, 40⟩, [], [], [passesInput 22]⟩).putBlock literal
      ⟨⟨50, 70⟩, [⟨"x", ⟨52, 54⟩, none⟩], [], [passesInput 56]⟩
    b.Rewritten [literal, [.statement 0]] b' ∧
    b'.bindings = b.bindings ∧
    (SyntaxTree.mk "part.ps1" [0] b').sitesAt .builtin [.statement 2] =
      (SyntaxTree.mk "part.ps1" [0] b).sitesAt .builtin [.statement 2] ∧
    (SyntaxTree.mk "part.ps1" [0] b).sitesAt .builtin [.statement 2] =
      [⟨.dynamicEvaluation, "iex", ⟨90, 96⟩, false, false⟩] := by
  intro b literal b'
  have hrewritten : b.Rewritten [literal, [.statement 0]] b' :=
    .change (.change .refl rfl rfl) rfl rfl
  obtain ⟨hbindings, hposition⟩ := scopes_isolated hrewritten
  obtain ⟨-, hsites⟩ := hposition [.statement 2] (by decide +kernel)
  have haliases : ((SyntaxTree.mk "part.ps1" [0] b').aliases .builtin).targets =
      ((SyntaxTree.mk "part.ps1" [0] b).aliases .builtin).targets := by decide +kernel
  exact ⟨hrewritten, hbindings, hsites _ _ _ rfl rfl (congrArg Aliases.mk haliases),
    by decide +kernel⟩

end ScriptTaint
