import ScriptTaint.Script.Decode

/-!
# Which values are nodes

`Node.ofJsonWithin?` settles how a value is read before it reads anything inside it. The settlement
is right: a value is read as a modelled node where that succeeds, and as an unsupported one
elsewhere (`Node.ofJsonWithin?_succ`). This rests on two facts. Whether a modelled node can be read
depends on which values inside it are nodes, and not on what these nodes are
(`Node.isSome_modelled?`); and an object with an outline always is a node
(`Node.isSome_unsupported?`).
-/

set_option autoImplicit false

namespace ScriptTaint

open Json (required defaulted list? optional?)

/-! ## Readers that succeed together -/

/-- Both readings succeed or both fail. -/
def Alike {α β : Type} (x : Option α) (y : Option β) : Prop := x.isSome = y.isSome

namespace Alike

variable {α β γ δ : Type}

theorem same {x : Option α} {k : α → Option γ} {l : α → Option δ} (h : ∀ a, Alike (k a) (l a)) :
    Alike (x >>= k) (x >>= l) := by
  cases x with
  | none => rfl
  | some a => exact h a

theorem bind {x : Option α} {y : Option β} {k : α → Option γ} {l : β → Option δ} (h : Alike x y)
    (hk : ∀ a b, Alike (k a) (l b)) : Alike (x >>= k) (y >>= l) := by
  match x, y, h with
  | none, none, _ => rfl
  | some a, some b, _ => exact hk a b

theorem mapM {f : Json → Option α} {g : Json → Option β} (h : ∀ j, Alike (f j) (g j)) :
    ∀ items : List Json, Alike (items.mapM f) (items.mapM g)
  | [] => rfl
  | j :: js => by
    simp only [List.mapM_cons]
    exact bind (h j) fun _ _ => bind (mapM h js) fun _ _ => rfl

end Alike

section
variable {α β : Type} {f : Json → Option α} {g : Json → Option β} (h : ∀ j, Alike (f j) (g j))
include h

theorem Json.alike_required (fields : List Field) (key : String) :
    Alike (required fields key f) (required fields key g) := by
  unfold required
  cases Json.lookup? fields key with
  | none => rfl
  | some j => exact h j

theorem Json.alike_defaulted (fields : List Field) (key : String) (a : α) (b : β) :
    Alike (defaulted fields key a f) (defaulted fields key b g) := by
  unfold defaulted
  cases Json.lookup? fields key with
  | none => rfl
  | some j => exact h j

theorem Json.alike_list? (j : Json) : Alike (list? f j) (list? g j) := by
  cases j with
  | array items => exact Alike.mapM h items
  | _ => rfl

theorem Json.alike_optional? (j : Json) : Alike (optional? f j) (optional? g j) := by
  have hj := h j
  cases j <;> simp_all [Alike, optional?]

end

/-! ## Parts of nodes -/

section
variable {f g : Json → Option Node} (h : ∀ j, Alike (f j) (g j))
include h

theorem Param.alike_ofJson? (j : Json) : Alike (Param.ofJson? f j) (Param.ofJson? g j) :=
  Alike.same fun m => Alike.same fun _ => Alike.same fun _ =>
    Alike.bind (Json.alike_defaulted (Json.alike_optional? h) m _ _ _) fun _ _ => rfl

theorem Block.alike_ofJson? (j : Json) : Alike (Block.ofJson? f j) (Block.ofJson? g j) :=
  Alike.same fun m => Alike.same fun _ =>
    Alike.bind (Json.alike_defaulted (Json.alike_list? (Param.alike_ofJson? h)) m _ _ _) fun _ _ =>
      Alike.same fun _ =>
        Alike.bind (Json.alike_defaulted (Json.alike_list? h) m _ _ _) fun _ _ => rfl

theorem Element.alike_ofJson? (tag? : Json → Option Nat) (j : Json) :
    Alike (Element.ofJson? f tag? j) (Element.ofJson? g tag? j) := by
  refine Alike.same fun ⟨tag, body⟩ => Alike.same fun i => ?_
  match i with
  | 0 => exact Alike.same fun m => Alike.bind (Json.alike_required h m _) fun _ _ => rfl
  | 1 =>
    exact Alike.same fun m => Alike.same fun _ =>
      Alike.bind (Json.alike_defaulted (Json.alike_optional? h) m _ _ _) fun _ _ =>
        Alike.same fun _ => rfl
  | _ + 2 => rfl

theorem Command.alike_read? (tag? : Json → Option Nat) (j : Json) :
    Alike (Command.read? f tag? j) (Command.read? g tag? j) :=
  Alike.same fun m => Alike.bind (Json.alike_required h m _) fun _ _ =>
    Alike.bind (Json.alike_defaulted (Json.alike_list? (Element.alike_ofJson? h tag?)) m _ _ _)
      fun _ _ => Alike.same fun _ => rfl

theorem Invocation.alike_ofJson? (j : Json) :
    Alike (Invocation.ofJson? f j) (Invocation.ofJson? g j) :=
  Alike.same fun m => Alike.bind (Json.alike_required h m _) fun _ _ =>
    Alike.bind (Json.alike_required h m _) fun _ _ =>
      Alike.bind (Json.alike_defaulted (Json.alike_list? h) m _ _ _) fun _ _ =>
        Alike.same fun _ => Alike.same fun _ => rfl

theorem Clause.alike_ofJson? (j : Json) : Alike (Clause.ofJson? f j) (Clause.ofJson? g j) :=
  Alike.same fun m => Alike.bind (Json.alike_required h m _) fun _ _ =>
    Alike.bind (Json.alike_defaulted (Json.alike_list? h) m _ _ _) fun _ _ => rfl

theorem Kind.alike_node? (j : Json) (k : Kind) : Alike (k.node? f j) (k.node? g j) := by
  cases k with
  | literal | reference | typeLiteral => rfl
  | expandable =>
    exact Alike.same fun m => Alike.same fun _ =>
      Alike.bind (Json.alike_defaulted (Json.alike_list? h) m _ _ _) fun _ _ =>
        Alike.same fun _ => rfl
  | assignment =>
    exact Alike.same fun m => Alike.bind (Json.alike_required h m _) fun _ _ =>
      Alike.bind (Json.alike_required h m _) fun _ _ =>
        Alike.same fun _ => Alike.same fun _ => rfl
  | binary =>
    exact Alike.same fun m => Alike.same fun _ =>
      Alike.bind (Json.alike_required h m _) fun _ _ =>
        Alike.bind (Json.alike_required h m _) fun _ _ => Alike.same fun _ => rfl
  | arrayLiteral | subExpression =>
    exact Alike.same fun m =>
      Alike.bind (Json.alike_defaulted (Json.alike_list? h) m _ _ _) fun _ _ =>
        Alike.same fun _ => rfl
  | paren =>
    exact Alike.same fun m => Alike.bind (Json.alike_required h m _) fun _ _ =>
      Alike.same fun _ => rfl
  | cast =>
    exact Alike.same fun m => Alike.same fun _ =>
      Alike.bind (Json.alike_required h m _) fun _ _ => Alike.same fun _ => rfl
  | command => exact Alike.bind (Command.alike_read? h _ j) fun _ _ => rfl
  | pipeline =>
    exact Alike.same fun m =>
      Alike.bind (Json.alike_required (Json.alike_list? h) m _) fun _ _ =>
        Alike.same fun _ => rfl
  | invocation => exact Alike.bind (Invocation.alike_ofJson? h j) fun _ _ => rfl
  | member =>
    exact Alike.same fun m => Alike.bind (Json.alike_required h m _) fun _ _ =>
      Alike.bind (Json.alike_required h m _) fun _ _ =>
        Alike.same fun _ => Alike.same fun _ => rfl
  | scriptBlock => exact Alike.bind (Block.alike_ofJson? h j) fun _ _ => rfl
  | function =>
    exact Alike.same fun m => Alike.same fun _ => Alike.same fun _ =>
      Alike.bind (Json.alike_required (Block.alike_ofJson? h) m _) fun _ _ => rfl
  | conditional =>
    exact Alike.same fun m =>
      Alike.bind (Json.alike_required (Json.alike_list? (Clause.alike_ofJson? h)) m _) fun _ _ =>
        Alike.bind
          (Json.alike_defaulted (Json.alike_optional? (Json.alike_list? h)) m _ _ _) fun _ _ =>
            Alike.same fun _ => rfl
  | forEach =>
    exact Alike.same fun m => Alike.same fun _ =>
      Alike.bind (Json.alike_required h m _) fun _ _ =>
        Alike.bind (Json.alike_defaulted (Json.alike_list? h) m _ _ _) fun _ _ =>
          Alike.same fun _ => rfl

theorem Node.alike_modelled? (j : Json) : Alike (modelled? f j) (modelled? g j) :=
  Alike.same fun ⟨_, body⟩ => Alike.same fun k => Kind.alike_node? h body k

end

/-! ## Nodes -/

namespace Node

/-- Whether a modelled node can be read depends only on which values inside it are nodes. -/
theorem isSome_modelled? {node : Json → Option Node} {isNode : Json → Bool}
    (h : ∀ j, (node j).isSome = isNode j) (j : Json) :
    (modelled? node j).isSome = isModelled isNode j :=
  alike_modelled? (fun j => by rw [Alike, h j]; cases isNode j <;> rfl) j

/-- An object with an outline is an unsupported node, and nothing else is. -/
theorem isSome_unsupported? (node : Json → Option Node) (j : Json) :
    (unsupported? node j).isSome = isOutlined j := by
  cases j with
  | object fields =>
    simp only [unsupported?, isOutlined]
    cases outline? (Json.collapse fields) <;> rfl
  | _ => rfl

theorem isSome_ofJsonWithin? (levels : Nat) (j : Json) :
    (ofJsonWithin? levels j).isSome = isNodeWithin levels j := by
  induction levels generalizing j with
  | zero => rfl
  | succ levels ih =>
    have hm := isSome_modelled? ih j
    have hu := isSome_unsupported? (ofJsonWithin? levels) j
    simp only [ofJsonWithin?, isNodeWithin]
    split <;> simp_all

/-- A value is read as a modelled node if that succeeds, and else as an unsupported one. -/
theorem ofJsonWithin?_succ (levels : Nat) (j : Json) :
    ofJsonWithin? (levels + 1) j =
      (modelled? (ofJsonWithin? levels) j).or (unsupported? (ofJsonWithin? levels) j) := by
  have hm := isSome_modelled? (isSome_ofJsonWithin? levels) j
  rw [ofJsonWithin?, ← hm]
  cases modelled? (ofJsonWithin? levels) j <;> rfl

end Node

end ScriptTaint
