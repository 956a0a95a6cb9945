import ScriptTaint.Proofs.FieldOrder
import ScriptTaint.Proofs.Positions
import ScriptTaint.Script.Encode

/-!
# The written form of a node

A node is written as an object whose keys do not repeat, with its title first
(`Node.toJson_eq_object`). The nodes inside it are nested less deep than it is
(`Node.nesting_part`), so a reader that counts levels never runs out of them, and no value in it is
a defect (`Node.intact_toJson`).
-/

set_option autoImplicit false

namespace ScriptTaint

open Json (Distinct)

attribute [local simp] Node.toJson

/-! ## Written lists -/

@[simp] theorem Node.listToJson_eq : ∀ ns : List Node, Node.listToJson ns = ns.map toJson
  | [] => by simp [Node.listToJson]
  | n :: ns => by simp [Node.listToJson, Node.listToJson_eq ns]

@[simp] theorem Element.listToJson_eq : ∀ es : List Element, Element.listToJson es = es.map toJson
  | [] => by simp [Element.listToJson]
  | e :: es => by simp [Element.listToJson, Element.listToJson_eq es]

@[simp] theorem Clause.listToJson_eq : ∀ cs : List Clause, Clause.listToJson cs = cs.map toJson
  | [] => by simp [Clause.listToJson]
  | c :: cs => by simp [Clause.listToJson, Clause.listToJson_eq cs]

@[simp] theorem Param.listToJson_eq : ∀ ps : List Param, Param.listToJson ps = ps.map toJson
  | [] => by simp [Param.listToJson]
  | p :: ps => by simp [Param.listToJson, Param.listToJson_eq ps]

@[simp] theorem Node.optionToJson_eq (x : Option Node) :
    Node.optionToJson x = Json.ofOption toJson x := by
  cases x <;> simp [Node.optionToJson, Json.ofOption]

@[simp] theorem Node.bodyToJson_eq (x : Option (List Node)) :
    Node.bodyToJson x = Json.ofOption (fun ns => .array (ns.map toJson)) x := by
  cases x <;> simp [Node.bodyToJson, Json.ofOption]

theorem Block.keys_fields (b : Block) :
    b.fields.map (·.key) = ["span", "params", "suppressions", "statements"] := by
  obtain ⟨span, params, annotations, statements⟩ := b
  rw [fields]
  rfl

/-- A node is written as an object with its title as the tag. -/
theorem Node.toJson_eq_object (n : Node) :
    ∃ fields, n.toJson = .object (⟨"kind", .text n.title⟩ :: fields) ∧
      Distinct (⟨"kind", .text n.title⟩ :: fields) := by
  cases n with
  | command c =>
    obtain ⟨name, elements, span⟩ := c
    exact ⟨_, by rw [toJson, Command.fields, Kind.object, title], by simp [Distinct]⟩
  | invocation i =>
    obtain ⟨target, name, arguments, isStatic, span⟩ := i
    exact ⟨_, by rw [toJson, Kind.object, title], by simp [Distinct]⟩
  | scriptBlock b =>
    exact ⟨_, by rw [toJson, Kind.object, title], by simp [Distinct, b.keys_fields]⟩
  | unsupported kind span children => exact ⟨_, by rw [toJson, title], by simp [Distinct]⟩
  | _ => exact ⟨_, by rw [toJson, Kind.object, title], by simp [Distinct]⟩

/-! ## Nesting -/

theorem le_foldr_max {l : List Nat} {a : Nat} (h : a ∈ l) : a ≤ l.foldr max 0 := by
  induction l with
  | nil => cases h
  | cons b l ih =>
    rw [List.foldr_cons]
    rcases List.mem_cons.1 h with rfl | h
    · exact Nat.le_max_left _ _
    · exact Nat.le_trans (ih h) (Nat.le_max_right _ _)

theorem Json.nesting_part {j p : Json} (h : p ∈ j.parts) : p.nesting < j.nesting := by
  have hj : j.isContainer = true := by
    cases j with
    | array | object => rfl
    | _ => cases h
  rw [j.nesting_eq, if_pos hj]
  exact Nat.lt_succ_of_le (le_foldr_max (List.mem_map_of_mem h))

theorem Json.nesting_item {α : Type} (write : α → Json) {l : List α} {a : α} (h : a ∈ l) :
    (write a).nesting < (Json.array (l.map write)).nesting :=
  Json.nesting_part (List.mem_map_of_mem h)

theorem Block.nesting_node {b : Block} {c : Node} (h : c ∈ b.nodes) :
    ∃ f ∈ b.fields, c.toJson.nesting < f.value.nesting := by
  obtain ⟨span, params, annotations, statements⟩ := b
  rw [fields, Param.listToJson_eq, Node.listToJson_eq]
  rcases List.mem_append.1 h with h | h
  · obtain ⟨⟨name, s, default?⟩, hp, hc⟩ := List.mem_filterMap.1 h
    obtain rfl : default? = some c := hc
    have hparam : c.toJson.nesting < (Param.toJson ⟨name, s, some c⟩).nesting :=
      Json.nesting_part (by simp [Param.toJson, Json.parts, Node.optionToJson])
    exact ⟨⟨"params", _⟩, by simp, hparam.trans (Json.nesting_item Param.toJson hp)⟩
  · exact ⟨⟨"statements", _⟩, by simp, Json.nesting_item Node.toJson h⟩

/-- A node inside another is nested less deep in writing. -/
theorem Node.nesting_part {n c : Node} (h : c ∈ n.parts.map (·.2)) :
    c.toJson.nesting < n.toJson.nesting := by
  cases n with
  | literal | reference | typeLiteral => cases h
  | expandable _ cs _ | arrayLiteral cs _ | pipeline cs _ | subExpression cs _
  | unsupported _ _ cs =>
    have hc : c ∈ cs := by simpa [parts, map_snd_listed] using h
    exact (Json.nesting_item toJson hc).trans
      (Json.nesting_part (by simp [toJson, Kind.object, Json.parts]))
  | assignment | binary | paren | cast | member =>
    simp only [parts, List.map_cons, List.map_nil, List.mem_cons, List.not_mem_nil, or_false] at h
    rcases h with rfl | rfl <;>
      exact Json.nesting_part (by simp [toJson, Kind.object, Json.parts])
  | command cmd =>
    obtain ⟨name, elements, span⟩ := cmd
    rw [map_snd_parts rfl] at h
    rcases List.mem_cons.1 h with rfl | h
    · exact Json.nesting_part (by simp [toJson, Kind.object, Command.fields, Json.parts])
    · obtain ⟨e, he, hc⟩ := List.mem_filterMap.1 h
      have helement : c.toJson.nesting < e.toJson.nesting := by
        refine Json.nesting_part ?_
        cases e with
        | argument value =>
          obtain rfl : value = c := Option.some.inj hc
          simp [Element.toJson, Json.parts]
        | parameter name bound span =>
          obtain rfl : bound = some c := hc
          simp [Element.toJson, optionToJson, Json.parts]
      exact (helement.trans (Json.nesting_item Element.toJson he)).trans
        (Json.nesting_part (by simp [toJson, Kind.object, Command.fields, Json.parts]))
  | invocation i =>
    obtain ⟨target, name, arguments, isStatic, span⟩ := i
    rw [map_snd_parts rfl] at h
    rcases List.mem_cons.1 h with rfl | h
    · exact Json.nesting_part (by simp [toJson, Kind.object, Json.parts])
    · rcases List.mem_cons.1 h with rfl | h
      · exact Json.nesting_part (by simp [toJson, Kind.object, Json.parts])
      · exact (Json.nesting_item toJson h).trans
          (Json.nesting_part (by simp [toJson, Kind.object, Json.parts]))
  | scriptBlock b =>
    rw [map_snd_parts_block rfl] at h
    obtain ⟨f, hf, hlt⟩ := b.nesting_node h
    rw [toJson]
    exact hlt.trans (Json.nesting_part (List.mem_map_of_mem (List.mem_cons_of_mem _ hf)))
  | function name span b =>
    rw [map_snd_parts_block rfl] at h
    obtain ⟨f, hf, hlt⟩ := b.nesting_node h
    have hbody : f.value.nesting < (Json.object b.fields).nesting :=
      Json.nesting_part (List.mem_map_of_mem hf)
    exact (hlt.trans hbody).trans (Json.nesting_part (by simp [toJson, Kind.object, Json.parts]))
  | conditional clauses otherwise span =>
    rw [map_snd_parts rfl] at h
    rcases List.mem_append.1 h with h | h
    · obtain ⟨⟨condition, body⟩, hclause, h⟩ := List.mem_flatMap.1 h
      have hlt : c.toJson.nesting < (Clause.toJson ⟨condition, body⟩).nesting := by
        rcases List.mem_cons.1 h with rfl | h
        · exact Json.nesting_part (by simp [Clause.toJson, Json.parts])
        · exact (Json.nesting_item toJson h).trans
            (Json.nesting_part (by simp [Clause.toJson, Json.parts]))
      exact (hlt.trans (Json.nesting_item Clause.toJson hclause)).trans
        (Json.nesting_part (by simp [toJson, Kind.object, Json.parts]))
    · cases otherwise with
      | none => cases h
      | some body =>
        exact (Json.nesting_item toJson h).trans
          (Json.nesting_part (by simp [toJson, Kind.object, Json.ofOption, Json.parts]))
  | forEach item iterable body span =>
    rw [map_snd_parts rfl] at h
    rcases List.mem_cons.1 h with rfl | h
    · exact Json.nesting_part (by simp [toJson, Kind.object, Json.parts])
    · exact (Json.nesting_item toJson h).trans
        (Json.nesting_part (by simp [toJson, Kind.object, Json.parts]))

/-! ## No defects -/

/-- No defect of a text stands anywhere in the value. -/
def Json.Intact (j : Json) : Prop := j.readFault? = none

namespace Json.Intact

theorem of_parts {j : Json} (hflaw : j.flaw? = none) (hparts : ∀ p ∈ j.parts, p.Intact) :
    j.Intact := by
  unfold Intact
  rw [readFault?.eq_def, hflaw]
  exact List.findSome?_eq_none_iff.2 fun p _ => hparts p.1 p.2

@[simp] theorem null : Json.null.Intact := of_parts rfl (by simp [parts])

@[simp] theorem bool (b : Bool) : (Json.bool b).Intact := of_parts rfl (by simp [parts])

@[simp] theorem natural (n : Nat) : (Json.natural n).Intact := of_parts rfl (by simp [parts])

@[simp] theorem text (s : String) : (Json.text s).Intact := of_parts rfl (by simp [parts])

theorem list {α : Type} {write : α → Json} {l : List α} (h : ∀ a ∈ l, (write a).Intact) :
    (Json.array (l.map write)).Intact :=
  of_parts rfl (List.forall_mem_map.2 h)

theorem object {fields : List Field} (h : ∀ f ∈ fields, f.value.Intact) :
    (Json.object fields).Intact :=
  of_parts rfl (List.forall_mem_map.2 h)

theorem option {α : Type} {write : α → Json} {x : Option α}
    (h : ∀ a, x = some a → (write a).Intact) : (Json.ofOption write x).Intact := by
  cases x with
  | none => exact null
  | some a => exact h a rfl

end Json.Intact

@[simp] theorem Span.intact_toJson (s : Span) : s.toJson.Intact :=
  Json.Intact.object (by simp)

@[simp] theorem Variable.intact_toJson (v : Variable) : v.toJson.Intact :=
  Json.Intact.object (by simp)

@[simp] theorem Annotation.intact_toJson (a : Annotation) : a.toJson.Intact :=
  Json.Intact.object (by simp [Json.Intact.option])

theorem Block.intact_fields {b : Block} (h : ∀ c ∈ b.nodes, c.toJson.Intact) :
    ∀ f ∈ b.fields, f.value.Intact := by
  have hparams : (Json.array (b.params.map Param.toJson)).Intact := by
    refine Json.Intact.list ?_
    rintro ⟨name, span, default?⟩ hp
    have hdefault : (Json.ofOption Node.toJson default?).Intact :=
      Json.Intact.option fun c hc =>
        h c (List.mem_append_left _ (List.mem_filterMap.2 ⟨_, hp, hc⟩))
    exact Json.Intact.object (by simp [hdefault])
  have hannotations : (Json.array (b.annotations.map Annotation.toJson)).Intact :=
    Json.Intact.list fun a _ => a.intact_toJson
  have hstatements : (Json.array (b.statements.map Node.toJson)).Intact :=
    Json.Intact.list fun c hc => h c (List.mem_append_right _ hc)
  obtain ⟨span, params, annotations, statements⟩ := b
  simp [fields, hparams, hannotations, hstatements]

theorem Element.intact_toJson {e : Element} (h : ∀ c, e.operand? = some c → c.toJson.Intact) :
    e.toJson.Intact := by
  cases e with
  | argument value => exact Json.Intact.object (by simp [h value rfl])
  | parameter name bound span =>
    have hbound : (Json.ofOption Node.toJson bound).Intact := Json.Intact.option h
    exact Json.Intact.object (by simp [hbound])

/-- A node is written without defects. -/
theorem Node.intact_toJson (n : Node) : n.toJson.Intact := by
  induction n using Node.induction_parts with
  | step n ih =>
    replace ih : ∀ c ∈ n.parts.map (·.2), c.toJson.Intact := List.forall_mem_map.2 ih
    have list (cs : List Node) (h : ∀ c ∈ cs, c ∈ n.parts.map (·.2)) :
        (Json.array (cs.map toJson)).Intact :=
      Json.Intact.list fun c hc => ih c (h c hc)
    cases n with
    | literal | reference | typeLiteral =>
      rw [toJson]
      exact Json.Intact.object (by simp)
    | expandable _ cs _ | arrayLiteral cs _ | pipeline cs _ | subExpression cs _
    | unsupported _ _ cs =>
      have hcs := list cs (by simp [parts, map_snd_listed])
      rw [toJson]
      exact Json.Intact.object (by simp [hcs])
    | assignment | binary | paren | cast | member =>
      simp only [parts, List.map_cons, List.map_nil, List.forall_mem_cons] at ih
      rw [toJson]
      exact Json.Intact.object (by simp [ih])
    | command c =>
      obtain ⟨name, elements, span⟩ := c
      rw [map_snd_parts rfl] at ih
      have helements : (Json.array (elements.map Element.toJson)).Intact :=
        Json.Intact.list fun e he => Element.intact_toJson fun c hc =>
          ih c (List.mem_cons_of_mem _ (List.mem_filterMap.2 ⟨e, he, hc⟩))
      have hname := ih name List.mem_cons_self
      rw [toJson]
      exact Json.Intact.object (by simp [Command.fields, hname, helements])
    | invocation i =>
      obtain ⟨target, name, arguments, isStatic, span⟩ := i
      have harguments := list arguments
        fun c hc => by rw [map_snd_parts rfl]; simp [children, hc]
      simp only [parts, List.map_cons, List.forall_mem_cons] at ih
      rw [toJson]
      exact Json.Intact.object (by simp [ih, harguments])
    | scriptBlock b =>
      rw [map_snd_parts_block rfl] at ih
      rw [toJson]
      exact Json.Intact.object (List.forall_mem_cons.2 ⟨by simp, b.intact_fields ih⟩)
    | function name span b =>
      rw [map_snd_parts_block rfl] at ih
      have hbody := Json.Intact.object (b.intact_fields ih)
      rw [toJson]
      exact Json.Intact.object (by simp [hbody])
    | conditional clauses otherwise span =>
      rw [map_snd_parts rfl] at ih
      have hclauses : (Json.array (clauses.map Clause.toJson)).Intact := by
        refine Json.Intact.list ?_
        rintro ⟨condition, body⟩ hclause
        have hclause : ∀ c ∈ condition :: body, c.toJson.Intact := fun c hc =>
          ih c (List.mem_append_left _ (List.mem_flatMap.2 ⟨_, hclause, hc⟩))
        have hbody : (Json.array (body.map toJson)).Intact :=
          Json.Intact.list fun c hc => hclause c (List.mem_cons_of_mem _ hc)
        exact Json.Intact.object (by simp [hclause condition List.mem_cons_self, hbody])
      have hotherwise : (Json.ofOption (fun ns => .array (ns.map toJson)) otherwise).Intact := by
        refine Json.Intact.option fun ns hns => Json.Intact.list fun c hc => ih c ?_
        rw [hns]
        exact List.mem_append_right _ hc
      rw [toJson]
      exact Json.Intact.object (by simp [hclauses, hotherwise])
    | forEach item iterable body span =>
      have hbody := list body fun c hc => by rw [map_snd_parts rfl]; simp [children, hc]
      simp only [parts, List.map_cons, List.forall_mem_cons] at ih
      rw [toJson]
      exact Json.Intact.object (by simp [ih, hbody])

end ScriptTaint
