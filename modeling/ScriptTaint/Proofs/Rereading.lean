import ScriptTaint.Proofs.Fields
import ScriptTaint.Proofs.WrittenForm

/-!
# Reading the written form

One step of reading, on the written form of a node, where `f` reads the nodes inside it as `g` makes
them. A modelled node keeps everything but the nodes in its fields (`Node.modelled?_recast`). An
unsupported one is taken for a modelled one only if its kind is a title that can do without fields
(`Node.modelled?_unsupported`); else it keeps its kind and its span, and gets its children sorted
(`Node.unsupported?_recast`).

The written form may have been recast on the way, because what an unsupported node holds is made
canonical before it is read.
-/

set_option autoImplicit false

namespace ScriptTaint

open Json (Recast Shows Distinct lookup? required defaulted list? optional? text? bool? offset?)

/-! ## Records without nodes -/

section
variable {φ : Json → Json} (hφ : Recast φ)

include hφ

theorem Span.ofJson?_recast (s : Span) : Span.ofJson? (φ s.toJson) = some s := by
  unfold Span.ofJson?
  refine (hφ.object (by simp [Distinct])).read fun m hget => ?_
  simp [required, hget, Json.lookup?_cons, Json.offset?_recast hφ]

theorem Variable.ofJson?_shown {j : Json} (v : Variable)
    (h : Shows φ j [⟨"name", .text v.name⟩, ⟨"span", v.span.toJson⟩]) :
    Variable.ofJson? j = some v := by
  unfold Variable.ofJson?
  refine h.read fun m hget => ?_
  simp [required, hget, Json.lookup?_cons, Json.text?_recast hφ, Span.ofJson?_recast hφ]

theorem Variable.ofJson?_recast (v : Variable) : Variable.ofJson? (φ v.toJson) = some v :=
  Variable.ofJson?_shown hφ v (hφ.object (by simp [Distinct]))

theorem Annotation.ofJson?_recast (a : Annotation) : Annotation.ofJson? (φ a.toJson) = some a := by
  have hjustification : optional? text? (φ (Json.ofOption .text a.justification)) =
      some (a.justification.map fun s => s) := by
    refine Json.optional?_recast hφ (fun s _ => ?_) fun s _ => Json.text?_recast hφ s
    rw [hφ.scalar rfl]
    exact fun h => Json.noConfusion h
  unfold Annotation.ofJson?
  refine (hφ.object (by simp [Distinct])).read fun m hget => ?_
  simp [required, defaulted, hget, Json.lookup?_cons, Json.text?_recast hφ, hjustification,
    Span.ofJson?_recast hφ]

theorem AssignOp.ofJson?_recast (op : AssignOp) :
    AssignOp.ofJson? (φ (.text op.title)) = some op := by
  rw [hφ.scalar rfl]
  cases op <;> decide

theorem BinaryOp.ofJson?_recast (op : BinaryOp) :
    BinaryOp.ofJson? (φ (.text op.title)) = some op := by
  rw [hφ.scalar rfl]
  cases op <;> decide

end

/-! ## Parts of nodes -/

section
variable {φ : Json → Json} (hφ : Recast φ) {f : Json → Option Node} {g : Node → Node}

include hφ

theorem Node.recast_ne_null (n : Node) : φ n.toJson ≠ .null := by
  obtain ⟨fields, hn, hd⟩ := n.toJson_eq_object
  rw [hn]
  exact Json.ne_null_of_object hφ hd

theorem Node.optional?_recast {x : Option Node}
    (h : ∀ c, x = some c → f (φ c.toJson) = some (g c)) :
    optional? f (φ (Json.ofOption Node.toJson x)) = some (x.map g) :=
  Json.optional?_recast hφ (fun c _ => c.recast_ne_null hφ) h

theorem Param.ofJson?_recast (p : Param)
    (h : ∀ c, p.default? = some c → f (φ c.toJson) = some (g c)) :
    Param.ofJson? f (φ p.toJson) = some (p.mapDefault g) := by
  obtain ⟨name, span, default?⟩ := p
  rw [Param.toJson, Node.optionToJson_eq]
  unfold Param.ofJson?
  refine (hφ.object (by simp [Distinct])).read fun m hget => ?_
  simp [required, defaulted, hget, Json.lookup?_cons, Json.text?_recast hφ, Span.ofJson?_recast hφ,
    Node.optional?_recast hφ h, mapDefault]

theorem Block.ofJson?_shown {j : Json} (b : Block) (hj : Shows φ j b.fields)
    (h : ∀ c ∈ b.nodes, f (φ c.toJson) = some (g c)) :
    Block.ofJson? f j = some (b.mapFields fun _ => g) := by
  have hparams : list? (Param.ofJson? f) (φ (.array (b.params.map Param.toJson))) =
      some (b.params.map (Param.mapDefault g)) := by
    refine Json.list?_recast hφ fun p hp => p.ofJson?_recast hφ fun c hc => h c ?_
    exact List.mem_append_left _ (List.mem_filterMap.2 ⟨p, hp, hc⟩)
  have hannotations : list? Annotation.ofJson? (φ (.array (b.annotations.map Annotation.toJson))) =
      some (b.annotations.map fun a => a) :=
    Json.list?_recast hφ fun a _ => a.ofJson?_recast hφ
  have hstatements : list? f (φ (.array (b.statements.map Node.toJson))) =
      some (b.statements.map g) :=
    Json.list?_recast hφ fun c hc => h c (List.mem_append_right _ hc)
  obtain ⟨span, params, annotations, statements⟩ := b
  simp only [fields, Param.listToJson_eq, Node.listToJson_eq] at hj
  unfold Block.ofJson?
  refine hj.read fun m hget => ?_
  simp [required, defaulted, hget, Json.lookup?_cons, Span.ofJson?_recast hφ, hparams, hannotations,
    hstatements, mapFields, mapIdx_eq_map]

theorem Element.ofJson?_recast (e : Element)
    (h : ∀ c, e.operand? = some c → f (φ c.toJson) = some (g c)) :
    Element.ofJson? f Element.ofTag? (φ e.toJson) = some (e.mapOperand g) := by
  cases e with
  | argument value =>
    have htitle : Element.ofTag? (.text "Argument") = some 0 := by decide
    have hvalue := h value rfl
    rw [Element.toJson]
    unfold Element.ofJson?
    refine hφ.readTagged (by simp [Distinct]) fun body hbody => ?_
    simp only [Option.bind_eq_bind, Option.bind_some, htitle]
    refine hbody.read fun m hget => ?_
    simp [required, hget, Json.lookup?_cons, hvalue, mapOperand]
  | parameter name bound span =>
    have htitle : Element.ofTag? (.text "Parameter") = some 1 := by decide
    have hbound : optional? f (φ (Json.ofOption Node.toJson bound)) = some (bound.map g) :=
      Node.optional?_recast hφ h
    rw [Element.toJson, Node.optionToJson_eq]
    unfold Element.ofJson?
    refine hφ.readTagged (by simp [Distinct]) fun body hbody => ?_
    simp only [Option.bind_eq_bind, Option.bind_some, htitle]
    refine hbody.read fun m hget => ?_
    simp [required, defaulted, hget, Json.lookup?_cons, Json.text?_recast hφ, hbound,
      Span.ofJson?_recast hφ, mapOperand]

theorem Clause.ofJson?_recast (c : Clause)
    (h : ∀ d ∈ c.condition :: c.body, f (φ d.toJson) = some (g d)) :
    Clause.ofJson? f (φ c.toJson) = some ⟨g c.condition, c.body.map g⟩ := by
  obtain ⟨condition, body⟩ := c
  have hbody : list? f (φ (.array (body.map Node.toJson))) = some (body.map g) :=
    Json.list?_recast hφ fun d hd => h d (List.mem_cons_of_mem _ hd)
  rw [Clause.toJson, Node.listToJson_eq]
  unfold Clause.ofJson?
  refine (hφ.object (by simp [Distinct])).read fun m hget => ?_
  simp [required, defaulted, hget, Json.lookup?_cons, h condition List.mem_cons_self, hbody]

theorem Command.read?_shown {j : Json} (c : Command) (hj : Shows φ j c.fields)
    (hname : f (φ c.name.toJson) = some (g c.name))
    (helements : ∀ d ∈ c.elements.filterMap Element.operand?, f (φ d.toJson) = some (g d)) :
    Command.read? f Element.ofTag? j =
      some ⟨g c.name, c.elements.map (Element.mapOperand g), c.span⟩ := by
  obtain ⟨name, elements, span⟩ := c
  have hlist : list? (Element.ofJson? f Element.ofTag?) (φ (.array (elements.map Element.toJson))) =
      some (elements.map (Element.mapOperand g)) := by
    refine Json.list?_recast hφ fun e he => e.ofJson?_recast hφ fun d hd => ?_
    exact helements d (List.mem_filterMap.2 ⟨e, he, hd⟩)
  simp only [fields, Element.listToJson_eq] at hj
  unfold Command.read?
  refine hj.read fun m hget => ?_
  simp [required, defaulted, hget, Json.lookup?_cons, hname, hlist, Span.ofJson?_recast hφ]

/-! ## Modelled nodes -/

theorem Node.modelled?_object {k : Kind} {fields : List Field} {x : Option Node}
    (hd : Distinct (⟨"kind", .text k.title⟩ :: fields))
    (h : ∀ body, Shows φ body fields → k.node? f body = x) :
    Node.modelled? f (φ (k.object fields)) = x := by
  have hkind : Kind.ofTag? (.text k.title) = some k := by cases k <;> decide
  unfold modelled? Kind.object
  refine hφ.readTagged hd fun body hbody => ?_
  simp only [hkind, Option.bind_eq_bind, Option.bind_some]
  exact h body hbody

/-- The node is of a kind that is modelled. -/
def Node.HasKind : Node → Prop
  | .unsupported .. => False
  | _ => True

theorem Node.modelled?_recast {n : Node} (hn : n.HasKind)
    (h : ∀ c ∈ n.parts.map (·.2), f (φ c.toJson) = some (g c)) :
    Node.modelled? f (φ n.toJson) = some (n.mapFields fun _ => g) := by
  have list (cs : List Node) (hcs : ∀ c ∈ cs, c ∈ n.parts.map (·.2)) :
      list? f (φ (.array (cs.map Node.toJson))) = some (cs.map g) :=
    Json.list?_recast hφ fun c hc => h c (hcs c hc)
  have text := Json.text?_recast hφ
  have span := Span.ofJson?_recast hφ
  cases n with
  | literal value s =>
    rw [toJson]
    refine Node.modelled?_object hφ (by simp [Distinct]) fun body hbody => ?_
    refine hbody.read fun m hget => ?_
    simp [required, hget, Json.lookup?_cons, text, span, mapFields]
  | expandable value holes s =>
    have hholes := list holes (by simp [parts, map_snd_listed])
    rw [toJson, listToJson_eq]
    refine Node.modelled?_object hφ (by simp [Distinct]) fun body hbody => ?_
    refine hbody.read fun m hget => ?_
    simp [required, defaulted, hget, Json.lookup?_cons, text, span, hholes, mapFields,
      mapIdx_eq_map]
  | reference v =>
    rw [toJson]
    refine Node.modelled?_object hφ (by simp [Distinct]) fun body hbody => ?_
    simp [Kind.node?, Variable.ofJson?_shown hφ v hbody, mapFields]
  | typeLiteral name s =>
    rw [toJson]
    refine Node.modelled?_object hφ (by simp [Distinct]) fun body hbody => ?_
    refine hbody.read fun m hget => ?_
    simp [required, hget, Json.lookup?_cons, text, span, mapFields]
  | assignment target value op s =>
    have htarget := h target (by simp [parts])
    have hvalue := h value (by simp [parts])
    rw [toJson]
    refine Node.modelled?_object hφ (by simp [Distinct]) fun body hbody => ?_
    refine hbody.read fun m hget => ?_
    simp [required, defaulted, hget, Json.lookup?_cons, htarget, hvalue,
      AssignOp.ofJson?_recast hφ, span, mapFields]
  | binary op left right s =>
    have hleft := h left (by simp [parts])
    have hright := h right (by simp [parts])
    rw [toJson]
    refine Node.modelled?_object hφ (by simp [Distinct]) fun body hbody => ?_
    refine hbody.read fun m hget => ?_
    simp [required, hget, Json.lookup?_cons, hleft, hright, BinaryOp.ofJson?_recast hφ, span,
      mapFields]
  | arrayLiteral elements s =>
    have helements := list elements (by simp [parts, map_snd_listed])
    rw [toJson, listToJson_eq]
    refine Node.modelled?_object hφ (by simp [Distinct]) fun body hbody => ?_
    refine hbody.read fun m hget => ?_
    simp [required, defaulted, hget, Json.lookup?_cons, span, helements, mapFields, mapIdx_eq_map]
  | paren inner s =>
    have hinner := h inner (by simp [parts])
    rw [toJson]
    refine Node.modelled?_object hφ (by simp [Distinct]) fun body hbody => ?_
    refine hbody.read fun m hget => ?_
    simp [required, hget, Json.lookup?_cons, hinner, span, mapFields]
  | subExpression statements s =>
    have hstatements := list statements (by simp [parts, map_snd_listed])
    rw [toJson, listToJson_eq]
    refine Node.modelled?_object hφ (by simp [Distinct]) fun body hbody => ?_
    refine hbody.read fun m hget => ?_
    simp [required, defaulted, hget, Json.lookup?_cons, span, hstatements, mapFields, mapIdx_eq_map]
  | cast typeName operand s =>
    have hoperand := h operand (by simp [parts])
    rw [toJson]
    refine Node.modelled?_object hφ (by simp [Distinct]) fun body hbody => ?_
    refine hbody.read fun m hget => ?_
    simp [required, hget, Json.lookup?_cons, text, hoperand, span, mapFields]
  | command c =>
    have hname := h c.name (by simp [parts])
    have helements : ∀ d ∈ c.elements.filterMap Element.operand?, f (φ d.toJson) = some (g d) :=
      fun d hd => h d (by rw [map_snd_parts rfl]; exact List.mem_cons_of_mem _ hd)
    have hd : Distinct (⟨"kind", .text Kind.command.title⟩ :: c.fields) := by
      obtain ⟨name, elements, s⟩ := c
      simp [Distinct, Command.fields]
    rw [toJson]
    refine Node.modelled?_object hφ hd fun body hbody => ?_
    simp [Kind.node?, Command.read?_shown hφ c hbody hname helements, mapFields, mapIdx_eq_map]
  | pipeline elements s =>
    have helements := list elements (by simp [parts, map_snd_listed])
    rw [toJson, listToJson_eq]
    refine Node.modelled?_object hφ (by simp [Distinct]) fun body hbody => ?_
    refine hbody.read fun m hget => ?_
    simp [required, hget, Json.lookup?_cons, span, helements, mapFields, mapIdx_eq_map]
  | invocation i =>
    obtain ⟨target, name, arguments, isStatic, s⟩ := i
    have htarget := h target (by simp [parts])
    have hname := h name (by simp [parts])
    have harguments := list arguments
      fun c hc => by rw [map_snd_parts rfl]; simp [children, hc]
    rw [toJson, listToJson_eq]
    refine Node.modelled?_object hφ (by simp [Distinct]) fun body hbody => ?_
    simp only [Kind.node?, Invocation.ofJson?, bind_assoc]
    refine hbody.read fun m hget => ?_
    simp [required, defaulted, hget, Json.lookup?_cons, htarget, hname, harguments,
      Json.bool?_recast hφ, span, mapFields, mapIdx_eq_map]
  | member target name isStatic s =>
    have htarget := h target (by simp [parts])
    have hname := h name (by simp [parts])
    rw [toJson]
    refine Node.modelled?_object hφ (by simp [Distinct]) fun body hbody => ?_
    refine hbody.read fun m hget => ?_
    simp [required, defaulted, hget, Json.lookup?_cons, htarget, hname, Json.bool?_recast hφ, span,
      mapFields]
  | scriptBlock b =>
    have hnodes : ∀ c ∈ b.nodes, f (φ c.toJson) = some (g c) := by
      rw [map_snd_parts_block rfl] at h
      exact h
    have hd : Distinct (⟨"kind", .text Kind.scriptBlock.title⟩ :: b.fields) := by
      simp [Distinct, b.keys_fields]
    rw [toJson]
    refine Node.modelled?_object hφ hd fun body hbody => ?_
    simp [Kind.node?, Block.ofJson?_shown hφ b hbody hnodes, mapFields]
  | function name s b =>
    have hnodes : ∀ c ∈ b.nodes, f (φ c.toJson) = some (g c) := by
      rw [map_snd_parts_block rfl] at h
      exact h
    have hd : Distinct b.fields := by simp [Distinct, b.keys_fields]
    have hbody := Block.ofJson?_shown hφ b (hφ.object hd) hnodes
    rw [toJson]
    refine Node.modelled?_object hφ (by simp [Distinct]) fun body hshown => ?_
    refine hshown.read fun m hget => ?_
    simp [required, hget, Json.lookup?_cons, text, span, hbody, mapFields]
  | conditional clauses otherwise s =>
    rw [map_snd_parts rfl] at h
    have hclauses : list? (Clause.ofJson? f) (φ (.array (clauses.map Clause.toJson))) =
        some (clauses.map fun c => ⟨g c.condition, c.body.map g⟩) := by
      refine Json.list?_recast hφ fun c hc => c.ofJson?_recast hφ fun d hd => h d ?_
      exact List.mem_append_left _ (List.mem_flatMap.2 ⟨c, hc, hd⟩)
    have hotherwise : optional? (list? f)
          (φ (Json.ofOption (fun ns => .array (ns.map toJson)) otherwise)) =
        some (otherwise.map fun ns => ns.map g) := by
      refine Json.optional?_recast hφ (fun ns _ => ?_) fun ns hns =>
        Json.list?_recast hφ fun c hc => h c ?_
      · rw [hφ.array]
        exact fun h => Json.noConfusion h
      · rw [hns]
        exact List.mem_append_right _ hc
    rw [toJson, Clause.listToJson_eq, bodyToJson_eq]
    refine Node.modelled?_object hφ (by simp [Distinct]) fun body hbody => ?_
    refine hbody.read fun m hget => ?_
    simp [required, defaulted, hget, Json.lookup?_cons, hclauses, hotherwise, span, mapFields,
      mapIdx_eq_map]
  | forEach item iterable body s =>
    have hiterable := h iterable (by simp [parts])
    have hbody := list body fun c hc => by rw [map_snd_parts rfl]; simp [children, hc]
    rw [toJson, listToJson_eq]
    refine Node.modelled?_object hφ (by simp [Distinct]) fun j hj => ?_
    refine hj.read fun m hget => ?_
    simp [required, defaulted, hget, Json.lookup?_cons, Variable.ofJson?_recast hφ, hiterable,
      hbody, span, mapFields, mapIdx_eq_map]
  | unsupported => exact hn.elim

/-! ## Unsupported nodes -/

/-- What a node of a kind is read as without any field but its span, if it is read. -/
def Kind.bare? (span : Span) : Kind → Option Node
  | .arrayLiteral => some (.arrayLiteral [] span)
  | .subExpression => some (.subExpression [] span)
  | .scriptBlock => some (.scriptBlock ⟨span, [], [], []⟩)
  | _ => none

theorem Kind.node?_bare {body : Json} {span : Span} {children : List Json} (k : Kind)
    (h : Shows φ body [⟨"span", span.toJson⟩, ⟨"children", .array children⟩]) :
    k.node? f body = k.bare? span := by
  have hspan := Span.ofJson?_recast hφ span
  cases k with
  | reference =>
    simp only [Kind.node?, Variable.ofJson?, bind_assoc]
    refine h.read fun m hget => ?_
    simp [required, hget, Json.lookup?_cons, Json.lookup?_nil, bare?]
  | command =>
    simp only [Kind.node?, Command.read?, bind_assoc]
    refine h.read fun m hget => ?_
    simp [required, hget, Json.lookup?_cons, Json.lookup?_nil, bare?]
  | invocation =>
    simp only [Kind.node?, Invocation.ofJson?, bind_assoc]
    refine h.read fun m hget => ?_
    simp [required, hget, Json.lookup?_cons, Json.lookup?_nil, bare?]
  | scriptBlock =>
    simp only [Kind.node?, Block.ofJson?, bind_assoc]
    refine h.read fun m hget => ?_
    simp [required, defaulted, hget, Json.lookup?_cons, Json.lookup?_nil, hspan, bare?]
  | _ =>
    refine h.read fun m hget => ?_
    simp [required, defaulted, hget, Json.lookup?_cons, Json.lookup?_nil, hspan, bare?]

/-- An unsupported node is read as a modelled one if it has the title of a kind that can do without
fields. -/
theorem Node.modelled?_unsupported (kind : String) (span : Span) (children : List Node) :
    Node.modelled? f (φ (Node.unsupported kind span children).toJson) =
      (Kind.ofTag? (.text kind)).bind (·.bare? span) := by
  rw [toJson]
  unfold modelled?
  refine hφ.readTagged (by simp [Distinct]) fun body hbody => ?_
  cases htag : Kind.ofTag? (.text kind) with
  | none => simp [htag]
  | some k =>
    simp only [htag, Option.bind_eq_bind, Option.bind_some]
    exact k.node?_bare hφ hbody

theorem Node.isNodeLike_recast (n : Node) : (φ n.toJson).isNodeLike = true := by
  obtain ⟨fields, hn, hd⟩ := n.toJson_eq_object
  obtain ⟨shown, hshown, -, hlookup⟩ := (hφ.object hd).listing
  have hkind : lookup? shown "kind" = some (φ (.text n.title)) := by
    rw [hlookup, Json.lookup?_cons, if_pos rfl]
    rfl
  obtain ⟨field, hfield, -⟩ := Option.map_eq_some_iff.1 hkind
  have hkey := List.find?_some hfield
  rw [hn, hshown]
  exact List.any_eq_true.2 ⟨field, List.mem_of_find?_eq_some hfield, hkey⟩

theorem Node.nested_recast {cs : List Node} (h : ∀ c ∈ cs, f (φ c.toJson) = some (g c)) :
    Node.nested f (φ (.array (cs.map Node.toJson))) = cs.map g := by
  have hnode : ∀ c ∈ cs, Node.nested f (φ c.toJson) = [g c] := by
    intro c hc
    rw [nested_eq, if_pos (c.isNodeLike_recast hφ), h c hc]
    rfl
  rw [hφ.array, nested_eq, if_neg (by simp [Json.isNodeLike])]
  simp only [Json.parts, List.flatMap_map]
  rw [List.flatMap_congr hnode, ← List.map_eq_flatMap]

/-- An unsupported node keeps its kind and its span, and its children in order of their starts. -/
theorem Node.unsupported?_recast (kind : String) (span : Span) {children : List Node}
    (h : ∀ c ∈ children, f (φ c.toJson).canonical = some (g c)) :
    Node.unsupported? f (φ (Node.unsupported kind span children).toJson) =
      some (.unsupported kind span (sortByStart (children.map g))) := by
  rw [toJson, listToJson_eq]
  generalize hfields : [(⟨"kind", .text kind⟩ : Field), ⟨"span", span.toJson⟩,
    ⟨"children", .array (children.map toJson)⟩] = fields
  have hd : Distinct fields := by simp [← hfields, Distinct]
  obtain ⟨shown, hshown, hdistinct, hlookup⟩ := (hφ.object hd).listing
  have hcollapse (key : String) :
      lookup? (Json.collapse shown) key = (lookup? fields key).map φ := by
    rw [Json.lookup?_collapse hdistinct, hlookup]
  have houtline : outline? (Json.collapse shown) = some (kind, span) := by
    have hspan := Span.ofJson?_recast (Recast.canonical.comp hφ) span
    simp [outline?, required, defaulted, hcollapse, ← hfields, Json.lookup?_cons,
      Json.text?_recast hφ, hspan]
  have hrest : ((Json.collapse shown).filter fun f => f.key != "kind" && f.key != "span") =
      [⟨"children", φ (.array (children.map toJson))⟩] := by
    have hcollapsed := (Json.ascending_collapse hdistinct).distinct
    have hchildren : lookup? (Json.collapse shown) "children" =
        some (φ (.array (children.map toJson))) := by
      simp [hcollapse, ← hfields, Json.lookup?_cons]
    rw [← Json.filter_key hcollapsed hchildren]
    refine List.filter_congr fun field hfield => ?_
    have hfound := Json.lookup?_of_mem hcollapsed hfield
    rw [hcollapse, ← hfields] at hfound
    by_cases hkind : "kind" = field.key
    · simp [← hkind]
    · by_cases hspan : "span" = field.key
      · simp [← hspan]
      · by_cases hchildren : "children" = field.key
        · simp [← hchildren]
        · simp [Json.lookup?_cons, Json.lookup?_nil, hkind, hspan, hchildren] at hfound
  have hnested := Node.nested_recast (Recast.canonical.comp hφ) h
  rw [hshown]
  simp only [unsupported?, houtline, hrest, Option.bind_eq_bind, Option.bind_some,
    List.flatMap_cons, List.flatMap_nil, List.append_nil, hnested]
  rfl

end

end ScriptTaint
