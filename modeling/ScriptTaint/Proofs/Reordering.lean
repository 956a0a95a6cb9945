import ScriptTaint.Proofs.NestedNodes

/-!
# Files with their fields in another order

No reader of a file depends on the order in which objects list their fields, as long as no object
repeats a key (`fieldOrder_irrelevant`). `Json.Reordered` permutes the fields of any objects in a
value. It leaves the canonical form of the value alone (`Json.Reordered.preserves`), so it is
enough that every reader takes a value and its canonical form for the same (`Json.OrderBlind`).

A reader of a record looks its fields up, and blindness passes from the readers of the fields to it
(`OrderBlind.record`, and `OrderBlind.tagged` behind a tag). An unsupported node is read from the
canonical form in the first place. Which fault of a file comes first does depend on the order; that
there is one does not (`Json.Contract.orderBlind_record`).
-/

set_option autoImplicit false

namespace ScriptTaint

open Json (required defaulted list? optional? text? bool? offset?)

namespace Json

/-! ## Reordering -/

/-- The keys of an object. -/
def keys : Json → List String
  | .object fields => fields.map (·.key)
  | _ => []

/-- No object in the value repeats a key. -/
def hasDistinctKeys (j : Json) : Bool :=
  decide j.keys.Nodup && j.parts.attach.all fun ⟨p, _⟩ => p.hasDistinctKeys
termination_by sizeOf j
decreasing_by exact sizeOf_part ‹_›

theorem hasDistinctKeys_iff {j : Json} :
    j.hasDistinctKeys = true ↔ j.keys.Nodup ∧ ∀ p ∈ j.parts, p.hasDistinctKeys = true := by
  rw [hasDistinctKeys.eq_def]
  simp

theorem hasDistinctKeys_array {items : List Json} :
    (array items).hasDistinctKeys = true ↔ ∀ i ∈ items, i.hasDistinctKeys = true := by
  rw [hasDistinctKeys_iff]
  exact and_iff_right List.nodup_nil

theorem hasDistinctKeys_object {fields : List Field} :
    (object fields).hasDistinctKeys = true ↔
      Distinct fields ∧ ∀ f ∈ fields, f.value.hasDistinctKeys = true := by
  rw [hasDistinctKeys_iff]
  exact and_congr_right fun _ => List.forall_mem_map

/-- The second value is the first with the fields of objects permuted, anywhere inside it. -/
inductive Reordered : Json → Json → Prop
  | refl (j : Json) : Reordered j j
  | trans {j k l : Json} (first : Reordered j k) (second : Reordered k l) : Reordered j l
  | permute {fields fields' : List Field} (h : fields.Perm fields') :
    Reordered (.object fields) (.object fields')
  | item {j j' : Json} (before after : List Json) (h : Reordered j j') :
    Reordered (.array (before ++ j :: after)) (.array (before ++ j' :: after))
  | field {j j' : Json} (before : List Field) (key : String) (after : List Field)
    (h : Reordered j j') :
    Reordered (.object (before ++ ⟨key, j⟩ :: after)) (.object (before ++ ⟨key, j'⟩ :: after))

/-! ## Canonical forms of values without repeated keys -/

theorem Distinct.perm {fields fields' : List Field} (hd : Distinct fields)
    (h : fields.Perm fields') : Distinct fields' :=
  List.Perm.nodup (h.map fun f => f.key) hd

theorem insertField_perm {f : Field} {fields : List Field} (h : f.key ∉ fields.map (·.key)) :
    (insertField f fields).Perm (f :: fields) := by
  induction fields with
  | nil => exact List.Perm.refl _
  | cons g fields ih =>
    rw [List.map_cons, List.mem_cons, not_or] at h
    unfold insertField
    split
    · exact List.Perm.refl _
    · rw [if_neg h.1]
      exact ((ih h.2).cons g).trans (List.Perm.swap f g fields)

theorem foldl_insertField_perm {fields done : List Field} (hd : Distinct (fields ++ done)) :
    (fields.foldl (fun done f => insertField f done) done).Perm (fields ++ done) := by
  induction fields generalizing done with
  | nil => exact List.Perm.refl _
  | cons f fields ih =>
    have hf : f.key ∉ done.map (·.key) := fun hmem =>
      (List.nodup_cons.1 hd).1 (List.map_append ▸ List.mem_append_right _ hmem)
    have hinsert : (fields ++ insertField f done).Perm (f :: (fields ++ done)) :=
      ((insertField_perm hf).append_left fields).trans List.perm_middle
    exact (ih (hd.perm hinsert.symm)).trans hinsert

theorem collapse_perm {fields : List Field} (hd : Distinct fields) :
    (collapse fields).Perm fields := by
  have hperm := foldl_insertField_perm (show Distinct (fields ++ []) by rwa [List.append_nil])
  rwa [List.append_nil] at hperm

theorem Ascending.eq_of_perm {fields fields' : List Field} (h : Ascending fields)
    (h' : Ascending fields') (hperm : fields.Perm fields') : fields = fields' :=
  hperm.eq_of_pairwise (fun _ _ _ _ hlt hgt => absurd hgt (lt_asymm hlt)) h h'

theorem collapse_eq_of_perm {fields fields' : List Field} (hd : Distinct fields)
    (h : fields.Perm fields') : collapse fields = collapse fields' :=
  Ascending.eq_of_perm (ascending_collapse hd) (ascending_collapse (hd.perm h))
    (((collapse_perm hd).trans h).trans (collapse_perm (hd.perm h)).symm)

theorem collapse_filter {fields : List Field} (hd : Distinct fields) (keep : Field → Bool) :
    collapse (fields.filter keep) = (collapse fields).filter keep :=
  Ascending.eq_of_perm (ascending_collapse (hd.filter keep))
    ((ascending_collapse hd).sublist List.filter_sublist)
    ((collapse_perm (hd.filter keep)).trans ((collapse_perm hd).filter keep).symm)

/-- To permute the fields of objects keeps keys distinct and the canonical form. -/
theorem Reordered.preserves {j j' : Json} (h : j.Reordered j') (hj : j.hasDistinctKeys = true) :
    j'.hasDistinctKeys = true ∧ j.canonical = j'.canonical := by
  induction h with
  | refl j => exact ⟨hj, rfl⟩
  | trans _ _ ih ih' =>
    obtain ⟨hk, heq⟩ := ih hj
    obtain ⟨hl, heq'⟩ := ih' hk
    exact ⟨hl, heq.trans heq'⟩
  | permute hperm =>
    obtain ⟨hd, hvalues⟩ := hasDistinctKeys_object.1 hj
    refine ⟨hasDistinctKeys_object.2 ⟨hd.perm hperm, fun f hf => ?_⟩, ?_⟩
    · exact hvalues f (hperm.mem_iff.2 hf)
    · rw [canonical_object, canonical_object,
        collapse_eq_of_perm (hd.map canonical) (hperm.map _)]
  | item before after _ ih =>
    rw [hasDistinctKeys_array, List.forall_mem_append, List.forall_mem_cons] at hj
    obtain ⟨hbefore, hitem, hafter⟩ := hj
    obtain ⟨hitem', heq⟩ := ih hitem
    refine ⟨?_, ?_⟩
    · rw [hasDistinctKeys_array, List.forall_mem_append, List.forall_mem_cons]
      exact ⟨hbefore, hitem', hafter⟩
    · simp only [canonical_array, List.map_append, List.map_cons, heq]
  | field before key after _ ih =>
    -- The keys are the same before and after, so only the value of this one field is in question.
    rw [hasDistinctKeys_object, List.forall_mem_append, List.forall_mem_cons] at hj
    obtain ⟨hd, hbefore, hvalue, hafter⟩ := hj
    obtain ⟨hvalue', heq⟩ := ih hvalue
    refine ⟨?_, ?_⟩
    · rw [hasDistinctKeys_object, List.forall_mem_append, List.forall_mem_cons]
      refine ⟨?_, hbefore, hvalue', hafter⟩
      simpa only [Distinct, List.map_append, List.map_cons] using hd
    · simp only [canonical_object, List.map_append, List.map_cons, heq]

/-! ## Readers that do not see the order -/

/-- A reader takes a value without repeated keys and its canonical form for the same. -/
def OrderBlind {α : Type} (read : Json → α) : Prop :=
  ∀ j : Json, j.hasDistinctKeys = true → read j.canonical = read j

theorem OrderBlind.eq_of_reordered {α : Type} {read : Json → α} (h : OrderBlind read)
    {j j' : Json} (hj : j.hasDistinctKeys = true) (hr : j.Reordered j') : read j = read j' := by
  obtain ⟨hj', heq⟩ := hr.preserves hj
  rw [← h j hj, heq, h j' hj']

/-- A reader that treats all arrays and objects alike sees nothing of what is inside them. -/
theorem read_canonical {α : Type} {read : Json → α} {a : α}
    (harray : ∀ items, read (array items) = a) (hobject : ∀ fields, read (object fields) = a)
    (j : Json) : read j.canonical = read j := by
  cases j with
  | array items => rw [canonical_array, harray, harray]
  | object fields => rw [canonical_object, hobject, hobject]
  | _ => rw [Recast.canonical.scalar rfl]

theorem text?_canonical : ∀ j : Json, text? j.canonical = text? j :=
  read_canonical (fun _ => rfl) fun _ => rfl

theorem orderBlind_text? : OrderBlind text? := fun j _ => text?_canonical j

theorem orderBlind_bool? : OrderBlind bool? :=
  fun j _ => read_canonical (fun _ => rfl) (fun _ => rfl) j

theorem orderBlind_offset? : OrderBlind offset? :=
  fun j _ => read_canonical (fun _ => rfl) (fun _ => rfl) j

section
variable {α : Type} {read : Json → Option α} (h : OrderBlind read)
include h

theorem OrderBlind.list : OrderBlind (list? read) := by
  intro j hj
  cases j with
  | array items =>
    rw [hasDistinctKeys_array] at hj
    rw [canonical_array]
    simp only [list?]
    induction items with
    | nil => rfl
    | cons i items ih =>
      rw [List.forall_mem_cons] at hj
      simp only [List.map_cons, List.mapM_cons, h i hj.1, ih hj.2]
  | object fields => rw [canonical_object]; rfl
  | _ => rw [Recast.canonical.scalar rfl]

theorem OrderBlind.optional : OrderBlind (optional? read) := by
  intro j hj
  have hread := h j hj
  cases j with
  | array items =>
    rw [canonical_array] at hread ⊢
    simp only [optional?, hread]
  | object fields =>
    rw [canonical_object] at hread ⊢
    simp only [optional?, hread]
  | _ => rw [Recast.canonical.scalar rfl]

end

/-- A value that a key may have where only the key counts. -/
def isVoid : Json → Bool
  | .null => true
  | .object [] => true
  | _ => false

theorem operator?_single (key : String) (value : Json) :
    operator? (object [⟨key, value⟩]) = if value.isVoid then some key else none := by
  cases value with
  | object fields => cases fields <;> rfl
  | _ => rfl

theorem operator?_of_length_ne_one {fields : List Field} (h : fields.length ≠ 1) :
    operator? (object fields) = none := by
  match fields with
  | [] => rfl
  | [_] => exact absurd rfl h
  | _ :: _ :: _ => simp [operator?, word?]

theorem length_collapse {fields : List Field} (hd : Distinct fields) :
    (collapse (fields.map fun f => ⟨f.key, f.value.canonical⟩)).length = fields.length :=
  (collapse_perm (hd.map canonical)).length_eq.trans (List.length_map _)

theorem orderBlind_isVoid : OrderBlind isVoid := by
  intro j hj
  cases j with
  | array items => rw [canonical_array]; rfl
  | object fields =>
    have hlength := length_collapse (hasDistinctKeys_object.1 hj).1
    rw [canonical_object]
    generalize collapse (fields.map fun f => ⟨f.key, f.value.canonical⟩) = fields' at hlength
    cases fields with
    | nil => rw [List.length_eq_zero_iff.1 hlength]
    | cons f fields =>
      cases fields' with
      | nil => cases hlength
      | cons => rfl
  | _ => rw [Recast.canonical.scalar rfl]

theorem orderBlind_operator? : OrderBlind operator? := by
  intro j hj
  cases j with
  | array items => rw [canonical_array]; rfl
  | object fields =>
    obtain ⟨hd, hvalues⟩ := hasDistinctKeys_object.1 hj
    rw [canonical_object]
    by_cases hone : fields.length = 1
    · obtain ⟨⟨key, value⟩, rfl⟩ := List.length_eq_one_iff.1 hone
      show operator? (object [⟨key, value.canonical⟩]) = _
      rw [operator?_single, operator?_single, orderBlind_isVoid value]
      exact hvalues _ List.mem_cons_self
    · rw [operator?_of_length_ne_one hone, operator?_of_length_ne_one]
      rwa [length_collapse hd]
  | _ => rw [Recast.canonical.scalar rfl]

theorem OrderBlind.bind {α β : Type} {read : Json → Option α} (h : OrderBlind read)
    (k : α → Option β) : OrderBlind fun j => read j >>= k := by
  intro j hj
  show read j.canonical >>= k = read j >>= k
  rw [h j hj]

/-! ## Records -/

/-- The second fields are the first with every value made canonical, in some order. -/
structure Settles (m m' : List Field) : Prop where
  lookup (key : String) : lookup? m' key = (lookup? m key).map canonical
  distinct {f : Field} : f ∈ m → f.value.hasDistinctKeys = true

namespace Settles

variable {α : Type} {m m' : List Field} {read : Json → Option α}

theorem blind (h : Settles m m') (hread : OrderBlind read) {key : String} {j : Json}
    (hj : lookup? m key = some j) : read j.canonical = read j := by
  obtain ⟨f, hf, rfl⟩ := Option.map_eq_some_iff.1 hj
  exact hread f.value (h.distinct (List.mem_of_find?_eq_some hf))

theorem required (h : Settles m m') (hread : OrderBlind read) (key : String) :
    required m' key read = required m key read := by
  unfold Json.required
  rw [h.lookup]
  cases hj : lookup? m key with
  | none => rfl
  | some j => exact h.blind hread hj

theorem defaulted (h : Settles m m') (hread : OrderBlind read) (key : String) (absent : α) :
    defaulted m' key absent read = defaulted m key absent read := by
  unfold Json.defaulted
  rw [h.lookup]
  cases hj : lookup? m key with
  | none => rfl
  | some j => exact h.blind hread hj

end Settles

theorem settles_object {fields : List Field} (h : (object fields).hasDistinctKeys = true)
    (keep : String → Bool) :
    Settles (fields.filter fun f => keep f.key)
      ((collapse (fields.map fun f => ⟨f.key, f.value.canonical⟩)).filter fun f => keep f.key) := by
  obtain ⟨hd, hvalues⟩ := hasDistinctKeys_object.1 h
  refine ⟨fun key => ?_, fun hf => hvalues _ (List.mem_filter.1 hf).1⟩
  rw [lookup?_filter, lookup?_filter, lookup?_collapse (hd.map canonical), lookup?_map]
  split <;> rfl

theorem settles_array {items : List Json} (h : (array items).hasDistinctKeys = true)
    (names : List String) :
    Settles (names.zipWith Field.mk items) (names.zipWith Field.mk (items.map canonical)) := by
  have hmap : names.zipWith Field.mk (items.map canonical) =
      (names.zipWith Field.mk items).map fun f => ⟨f.key, f.value.canonical⟩ := by
    rw [List.map_zipWith, List.zipWith_map_right]
  refine ⟨fun key => by rw [hmap, lookup?_map], fun {f} hf => ?_⟩
  obtain ⟨i, hi, rfl⟩ := List.mem_iff_getElem.1 hf
  rw [List.getElem_zipWith]
  exact hasDistinctKeys_array.1 h _ (List.getElem_mem _)

/-- A record is read without regard to the order of its fields if each field is. -/
theorem OrderBlind.record {α : Type} {names : List String} {k : List Field → Option α}
    (hk : ∀ m m', Settles m m' → k m' = k m) : OrderBlind fun j => j.members? names >>= k := by
  intro j hj
  cases j with
  | object fields =>
    have hsettles := settles_object hj names.contains
    obtain ⟨hd, -⟩ := hasDistinctKeys_object.1 hj
    have hknown := hd.filter fun f => names.contains f.key
    have hknown' := (ascending_collapse (hd.map canonical)).distinct.filter
      fun f => names.contains f.key
    rw [canonical_object]
    simp only [members?, if_pos (show (List.map _ _).Nodup from hknown),
      if_pos (show (List.map _ _).Nodup from hknown')]
    exact hk _ _ hsettles
  | array items =>
    rw [canonical_array]
    simp only [members?, List.length_map]
    split
    · exact hk _ _ (settles_array hj names)
    · rfl
  | _ => rw [Recast.canonical.scalar rfl]

theorem filter_absent {fields : List Field} {key : String} (h : lookup? fields key = none) :
    fields.filter (·.key == key) = [] := by
  refine List.filter_eq_nil_iff.2 fun f hf heq => lookup?_eq_none.1 h ?_
  exact List.mem_map.2 ⟨f, hf, by simpa using heq⟩

/-- What stands behind the tag of a canonical value, and the tag, are canonical. -/
theorem tagged?_canonical {j : Json} (hj : j.hasDistinctKeys = true) :
    j.canonical.tagged? = j.tagged?.map fun p => (p.1.canonical, p.2.canonical) := by
  cases j with
  | object fields =>
    obtain ⟨hd, -⟩ := hasDistinctKeys_object.1 hj
    have hd' := (ascending_collapse (hd.map canonical)).distinct
    have hlookup : lookup? (collapse (fields.map fun f => ⟨f.key, f.value.canonical⟩)) "kind" =
        (lookup? fields "kind").map canonical := by
      rw [lookup?_collapse (hd.map canonical), lookup?_map]
    have hbody : (object (fields.filter (·.key != "kind"))).canonical =
        object ((collapse (fields.map fun f => ⟨f.key, f.value.canonical⟩)).filter
          (·.key != "kind")) := by
      rw [canonical_object, ← collapse_filter (hd.map canonical), List.filter_map]
      rfl
    rw [canonical_object]
    cases htag : lookup? fields "kind" with
    | none =>
      rw [htag] at hlookup
      simp only [tagged?, filter_absent htag, filter_absent hlookup, Option.map_none]
    | some tag =>
      rw [htag] at hlookup
      simp only [tagged?, filter_key hd htag, filter_key hd' hlookup, Option.map_some, hbody]
  | array items =>
    rw [canonical_array]
    cases items with
    | nil => rfl
    | cons tag rest => simp only [tagged?, List.map_cons, Option.map_some, canonical_array]
  | _ => rw [Recast.canonical.scalar rfl]; rfl

theorem hasDistinctKeys_tagged? {j : Json} {p : Json × Json} (hj : j.hasDistinctKeys = true)
    (h : j.tagged? = some p) : p.1.hasDistinctKeys = true ∧ p.2.hasDistinctKeys = true := by
  cases j with
  | object fields =>
    obtain ⟨hd, hvalues⟩ := hasDistinctKeys_object.1 hj
    simp only [tagged?] at h
    split at h
    · rename_i tag htag
      obtain rfl := Option.some.inj h
      have hmem : tag ∈ fields.filter (·.key == "kind") := htag ▸ List.mem_singleton_self tag
      refine ⟨hvalues tag (List.mem_filter.1 hmem).1, hasDistinctKeys_object.2 ⟨hd.filter _, ?_⟩⟩
      exact fun f hf => hvalues f (List.mem_filter.1 hf).1
    · cases h
  | array items =>
    rw [hasDistinctKeys_array] at hj
    cases items with
    | nil => cases h
    | cons tag rest =>
      rw [List.forall_mem_cons] at hj
      obtain rfl := Option.some.inj h
      exact ⟨hj.1, hasDistinctKeys_array.2 hj.2⟩
  | _ => cases h

/-- A tagged record is read without regard to order if its tag and what is behind it are. -/
theorem OrderBlind.tagged {α : Type} {k : Json × Json → Option α}
    (hk : ∀ tag body : Json, tag.hasDistinctKeys = true → body.hasDistinctKeys = true →
      k (tag.canonical, body.canonical) = k (tag, body)) :
    OrderBlind fun j => j.tagged? >>= k := by
  intro j hj
  show j.canonical.tagged? >>= k = j.tagged? >>= k
  rw [tagged?_canonical hj]
  cases htagged : j.tagged? with
  | none => rfl
  | some p =>
    obtain ⟨htag, hbody⟩ := hasDistinctKeys_tagged? hj htagged
    exact hk p.1 p.2 htag hbody

end Json

/-! ## Parts of nodes -/

open Json (OrderBlind)

theorem Span.orderBlind_ofJson? : OrderBlind Span.ofJson? :=
  OrderBlind.record fun m m' h => by simp only [h.required Json.orderBlind_offset?]

theorem Variable.orderBlind_ofJson? : OrderBlind Variable.ofJson? :=
  OrderBlind.record fun m m' h => by
    simp only [h.required Json.orderBlind_text?, h.required Span.orderBlind_ofJson?]

theorem Annotation.orderBlind_ofJson? : OrderBlind Annotation.ofJson? :=
  OrderBlind.record fun m m' h => by
    simp only [h.required Json.orderBlind_text?, h.defaulted Json.orderBlind_text?.optional,
      h.required Span.orderBlind_ofJson?]

theorem AssignOp.orderBlind_ofJson? : OrderBlind AssignOp.ofJson? :=
  Json.orderBlind_operator?.bind AssignOp.ofWord?

theorem BinaryOp.orderBlind_ofJson? : OrderBlind BinaryOp.ofJson? := by
  intro j hj
  unfold BinaryOp.ofJson?
  rw [Json.orderBlind_operator? j hj]

theorem Element.orderBlind_ofTag? : OrderBlind Element.ofTag? :=
  fun j _ => Json.read_canonical (fun _ => rfl) (fun _ => rfl) j

theorem Kind.orderBlind_ofTag? : OrderBlind Kind.ofTag? :=
  fun j _ => Json.read_canonical (fun _ => rfl) (fun _ => rfl) j

section
variable {node : Json → Option Node} (hnode : OrderBlind node)
include hnode

theorem Param.orderBlind_ofJson? : OrderBlind (Param.ofJson? node) :=
  OrderBlind.record fun m m' h => by
    simp only [h.required Json.orderBlind_text?, h.required Span.orderBlind_ofJson?,
      h.defaulted hnode.optional]

theorem Block.orderBlind_ofJson? : OrderBlind (Block.ofJson? node) :=
  OrderBlind.record fun m m' h => by
    simp only [h.required Span.orderBlind_ofJson?,
      h.defaulted (Param.orderBlind_ofJson? hnode).list,
      h.defaulted Annotation.orderBlind_ofJson?.list, h.defaulted hnode.list]

theorem Element.orderBlind_ofJson? {tag? : Json → Option Nat} (htag? : OrderBlind tag?) :
    OrderBlind (Element.ofJson? node tag?) := by
  refine OrderBlind.tagged fun tag body htag hbody => ?_
  simp only [htag? tag htag]
  cases tag? tag with
  | none => rfl
  | some place =>
    match place with
    | 0 =>
      refine OrderBlind.record (fun m m' h => ?_) body hbody
      simp only [h.required hnode]
    | 1 =>
      refine OrderBlind.record (fun m m' h => ?_) body hbody
      simp only [h.required Json.orderBlind_text?, h.defaulted hnode.optional,
        h.required Span.orderBlind_ofJson?]
    | _ + 2 => rfl

theorem Command.orderBlind_read? {tag? : Json → Option Nat} (htag? : OrderBlind tag?) :
    OrderBlind (Command.read? node tag?) :=
  OrderBlind.record fun m m' h => by
    simp only [h.required hnode, h.defaulted (Element.orderBlind_ofJson? hnode htag?).list,
      h.required Span.orderBlind_ofJson?]

theorem Invocation.orderBlind_ofJson? : OrderBlind (Invocation.ofJson? node) :=
  OrderBlind.record fun m m' h => by
    simp only [h.required hnode, h.defaulted hnode.list, h.defaulted Json.orderBlind_bool?,
      h.required Span.orderBlind_ofJson?]

theorem Clause.orderBlind_ofJson? : OrderBlind (Clause.ofJson? node) :=
  OrderBlind.record fun m m' h => by simp only [h.required hnode, h.defaulted hnode.list]

theorem Kind.orderBlind_node? (kind : Kind) : OrderBlind fun j => kind.node? node j := by
  have htext := Json.orderBlind_text?
  have hspan := Span.orderBlind_ofJson?
  cases kind with
  | reference => exact Variable.orderBlind_ofJson?.bind _
  | command => exact (Command.orderBlind_read? hnode Element.orderBlind_ofTag?).bind _
  | invocation => exact (Invocation.orderBlind_ofJson? hnode).bind _
  | scriptBlock => exact (Block.orderBlind_ofJson? hnode).bind _
  | literal | typeLiteral =>
    exact OrderBlind.record fun m m' h => by simp only [h.required htext, h.required hspan]
  | expandable | arrayLiteral | subExpression =>
    exact OrderBlind.record fun m m' h => by
      simp only [h.required htext, h.defaulted hnode.list, h.required hspan]
  | paren | cast =>
    exact OrderBlind.record fun m m' h => by
      simp only [h.required htext, h.required hnode, h.required hspan]
  | assignment =>
    exact OrderBlind.record fun m m' h => by
      simp only [h.required hnode, h.defaulted AssignOp.orderBlind_ofJson?, h.required hspan]
  | binary =>
    exact OrderBlind.record fun m m' h => by
      simp only [h.required BinaryOp.orderBlind_ofJson?, h.required hnode, h.required hspan]
  | pipeline =>
    exact OrderBlind.record fun m m' h => by
      simp only [h.required hnode.list, h.required hspan]
  | member =>
    exact OrderBlind.record fun m m' h => by
      simp only [h.required hnode, h.defaulted Json.orderBlind_bool?, h.required hspan]
  | function =>
    exact OrderBlind.record fun m m' h => by
      simp only [h.required htext, h.required hspan,
        h.required (Block.orderBlind_ofJson? hnode)]
  | conditional =>
    exact OrderBlind.record fun m m' h => by
      simp only [h.required (Clause.orderBlind_ofJson? hnode).list,
        h.defaulted hnode.list.optional, h.required hspan]
  | forEach =>
    exact OrderBlind.record fun m m' h => by
      simp only [h.required Variable.orderBlind_ofJson?, h.required hnode,
        h.defaulted hnode.list, h.required hspan]

theorem Node.orderBlind_modelled? : OrderBlind (Node.modelled? node) := by
  refine OrderBlind.tagged fun tag body htag hbody => ?_
  simp only [Kind.orderBlind_ofTag? tag htag]
  cases Kind.ofTag? tag with
  | none => rfl
  | some kind => exact Kind.orderBlind_node? hnode kind body hbody

end

/-! ## Nodes and files -/

namespace Node

/-- An unsupported node is read from the fields as a map holds them, repeated keys or not. -/
theorem unsupported?_canonical (node : Json → Option Node) (j : Json) :
    unsupported? node j.canonical = unsupported? node j := by
  cases j with
  | object fields =>
    have hcollapse : Json.collapse (Json.collapse
        (fields.map fun f => ⟨f.key, f.value.canonical⟩)) =
          (Json.collapse fields).map fun f => ⟨f.key, f.value.canonical⟩ := by
      have hascending : Json.Ascending (Json.collapse
          (fields.map fun f => ⟨f.key, f.value.canonical⟩)) :=
        Json.ascending_foldl_insertField _ List.Pairwise.nil
      rw [Json.collapse_of_ascending hascending, Json.collapse_map]
    rw [Json.canonical_object]
    simp only [unsupported?, hcollapse]
    generalize Json.collapse fields = held
    have houtline : outline? (held.map fun f => ⟨f.key, f.value.canonical⟩) = outline? held := by
      simp only [outline?, required, defaulted, Json.lookup?_map]
      cases Json.lookup? held "kind" with
      | none => rfl
      | some kind =>
        simp only [Option.map_some, Option.bind_some, Json.text?_canonical]
        cases Json.lookup? held "span" with
        | none => rfl
        | some span => simp only [Option.map_some, Json.canonical_canonical]
    rw [houtline]
    cases outline? held with
    | none => rfl
    | some outline =>
      simp only [List.filter_map, List.flatMap_map, Json.canonical_canonical]
      rfl
  | array items => rw [Json.canonical_array]; rfl
  | _ => rw [Json.Recast.canonical.scalar rfl]

theorem orderBlind_ofJsonWithin? (levels : Nat) : OrderBlind (ofJsonWithin? levels) := by
  -- On the levels and not on the value: the reader of the nodes inside is then blind as a whole.
  induction levels with
  | zero => exact fun _ _ => rfl
  | succ levels ih =>
    intro j hj
    rw [ofJsonWithin?_succ, ofJsonWithin?_succ, orderBlind_modelled? ih j hj,
      unsupported?_canonical]

theorem orderBlind_ofJson? : OrderBlind ofJson? := by
  intro j hj
  rw [← ofJsonWithin?_of_le (Json.nesting_canonical_le (Nat.le_refl j.nesting)),
    orderBlind_ofJsonWithin? j.nesting j hj, ofJson?]

end Node

theorem SyntaxTree.orderBlind_ofJson? : OrderBlind SyntaxTree.ofJson? :=
  OrderBlind.record fun m m' h => by
    simp only [h.required Json.orderBlind_text?, h.defaulted Json.orderBlind_offset?.list,
      h.required (Block.orderBlind_ofJson? Node.orderBlind_ofJson?)]

/-! ## Faults -/

namespace Json

/-- What is said of a value and of all values inside it does not depend on the order. -/
theorem OrderBlind.of_parts {P : Json → Prop} {Q : Option Flaw → Prop}
    (h : ∀ j : Json, P j ↔ Q j.flaw? ∧ ∀ p ∈ j.parts, P p) : OrderBlind P := by
  intro j
  induction j using induction_parts with
  | step j ih =>
    intro hj
    have hparts : ∀ p ∈ j.parts, P p.canonical = P p := fun p hp =>
      ih p hp ((hasDistinctKeys_iff.1 hj).2 p hp)
    cases j with
    | array items =>
      rw [canonical_array, eq_iff_iff, h, h]
      refine and_congr_right fun _ => ?_
      simp only [parts, List.forall_mem_map]
      exact forall₂_congr fun p hp => iff_of_eq (hparts p hp)
    | object fields =>
      obtain ⟨hd, -⟩ := hasDistinctKeys_object.1 hj
      rw [canonical_object, eq_iff_iff, h, h]
      refine and_congr_right fun _ => ?_
      simp only [parts, List.forall_mem_map, (collapse_perm (hd.map canonical)).mem_iff]
      exact forall₂_congr fun f hf => iff_of_eq (hparts f.value (List.mem_map_of_mem hf))
    | _ => rw [Recast.canonical.scalar rfl]

theorem readFault?_eq_none_iff (j : Json) :
    j.readFault? = none ↔ j.flaw? = none ∧ ∀ p ∈ j.parts, p.readFault? = none := by
  rw [readFault?.eq_def]
  cases j.flaw? <;> simp

theorem skipFault?_eq_none_iff (j : Json) :
    j.skipFault? = none ↔
      j.flaw?.bind Flaw.skipping = none ∧ ∀ p ∈ j.parts, p.skipFault? = none := by
  rw [skipFault?.eq_def]
  cases j with
  | broken flaw => simp [flaw?, parts]
  | _ => simp [flaw?]

theorem orderBlind_readFault? : OrderBlind fun j => j.readFault? = none :=
  .of_parts (Q := fun flaw => flaw = none) readFault?_eq_none_iff

theorem orderBlind_skipFault? : OrderBlind fun j => j.skipFault? = none :=
  .of_parts (Q := fun flaw => flaw.bind Flaw.skipping = none) skipFault?_eq_none_iff

theorem nameFault?_canonical : ∀ j : Json, j.canonical.nameFault? = j.nameFault? :=
  read_canonical (fun _ => rfl) fun _ => rfl

namespace Contract

variable {c : Contract}

theorem orderBlind_scalar {accept : Json → Bool} (harray : ∀ items, accept (array items) = false)
    (hobject : ∀ fields, accept (object fields) = false) :
    OrderBlind fun j => scalar accept j = none := by
  intro j _
  have hsame : scalar accept j.canonical = scalar accept j :=
    read_canonical (a := some .shape) (fun items => by simp [scalar, harray])
      (fun fields => by simp [scalar, hobject]) j
  show (scalar accept j.canonical = none) = _
  rw [hsame]

theorem orderBlind_whole {accept : Json → Bool} (h : OrderBlind accept) :
    OrderBlind fun j => whole accept j = none := by
  have hwhole : ∀ j, whole accept j = none ↔ j.readFault? = none ∧ accept j = true := by
    intro j
    unfold whole
    cases j.readFault? <;> simp
  intro j hj
  simp only [hwhole, h j hj, orderBlind_readFault? j hj]

theorem orderBlind_optional (h : OrderBlind fun j => c j = none) :
    OrderBlind fun j => optional c j = none := by
  intro j hj
  have hc := h j hj
  cases j with
  | array items => rw [canonical_array] at hc ⊢; exact hc
  | object fields => rw [canonical_object] at hc ⊢; exact hc
  | _ => rw [Recast.canonical.scalar rfl]

theorem orderBlind_list (h : OrderBlind fun j => c j = none) :
    OrderBlind fun j => list c j = none := by
  intro j hj
  cases j with
  | array items =>
    rw [hasDistinctKeys_array] at hj
    simp only [canonical_array, list, List.findSome?_eq_none_iff, List.forall_mem_map, eq_iff_iff]
    exact forall₂_congr fun i hi => iff_of_eq (h i (hj i hi))
  | object fields => rw [canonical_object]; rfl
  | _ => rw [Recast.canonical.scalar rfl]

/-- The fault of one field, if the record has the fields `slots`. -/
def field (slots : List Slot) (f : Field) : Option Fault :=
  match slots.find? (·.name == f.key) with
  | none => f.value.nameFault?.or f.value.skipFault?
  | some slot => slot.contract f.value

/-- Where no key repeats, the fields of an object are accepted if each is and none is missing. -/
theorem fields_eq_none_iff {slots : List Slot} {fs : List Field} {seen : List String}
    (hd : Distinct fs) (hseen : ∀ f ∈ fs, f.key ∉ seen) :
    fields slots seen fs = none ↔ (∀ f ∈ fs, field slots f = none) ∧
      ∀ slot ∈ slots, slot.required = true → slot.name ∈ seen ∨ slot.name ∈ fs.map (·.key) := by
  induction fs generalizing seen with
  | nil => simp [fields, or_iff_not_imp_left]
  | cons f fs ih =>
    obtain ⟨hf, hd⟩ := List.nodup_cons.1 hd
    rw [List.forall_mem_cons] at hseen
    rw [fields, List.forall_mem_cons, field]
    cases hslot : slots.find? (·.name == f.key) with
    | none =>
      have hnew : ∀ slot ∈ slots, slot.name ≠ f.key := by
        simpa using List.find?_eq_none.1 hslot
      simp only [Option.or_eq_none_iff, ih hd hseen.2, and_assoc]
      refine and_congr_right fun _ => and_congr_right fun _ => and_congr_right fun _ => ?_
      refine forall₂_congr fun slot hslot => ?_
      simp [hnew slot hslot]
    | some slot =>
      have hunseen : ∀ g ∈ fs, g.key ∉ f.key :: seen := by
        intro g hg hmem
        rcases List.mem_cons.1 hmem with heq | hmem
        · exact hf (List.mem_map.2 ⟨g, hg, heq⟩)
        · exact hseen.2 g hg hmem
      have hfirst : ¬seen.contains f.key = true := by simpa using hseen.1
      simp only [if_neg hfirst, Option.or_eq_none_iff, ih hd hunseen, and_assoc]
      refine and_congr_right fun _ => and_congr_right fun _ => ?_
      refine forall₂_congr fun slot _ => ?_
      simp [or_assoc, or_left_comm]

section
variable {slots : List Slot} (h : ∀ slot ∈ slots, OrderBlind fun j => slot.contract j = none)
include h

theorem field_canonical {f : Field} (hf : f.value.hasDistinctKeys = true) :
    field slots ⟨f.key, f.value.canonical⟩ = none ↔ field slots f = none := by
  unfold field
  cases hslot : slots.find? (·.name == f.key) with
  | none =>
    simp only [Option.or_eq_none_iff, nameFault?_canonical, orderBlind_skipFault? _ hf]
  | some slot => exact iff_of_eq (h slot (List.mem_of_find?_eq_some hslot) f.value hf)

theorem values_canonical {items : List Json} (hitems : ∀ i ∈ items, i.hasDistinctKeys = true) :
    values slots (items.map canonical) = none ↔ values slots items = none := by
  induction slots generalizing items with
  | nil =>
    cases items with
    | nil => rfl
    | cons i items =>
      -- An element too many is refused whatever it is.
      have hsurplus : ∀ (j : Json) (js : List Json), values [] (j :: js) ≠ none := by
        intro j js
        cases j <;> simp [values]
      simp only [List.map_cons, hsurplus]
  | cons slot slots ih =>
    rw [List.forall_mem_cons] at h
    cases items with
    | nil => rfl
    | cons i items =>
      rw [List.forall_mem_cons] at hitems
      simp only [List.map_cons, values, Option.or_eq_none_iff, ih h.2 hitems.2,
        h.1 i hitems.1]

/-- Whether a record is accepted does not depend on the order of its fields. -/
theorem orderBlind_record : OrderBlind fun j => record slots j = none := by
  intro j hj
  cases j with
  | object fs =>
    obtain ⟨hd, hvalues⟩ := hasDistinctKeys_object.1 hj
    have hd' := (ascending_collapse (hd.map canonical)).distinct
    have hperm := collapse_perm (hd.map canonical)
    rw [canonical_object, eq_iff_iff]
    simp only [record]
    rw [fields_eq_none_iff hd (by simp), fields_eq_none_iff hd' (by simp)]
    refine and_congr ?_ ?_
    · simp only [hperm.mem_iff, List.forall_mem_map]
      exact forall₂_congr fun f hf => field_canonical h (hvalues f hf)
    · simp only [(hperm.map (·.key)).mem_iff, List.map_map]
      rfl
  | array items =>
    rw [canonical_array, eq_iff_iff]
    exact values_canonical h (hasDistinctKeys_array.1 hj)
  | _ => rw [Recast.canonical.scalar rfl]

end

theorem orderBlind_text : OrderBlind fun j => Contract.text j = none :=
  orderBlind_scalar (fun _ => rfl) fun _ => rfl

theorem orderBlind_offset : OrderBlind fun j => Contract.offset j = none :=
  orderBlind_scalar (fun _ => rfl) fun _ => rfl

theorem orderBlind_node : OrderBlind fun j => Contract.node j = none :=
  orderBlind_whole fun j hj => by rw [Node.orderBlind_ofJson? j hj]

end Contract

end Json

section
open Json.Contract

theorem Span.orderBlind_contract : OrderBlind fun j => Span.contract j = none :=
  orderBlind_record (by simp [orderBlind_offset])

theorem Param.orderBlind_contract : OrderBlind fun j => Param.contract j = none :=
  orderBlind_record (by
    simp [orderBlind_text, Span.orderBlind_contract, orderBlind_optional orderBlind_node])

theorem Annotation.orderBlind_contract : OrderBlind fun j => Annotation.contract j = none :=
  orderBlind_record (by
    simp [orderBlind_text, Span.orderBlind_contract, orderBlind_optional orderBlind_text])

theorem Block.orderBlind_contract : OrderBlind fun j => Block.contract j = none :=
  orderBlind_record (by
    simp [Span.orderBlind_contract, orderBlind_list Param.orderBlind_contract,
      orderBlind_list Annotation.orderBlind_contract, orderBlind_list orderBlind_node])

theorem SyntaxTree.orderBlind_contract : OrderBlind fun j => SyntaxTree.contract j = none :=
  orderBlind_record (by
    simp [orderBlind_text, orderBlind_list orderBlind_offset, Block.orderBlind_contract])

end

namespace SyntaxTree

theorem decode_eq_ok_iff {j : Json} {t : SyntaxTree} :
    decode j = .ok t ↔ contract j = none ∧ ofJson? j = some t := by
  unfold decode
  cases contract j with
  | some fault => simp
  | none => cases ofJson? j <;> simp

end SyntaxTree

/-- Two values that differ in the order of fields only, and repeat no key, are files alike: either
both are refused, or both are read as one and the same tree. -/
theorem fieldOrder_irrelevant {j j' : Json} (hj : j.hasDistinctKeys = true)
    (h : j.Reordered j') :
    (∃ t, SyntaxTree.decode j = .ok t ∧ SyntaxTree.decode j' = .ok t) ∨
      (∃ fault, SyntaxTree.decode j = .error fault) ∧
        ∃ fault, SyntaxTree.decode j' = .error fault := by
  have hsame : ∀ t, SyntaxTree.decode j = .ok t ↔ SyntaxTree.decode j' = .ok t := by
    intro t
    rw [SyntaxTree.decode_eq_ok_iff, SyntaxTree.decode_eq_ok_iff,
      SyntaxTree.orderBlind_ofJson?.eq_of_reordered hj h]
    exact and_congr_left fun _ =>
      iff_of_eq (SyntaxTree.orderBlind_contract.eq_of_reordered hj h)
  cases hread : SyntaxTree.decode j with
  | ok t => exact .inl ⟨t, rfl, (hsame t).1 hread⟩
  | error fault =>
    refine .inr ⟨⟨fault, rfl⟩, ?_⟩
    cases hread' : SyntaxTree.decode j' with
    | ok t => rw [(hsame t).2 hread'] at hread; cases hread
    | error fault' => exact ⟨fault', rfl⟩

/-- A file with one statement, an object with these fields. -/
def fileOf (fields : List Field) : Json :=
  .object
    [⟨"path", .text "job.ps1"⟩,
     ⟨"root", .object
       [⟨"span", Span.toJson ⟨0, 20⟩⟩, ⟨"statements", .array [.object fields]⟩]⟩]

/-- A statement that is not modelled, with two children of one start: either order of its fields
gives the tree in which the children stand in the order of their keys. -/
theorem fieldOrder_irrelevant_ties :
    let kind : Field := ⟨"kind", .text "TryStatement"⟩
    let handler : Field := ⟨"handler", (Node.literal "b" ⟨4, 6⟩).toJson⟩
    let body : Field := ⟨"body", (Node.literal "a" ⟨4, 6⟩).toJson⟩
    (fileOf [kind, handler, body]).hasDistinctKeys = true ∧
      (fileOf [kind, handler, body]).Reordered (fileOf [body, kind, handler]) ∧
      ∃ t, SyntaxTree.decode (fileOf [kind, handler, body]) = .ok t ∧
        SyntaxTree.decode (fileOf [body, kind, handler]) = .ok t ∧
        t.root.statements.map (fun n => n.children.map (·.literal?)) = [[some "a", some "b"]] := by
  intro kind handler body
  have hdistinct : (fileOf [kind, handler, body]).hasDistinctKeys = true := by decide +kernel
  have hperm : [kind, handler, body].Perm [body, kind, handler] :=
    show ([kind, handler] ++ [body]).Perm ([body] ++ [kind, handler]) from List.perm_append_comm
  have hreordered : (fileOf [kind, handler, body]).Reordered (fileOf [body, kind, handler]) :=
    .field [⟨"path", .text "job.ps1"⟩] "root" [] <|
      .field [⟨"span", Span.toJson ⟨0, 20⟩⟩] "statements" [] <|
        .item [] [] <| .permute hperm
  have hread : (SyntaxTree.decode (fileOf [kind, handler, body])).toOption.map
      (fun t => t.root.statements.map fun n => n.children.map (·.literal?)) =
        some [[some "a", some "b"]] := by
    decide +kernel
  refine ⟨hdistinct, hreordered, ?_⟩
  rcases fieldOrder_irrelevant hdistinct hreordered with ⟨t, ht, ht'⟩ | ⟨⟨fault, hfault⟩, -⟩
  · rw [ht] at hread
    exact ⟨t, ht, ht', Option.some.inj hread⟩
  · rw [hfault] at hread
    cases hread

end ScriptTaint
