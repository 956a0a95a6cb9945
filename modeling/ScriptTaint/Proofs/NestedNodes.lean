import ScriptTaint.Proofs.ReadingDepth
import ScriptTaint.Proofs.Rereading
import ScriptTaint.Proofs.RoundTrip

/-!
# The nodes inside an unsupported node

An unsupported node takes its children from the value it is read from. The search goes through plain
values, and it goes on inside the nodes that are unsupported themselves. It ends at an object that
stands for a node: what cannot be read hides whatever it holds. `nested_nodes_kept` says that this
is all it hides. The nodes below an unsupported node are those read from objects that lie in its
value behind nothing else but plain values and unsupported nodes.

The fields of a value count as a map holds them, so `Json.canonical` comes first in every statement.
-/

set_option autoImplicit false

namespace ScriptTaint

/-! ## Canonical values -/

namespace Json

theorem ascending_foldl_insertField (fields : List Field) {done : List Field}
    (hdone : Ascending done) :
    Ascending (fields.foldl (fun done f => insertField f done) done) := by
  induction fields generalizing done with
  | nil => exact hdone
  | cons f fields ih => exact ih (hdone.insertField f)

theorem insertField_last {f : Field} {done : List Field} (h : ∀ g ∈ done, g.key < f.key) :
    insertField f done = done ++ [f] := by
  induction done with
  | nil => rfl
  | cons g done ih =>
    have hg : g.key < f.key := h g List.mem_cons_self
    rw [insertField, if_neg (lt_asymm hg), if_neg (ne_of_gt hg),
      ih fun k hk => h k (List.mem_cons_of_mem _ hk), List.cons_append]

/-- Fields with ascending keys are in place. -/
theorem collapse_of_ascending {fields : List Field} (h : Ascending fields) :
    collapse fields = fields := by
  have hfold : ∀ fields done : List Field, Ascending (done ++ fields) →
      fields.foldl (fun done f => insertField f done) done = done ++ fields := by
    intro fields
    induction fields with
    | nil => intro done _; rw [List.foldl_nil, List.append_nil]
    | cons f fields ih =>
      intro done h
      have hlast : ∀ g ∈ done, g.key < f.key := fun g hg =>
        (List.pairwise_append.1 h).2.2 g hg f List.mem_cons_self
      have hassoc : done ++ f :: fields = (done ++ [f]) ++ fields := by
        rw [List.append_assoc, List.singleton_append]
      rw [List.foldl_cons, insertField_last hlast, ih _ (hassoc ▸ h), hassoc]
  exact hfold fields [] h

theorem insertField_map (φ : Json → Json) (f : Field) (fields : List Field) :
    insertField ⟨f.key, φ f.value⟩ (fields.map fun g => ⟨g.key, φ g.value⟩) =
      (insertField f fields).map fun g => ⟨g.key, φ g.value⟩ := by
  induction fields with
  | nil => rfl
  | cons g fields ih =>
    simp only [List.map_cons, insertField, ih]
    split
    · rfl
    · split <;> rfl

/-- Which fields stay does not depend on their values. -/
theorem collapse_map (φ : Json → Json) (fields : List Field) :
    collapse (fields.map fun f => ⟨f.key, φ f.value⟩) =
      (collapse fields).map fun f => ⟨f.key, φ f.value⟩ := by
  have hfold : ∀ fields done : List Field,
      (fields.map fun f => (⟨f.key, φ f.value⟩ : Field)).foldl (fun done f => insertField f done)
          (done.map fun f => ⟨f.key, φ f.value⟩) =
        (fields.foldl (fun done f => insertField f done) done).map fun f => ⟨f.key, φ f.value⟩ := by
    intro fields
    induction fields with
    | nil => exact fun done => rfl
    | cons f fields ih =>
      intro done
      rw [List.map_cons, List.foldl_cons, List.foldl_cons, insertField_map, ih]
  exact hfold fields []

theorem induction_parts {P : Json → Prop} (step : ∀ j, (∀ p ∈ j.parts, P p) → P j) (j : Json) :
    P j :=
  step j fun p _ => induction_parts step p
termination_by sizeOf j
decreasing_by exact sizeOf_part ‹_›

/-- An object with ascending keys and canonical values is canonical. -/
theorem canonical_of_ascending {fields : List Field}
    (hkeys : (fields.map (·.key)).Pairwise (· < ·))
    (hvalues : ∀ f ∈ fields, f.value.canonical = f.value) :
    (object fields).canonical = object fields := by
  have hsame : (fields.map fun f => (⟨f.key, f.value.canonical⟩ : Field)) = fields := by
    rw [List.map_congr_left fun f hf => show _ = f by rw [hvalues f hf]; cases f; rfl, List.map_id']
  rw [canonical_object, hsame, collapse_of_ascending (List.pairwise_map.1 hkeys)]

@[simp] theorem canonical_text (s : String) : (text s).canonical = text s :=
  Recast.canonical.scalar rfl

@[simp] theorem canonical_natural (n : Nat) : (natural n).canonical = natural n :=
  Recast.canonical.scalar rfl

theorem canonical_canonical (j : Json) : j.canonical.canonical = j.canonical := by
  induction j using induction_parts with
  | step j ih =>
    cases j with
    | array items =>
      rw [canonical_array, canonical_array, List.map_map]
      exact congrArg array (List.map_congr_left ih)
    | object fields =>
      rw [canonical_object]
      refine canonical_of_ascending ?_ fun g hg => ?_
      · exact List.pairwise_map.2 (ascending_foldl_insertField _ List.Pairwise.nil)
      · obtain ⟨f, hf, rfl⟩ := List.mem_map.1 (mem_collapse hg)
        exact ih f.value (List.mem_map_of_mem hf)
    | _ => rw [canonical.eq_def]; simp only; rw [canonical.eq_def]

theorem canonical_part {j p : Json} (hj : j.canonical = j) (h : p ∈ j.parts) :
    p.canonical = p := by
  rw [← hj] at h
  cases j with
  | array items =>
    rw [canonical_array] at h
    obtain ⟨i, -, rfl⟩ := List.mem_map.1 (show p ∈ items.map canonical from h)
    exact i.canonical_canonical
  | object fields =>
    rw [canonical_object] at h
    obtain ⟨g, hg, rfl⟩ := List.mem_map.1 (show p ∈ _ from h)
    obtain ⟨f, -, rfl⟩ := List.mem_map.1 (mem_collapse hg)
    exact f.value.canonical_canonical
  | _ => rw [canonical.eq_def] at h; cases h

/-- The ends of a span, as a value. -/
theorem canonical_ends (start stop : Nat) :
    (object [⟨"end", natural stop⟩, ⟨"start", natural start⟩]).canonical =
      object [⟨"end", natural stop⟩, ⟨"start", natural start⟩] := by
  refine canonical_of_ascending (show ["end", "start"].Pairwise (· < ·) by decide) ?_
  simp

/-! ## Ways into a value -/

/-- The parts of a value that can hold further nodes: all of them, without the kind and the span of
an object that stands for a node. -/
def contents : Json → List Json
  | .object fields =>
    let held := fields.filter fun f => f.key != "kind" && f.key != "span"
    if fields.any (·.key == "kind") then held.map (·.value) else fields.map (·.value)
  | j => j.parts

theorem contents_subset {j p : Json} (h : p ∈ j.contents) : p ∈ j.parts := by
  cases j with
  | object fields =>
    simp only [contents] at h
    split at h
    · obtain ⟨f, hf, rfl⟩ := List.mem_map.1 h
      exact List.mem_map_of_mem (List.mem_filter.1 hf).1
    · exact h
  | _ => exact h

theorem contents_of_not_isNodeLike {j : Json} (h : j.isNodeLike = false) :
    j.contents = j.parts := by
  cases j with
  | object fields =>
    simp only [isNodeLike] at h
    simp only [contents, h]
    rfl
  | _ => rfl

/-- A way from a value to another one inside it. It lists the values passed, from the first one up
to the last before the end. -/
inductive Leads : Json → List Json → Json → Prop
  | here {w : Json} : Leads w [] w
  | through {v p w : Json} {way : List Json} : p ∈ v.contents → Leads p way w →
      Leads v (v :: way) w

namespace Leads

variable {u v w p : Json} {way rest : List Json}

theorem extend (h : Leads u way v) (hp : p ∈ v.contents) (hrest : Leads p rest w) :
    Leads u (way ++ v :: rest) w := by
  induction h with
  | here => exact .through hp hrest
  | through hq _ ih => exact .through hq (ih hp)

theorem canonical_eq (h : Leads u way v) (hu : u.canonical = u) : v.canonical = v := by
  induction h with
  | here => exact hu
  | through hp _ ih => exact ih (canonical_part hu (contents_subset hp))

end Leads

/-- The value hides nothing that it holds: if it stands for a node at all, it is read as an
unsupported one. -/
def IsOpen (v : Json) : Prop :=
  v.isNodeLike = true →
    ∃ kind span children, Node.ofJson? v = some (.unsupported kind span children)

end Json

/-! ## One unsupported node -/

namespace Node

/-- The second node is a child of the first, or lies below it with only unsupported nodes between
the two. -/
inductive Shelters : Node → Node → Prop
  | child {kind : String} {span : Span} {children : List Node} {n : Node} : n ∈ children →
      Shelters (.unsupported kind span children) n
  | deeper {kind : String} {span : Span} {children : List Node} {m n : Node} : m ∈ children →
      Shelters m n → Shelters (.unsupported kind span children) n

theorem mem_sortByStart {n : Node} {ns : List Node} : n ∈ sortByStart ns ↔ n ∈ ns := by
  rw [sortByStart_eq]
  exact (List.perm_insertionSort StartsBy ns).mem_iff

theorem hasKind_of_node? {f : Json → Option Node} {j : Json} {k : Kind} {n : Node}
    (h : k.node? f j = some n) : n.HasKind := by
  let Yields (x : Option Node) : Prop := ∀ n, x = some n → n.HasKind
  suffices hk : Yields (k.node? f j) from hk n h
  have next {α : Type} {x : Option α} {rest : α → Option Node} (h : ∀ a, Yields (rest a)) :
      Yields (x >>= rest) := by
    intro n hn
    obtain ⟨a, -, ha⟩ := Option.bind_eq_some_iff.1 hn
    exact h a n ha
  have last {n : Node} (hn : n.HasKind) : Yields (pure n) := fun m hm => Option.some.inj hm ▸ hn
  cases k with
  | reference | command | invocation | scriptBlock => exact next fun _ => last trivial
  | literal | typeLiteral | arrayLiteral | paren | subExpression | pipeline =>
    exact next fun _ => next fun _ => next fun _ => last trivial
  | expandable | cast | function | conditional =>
    exact next fun _ => next fun _ => next fun _ => next fun _ => last trivial
  | assignment | binary | member | forEach =>
    exact next fun _ => next fun _ => next fun _ => next fun _ => next fun _ => last trivial

theorem unsupported?_of_ofJson? {j : Json} {kind : String} {span : Span} {children : List Node}
    (h : ofJson? j = some (.unsupported kind span children)) :
    unsupported? ofJson? j = some (.unsupported kind span children) := by
  rw [ofJson?_eq] at h
  cases hm : modelled? ofJson? j with
  | none => rwa [hm] at h
  | some m =>
    rw [hm] at h
    obtain rfl := Option.some.inj h
    obtain ⟨tagged, -, hm⟩ := Option.bind_eq_some_iff.1 hm
    obtain ⟨k, -, hm⟩ := Option.bind_eq_some_iff.1 hm
    exact (hasKind_of_node? hm).elim

/-- What an unsupported node takes for its children. -/
theorem children_of_unsupported? {f : Json → Option Node} {j : Json} {kind : String} {span : Span}
    {children : List Node} (h : unsupported? f j = some (.unsupported kind span children)) :
    children = sortByStart (j.canonical.contents.flatMap (nested f)) := by
  cases j with
  | object fields =>
    obtain ⟨outline, houtline, h⟩ := Option.bind_eq_some_iff.1 h
    obtain ⟨-, -, rfl⟩ := Node.unsupported.inj (Option.some.inj h)
    have hkind : (Json.collapse fields).any (·.key == "kind") = true := by
      obtain ⟨title, htitle, -⟩ := Option.bind_eq_some_iff.1 houtline
      obtain ⟨v, hv, -⟩ := Option.bind_eq_some_iff.1 htitle
      obtain ⟨g, hg, -⟩ := Option.map_eq_some_iff.1 hv
      have hkey : (g.key == "kind") = true := by simpa using List.find?_some hg
      exact List.any_eq_true.2 ⟨g, List.mem_of_find?_eq_some hg, hkey⟩
    have hmapped : ((Json.collapse fields).map fun f => (⟨f.key, f.value.canonical⟩ : Field)).any
        (·.key == "kind") = true := by
      rw [List.any_map]
      exact hkind
    rw [Json.canonical_object, Json.collapse_map, Json.contents]
    simp only [hmapped, if_true, List.filter_map, List.map_map, List.flatMap_map]
    rfl
  | _ => cases h

/-! ## What the search finds -/

/-- The node is found in the value, or below a node found there. -/
def FoundIn (n : Node) (v : Json) : Prop :=
  ∃ m ∈ nested ofJson? v, n = m ∨ m.Shelters n

theorem nested_of_isNodeLike {v : Json} (h : v.isNodeLike = true) :
    nested ofJson? v = (ofJson? v).toList := by
  rw [nested_eq, if_pos h]

theorem nested_of_not_isNodeLike {v : Json} (h : v.isNodeLike = false) :
    nested ofJson? v = v.contents.flatMap (nested ofJson?) := by
  rw [nested_eq, if_neg (by simp [h]), Json.contents_of_not_isNodeLike h]

theorem FoundIn.shelters {n : Node} {j p : Json} {kind : String} {span : Span}
    {children : List Node} (h : n.FoundIn p) (hp : p ∈ j.canonical.contents)
    (hj : ofJson? j = some (.unsupported kind span children)) :
    (unsupported kind span children).Shelters n := by
  obtain ⟨m, hm, hn⟩ := h
  have hchild : m ∈ children := by
    rw [children_of_unsupported? (unsupported?_of_ofJson? hj), mem_sortByStart]
    exact List.mem_flatMap.2 ⟨p, hp, hm⟩
  rcases hn with rfl | hn
  · exact .child hchild
  · exact .deeper hchild hn

/-- What lies at the end of a way is found if everything on the way is open. -/
theorem foundIn_of_leads {v w : Json} {way : List Json} {n : Node} (h : Json.Leads v way w)
    (hv : v.canonical = v) (hway : ∀ u ∈ way, u.IsOpen) (hw : w.isNodeLike = true)
    (hn : ofJson? w = some n) : n.FoundIn v := by
  induction h with
  | here =>
    refine ⟨n, ?_, .inl rfl⟩
    rw [nested_of_isNodeLike hw, hn]
    exact List.mem_singleton_self n
  | @through v p w way hp _ ih =>
    have hfound : n.FoundIn p :=
      ih (Json.canonical_part hv (Json.contents_subset hp))
        (fun u hu => hway u (List.mem_cons_of_mem _ hu)) hw hn
    cases hlike : v.isNodeLike with
    | false =>
      obtain ⟨m, hm, hmn⟩ := hfound
      refine ⟨m, ?_, hmn⟩
      rw [nested_of_not_isNodeLike hlike]
      exact List.mem_flatMap.2 ⟨p, hp, hm⟩
    | true =>
      obtain ⟨kind, span, children, hread⟩ := hway v List.mem_cons_self hlike
      refine ⟨_, ?_, .inr (hfound.shelters (by rwa [hv]) hread)⟩
      rw [nested_of_isNodeLike hlike, hread]
      exact List.mem_singleton_self _

/-- What is found lies at the end of a way through plain values. -/
theorem leads_of_mem_nested {v : Json} {n : Node} (h : n ∈ nested ofJson? v) :
    ∃ way w, Json.Leads v way w ∧ (∀ u ∈ way, u.isNodeLike = false) ∧ w.isNodeLike = true ∧
      ofJson? w = some n := by
  induction v using Json.induction_parts with
  | step v ih =>
    cases hlike : v.isNodeLike with
    | true =>
      rw [nested_of_isNodeLike hlike] at h
      exact ⟨[], v, .here, by simp, hlike, Option.mem_toList.1 h⟩
    | false =>
      rw [nested_of_not_isNodeLike hlike] at h
      obtain ⟨p, hp, h⟩ := List.mem_flatMap.1 h
      obtain ⟨way, w, hleads, hway, hw, hn⟩ := ih p (Json.contents_subset hp) h
      exact ⟨v :: way, w, .through hp hleads, List.forall_mem_cons.2 ⟨hlike, hway⟩, hw, hn⟩

/-- What an unsupported node shelters lies at the end of a way that is open. -/
theorem Shelters.leads {m n : Node} (h : m.Shelters n) {j : Json} (hj : ofJson? j = some m) :
    ∃ p ∈ j.canonical.contents, ∃ way w, Json.Leads p way w ∧ (∀ u ∈ way, u.IsOpen) ∧
      w.isNodeLike = true ∧ ofJson? w = some n := by
  -- Every child is found in one of the parts of the value.
  have child {kind : String} {span : Span} {children : List Node} {j : Json} {c : Node}
      (hj : ofJson? j = some (.unsupported kind span children)) (hc : c ∈ children) :
      ∃ p ∈ j.canonical.contents, ∃ way w, Json.Leads p way w ∧ (∀ u ∈ way, u.IsOpen) ∧
        w.isNodeLike = true ∧ ofJson? w = some c := by
    rw [children_of_unsupported? (unsupported?_of_ofJson? hj), mem_sortByStart] at hc
    obtain ⟨p, hp, hc⟩ := List.mem_flatMap.1 hc
    obtain ⟨way, w, hleads, hway, hw, hread⟩ := leads_of_mem_nested hc
    refine ⟨p, hp, way, w, hleads, fun u hu hlike => ?_, hw, hread⟩
    rw [hway u hu] at hlike
    cases hlike
  induction h generalizing j with
  | child hc => exact child hj hc
  | deeper hc hn ih =>
    obtain ⟨p, hp, way, w, hleads, hway, -, hread⟩ := child hj hc
    obtain ⟨q, hq, rest, x, hrest, hopen, hx, hxn⟩ := ih hread
    have hw : w.canonical = w :=
      hleads.canonical_eq (Json.canonical_part j.canonical_canonical (Json.contents_subset hp))
    rw [hw] at hq
    refine ⟨p, hp, way ++ w :: rest, x, hleads.extend hq hrest, fun u hu => ?_, hx, hxn⟩
    rcases List.mem_append.1 hu with hu | hu
    · exact hway u hu
    · rcases List.mem_cons.1 hu with rfl | hu
      · intro _
        cases hn with
        | child => exact ⟨_, _, _, hread⟩
        | deeper => exact ⟨_, _, _, hread⟩
      · exact hopen u hu

end Node

/-- **An unsupported node keeps the nodes inside it.** Below an unsupported node, as a child or
behind unsupported nodes only, are the nodes that can be read from the objects inside its value:
inside a field other than its kind and its span, behind plain values and behind objects that are
read as unsupported nodes themselves. An object that stands for a node and cannot be read as one is
the only thing that hides what it holds. -/
theorem nested_nodes_kept {j : Json} {kind : String} {span : Span} {children : List Node}
    (hj : Node.ofJson? j = some (.unsupported kind span children)) (n : Node) :
    (Node.unsupported kind span children).Shelters n ↔
      ∃ p ∈ j.canonical.contents, ∃ way w, Json.Leads p way w ∧
        (∀ v ∈ way, v.isNodeLike = true →
          ∃ kind' span' children', Node.ofJson? v = some (.unsupported kind' span' children')) ∧
        w.isNodeLike = true ∧ Node.ofJson? w = some n := by
  constructor
  · intro h
    exact h.leads hj
  · rintro ⟨p, hp, way, w, hleads, hway, hw, hn⟩
    have hcanonical : p.canonical = p :=
      Json.canonical_part j.canonical_canonical (Json.contents_subset hp)
    exact (Node.foundIn_of_leads hleads hcanonical hway hw hn).shelters hp hj

/-! ## A clause that can be read and one that cannot -/

section
open Json (object array text natural null)

/-- A use of a variable. -/
def usedInput : Json :=
  object [⟨"kind", text "Variable"⟩, ⟨"name", text "p"⟩,
    ⟨"span", object [⟨"end", natural 32⟩, ⟨"start", natural 30⟩]⟩]

/-- A clause with a body of one node. -/
def clauseAround (span body : Json) : Json :=
  object [⟨"body", array [body]⟩, ⟨"kind", text "CatchClause"⟩, ⟨"span", span⟩]

/-- A statement with one clause. -/
def statementAround (clause : Json) : Json :=
  object [⟨"clauses", array [clause]⟩, ⟨"kind", text "TryStatement"⟩,
    ⟨"span", object [⟨"end", natural 40⟩, ⟨"start", natural 0⟩]⟩]

def readableClause : Json :=
  clauseAround (object [⟨"end", natural 39⟩, ⟨"start", natural 20⟩]) usedInput

/-- A clause that gives no span. -/
def unreadableClause : Json := clauseAround null usedInput

theorem canonical_usedInput : usedInput.canonical = usedInput := by
  have hspan := Json.canonical_ends 30 32
  refine Json.canonical_of_ascending (show ["kind", "name", "span"].Pairwise (· < ·) by decide) ?_
  simp [hspan]

theorem canonical_clauseAround {span : Json} (hspan : span.canonical = span) :
    (clauseAround span usedInput).canonical = clauseAround span usedInput := by
  refine Json.canonical_of_ascending (show ["body", "kind", "span"].Pairwise (· < ·) by decide) ?_
  simp [Json.canonical_array, canonical_usedInput, hspan]

theorem canonical_statementAround {clause : Json} (hclause : clause.canonical = clause) :
    (statementAround clause).canonical = statementAround clause := by
  have hspan := Json.canonical_ends 0 40
  refine Json.canonical_of_ascending (show ["clauses", "kind", "span"].Pairwise (· < ·) by decide)
    ?_
  simp [Json.canonical_array, hclause, hspan]

theorem leads_usedInput {span : Json} (hspan : span.canonical = span) :
    ∃ p ∈ (statementAround (clauseAround span usedInput)).canonical.contents,
      p.Leads [array [clauseAround span usedInput], clauseAround span usedInput, array [usedInput]]
        usedInput := by
  rw [canonical_statementAround (canonical_clauseAround hspan)]
  refine ⟨array [clauseAround span usedInput], by simp [statementAround, Json.contents], ?_⟩
  refine .through (p := clauseAround span usedInput) (by simp [Json.contents, Json.parts]) ?_
  refine .through (p := array [usedInput]) (by simp [clauseAround, Json.contents]) ?_
  exact .through (p := usedInput) (by simp [Json.contents, Json.parts]) .here

end

/-- The number of children, if the node is unsupported. -/
def Node.brood? : Node → Option Nat
  | .unsupported _ _ children => some children.length
  | _ => none

theorem Node.unsupported_of_brood? {j : Json} {k : Nat} (h : (ofJson? j).bind brood? = some k) :
    ∃ kind span children, ofJson? j = some (.unsupported kind span children) ∧
      children.length = k := by
  obtain ⟨n, hn, hk⟩ := Option.bind_eq_some_iff.1 h
  cases n with
  | unsupported kind span children => exact ⟨kind, span, children, hn, Option.some.inj hk⟩
  | _ => cases hk

/-- The variable that the node uses. -/
def Node.variable? : Node → Option Variable
  | .reference v => some v
  | _ => none

theorem ofJson?_usedInput : Node.ofJson? usedInput = some (.reference ⟨"p", ⟨30, 32⟩⟩) := by
  have h : (Node.ofJson? usedInput).bind Node.variable? = some ⟨"p", ⟨30, 32⟩⟩ := by
    decide +kernel
  obtain ⟨n, hn, hv⟩ := Option.bind_eq_some_iff.1 h
  cases n with
  | reference v => rw [hn, Option.some.inj hv]
  | _ => cases hv

theorem nested_nodes_kept_readableClause :
    ∃ kind span children,
      Node.ofJson? (statementAround readableClause) = some (.unsupported kind span children) ∧
        (Node.unsupported kind span children).Shelters (.reference ⟨"p", ⟨30, 32⟩⟩) := by
  obtain ⟨kind, span, children, hread, -⟩ :=
    Node.unsupported_of_brood? (j := statementAround readableClause) (k := 1) (by decide +kernel)
  obtain ⟨kind', span', children', hclause, -⟩ :=
    Node.unsupported_of_brood? (j := readableClause) (k := 1) (by decide +kernel)
  obtain ⟨p, hp, hleads⟩ := leads_usedInput (Json.canonical_ends 20 39)
  refine ⟨kind, span, children, hread, (nested_nodes_kept hread _).2
    ⟨p, hp, _, usedInput, hleads, ?_, by decide +kernel, ofJson?_usedInput⟩⟩
  intro v hv hlike
  simp only [List.mem_cons, List.not_mem_nil, or_false] at hv
  rcases hv with rfl | rfl | rfl
  · cases hlike
  · exact ⟨kind', span', children', hclause⟩
  · cases hlike

/-- A clause that cannot be read hides the node in it, although nothing around that node is a node
of its own. -/
theorem unreadableClause_hides_usedInput :
    (∃ kind span, Node.ofJson? (statementAround unreadableClause) =
        some (.unsupported kind span []) ∧
      ¬(Node.unsupported kind span []).Shelters (.reference ⟨"p", ⟨30, 32⟩⟩)) ∧
    (∃ p ∈ (statementAround unreadableClause).canonical.contents,
      p.Leads [.array [unreadableClause], unreadableClause, .array [usedInput]] usedInput) ∧
    (∀ v ∈ [.array [unreadableClause], unreadableClause, .array [usedInput]],
      Node.ofJson? v = none) ∧
    usedInput.isNodeLike = true ∧
    Node.ofJson? usedInput = some (.reference ⟨"p", ⟨30, 32⟩⟩) := by
  obtain ⟨kind, span, children, hread, hlength⟩ :=
    Node.unsupported_of_brood? (j := statementAround unreadableClause) (k := 0) (by decide +kernel)
  obtain rfl := List.length_eq_zero_iff.1 hlength
  refine ⟨⟨kind, span, hread, ?_⟩, leads_usedInput (Json.Recast.canonical.scalar rfl), ?_,
    by decide +kernel, ofJson?_usedInput⟩
  · intro h
    cases h with
    | child hc => cases hc
    | deeper hc => cases hc
  · have hunread : ∀ v ∈ [.array [unreadableClause], unreadableClause, .array [usedInput]],
        (Node.ofJson? v).isNone = true := by decide +kernel
    exact fun v hv => Option.isNone_iff_eq_none.1 (hunread v hv)

end ScriptTaint
