import Mathlib.Data.List.Perm.Subperm
import ScriptTaint.Proofs.Resolution
import ScriptTaint.Script.Layout

/-!
# What a construction takes

A construction takes offsets from the next free one on, so what it builds lies between the next free
offset before it and the one after it. `Part` is anything in a tree that has a span. A part is sound
(`Part.Sound`) if its span is nonempty, if it contains the spans of what the part is made of, and if
these do not overlap, at every depth.

`Lays k given m view` is a triple for a construction: handed parts that are laid out one after the
other, it takes `k` leaves, and the parts it leaves are laid out in the same way. Parts that a
construction is not handed stay before all it builds (`Lays.frame`). There is one law for each
construction; those that differ in what they span only share `Laid.enclose`.
-/

set_option autoImplicit false

namespace ScriptTaint

/-! ## Least spans around others -/

/-- The least span around some others. -/
structure Span.Hull (s : Span) (ts : List Span) : Prop where
  contains : ∀ t ∈ ts, s.contains t = true
  start : ∃ t ∈ ts, t.start = s.start
  stop : ∃ t ∈ ts, t.stop = s.stop

namespace Span

theorem contains_refl (s : Span) : s.contains s = true :=
  contains_iff.2 ⟨UInt32.le_refl _, UInt32.le_refl _⟩

theorem cover_contains_left (s t : Span) : (s.cover t).contains s = true := by
  rw [contains_iff, UInt32.le_iff_toNat_le, UInt32.le_iff_toNat_le]
  simp only [cover, UInt32.lt_iff_toNat_lt]
  constructor <;> split <;> omega

theorem cover_contains_right (s t : Span) : (s.cover t).contains t = true := by
  rw [contains_iff, UInt32.le_iff_toNat_le, UInt32.le_iff_toNat_le]
  simp only [cover, UInt32.lt_iff_toNat_lt]
  constructor <;> split <;> omega

theorem nonempty_of_contains {s t : Span} (h : s.contains t = true) (ht : t.start < t.stop) :
    s.start < s.stop :=
  UInt32.lt_of_le_of_lt (contains_iff.1 h).1 (UInt32.lt_of_lt_of_le ht (contains_iff.1 h).2)

namespace Hull

variable {s : Span} {ts us : List Span}

theorem single (s : Span) : s.Hull [s] where
  contains t ht := by rw [List.mem_singleton.1 ht]; exact s.contains_refl
  start := ⟨s, List.mem_singleton_self s, rfl⟩
  stop := ⟨s, List.mem_singleton_self s, rfl⟩

theorem congr (h : s.Hull ts) (hmem : ∀ t, t ∈ us ↔ t ∈ ts) : s.Hull us where
  contains t ht := h.contains t ((hmem t).1 ht)
  start := by
    obtain ⟨t, ht, heq⟩ := h.start
    exact ⟨t, (hmem t).2 ht, heq⟩
  stop := by
    obtain ⟨t, ht, heq⟩ := h.stop
    exact ⟨t, (hmem t).2 ht, heq⟩

theorem cover (h : s.Hull ts) (t : Span) : (s.cover t).Hull (ts ++ [t]) where
  contains u hu := by
    rcases List.mem_append.1 hu with hu | hu
    · exact contains_trans (cover_contains_left s t) (h.contains u hu)
    · rw [List.mem_singleton.1 hu]
      exact cover_contains_right s t
  start := by
    obtain ⟨u, hu, heq⟩ := h.start
    by_cases hlt : t.start < s.start
    · exact ⟨t, by simp, by simp [Span.cover, hlt]⟩
    · exact ⟨u, by simp [hu], by simp [Span.cover, hlt, heq]⟩
  stop := by
    obtain ⟨u, hu, heq⟩ := h.stop
    by_cases hlt : s.stop < t.stop
    · exact ⟨t, by simp, by simp [Span.cover, hlt]⟩
    · exact ⟨u, by simp [hu], by simp [Span.cover, hlt, heq]⟩

/-- Covering one thing after the other. -/
theorem foldl {α : Type} (h : s.Hull ts) (span : α → Span) (l : List α) :
    (l.foldl (fun s x => s.cover (span x)) s).Hull (ts ++ l.map span) := by
  induction l generalizing s ts with
  | nil => rwa [List.map_nil, List.append_nil]
  | cons x l ih =>
    have hrest := ih (h.cover (span x))
    rwa [List.append_assoc, List.singleton_append] at hrest

end Hull

end Span

/-! ## Parts -/

/-- Anything in a tree that has a span. -/
inductive Part
  | node (n : Node)
  | element (e : Element)
  | block (b : Block)
  | param (p : Param)
  | nameUse (v : Variable)
  | suppression (a : Annotation)
  /-- A leaf that is taken and belongs to no other part yet. -/
  | token (s : Span)

namespace Part

def span : Part → Span
  | .node n => n.span
  | .element e => Layout.elementSpan e
  | .block b => b.span
  | .param p => p.span
  | .nameUse v => v.span
  | .suppression a => a.span
  | .token s => s

/-- The parts that a part is directly made of. -/
def constituents : Part → List Part
  | .node (.command c) => .node c.name :: c.elements.map .element
  | .node (.forEach item iterable body _) => .nameUse item :: .node iterable :: body.map .node
  | .node (.scriptBlock b) | .node (.function _ _ b) => [.block b]
  | .node n => n.children.map .node
  | .element e => e.operand?.toList.map .node
  | .block b => b.params.map .param ++ b.annotations.map .suppression ++ b.statements.map .node
  | .param p => p.default?.toList.map .node
  | .nameUse _ | .suppression _ | .token _ => []

/-- A part of a part, at any depth. -/
inductive Within : Part → Part → Prop
  | self (p : Part) : Within p p
  | deeper {p q r : Part} (hq : q ∈ p.constituents) (hr : Within r q) : Within r p

/-- The spans of the part and of all its parts are as they should be: nonempty, around the spans of
the constituents, and these apart. -/
inductive Sound : Part → Prop
  | intro {p : Part} (nonempty : p.span.start < p.span.stop)
      (covers : ∀ q ∈ p.constituents, p.span.contains q.span = true)
      (apart : p.constituents.Pairwise fun q r => ¬q.span.Overlaps r.span)
      (inner : ∀ q ∈ p.constituents, Sound q) : Sound p

namespace Sound

variable {p q : Part}

theorem of_nonempty (hparts : p.constituents = []) (h : p.span.start < p.span.stop) : p.Sound := by
  refine .intro h ?_ ?_ ?_ <;> simp [hparts]

theorem nonempty (h : p.Sound) : p.span.start < p.span.stop := by
  cases h with
  | intro nonempty => exact nonempty

theorem covers (h : p.Sound) (hq : q ∈ p.constituents) : p.span.contains q.span = true := by
  cases h with
  | intro _ covers => exact covers q hq

theorem apart (h : p.Sound) :
    p.constituents.Pairwise fun q r => ¬q.span.Overlaps r.span := by
  cases h with
  | intro _ _ apart => exact apart

theorem inner (h : p.Sound) (hq : q ∈ p.constituents) : q.Sound := by
  cases h with
  | intro _ _ _ inner => exact inner q hq

theorem within (h : p.Sound) (hq : q.Within p) : q.Sound ∧ p.span.contains q.span = true := by
  induction hq with
  | self p => exact ⟨h, p.span.contains_refl⟩
  | deeper hmem _ ih =>
    obtain ⟨hsound, hcontains⟩ := ih (h.inner hmem)
    exact ⟨hsound, Span.contains_trans (h.covers hmem) hcontains⟩

end Sound

end Part

theorem Span.not_overlaps_within {a b s t : Span} (h : ¬a.Overlaps b) (hs : a.contains s = true)
    (ht : b.contains t = true) : ¬s.Overlaps t := by
  rw [contains_iff] at hs ht
  rintro ⟨i, hi, hj⟩
  exact h ⟨i, ⟨UInt32.le_trans hs.1 hi.1, UInt32.lt_of_lt_of_le hi.2 hs.2⟩,
    UInt32.le_trans ht.1 hj.1, UInt32.lt_of_lt_of_le hj.2 ht.2⟩

/-- Nothing in one constituent overlaps anything in another. -/
theorem Part.Sound.apart_within {p : Part} (h : p.Sound) :
    p.constituents.Pairwise fun q r =>
      ∀ q' r' : Part, q'.Within q → r'.Within r → ¬q'.span.Overlaps r'.span := by
  refine h.apart.imp_of_mem fun hq hr hapart q' r' hq' hr' => ?_
  exact Span.not_overlaps_within hapart ((h.inner hq).within hq').2 ((h.inner hr).within hr').2

/-! ## Parts laid out one after the other -/

/-- Sound parts that take offsets from `a` on and end before `b`, each before the next one starts. -/
structure Laid (a b : Nat) (ps : List Part) : Prop where
  sound : ∀ p ∈ ps, p.Sound
  start : ∀ p ∈ ps, a ≤ p.span.start.toNat
  stop : ∀ p ∈ ps, p.span.stop.toNat < b
  ordered : ps.Pairwise fun p q => p.span.stop < q.span.start

theorem Span.not_overlaps_symm {s t : Span} (h : ¬s.Overlaps t) : ¬t.Overlaps s := by
  rintro ⟨i, ht, hs⟩
  exact h ⟨i, hs, ht⟩

theorem not_overlaps_of_stop_lt {s t : Span} (h : s.stop < t.start) : ¬s.Overlaps t := by
  rw [Span.overlaps_iff]
  rintro ⟨-, hlt, -⟩
  exact UInt32.lt_asymm h hlt

namespace Laid

variable {a b c : Nat} {ps qs : List Part}

theorem nil (a b : Nat) : Laid a b [] :=
  ⟨by simp, by simp, by simp, List.Pairwise.nil⟩

theorem append (hab : a ≤ b) (hbc : b ≤ c) (h : Laid a b ps) (h' : Laid b c qs) :
    Laid a c (ps ++ qs) where
  sound := List.forall_mem_append.2 ⟨h.sound, h'.sound⟩
  start := List.forall_mem_append.2
    ⟨h.start, fun q hq => Nat.le_trans hab (h'.start q hq)⟩
  stop := List.forall_mem_append.2
    ⟨fun p hp => Nat.lt_of_lt_of_le (h.stop p hp) hbc, h'.stop⟩
  ordered := by
    refine List.pairwise_append.2 ⟨h.ordered, h'.ordered, fun p hp q hq => ?_⟩
    rw [UInt32.lt_iff_toNat_lt]
    exact Nat.lt_of_lt_of_le (h.stop p hp) (h'.start q hq)

/-- The last parts give way to one with the least span around them. -/
theorem replace {q : Part} (h : Laid a b (ps ++ qs)) (hull : q.span.Hull (qs.map Part.span))
    (hsound : q.Sound) : Laid a b (ps ++ [q]) := by
  obtain ⟨hps, -, hbefore⟩ := List.pairwise_append.1 h.ordered
  obtain ⟨s, hs, hstart⟩ := hull.start
  obtain ⟨first, hfirst, rfl⟩ := List.mem_map.1 hs
  obtain ⟨s, hs, hstop⟩ := hull.stop
  obtain ⟨last, hlast, rfl⟩ := List.mem_map.1 hs
  refine ⟨?_, ?_, ?_, ?_⟩
  · rw [List.forall_mem_append, List.forall_mem_singleton]
    exact ⟨fun p hp => h.sound p (List.mem_append_left qs hp), hsound⟩
  · rw [List.forall_mem_append, List.forall_mem_singleton, ← hstart]
    exact ⟨fun p hp => h.start p (List.mem_append_left qs hp),
      h.start first (List.mem_append_right ps hfirst)⟩
  · rw [List.forall_mem_append, List.forall_mem_singleton, ← hstop]
    exact ⟨fun p hp => h.stop p (List.mem_append_left qs hp),
      h.stop last (List.mem_append_right ps hlast)⟩
  · refine List.pairwise_append.2 ⟨hps, List.pairwise_singleton _ _, fun p hp r hr => ?_⟩
    rw [List.mem_singleton.1 hr, ← hstart]
    exact hbefore p hp first hfirst

/-- The last parts become one that is made of some of them. -/
theorem enclose {q : Part} (h : Laid a b (ps ++ qs)) (hull : q.span.Hull (qs.map Part.span))
    (hparts : q.constituents.Subperm qs) : Laid a b (ps ++ [q]) := by
  have hsound (p : Part) (hp : p ∈ qs) : p.Sound := h.sound p (List.mem_append_right ps hp)
  have hcontains (p : Part) (hp : p ∈ qs) : q.span.contains p.span = true :=
    hull.contains _ (List.mem_map_of_mem hp)
  refine h.replace hull (.intro ?_ ?_ ?_ ?_)
  · obtain ⟨s, hs, -⟩ := hull.start
    obtain ⟨first, hfirst, rfl⟩ := List.mem_map.1 hs
    exact Span.nonempty_of_contains (hcontains first hfirst) (hsound first hfirst).nonempty
  · exact fun p hp => hcontains p (hparts.subset hp)
  · -- What is left of the parts in order is the constituents in some order.
    obtain ⟨l, hperm, hsub⟩ := hparts
    have hqs := (List.pairwise_append.1 h.ordered).2.1
    exact hperm.pairwise ((hqs.imp not_overlaps_of_stop_lt).sublist hsub) Span.not_overlaps_symm
  · exact fun p hp => hsound p (hparts.subset hp)

/-- The only parts become one that is made of them. -/
theorem join {q : Part} (h : Laid a b ps) (hparts : q.constituents.Perm ps)
    (hull : q.span.Hull (q.constituents.map Part.span)) : Laid a b [q] := by
  have hmem (t : Span) : t ∈ ps.map Part.span ↔ t ∈ q.constituents.map Part.span :=
    (hparts.map Part.span).mem_iff.symm
  exact enclose (show Laid a b ([] ++ ps) from h) (hull.congr hmem) hparts.subperm

/-- A part without constituents takes the place of another. -/
theorem recast {p q : Part} (h : Laid a b [p]) (hspan : q.span = p.span)
    (hparts : q.constituents = []) : Laid a b [q] := by
  refine enclose (show Laid a b ([] ++ [p]) from h) ?_ (hparts ▸ List.nil_subperm)
  rw [hspan]
  exact Span.Hull.single p.span

end Laid

/-! ## Constructions -/

/-- Handed the parts `given` as the last ones laid out, the construction takes `k` leaves, and the
parts that it leaves in their place are laid out. -/
def Lays {α : Type} (k : Nat) (given : List Part) (m : Layout α) (view : α → List Part) : Prop :=
  ∀ (a : Nat) (next : UInt32), a ≤ next.toNat → next.toNat + 2 * k < UInt32.size →
    Laid a next.toNat given →
      (m next).2.toNat = next.toNat + 2 * k ∧ Laid a (m next).2.toNat (view (m next).1)

namespace Lays

variable {α β : Type} {k l : Nat} {given : List Part} {m : Layout α} {view : α → List Part}

theorem pure {x : α} (h : ∀ a b, Laid a b given → Laid a b (view x)) :
    Lays 0 given (Pure.pure x : Layout α) view :=
  fun a next _ _ hgiven => ⟨rfl, h a next.toNat hgiven⟩

/-- What the second construction is handed is what the first one leaves. -/
theorem bind {f : α → Layout β} {view' : β → List Part} (hm : Lays k given m view)
    (hf : ∀ next, Lays l (view (m next).1) (f (m next).1) view') :
    Lays (k + l) given (m >>= f) view' := by
  intro a next ha hsize hgiven
  obtain ⟨hnext, hlaid⟩ := hm a next ha (by omega) hgiven
  obtain ⟨hnext', hlaid'⟩ := hf next a (m next).2 (by omega) (by omega) hlaid
  exact ⟨by show (f (m next).1 (m next).2).2.toNat = _; omega, hlaid'⟩

/-- A construction whose last step takes nothing. -/
theorem result {f : α → β} {view' : β → List Part} (hm : Lays k given m view)
    (hf : ∀ next a b, Laid a b (view (m next).1) → Laid a b (view' (f (m next).1))) :
    Lays k given (do return f (← m)) view' := by
  show Lays (k + 0) given _ view'
  exact hm.bind fun next => .pure (hf next)

/-- Parts that are not handed over stay in front. -/
theorem frame (h : Lays k [] m view) (ps : List Part) :
    Lays k ps m fun x => ps ++ view x := by
  intro a next ha hsize hps
  obtain ⟨hnext, hlaid⟩ := h next.toNat next (Nat.le_refl _) hsize (Laid.nil _ _)
  exact ⟨hnext, Laid.append ha (by omega) hps hlaid⟩

end Lays

namespace Layout

open ScriptTaint.Span (Hull)

theorem lays_leaf : Lays 1 [] leaf fun s => [.token s] := by
  intro a next ha hbound _
  have hsize : UInt32.size = 4294967296 := rfl
  have hstop : (next + 1).toNat = next.toNat + 1 := by
    rw [UInt32.toNat_add, UInt32.toNat_one]
    omega
  have hnext : (next + 2).toNat = next.toNat + 2 := by
    rw [UInt32.toNat_add]
    show (next.toNat + 2) % 2 ^ 32 = _
    omega
  have hsound : (Part.token ⟨next, next + 1⟩).Sound := by
    refine .of_nonempty rfl ?_
    show next < next + 1
    rw [UInt32.lt_iff_toNat_lt, hstop]
    omega
  refine ⟨hnext, List.forall_mem_singleton.2 hsound, List.forall_mem_singleton.2 ha,
    List.forall_mem_singleton.2 ?_, List.pairwise_singleton _ _⟩
  show (next + 1).toNat < (next + 2).toNat
  omega

/-! ## Leaves -/

/-- A part that takes a leaf and nothing else. -/
theorem lays_ofLeaf {α : Type} {make : Span → α} {part : α → Part}
    (hspan : ∀ s, (part (make s)).span = s) (hparts : ∀ s, (part (make s)).constituents = []) :
    Lays 1 [] (do return make (← leaf)) fun x => [part x] :=
  lays_leaf.result fun _ _ _ h => h.recast (hspan _) (hparts _)

theorem lays_literal (value : String) : Lays 1 [] (literal value) fun n => [.node n] :=
  lays_ofLeaf (fun _ => rfl) fun _ => rfl

theorem lays_nameUse (name : String) : Lays 1 [] (nameUse name) fun v => [.nameUse v] :=
  lays_ofLeaf (fun _ => rfl) fun _ => rfl

theorem lays_reference (name : String) : Lays 1 [] (reference name) fun n => [.node n] :=
  (lays_nameUse name).result fun _ _ _ h => h.recast rfl rfl

theorem lays_typeLiteral (name : String) : Lays 1 [] (typeLiteral name) fun n => [.node n] :=
  lays_ofLeaf (fun _ => rfl) fun _ => rfl

theorem lays_param (name : String) : Lays 1 [] (param name) fun p => [.param p] :=
  lays_ofLeaf (fun _ => rfl) fun _ => rfl

theorem lays_params (names : List String) (ps : List Part) :
    Lays names.length ps (names.mapM param) fun qs => ps ++ qs.map .param := by
  induction names generalizing ps with
  | nil => exact .pure fun a b h => by simpa using h
  | cons name names ih =>
    rw [List.mapM_cons, List.length_cons, Nat.add_comm]
    refine ((lays_param name).frame ps).bind fun next => ?_
    refine (ih _).result fun next' a b h => ?_
    simpa using h

/-! ## Expressions -/

section
variable {a b : Nat} {ps : List Part}

/-- A composite without parts takes a leaf of its own. -/
def ownLeaf {α : Type} (parts : List α) : Nat := if parts.isEmpty then 1 else 0

theorem map_span_node (ns : List Node) : (ns.map Part.node).map Part.span = ns.map Node.span := by
  rw [List.map_map]
  rfl

theorem hull_coverFrom (s : Span) (ns : List Node) : (coverFrom s ns).Hull (s :: ns.map Node.span) :=
  (Hull.single s).foldl Node.span ns

theorem lays_cover {α : Type} {ns : List Node} {make : Span → α} {part : α → Part}
    (hspan : ∀ s, (part (make s)).span = s)
    (hparts : ∀ s, (part (make s)).constituents = ns.map .node) :
    Lays (ownLeaf ns) (ns.map .node) (do return make (← cover ns)) fun x => [part x] := by
  cases ns with
  | nil => exact lays_ofLeaf hspan hparts
  | cons n ns =>
    refine Lays.pure fun a b h => h.join (by rw [hparts]) ?_
    rw [hspan, hparts, map_span_node]
    exact hull_coverFrom n.span ns

theorem lays_arrayLiteral (ns : List Node) :
    Lays (ownLeaf ns) (ns.map .node) (arrayLiteral ns) fun n => [.node n] :=
  lays_cover (fun _ => rfl) fun _ => rfl

theorem lays_subExpression (ns : List Node) :
    Lays (ownLeaf ns) (ns.map .node) (subExpression ns) fun n => [.node n] :=
  lays_cover (fun _ => rfl) fun _ => rfl

theorem lays_pipeline (ns : List Node) :
    Lays (ownLeaf ns) (ns.map .node) (pipeline ns) fun n => [.node n] :=
  lays_cover (fun _ => rfl) fun _ => rfl

theorem lays_unsupported (kind : String) (ns : List Node) :
    Lays (ownLeaf ns) (ns.map .node) (unsupported kind ns) fun n => [.node n] :=
  lays_cover (fun _ => rfl) fun _ => rfl

theorem lays_expandable (value : String) (holes : List Node) :
    Lays 1 (holes.map .node) (expandable value holes) fun n => [.node n] := by
  refine (lays_leaf.frame _).result fun next a b h => ?_
  refine Laid.enclose (show Laid a b ([] ++ _) from h) ?_ (List.sublist_append_left _ _).subperm
  refine (hull_coverFrom _ holes).congr fun t => ?_
  simp [Part.span, or_comm]

theorem laid_binary {left right : Node} (op : BinaryOp)
    (h : Laid a b [.node left, .node right]) : Laid a b [.node (binary op left right)] :=
  h.join (.refl _) ((Hull.single left.span).cover right.span)

theorem laid_assignment {target value : Node} (op : AssignOp)
    (h : Laid a b [.node target, .node value]) : Laid a b [.node (assignment op target value)] :=
  h.join (.refl _) ((Hull.single target.span).cover value.span)

theorem laid_memberOf {target name : Node} (isStatic : Bool)
    (h : Laid a b [.node target, .node name]) : Laid a b [.node (memberOf target name isStatic)] :=
  h.join (.refl _) ((Hull.single target.span).cover name.span)

theorem laid_paren {inner : Node} (h : Laid a b [.node inner]) : Laid a b [.node (paren inner)] :=
  h.join (.refl _) (Hull.single inner.span)

theorem laid_cast {operand : Node} (typeName : String) (h : Laid a b [.node operand]) :
    Laid a b [.node (cast typeName operand)] :=
  h.join (.refl _) (Hull.single operand.span)

/-- The pattern and the replacement come after the operand, as the elements of an array. -/
theorem lays_replace (operand : Node) (pattern replacement : String) :
    Lays 2 [.node operand] (replace operand pattern replacement) fun n => [.node n] := by
  show Lays (1 + 1) _ _ _
  refine ((lays_literal pattern).frame _).bind fun next => ?_
  refine ((lays_literal replacement).frame _).result fun next' a b h => ?_
  generalize (literal pattern next).1 = pattern, (literal replacement next').1 = replacement at h
  have harray : Laid a b ([.node operand] ++
      [.node (.arrayLiteral [pattern, replacement] (coverFrom pattern.span [replacement]))]) :=
    Laid.enclose (show Laid a b ([.node operand] ++ [.node pattern, .node replacement]) from h)
      (hull_coverFrom _ _) (.refl _)
  exact laid_binary .replace harray

theorem laid_invocation {target name : Node} {arguments : List Node} (isStatic : Bool)
    (h : Laid a b ps)
    (hparts : (Part.node target :: Part.node name :: arguments.map Part.node).Perm ps) :
    Laid a b [.node (invocation target name arguments isStatic)] := by
  refine h.join hparts ?_
  show (coverFrom _ _).Hull (_ :: _ :: (arguments.map Part.node).map Part.span)
  rw [map_span_node]
  exact ((Hull.single target.span).cover name.span).foldl Node.span arguments

theorem lays_invoke (target : Node) (method : String) (arguments : List Node) :
    Lays 1 (.node target :: arguments.map .node) (invoke target method arguments)
      fun n => [.node n] :=
  ((lays_literal method).frame _).result fun _ _ _ h =>
    laid_invocation false h ((List.perm_append_singleton _ _).symm.cons _)

theorem lays_invokeStatic (typeName method : String) (arguments : List Node) :
    Lays 2 (arguments.map .node) (invokeStatic typeName method arguments) fun n => [.node n] := by
  show Lays (1 + 1) _ _ _
  refine ((lays_typeLiteral typeName).frame _).bind fun next => ?_
  refine ((lays_literal method).frame _).result fun next' a b h => ?_
  rw [List.append_assoc] at h
  exact laid_invocation true h (show ([_, _] ++ _).Perm _ from List.perm_append_comm)

theorem lays_member (target : Node) (name : String) :
    Lays 1 [.node target] (member target name) fun n => [.node n] :=
  ((lays_literal name).frame _).result fun _ _ _ h => laid_memberOf false h

/-! ## Commands -/

theorem laid_argument {value : Node} (h : Laid a b [.node value]) :
    Laid a b [.element (.argument value)] :=
  h.join (.refl _) (Hull.single value.span)

theorem lays_parameter (name : String) (bound : Option Node) :
    Lays 1 (bound.toList.map .node) (parameter name bound) fun e => [.element e] := by
  refine (lays_leaf.frame _).result fun next a b h => ?_
  refine Laid.enclose (show Laid a b ([] ++ _) from h) ?_ (List.sublist_append_left _ _).subperm
  refine (hull_coverFrom _ bound.toList).congr fun t => ?_
  simp [Part.span, or_comm]

theorem laid_commandWith {name : Node} {elements : List Element} (h : Laid a b ps)
    (hparts : (Part.node name :: elements.map Part.element).Perm ps) :
    Laid a b [.node (commandWith name elements)] := by
  refine h.join hparts ?_
  show Hull (elements.foldl _ _) (_ :: (elements.map Part.element).map Part.span)
  rw [List.map_map]
  exact (Hull.single name.span).foldl elementSpan elements

theorem lays_command (name : String) (elements : List Element) :
    Lays 1 (elements.map .element) (command name elements) fun n => [.node n] :=
  ((lays_literal name).frame _).result fun _ _ _ h =>
    laid_commandWith h (List.perm_append_singleton _ _).symm

/-! ## Statements and blocks -/

theorem laid_conditional {condition : Node} {body : List Node}
    (h : Laid a b (.node condition :: body.map .node)) :
    Laid a b [.node (conditional condition body)] := by
  have hparts : (Part.node (conditional condition body)).constituents =
      .node condition :: body.map .node := by
    simp [conditional, Part.constituents, Node.children]
  refine h.join (by rw [hparts]) ?_
  rw [hparts, List.map_cons, map_span_node]
  exact hull_coverFrom condition.span body

theorem lays_forEach (item : String) (iterable : Node) (body : List Node) :
    Lays 1 (.node iterable :: body.map .node) (forEach item iterable body) fun n => [.node n] := by
  refine ((lays_nameUse item).frame _).result fun next a b h => ?_
  refine h.join (List.perm_append_singleton _ _).symm ?_
  show (coverFrom _ _).Hull (_ :: _ :: (body.map Part.node).map Part.span)
  rw [map_span_node]
  exact ((Hull.single _).cover iterable.span).foldl Node.span body

theorem constituents_block (s : Span) (qs : List Param) (ns : List Node) :
    (Part.block ⟨s, qs, [], ns⟩).constituents = qs.map .param ++ ns.map .node := by
  simp [Part.constituents]

/-- The names of the parameters come after the statements. -/
theorem lays_block (names : List String) (ns : List Node) :
    Lays (names.length + ownLeaf ns) (ns.map .node) (block names ns) fun c => [.block c] := by
  refine (lays_params names _).bind fun next => ?_
  generalize (names.mapM param next).1 = qs
  cases ns with
  | nil =>
    -- The leaf of an empty block comes after its parameters and is no part of it.
    refine (lays_leaf.frame _).result fun next a b h => ?_
    refine Laid.enclose (show Laid a b ([] ++ _) from h) ?_ ?_
    · refine ((Hull.single _).foldl Param.span qs).congr fun t => ?_
      simp [Part.span, or_comm]
    · rw [constituents_block]
      simpa using (List.sublist_append_left _ _).subperm
  | cons n ns =>
    refine Lays.pure fun a b h => h.join ?_ ?_
    · rw [constituents_block]
      exact List.perm_append_comm
    · refine ((hull_coverFrom n.span ns).foldl Param.span qs).congr fun t => ?_
      rw [constituents_block, List.map_append, map_span_node, List.map_map, List.mem_append,
        List.mem_append, or_comm]
      rfl

/-- A declared suppression becomes one more constituent of its block. -/
theorem sound_suppressed {c : Block} {s : Span} (hc : (Part.block c).Sound)
    (hs : s.start < s.stop) (hlt : c.span.stop < s.start) (rule : String)
    (justification : Option String) :
    (Part.block ⟨c.span.cover s, c.params, c.annotations ++ [⟨rule, justification, s⟩],
      c.statements⟩).Sound := by
  have hcontains := Span.cover_contains_right c.span s
  have hperm : (Part.block ⟨c.span.cover s, c.params,
      c.annotations ++ [⟨rule, justification, s⟩], c.statements⟩).constituents.Perm
        (.suppression ⟨rule, justification, s⟩ :: (Part.block c).constituents) := by
    simp only [Part.constituents, List.map_append, List.map_cons, List.map_nil,
      ← List.append_assoc]
    rw [List.append_assoc _ [_]]
    exact List.perm_middle
  refine .intro (Span.nonempty_of_contains hcontains hs) ?_ ?_ ?_
  · intro q hq
    rcases List.mem_cons.1 (hperm.mem_iff.1 hq) with rfl | hq
    · exact hcontains
    · exact Span.contains_trans (Span.cover_contains_left c.span s) (hc.covers hq)
  · refine hperm.symm.pairwise (List.pairwise_cons.2 ⟨fun q hq => ?_, hc.apart⟩)
      Span.not_overlaps_symm
    have hbefore : ¬c.span.Overlaps s := not_overlaps_of_stop_lt hlt
    exact Span.not_overlaps_symm
      (Span.not_overlaps_within hbefore (hc.covers hq) s.contains_refl)
  · intro q hq
    rcases List.mem_cons.1 (hperm.mem_iff.1 hq) with rfl | hq
    · exact .of_nonempty rfl hs
    · exact hc.inner hq

theorem lays_suppress (c : Block) (rule justification : String) :
    Lays 1 [.block c] (suppress c rule justification) fun d => [.block d] := by
  refine (lays_leaf.frame _).result fun next a b h => ?_
  -- The old block is no constituent of the new one, so `enclose` does not apply.
  obtain ⟨hblock, hleaf⟩ := List.forall_mem_cons.1 h.sound
  have hlt := (List.pairwise_cons.1 h.ordered).1 _ (List.mem_singleton_self _)
  refine Laid.replace (show Laid a b ([] ++ _) from h) ((Hull.single c.span).cover _) ?_
  exact sound_suppressed hblock (hleaf _ (List.mem_singleton_self _)).nonempty hlt _ _

theorem laid_scriptBlock {c : Block} (h : Laid a b [.block c]) :
    Laid a b [.node (.scriptBlock c)] :=
  h.join (.refl _) (Hull.single c.span)

theorem lays_scriptBlock (ns : List Node) :
    Lays (ownLeaf ns) (ns.map .node) (scriptBlock ns) fun n => [.node n] := by
  have hblock := lays_block [] ns
  rw [List.length_nil, Nat.zero_add] at hblock
  exact hblock.result fun _ _ _ h => laid_scriptBlock h

theorem lays_functionWith (name : String) (body : Block) :
    Lays 1 [.block body] (functionWith name body) fun n => [.node n] := by
  refine (lays_leaf.frame _).result fun next a b h => ?_
  refine Laid.enclose (show Laid a b ([] ++ _) from h) ?_ (List.sublist_append_left _ _).subperm
  exact (Hull.single body.span).cover _

theorem lays_function (name : String) (names : List String) (ns : List Node) :
    Lays (names.length + ownLeaf ns + 1) (ns.map .node) (function name names ns)
      fun n => [.node n] :=
  (lays_block names ns).bind fun _ => lays_functionWith name _

end

end Layout

end ScriptTaint
