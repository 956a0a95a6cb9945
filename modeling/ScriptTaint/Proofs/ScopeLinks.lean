import Mathlib.Data.List.Induction
import ScriptTaint.Proofs.Walks

/-!
# The links of a scope tree

A scope records its parent, and the parent records it as a child. `ScopeTree.makeAll` creates scopes
in any sequence, each under an earlier one or under none (`EarlierParents`). Every creation keeps
the tree linked (`ScopeTree.linked_makeAll`), and both ways through the tree rest on that. The way
outwards, which is without bound in `ScopeTree.Climbs`, ends at a scope without a parent, and the
way inwards ends where no child contains the span. `scope_links_kept` is the main statement.
-/

set_option autoImplicit false

namespace ScriptTaint

/-- Each creation is under an earlier one, or under none. -/
def EarlierParents (cs : List Creation) : Prop :=
  ∀ i (hi : i < cs.length), ∀ p ∈ cs[i].parent, p < i

instance (cs : List Creation) : Decidable (EarlierParents cs) :=
  inferInstanceAs (Decidable (∀ i (hi : i < cs.length), ∀ p ∈ cs[i].parent, p < i))

theorem EarlierParents.concat {cs : List Creation} {c : Creation} (h : EarlierParents (cs ++ [c])) :
    EarlierParents cs ∧ ∀ p, c.parent = some p → p < cs.length := by
  constructor
  · intro i hi p hp
    refine h i (by simp; omega) p ?_
    rwa [List.getElem_append_left hi]
  · intro p hp
    refine h cs.length (by simp) p ?_
    simpa using hp

namespace ScopeTree

/-- Every creation keeps the links. -/
theorem linked_makeAll {cs : List Creation} (h : EarlierParents cs) :
    (empty.makeAll cs).Linked := by
  induction cs using List.reverseRecOn with
  | nil => exact .empty
  | append_singleton cs c ih =>
    obtain ⟨hcs, hparent⟩ := h.concat
    rw [makeAll_append]
    refine (ih hcs).create c.kind c.block c.name fun p hp => ?_
    rw [size_makeAll]
    exact Nat.lt_of_lt_of_le (hparent p hp) (Nat.le_add_left ..)

/-- The way outwards from a scope: itself, its parent and so on, up to one without a parent. -/
inductive Climbs (t : ScopeTree) : Nat → List Scope → Prop
  | top {i : Nat} {s : Scope} : t.get? i = some s → s.parent = none → Climbs t i [s]
  | parent {i p : Nat} {s : Scope} {around : List Scope} : t.get? i = some s →
      s.parent = some p → Climbs t p around → Climbs t i (s :: around)

namespace Linked

variable {t : ScopeTree} {i : Nat} {s : Scope}

theorem climbs (h : t.Linked) (hs : t.get? i = some s) : t.Climbs i (t.ancestors i) := by
  induction i, s, hs using h.induction_inwards with
  | root i s hs hp =>
    rw [h.ancestors_root hs hp]
    exact .top hs hp
  | child i s p d hs _ hp ih =>
    rw [h.ancestors_child hs hp]
    exact .parent hs hp ih

/-- Ids fall on the way outwards. -/
theorem ancestors_decreasing (h : t.Linked) (hs : t.get? i = some s) :
    ((t.ancestors i).map (·.id)).Pairwise (· > ·) ∧ ∀ c ∈ t.ancestors i, c.id ≤ i := by
  induction i, s, hs using h.induction_inwards with
  | root i s hs hp =>
    rw [h.ancestors_root hs hp]
    refine ⟨List.pairwise_singleton .., fun c hc => ?_⟩
    exact Nat.le_of_eq (List.mem_singleton.1 hc ▸ h.id_eq hs)
  | child i s p d hs _ hp ih =>
    obtain ⟨hpairs, hle⟩ := ih
    have hlt := h.parent_lt hs hp
    rw [h.ancestors_child hs hp]
    refine ⟨List.pairwise_cons.2 ⟨fun k hk => ?_, hpairs⟩, fun c hc => ?_⟩
    · obtain ⟨c, hc, rfl⟩ := List.mem_map.1 hk
      have hid := h.id_eq hs
      have := hle c hc
      simp only
      omega
    · rcases List.mem_cons.1 hc with rfl | hc
      · exact Nat.le_of_eq (h.id_eq hs)
      · have := hle c hc
        omega

theorem map_id (h : t.Linked) : t.scopes.map (·.id) = List.range t.size := by
  refine List.ext_getElem (by simp [size]) fun i hi _ => ?_
  rw [List.length_map] at hi
  rw [List.getElem_map, List.getElem_range]
  exact h.id_eq (List.getElem?_eq_getElem hi)

/-- The first scope has no scope around it. -/
theorem ancestors_zero (h : t.Linked) (hs : t.get? 0 = some s) : t.ancestors 0 = [s] := by
  refine h.ancestors_root hs ?_
  cases hp : s.parent with
  | none => rfl
  | some p => exact absurd (h.parent_lt hs hp) (Nat.not_lt_zero p)

/-- The innermost scope around a span is inside the first scope, and so are all scopes between. -/
theorem exists_innermost (h : t.Linked) (hs : t.get? 0 = some s) (span : Span) :
    ∃ d path, t.innermost? span = some d ∧ t.ancestors d = path ++ [s] ∧
      (∀ c ∈ path, c.span.contains span = true) ∧
      (∀ k c, t.get? k = some c → c.parent = some d → c.span.contains span = false) ∧
      ∀ bound, t.size ≤ bound → t.inwards span bound 0 = d := by
  obtain ⟨path, hpath, hall⟩ := h.inwards_path span t.size 0
  have hsize : t.size ≤ 0 + t.size := by omega
  obtain ⟨-, -, hend⟩ := h.inwards_end (b := span) hsize hs
  rw [h.ancestors_zero hs] at hpath
  refine ⟨t.inwards span t.size 0, path, ?_, hpath, hall, hend, fun bound hb => ?_⟩
  · rw [innermost?, h.root?_eq (mem_of_get? hs)]
    rfl
  · exact h.inwards_stable (by omega) (by omega) hs

end Linked

/-- How a tree represents the creations that it was made by. -/
structure Arranges (t : ScopeTree) (cs : List Creation) : Prop where
  ids : t.scopes.map (·.id) = List.range cs.length
  /-- The scope in a place is as it was created there, but for its children. -/
  made : ∀ i s, t.get? i = some s → ∃ c, cs[i]? = some c ∧ s.childless = c.scope i
  parent_lt : ∀ i s p, t.get? i = some s → s.parent = some p → p < i
  mem_children : ∀ p s, t.get? p = some s →
    ∀ c, c ∈ s.children ↔ ∃ d, t.get? c = some d ∧ d.parent = some p
  /-- Children are in the order of their creation, each of them once. -/
  sorted_children : ∀ p s, t.get? p = some s → s.children.Pairwise (· < ·)
  root : t.root? = cs.head?.map fun _ => 0
  climbs : ∀ i < cs.length, t.Climbs i (t.ancestors i)
  decreasing : ∀ i < cs.length, ((t.ancestors i).map (·.id)).Pairwise (· > ·)
  /-- The innermost scope lies inside the root, and all scopes between contain the span. No child of
  it does, so a higher bound would lead no further. -/
  innermost : ∀ span, cs ≠ [] → ∃ d root path, t.innermost? span = some d ∧
    t.get? 0 = some root ∧ t.ancestors d = path ++ [root] ∧
    (∀ c ∈ path, c.span.contains span = true) ∧
    (∀ k c, t.get? k = some c → c.parent = some d → c.span.contains span = false) ∧
    ∀ bound, t.size ≤ bound → t.inwards span bound 0 = d

end ScopeTree

/-- **Creations keep the links.** Create scopes in any sequence, each under an earlier one or under
none. The ids are the places, parents come before their children, and the children of a scope are
the scopes that have it as their parent, in the order of their creation. The way outwards from every
scope ends at one without a parent, and the way inwards at the innermost scope around the span. -/
theorem scope_links_kept (cs : List Creation) (h : EarlierParents cs) :
    (ScopeTree.empty.makeAll cs).Arranges cs := by
  have hlinked := ScopeTree.linked_makeAll h
  have hsize : (ScopeTree.empty.makeAll cs).size = cs.length :=
    (ScopeTree.size_makeAll ..).trans (Nat.zero_add _)
  have hget {i : Nat} (hi : i < cs.length) : ∃ s, (ScopeTree.empty.makeAll cs).get? i = some s :=
    ⟨_, List.getElem?_eq_getElem (Nat.lt_of_lt_of_eq hi hsize.symm)⟩
  constructor
  case ids => rw [hlinked.map_id, hsize]
  case made => exact fun i s hs => ScopeTree.exists_creation hs
  case parent_lt => exact fun i s p hs hp => hlinked.parent_lt hs hp
  case mem_children => exact fun p s hs c => hlinked.mem_children hs
  case sorted_children => exact fun p s hs => hlinked.sorted_children hs
  case root =>
    cases cs with
    | nil => rfl
    | cons c cs =>
      obtain ⟨s, hs⟩ := hget (Nat.zero_lt_succ cs.length)
      exact hlinked.root?_eq (ScopeTree.mem_of_get? hs)
  case climbs =>
    intro i hi
    obtain ⟨s, hs⟩ := hget hi
    exact hlinked.climbs hs
  case decreasing =>
    intro i hi
    obtain ⟨s, hs⟩ := hget hi
    exact (hlinked.ancestors_decreasing hs).1
  case innermost =>
    intro span hne
    obtain ⟨root, hroot⟩ := hget (List.length_pos_iff.2 hne)
    obtain ⟨d, path, hd, hpath, hall, hend, hbound⟩ := hlinked.exists_innermost hroot span
    exact ⟨d, root, path, hd, hroot, hpath, hall, hend, hbound⟩

/-- A block of nothing but a span. -/
def emptyBlock (span : Span) : Block := ⟨span, [], [], []⟩

/-- A file with a function and a block in it, and another file, created in turns. -/
def twoFiles : List Creation :=
  [⟨.script, none, emptyBlock ⟨0, 60⟩, none⟩,
   ⟨.script, none, emptyBlock ⟨0, 30⟩, none⟩,
   ⟨.function, some 0, emptyBlock ⟨10, 50⟩, some "F"⟩,
   ⟨.function, some 1, emptyBlock ⟨10, 20⟩, some "G"⟩,
   ⟨.scriptBlock, some 2, emptyBlock ⟨20, 40⟩, none⟩]

/-- The block in the function of the first file is the innermost scope around a span in it. -/
theorem scope_links_kept_twoFiles :
    EarlierParents twoFiles ∧ (ScopeTree.empty.makeAll twoFiles).Arranges twoFiles ∧
      (ScopeTree.empty.makeAll twoFiles).innermost? ⟨25, 30⟩ = some 4 ∧
      ((ScopeTree.empty.makeAll twoFiles).ancestors 4).map (·.id) = [4, 2, 0] :=
  ⟨by decide, scope_links_kept twoFiles (by decide), by decide, by decide⟩

end ScriptTaint
