import ScriptTaint.Proofs.Positions
import ScriptTaint.Proofs.ScopeLaws
import ScriptTaint.Scope.Suppression

/-!
# Walks and scopes

A walk shows a visitor the visits of the file in order, until it stops (`SyntaxTree.walk_eq_foldl`).
Walking and building scopes are two recursions over a file. They enter the same blocks in the same
order, and the scopes that the builder creates follow the walk: a block that is entered during the
walk of another one, and of none inside that, gets its scope under the scope of the other
(`scopes_follow_walk`).
-/

set_option autoImplicit false

namespace ScriptTaint

/-! ## What a visitor is shown -/

section
variable {σ : Type} (visit : σ → Visit → Flow σ)

/-- Shows the visitor one more visit, unless the walk has stopped. -/
def Flow.meet (flow : Flow σ) (v : Visit) : Flow σ := flow.andThen (visit · v)

theorem Flow.foldl_meet_stop (vs : List Visit) (s : σ) :
    vs.foldl (Flow.meet visit) (.stop s) = .stop s := by
  induction vs with
  | nil => rfl
  | cons v vs ih => exact ih

theorem Flow.andThen_foldl_meet (flow : Flow σ) (vs : List Visit) :
    (flow.andThen fun s => vs.foldl (Flow.meet visit) (.go s)) = vs.foldl (Flow.meet visit) flow := by
  cases flow with
  | go s => rfl
  | stop s => exact (foldl_meet_stop visit vs s).symm

theorem Block.walk_eq (b : Block) (s : σ) : b.walk visit s =
    b.nodes.foldl (fun flow n => flow.andThen (n.walk visit b.frame)) (visit s (.block b.frame)) := by
  rw [walk]; simp [List.foldl_subtype]

theorem Node.walk_block {n : Node} {b : Block} (h : n.block? = some b) (frame : Frame) (s : σ) :
    n.walk visit frame s = (visit s (.node frame n)).andThen (b.walk visit) := by
  rw [walk]
  congr 1
  funext s
  split <;> simp_all

theorem Node.walk_children {n : Node} (h : n.block? = none) (frame : Frame) (s : σ) :
    n.walk visit frame s = (visit s (.node frame n)).andThen fun s =>
      n.children.foldl (fun flow c => flow.andThen (c.walk visit frame)) (.go s) := by
  rw [walk]
  congr 1
  funext s
  split
  · simp_all
  · simp [List.foldl_subtype]

theorem foldl_walk {nodes : List Node} {frame : Frame}
    (h : ∀ n ∈ nodes, ∀ s, n.walk visit frame s = (n.visits frame).foldl (Flow.meet visit) (.go s))
    (flow : Flow σ) :
    nodes.foldl (fun flow n => flow.andThen (n.walk visit frame)) flow =
      (nodes.flatMap (·.visits frame)).foldl (Flow.meet visit) flow := by
  induction nodes generalizing flow with
  | nil => rfl
  | cons n nodes ih =>
    rw [List.foldl_cons, List.flatMap_cons, List.foldl_append,
      ih fun m hm => h m (List.mem_cons_of_mem _ hm), funext (h n List.mem_cons_self),
      Flow.andThen_foldl_meet]

theorem Node.walk_eq_foldl (n : Node) (frame : Frame) (s : σ) :
    n.walk visit frame s = (n.visits frame).foldl (Flow.meet visit) (.go s) := by
  induction n using Node.induction_parts generalizing frame s with
  | step n ih =>
    have inside (nodes : List Node) (hnodes : n.parts.map (·.2) = nodes) (frame : Frame) :
        ∀ m ∈ nodes, ∀ s, m.walk visit frame s =
          (m.visits frame).foldl (Flow.meet visit) (.go s) := by
      intro m hm s
      obtain ⟨p, hp, rfl⟩ := List.mem_map.1 (hnodes ▸ hm)
      exact ih p hp frame s
    cases hb : n.block? with
    | some b =>
      have hblock (s : σ) : b.walk visit s = b.visits.foldl (Flow.meet visit) (.go s) := by
        rw [Block.walk_eq, foldl_walk visit (inside _ (map_snd_parts_block hb) _), Block.visits_eq]
        rfl
      rw [walk_block visit hb, visits_block hb, List.foldl_cons, funext hblock,
        Flow.andThen_foldl_meet]
      rfl
    | none =>
      rw [walk_children visit hb, visits_children hb, List.foldl_cons]
      simp only [foldl_walk visit (inside _ (map_snd_parts hb) frame), Flow.andThen_foldl_meet]
      rfl

/-- A walk shows the visitor the visits of the file in order, until it stops. -/
theorem SyntaxTree.walk_eq_foldl (t : SyntaxTree) (s : σ) :
    t.walk visit s = t.visits.foldl (Flow.meet visit) (.go s) := by
  rw [walk, Block.walk_eq, foldl_walk visit fun n _ s => n.walk_eq_foldl visit _ s, visits,
    Block.visits_eq]
  rfl

end

/-- A visitor that never stops is shown all visits. -/
theorem SyntaxTree.walk_go {σ : Type} (f : σ → Visit → σ) (t : SyntaxTree) (s : σ) :
    t.walk (fun s v => .go (f s v)) s = .go (t.visits.foldl f s) := by
  rw [walk_eq_foldl]
  induction t.visits generalizing s with
  | nil => rfl
  | cons v vs ih => exact ih (f s v)

/-! ## The blocks that a walk enters -/

/-- The block that a visit enters, if it enters one. -/
def Visit.entered? : Visit → Option Block
  | .block frame => some frame.block
  | .node .. => none

/-- The blocks that are entered, in order. -/
def entered (vs : List Visit) : List Block := vs.filterMap Visit.entered?

theorem entered_append (vs ws : List Visit) : entered (vs ++ ws) = entered vs ++ entered ws :=
  List.filterMap_append

theorem Block.entered_visits {b : Block} {inner : List Visit}
    (h : b.visits = .block b.frame :: inner) : entered b.visits = b :: entered inner := by
  rw [h]
  rfl

/-- The walk of the `p`-th block that is entered, a stretch of the visits that starts there, enters
the `i`-th one. -/
def WalkEnters (vs : List Visit) (p i : Nat) : Prop :=
  ∃ (before : List Visit) (b : Block) (after : List Visit),
    vs = before ++ b.visits ++ after ∧ (entered before).length = p ∧
      p < i ∧ i < p + (entered b.visits).length

/-- Of the walks that enter the `i`-th block, that of the `p`-th is the innermost. -/
def EntersDirectly (vs : List Visit) (p i : Nat) : Prop :=
  WalkEnters vs p i ∧ ∀ q, WalkEnters vs q i → q ≤ p

/-- The `p`-th of some blocks enters the `i`-th, told by how many blocks each of them enters. -/
def Encloses (bs : List Block) (p i : Nat) : Prop :=
  ∃ b, bs[p]? = some b ∧ p < i ∧ i < p + (entered b.visits).length

/-- What the blocks enter is among them. -/
def Closed (bs : List Block) : Prop :=
  ∀ p b, bs[p]? = some b → p + (entered b.visits).length ≤ bs.length

section
variable {b : Block} {bs bs' : List Block} {p i : Nat}

theorem Closed.append (h : Closed bs) (h' : Closed bs') : Closed (bs ++ bs') := by
  intro p b hp
  rw [List.length_append]
  by_cases hlt : p < bs.length
  · rw [List.getElem?_append_left hlt] at hp
    have := h p b hp
    omega
  · rw [List.getElem?_append_right (by omega)] at hp
    have := h' _ b hp
    omega

theorem Closed.cons (h : Closed bs) (hb : entered b.visits = b :: bs) : Closed (b :: bs) := by
  intro p c hp
  rw [List.length_cons]
  cases p with
  | zero =>
    obtain rfl : b = c := Option.some.inj hp
    simp [hb]
  | succ p =>
    have := h p c hp
    omega

theorem encloses_append_left (hi : i < bs.length) : Encloses (bs ++ bs') p i ↔ Encloses bs p i := by
  unfold Encloses
  by_cases hp : p < bs.length
  · rw [List.getElem?_append_left hp]
  · constructor <;> rintro ⟨b, -, hlt, -⟩ <;> omega

theorem encloses_append_right (h : Closed bs) :
    Encloses (bs ++ bs') p (bs.length + i) ↔ ∃ q, p = bs.length + q ∧ Encloses bs' q i := by
  constructor
  · rintro ⟨b, hb, hlt, hextent⟩
    by_cases hp : p < bs.length
    · rw [List.getElem?_append_left hp] at hb
      have := h p b hb
      omega
    · rw [List.getElem?_append_right (by omega)] at hb
      exact ⟨p - bs.length, by omega, b, hb, by omega, by omega⟩
  · rintro ⟨q, rfl, b, hb, hlt, hextent⟩
    refine ⟨b, ?_, by omega, by omega⟩
    rw [List.getElem?_append_right (by omega)]
    simpa using hb

theorem encloses_cons (hb : entered b.visits = b :: bs) (hi : i < bs.length) :
    Encloses (b :: bs) p (i + 1) ↔ p = 0 ∨ ∃ q, p = q + 1 ∧ Encloses bs q i := by
  cases p with
  | zero =>
    refine ⟨fun _ => .inl rfl, fun _ => ⟨b, rfl, by omega, ?_⟩⟩
    simp only [hb, List.length_cons]
    omega
  | succ p =>
    constructor
    · rintro ⟨c, hc, hlt, hextent⟩
      exact .inr ⟨p, rfl, c, hc, by omega, by omega⟩
    · rintro (h | ⟨q, hq, c, hc, hlt, hextent⟩)
      · omega
      · obtain rfl : p = q := by omega
        exact ⟨c, hc, by omega, by omega⟩

end

/-! ## Creating scopes along a walk -/

/-- What a scope is created from. -/
structure Creation where
  kind : ScopeKind
  parent : Option Nat
  block : Block
  name : Option String

namespace ScopeTree

def make (t : ScopeTree) (c : Creation) : ScopeTree := t.create c.kind c.parent c.block c.name

/-- Creates scopes one after the other. -/
def makeAll (t : ScopeTree) (cs : List Creation) : ScopeTree := cs.foldl make t

theorem makeAll_append (t : ScopeTree) (cs cs' : List Creation) :
    t.makeAll (cs ++ cs') = (t.makeAll cs).makeAll cs' :=
  List.foldl_append

theorem size_makeAll (t : ScopeTree) (cs : List Creation) :
    (t.makeAll cs).size = t.size + cs.length := by
  induction cs generalizing t with
  | nil => rfl
  | cons c cs ih =>
    rw [makeAll, List.foldl_cons, ← makeAll, ih, make, size_create, List.length_cons]
    omega

end ScopeTree

/-- The scope as it is created, with this id. -/
def Creation.scope (c : Creation) (id : Nat) : Scope :=
  ⟨id, c.kind, c.name, c.parent, [], c.block.span, c.block.suppressions⟩

/-- The scope without its children, which are entered later. -/
def Scope.childless (s : Scope) : Scope := { s with children := [] }

namespace ScopeTree

theorem map_childless_make (t : ScopeTree) (c : Creation) :
    (t.make c).scopes.map Scope.childless = t.scopes.map Scope.childless ++ [c.scope t.size] := by
  have hadopt (s : Scope) : Scope.childless (if c.parent = some s.id then
      { s with children := s.children ++ [t.size] } else s) = s.childless := by
    split <;> rfl
  rw [make, create, List.map_append, List.map_map]
  congr 1
  exact List.map_congr_left fun s _ => hadopt s

/-- Every creation adds one scope, with the number of scopes before it as its id. -/
theorem map_childless_makeAll (t : ScopeTree) (cs : List Creation) :
    (t.makeAll cs).scopes.map Scope.childless =
      t.scopes.map Scope.childless ++ cs.mapIdx fun i c => c.scope (t.size + i) := by
  induction cs generalizing t with
  | nil => simp [makeAll]
  | cons c cs ih =>
    have hsize : (t.make c).size = t.size + 1 := size_create ..
    rw [makeAll, List.foldl_cons, ← makeAll, ih, map_childless_make, hsize, List.mapIdx_cons,
      List.append_assoc]
    simp [Nat.add_assoc, Nat.add_comm 1]

theorem map_childless_makeAll_empty (cs : List Creation) :
    (empty.makeAll cs).scopes.map Scope.childless = cs.mapIdx fun i c => c.scope i := by
  rw [map_childless_makeAll]
  simp [empty, size]

theorem map_suppressions_makeAll (cs : List Creation) :
    (empty.makeAll cs).scopes.map (·.suppressions) = cs.map (·.block.suppressions) := by
  refine List.ext_getElem? fun i => ?_
  have hmap := congrArg (·[i]?.map Scope.suppressions) (map_childless_makeAll_empty cs)
  simpa [Function.comp_def, Scope.childless, Creation.scope] using hmap

/-- Where nothing was before, a scope comes from the creation in its place. -/
theorem exists_creation {cs : List Creation} {i : Nat} {s : Scope}
    (h : (empty.makeAll cs).get? i = some s) : ∃ c, cs[i]? = some c ∧ s.childless = c.scope i := by
  have hmap := congrArg (·[i]?) (map_childless_makeAll_empty cs)
  have hi : (empty.makeAll cs).scopes[i]? = some s := h
  simp only [List.getElem?_map, hi, List.getElem?_mapIdx] at hmap
  obtain ⟨c, hc, heq⟩ := Option.map_eq_some_iff.1 hmap.symm
  exact ⟨c, hc, heq.symm⟩

end ScopeTree

/-- The creations follow the visits. A block that is entered gets the id `next` and the parent
`scope`; what the rest of its walk enters comes under it. -/
inductive Follows : List Visit → Nat → Option Nat → List Creation → Prop
  | nil {next : Nat} {scope : Option Nat} : Follows [] next scope []
  | node {frame : Frame} {n : Node} {next : Nat} {scope : Option Nat} :
      Follows [.node frame n] next scope []
  | block {b : Block} {inner : List Visit} {next : Nat} {scope : Option Nat} {cs : List Creation}
      (kind : ScopeKind) (name : Option String) (h : b.visits = .block b.frame :: inner)
      (hinner : Follows inner (next + 1) (some next) cs) :
      Follows b.visits next scope (⟨kind, scope, b, name⟩ :: cs)
  | append {vs ws : List Visit} {next : Nat} {scope : Option Nat} {cs cs' : List Creation}
      (h : Follows vs next scope cs) (h' : Follows ws (next + cs.length) scope cs') :
      Follows (vs ++ ws) next scope (cs ++ cs')

theorem exists_makeAll_foldl {nodes : List Node} {scope : Nat} {frame : Frame}
    (h : ∀ n ∈ nodes, ∀ t : ScopeTree, ∃ cs, n.addScopes scope t = t.makeAll cs ∧
      Follows (n.visits frame) t.size (some scope) cs) (t : ScopeTree) :
    ∃ cs, nodes.foldl (fun t n => n.addScopes scope t) t = t.makeAll cs ∧
      Follows (nodes.flatMap (·.visits frame)) t.size (some scope) cs := by
  induction nodes generalizing t with
  | nil => exact ⟨[], rfl, .nil⟩
  | cons n nodes ih =>
    obtain ⟨cs, hcs, hfollows⟩ := h n List.mem_cons_self t
    obtain ⟨cs', hcs', hfollows'⟩ := ih (fun m hm => h m (List.mem_cons_of_mem _ hm)) (t.makeAll cs)
    refine ⟨cs ++ cs', ?_, ?_⟩
    · rw [List.foldl_cons, hcs, hcs', ScopeTree.makeAll_append]
    · rw [ScopeTree.size_makeAll] at hfollows'
      exact hfollows.append hfollows'

/-- A block's scope and those inside it follow the walk of the block. -/
theorem Block.exists_makeAll {b : Block}
    (h : ∀ n ∈ b.nodes, ∀ scope frame, ∀ t : ScopeTree, ∃ cs,
      n.addScopes scope t = t.makeAll cs ∧ Follows (n.visits frame) t.size (some scope) cs)
    (kind : ScopeKind) (parent : Option Nat) (name : Option String) (t : ScopeTree) :
    ∃ cs, b.addScopes t.size (t.create kind parent b name) = t.makeAll cs ∧
      Follows b.visits t.size parent cs := by
  obtain ⟨cs, hcs, hfollows⟩ := exists_makeAll_foldl
    (fun n hn => h n hn t.size b.frame) (t.create kind parent b name)
  refine ⟨⟨kind, parent, b, name⟩ :: cs, ?_, ?_⟩
  · rw [Block.addScopes_eq, hcs]
    rfl
  · rw [ScopeTree.size_create] at hfollows
    exact .block kind name b.visits_eq hfollows

theorem Node.exists_makeAll (n : Node) (scope : Nat) (frame : Frame) (t : ScopeTree) :
    ∃ cs, n.addScopes scope t = t.makeAll cs ∧ Follows (n.visits frame) t.size (some scope) cs := by
  induction n using Node.induction_parts generalizing scope frame t with
  | step n ih =>
    have inside (nodes : List Node) (hnodes : n.parts.map (·.2) = nodes) :
        ∀ m ∈ nodes, ∀ scope frame, ∀ t : ScopeTree, ∃ cs, m.addScopes scope t = t.makeAll cs ∧
          Follows (m.visits frame) t.size (some scope) cs := by
      intro m hm
      obtain ⟨p, hp, rfl⟩ := List.mem_map.1 (hnodes ▸ hm)
      exact ih p hp
    cases hb : n.block? with
    | some b =>
      obtain ⟨kind, name, hadd⟩ := n.addScopes_block hb scope t
      obtain ⟨cs, hcs, hfollows⟩ :=
        b.exists_makeAll (inside _ (map_snd_parts_block hb)) kind (some scope) name t
      refine ⟨cs, hadd.trans hcs, ?_⟩
      rw [visits_block hb]
      exact Follows.append .node hfollows
    | none =>
      obtain ⟨cs, hcs, hfollows⟩ := exists_makeAll_foldl
        (fun m hm => inside _ (map_snd_parts hb) m hm scope frame) t
      refine ⟨cs, (addScopes_children hb scope t).trans hcs, ?_⟩
      rw [visits_children hb]
      exact Follows.append .node hfollows

theorem SyntaxTree.exists_makeAll (t : SyntaxTree) :
    ∃ cs, t.scopes = ScopeTree.empty.makeAll cs ∧ Follows t.visits 0 none cs :=
  t.root.exists_makeAll (fun n _ => n.exists_makeAll) .script none none .empty

namespace Follows

variable {vs : List Visit} {next : Nat} {scope : Option Nat} {cs : List Creation}

theorem map_block (h : Follows vs next scope cs) : cs.map (·.block) = entered vs := by
  induction h with
  | nil | node => rfl
  | block _ _ h _ ih => rw [List.map_cons, ih, Block.entered_visits h]
  | append _ _ ih ih' => rw [List.map_append, ih, ih', entered_append]

theorem length_eq (h : Follows vs next scope cs) : cs.length = (entered vs).length := by
  rw [← h.map_block, List.length_map]

theorem closed (h : Follows vs next scope cs) : Closed (entered vs) := by
  induction h with
  | nil | node =>
    intro p b hp
    cases hp
  | block _ _ h _ ih =>
    have hb := Block.entered_visits h
    rw [hb]
    exact ih.cons hb
  | append _ _ ih ih' =>
    rw [entered_append]
    exact ih.append ih'

/-- The walk of a block that is entered is a stretch of the visits. -/
theorem exists_stretch (h : Follows vs next scope cs) {p : Nat} {b : Block}
    (hp : (entered vs)[p]? = some b) :
    ∃ before after, vs = before ++ b.visits ++ after ∧ (entered before).length = p := by
  induction h generalizing p with
  | nil | node => cases hp
  | @block c inner next scope cs kind name h _ ih =>
    rw [Block.entered_visits h] at hp
    cases p with
    | zero =>
      obtain rfl : c = b := Option.some.inj hp
      exact ⟨[], [], by simp, rfl⟩
    | succ p =>
      obtain ⟨before, after, hinner, hlen⟩ := ih hp
      refine ⟨.block c.frame :: before, after, by rw [h, hinner]; rfl, ?_⟩
      rw [← hlen]
      rfl
  | @append vs ws next scope cs cs' h _ ih ih' =>
    rw [entered_append] at hp
    by_cases hlt : p < (entered vs).length
    · rw [List.getElem?_append_left hlt] at hp
      obtain ⟨before, after, rfl, hlen⟩ := ih hp
      exact ⟨before, after ++ ws, by simp, hlen⟩
    · rw [List.getElem?_append_right (by omega)] at hp
      obtain ⟨before, after, rfl, hlen⟩ := ih' hp
      refine ⟨vs ++ before, after, by simp, ?_⟩
      rw [entered_append, List.length_append]
      omega

theorem walkEnters_iff (h : Follows vs next scope cs) {p i : Nat} :
    WalkEnters vs p i ↔ Encloses (entered vs) p i := by
  constructor
  · rintro ⟨before, b, after, rfl, rfl, hlt, hextent⟩
    refine ⟨b, ?_, hlt, hextent⟩
    rw [entered_append, entered_append, Block.entered_visits b.visits_eq]
    simp
  · rintro ⟨b, hb, hlt, hextent⟩
    obtain ⟨before, after, hvs, hlen⟩ := h.exists_stretch hb
    exact ⟨before, b, after, hvs, hlen, hlt, hextent⟩

/-- The parent of a creation is the innermost block around it, or else the scope of the walk. -/
theorem parent_cases (h : Follows vs next scope cs) {i : Nat} {c : Creation}
    (hc : cs[i]? = some c) :
    (∃ p, Encloses (entered vs) p i ∧ (∀ q, Encloses (entered vs) q i → q ≤ p) ∧
      c.parent = some (next + p)) ∨
    ((∀ p, ¬ Encloses (entered vs) p i) ∧ c.parent = scope) := by
  induction h generalizing i with
  | nil | node => cases hc
  | @block b inner next scope cs kind name h hinner ih =>
    have hb := Block.entered_visits h
    rw [hb]
    cases i with
    | zero =>
      obtain rfl : _ = c := Option.some.inj hc
      refine .inr ⟨?_, rfl⟩
      rintro p ⟨-, -, hlt, -⟩
      omega
    | succ i =>
      have hi : i < (entered inner).length := by
        rw [List.getElem?_cons_succ] at hc
        rw [← hinner.length_eq]
        exact (List.getElem?_eq_some_iff.1 hc).1
      simp only [encloses_cons hb hi]
      left
      rcases ih hc with ⟨p, hp, hmax, hparent⟩ | ⟨hnone, hparent⟩
      · refine ⟨p + 1, .inr ⟨p, rfl, hp⟩, ?_, by rw [hparent]; congr 1; omega⟩
        rintro q (rfl | ⟨q, rfl, hq⟩)
        · omega
        · have := hmax q hq
          omega
      · refine ⟨0, .inl rfl, ?_, hparent⟩
        rintro q (rfl | ⟨q, rfl, hq⟩)
        · omega
        · exact absurd hq (hnone q)
  | @append vs ws next scope cs cs' h h' ih ih' =>
    rw [entered_append]
    by_cases hlt : i < cs.length
    · rw [List.getElem?_append_left hlt] at hc
      rw [h.length_eq] at hlt
      simp only [encloses_append_left hlt]
      exact ih hc
    · obtain ⟨i, rfl⟩ : ∃ k, i = (entered vs).length + k :=
        ⟨i - (entered vs).length, by rw [← h.length_eq]; omega⟩
      rw [← h.length_eq, List.getElem?_append_right (by omega), Nat.add_sub_cancel_left] at hc
      simp only [encloses_append_right h.closed]
      rcases ih' hc with ⟨p, hp, hmax, hparent⟩ | ⟨hnone, hparent⟩
      · refine .inl ⟨(entered vs).length + p, ⟨p, rfl, hp⟩, ?_, ?_⟩
        · rintro q ⟨q, rfl, hq⟩
          have := hmax q hq
          omega
        · rw [hparent, h.length_eq, Nat.add_assoc]
      · refine .inr ⟨?_, hparent⟩
        rintro p ⟨q, rfl, hq⟩
        exact hnone q hq

/-- In a file the parent of a creation is the block whose walk directly enters the new one. -/
theorem parent_iff (h : Follows vs 0 none cs) {i p : Nat} {c : Creation} (hc : cs[i]? = some c) :
    c.parent = some p ↔ EntersDirectly vs p i := by
  simp only [EntersDirectly, h.walkEnters_iff]
  rcases h.parent_cases hc with ⟨q, hq, hmax, hparent⟩ | ⟨hnone, hparent⟩
  · rw [hparent, Nat.zero_add, Option.some.injEq]
    constructor
    · rintro rfl
      exact ⟨hq, hmax⟩
    · rintro ⟨hp, hpmax⟩
      exact Nat.le_antisymm (hpmax q hq) (hmax p hp)
  · rw [hparent]
    constructor
    · intro hp
      cases hp
    · intro hp
      exact absurd hp.1 (hnone p)

end Follows

/-- **Scopes follow the walk.** A visitor that never stops is shown the visits in order. The scopes
of a file are created for the blocks that these enter, one for each and in their order, so they have
the spans of these blocks. The parent of a scope is the scope of the block whose walk directly
enters its own. Its suppressions are the annotations of its block in their order: each has the rule
and the justification that the annotation declares, and covers the block. Those of the file are
these, scope by scope. -/
theorem scopes_follow_walk (t : SyntaxTree) :
    (∀ (σ : Type) (f : σ → Visit → σ) (s : σ),
      t.walk (fun s v => .go (f s v)) s = .go (t.visits.foldl f s)) ∧
    (∃ cs : List Creation, t.scopes = ScopeTree.empty.makeAll cs ∧
      cs.map (·.block) = entered t.visits) ∧
    t.scopes.size = (entered t.visits).length ∧
    (∀ i b s, (entered t.visits)[i]? = some b → t.scopes.get? i = some s →
      s.id = i ∧ s.span = b.span ∧
      (s.suppressions = b.annotations.map fun a =>
        { detector := a.rule, justification := a.justification, body := b.span }) ∧
      ∀ p, s.parent = some p ↔ EntersDirectly t.visits p i) ∧
    t.scopes.suppressions = (entered t.visits).flatMap fun b => b.annotations.map fun a =>
      { detector := a.rule, justification := a.justification, body := b.span } := by
  obtain ⟨cs, hscopes, hfollows⟩ := t.exists_makeAll
  have hblocks := hfollows.map_block
  refine ⟨fun σ f s => t.walk_go f s, ⟨cs, hscopes, hblocks⟩, ?_, ?_, ?_⟩
  · rw [hscopes, ScopeTree.size_makeAll, ← hfollows.length_eq]
    exact Nat.zero_add _
  · intro i b s hb hs
    rw [hscopes] at hs
    obtain ⟨c, hc, hmade⟩ := ScopeTree.exists_creation hs
    rw [← hblocks, List.getElem?_map, hc] at hb
    obtain rfl : c.block = b := Option.some.inj hb
    refine ⟨congrArg Scope.id hmade, congrArg Scope.span hmade, congrArg Scope.suppressions hmade,
      fun p => ?_⟩
    rw [← hfollows.parent_iff hc, ← show s.parent = c.parent from congrArg Scope.parent hmade]
  · rw [hscopes, ← hblocks, List.flatMap_map, ScopeTree.suppressions, List.flatMap,
      ScopeTree.map_suppressions_makeAll]
    rfl

end ScriptTaint
