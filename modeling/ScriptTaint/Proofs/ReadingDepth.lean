import ScriptTaint.Proofs.FieldOrder
import ScriptTaint.Proofs.WrittenForm

/-!
# How deep a reader looks

A reader of a part of a node is given a reader of the nodes inside it. It asks that reader only
about values that nest less deeply than its own (`AsksUpTo`), so it makes no difference what becomes
of deeper ones. `Node.ofJsonWithin?` counts levels to be well defined; as many as the value has are
enough (`Node.ofJsonWithin?_of_le`), and reading a node comes down to reading the nodes inside it in
the same way (`Node.ofJson?_eq`).
-/

set_option autoImplicit false

namespace ScriptTaint

open Json (required defaulted list? optional?)

/-! ## Questions of bounded depth -/

/-- The outcome depends only on what a reader of nodes says of values that nest at most `n` deep. -/
def AsksUpTo {α : Type} (n : Nat) (outcome : (Json → Option Node) → α) : Prop :=
  ∀ f g : Json → Option Node, (∀ p : Json, p.nesting ≤ n → f p = g p) → outcome f = outcome g

/-- A reader that asks no deeper questions about values that nest at most `n` deep. -/
def StaysWithin {α : Type} (n : Nat) (read : (Json → Option Node) → Json → Option α) : Prop :=
  ∀ j : Json, j.nesting ≤ n → AsksUpTo n fun f => read f j

namespace AsksUpTo

variable {α β : Type} {n : Nat}

theorem const (a : α) : AsksUpTo n fun _ => a := fun _ _ _ => rfl

/-- A part that needs no nodes is read alike; the rest may use what it is. -/
theorem known {x : Option α} {k : α → (Json → Option Node) → Option β}
    (h : ∀ a, x = some a → AsksUpTo n (k a)) : AsksUpTo n fun f => x >>= fun a => k a f := by
  intro f g hfg
  cases x with
  | none => rfl
  | some a => exact h a rfl f g hfg

theorem bind {x : (Json → Option Node) → Option α} {k : α → (Json → Option Node) → Option β}
    (hx : AsksUpTo n x) (hk : ∀ a, AsksUpTo n (k a)) :
    AsksUpTo n fun f => x f >>= fun a => k a f := by
  intro f g hfg
  simp only [hx f g hfg]
  cases x g with
  | none => rfl
  | some a => exact hk a f g hfg

end AsksUpTo

/-! ## Fields -/

/-- The fields hold nothing that nests more than `n` deep. -/
def Json.Shallow (n : Nat) (m : List Field) : Prop := ∀ f ∈ m, f.value.nesting ≤ n

section
variable {α : Type} {n : Nat} {read : (Json → Option Node) → Json → Option α}
  {m : List Field} {key : String}

theorem Json.nesting_lookup? (hm : Shallow n m) {j : Json} (h : lookup? m key = some j) :
    j.nesting ≤ n := by
  obtain ⟨f, hf, rfl⟩ := Option.map_eq_some_iff.1 h
  exact hm f (List.mem_of_find?_eq_some hf)

theorem Json.asks_required (h : StaysWithin n read) (hm : Shallow n m) :
    AsksUpTo n fun f => required m key (read f) := by
  intro f g hfg
  unfold required
  cases hj : lookup? m key with
  | none => rfl
  | some j => exact h j (nesting_lookup? hm hj) f g hfg

theorem Json.asks_defaulted (h : StaysWithin n read) (hm : Shallow n m) (a : α) :
    AsksUpTo n fun f => defaulted m key a (read f) := by
  intro f g hfg
  unfold defaulted
  cases hj : lookup? m key with
  | none => rfl
  | some j => exact h j (nesting_lookup? hm hj) f g hfg

theorem Json.staysWithin_list? (h : StaysWithin n read) :
    StaysWithin n fun f => list? (read f) := by
  intro j hj f g hfg
  cases j with
  | array items =>
    have hitems : ∀ i ∈ items, read f i = read g i := fun i hi =>
      h i (Nat.le_trans (Nat.le_of_lt (nesting_part (j := .array items) hi)) hj) f g hfg
    simp only [list?]
    clear hj
    induction items with
    | nil => rfl
    | cons i items ih =>
      simp only [List.mapM_cons, hitems i List.mem_cons_self]
      rw [ih fun k hk => hitems k (List.mem_cons_of_mem _ hk)]
  | _ => rfl

theorem Json.staysWithin_optional? (h : StaysWithin n read) :
    StaysWithin n fun f => optional? (read f) := by
  intro j hj f g hfg
  have hread := h j hj f g hfg
  cases j with
  | null => rfl
  | _ => simp only [optional?, hread]

end

theorem Json.nesting_le_succ {n : Nat} {j : Json} (h : ∀ p ∈ j.parts, p.nesting ≤ n) :
    j.nesting ≤ n + 1 := by
  have hmax : ∀ l : List Nat, (∀ a ∈ l, a ≤ n) → l.foldr max 0 ≤ n := by
    intro l hl
    induction l with
    | nil => exact Nat.zero_le n
    | cons a l ih =>
      exact Nat.max_le.2 ⟨hl a List.mem_cons_self, ih fun b hb => hl b (List.mem_cons_of_mem _ hb)⟩
  rw [j.nesting_eq]
  split
  · exact Nat.succ_le_succ (hmax _ (List.forall_mem_map.2 h))
  · exact Nat.zero_le _

theorem Json.nesting_le_of_part {n : Nat} {j p : Json} (hj : j.nesting ≤ n + 1) (h : p ∈ j.parts) :
    p.nesting ≤ n :=
  Nat.le_of_lt_succ (Nat.lt_of_lt_of_le (nesting_part h) hj)

/-- The fields of a record nest less deeply than the record. -/
theorem Json.shallow_members? {n : Nat} {j : Json} {names : List String} {m : List Field}
    (hj : j.nesting ≤ n + 1) (h : j.members? names = some m) : Shallow n m := by
  refine fun f hf => nesting_le_of_part hj ?_
  cases j with
  | object fields =>
    simp only [members?] at h
    split at h
    · obtain rfl := Option.some.inj h
      exact List.mem_map_of_mem (List.mem_filter.1 hf).1
    · cases h
  | array items =>
    simp only [members?] at h
    split at h
    · obtain rfl := Option.some.inj h
      obtain ⟨i, hi, rfl⟩ := List.mem_iff_getElem.1 hf
      rw [List.getElem_zipWith]
      exact List.getElem_mem _
    · cases h
  | _ => cases h

/-- What stands behind a tag nests no deeper than the whole. -/
theorem Json.nesting_tagged? {n : Nat} {j tag body : Json} (hj : j.nesting ≤ n + 1)
    (h : j.tagged? = some (tag, body)) : body.nesting ≤ n + 1 := by
  refine nesting_le_succ fun p hp => nesting_le_of_part hj ?_
  cases j with
  | object fields =>
    simp only [tagged?] at h
    split at h
    · obtain ⟨-, rfl⟩ := Prod.mk.inj (Option.some.inj h)
      obtain ⟨f, hf, rfl⟩ := List.mem_map.1 (show p ∈ _ from hp)
      exact List.mem_map_of_mem (List.mem_filter.1 hf).1
    · cases h
  | array items =>
    cases items with
    | nil => cases h
    | cons first rest =>
      obtain ⟨-, rfl⟩ := Prod.mk.inj (Option.some.inj h)
      exact List.mem_cons_of_mem first hp
  | _ => cases h

/-! ## Parts of nodes -/

section
variable {n : Nat} {j : Json}

theorem Node.staysWithin : StaysWithin n fun f => f := fun j hj _ _ hfg => hfg j hj

theorem StaysWithin.of_succ {α : Type} {read : (Json → Option Node) → Json → Option α}
    (h : ∀ j : Json, j.nesting ≤ n + 1 → AsksUpTo n fun f => read f j) : StaysWithin n read :=
  fun j hj => h j (Nat.le_succ_of_le hj)

open Json (asks_required asks_defaulted staysWithin_list? staysWithin_optional? shallow_members?)

theorem Param.asks_ofJson? (hj : j.nesting ≤ n + 1) : AsksUpTo n fun f => Param.ofJson? f j :=
  .known fun _ hm => .known fun _ _ => .known fun _ _ =>
    .bind (asks_defaulted (staysWithin_optional? Node.staysWithin) (shallow_members? hj hm) _)
      fun _ => .const _

theorem Block.asks_ofJson? (hj : j.nesting ≤ n + 1) : AsksUpTo n fun f => Block.ofJson? f j :=
  .known fun _ hm => .known fun _ _ =>
    .bind (asks_defaulted (staysWithin_list? (.of_succ fun _ => Param.asks_ofJson?))
        (shallow_members? hj hm) _) fun _ =>
      .known fun _ _ =>
        .bind (asks_defaulted (staysWithin_list? Node.staysWithin) (shallow_members? hj hm) _)
          fun _ => .const _

theorem Element.asks_ofJson? (tag? : Json → Option Nat) (hj : j.nesting ≤ n + 1) :
    AsksUpTo n fun f => Element.ofJson? f tag? j := by
  refine .known fun tagged htagged => .known fun i _ => ?_
  have hbody : tagged.2.nesting ≤ n + 1 := Json.nesting_tagged? hj htagged
  match i with
  | 0 =>
    exact .known fun _ hm => .bind (asks_required Node.staysWithin (shallow_members? hbody hm))
      fun _ => .const _
  | 1 =>
    exact .known fun _ hm => .known fun _ _ =>
      .bind (asks_defaulted (staysWithin_optional? Node.staysWithin) (shallow_members? hbody hm) _)
        fun _ => .known fun _ _ => .const _
  | _ + 2 => exact .const _

theorem Command.asks_read? (tag? : Json → Option Nat) (hj : j.nesting ≤ n + 1) :
    AsksUpTo n fun f => Command.read? f tag? j :=
  .known fun _ hm => .bind (asks_required Node.staysWithin (shallow_members? hj hm)) fun _ =>
    .bind (asks_defaulted (staysWithin_list? (.of_succ fun _ => Element.asks_ofJson? tag?))
        (shallow_members? hj hm) _) fun _ => .known fun _ _ => .const _

theorem Invocation.asks_ofJson? (hj : j.nesting ≤ n + 1) :
    AsksUpTo n fun f => Invocation.ofJson? f j :=
  .known fun _ hm => .bind (asks_required Node.staysWithin (shallow_members? hj hm)) fun _ =>
    .bind (asks_required Node.staysWithin (shallow_members? hj hm)) fun _ =>
      .bind (asks_defaulted (staysWithin_list? Node.staysWithin) (shallow_members? hj hm) _)
        fun _ => .known fun _ _ => .known fun _ _ => .const _

theorem Clause.asks_ofJson? (hj : j.nesting ≤ n + 1) : AsksUpTo n fun f => Clause.ofJson? f j :=
  .known fun _ hm => .bind (asks_required Node.staysWithin (shallow_members? hj hm)) fun _ =>
    .bind (asks_defaulted (staysWithin_list? Node.staysWithin) (shallow_members? hj hm) _)
      fun _ => .const _

theorem Kind.asks_node? (hj : j.nesting ≤ n + 1) (k : Kind) :
    AsksUpTo n fun f => k.node? f j := by
  have one {m : List Field} {key : String} (hm : Json.Shallow n m) :
      AsksUpTo n fun f => required m key f := asks_required Node.staysWithin hm
  have many {m : List Field} {key : String} (hm : Json.Shallow n m) (a : List Node) :
      AsksUpTo n fun f => defaulted m key a (list? f) :=
    asks_defaulted (staysWithin_list? Node.staysWithin) hm a
  cases k with
  | literal | reference | typeLiteral => exact .const _
  | expandable =>
    exact .known fun _ hm => .known fun _ _ => .bind (many (shallow_members? hj hm) _) fun _ =>
      .known fun _ _ => .const _
  | assignment =>
    exact .known fun _ hm => .bind (one (shallow_members? hj hm)) fun _ =>
      .bind (one (shallow_members? hj hm)) fun _ => .known fun _ _ => .known fun _ _ => .const _
  | binary =>
    exact .known fun _ hm => .known fun _ _ => .bind (one (shallow_members? hj hm)) fun _ =>
      .bind (one (shallow_members? hj hm)) fun _ => .known fun _ _ => .const _
  | arrayLiteral | subExpression =>
    exact .known fun _ hm => .bind (many (shallow_members? hj hm) _) fun _ =>
      .known fun _ _ => .const _
  | paren =>
    exact .known fun _ hm => .bind (one (shallow_members? hj hm)) fun _ =>
      .known fun _ _ => .const _
  | cast =>
    exact .known fun _ hm => .known fun _ _ => .bind (one (shallow_members? hj hm)) fun _ =>
      .known fun _ _ => .const _
  | command => exact .bind (Command.asks_read? _ hj) fun _ => .const _
  | pipeline =>
    exact .known fun _ hm =>
      .bind (asks_required (staysWithin_list? Node.staysWithin) (shallow_members? hj hm)) fun _ =>
        .known fun _ _ => .const _
  | invocation => exact .bind (Invocation.asks_ofJson? hj) fun _ => .const _
  | member =>
    exact .known fun _ hm => .bind (one (shallow_members? hj hm)) fun _ =>
      .bind (one (shallow_members? hj hm)) fun _ => .known fun _ _ => .known fun _ _ => .const _
  | scriptBlock => exact .bind (Block.asks_ofJson? hj) fun _ => .const _
  | function =>
    exact .known fun _ hm => .known fun _ _ => .known fun _ _ =>
      .bind (asks_required (.of_succ fun _ => Block.asks_ofJson?) (shallow_members? hj hm))
        fun _ => .const _
  | conditional =>
    exact .known fun _ hm =>
      .bind (asks_required (staysWithin_list? (.of_succ fun _ => Clause.asks_ofJson?))
          (shallow_members? hj hm)) fun _ =>
        .bind (asks_defaulted (staysWithin_optional? (staysWithin_list? Node.staysWithin))
          (shallow_members? hj hm) _) fun _ => .known fun _ _ => .const _
  | forEach =>
    exact .known fun _ hm => .known fun _ _ => .bind (one (shallow_members? hj hm)) fun _ =>
      .bind (many (shallow_members? hj hm) _) fun _ => .known fun _ _ => .const _

theorem Node.asks_modelled? (hj : j.nesting ≤ n + 1) : AsksUpTo n fun f => modelled? f j :=
  .known fun _ htagged => .known fun k _ => k.asks_node? (Json.nesting_tagged? hj htagged)

end

/-! ## Unsupported nodes -/

/-- Collapsing fields adds none. -/
theorem Json.mem_collapse {fields : List Field} {f : Field} (h : f ∈ collapse fields) :
    f ∈ fields := by
  have hfold : ∀ (fields done : List Field) (f : Field),
      f ∈ fields.foldl (fun done f => insertField f done) done → f ∈ fields ∨ f ∈ done := by
    intro fields
    induction fields with
    | nil => exact fun done f h => .inr h
    | cons g fields ih =>
      intro done f h
      rcases ih _ f h with h | h
      · exact .inl (List.mem_cons_of_mem _ h)
      · rcases mem_insertField h with rfl | h
        · exact .inl List.mem_cons_self
        · exact .inr h
  exact (hfold fields [] f h).resolve_right List.not_mem_nil

/-- Making a value canonical does not make it deeper. -/
theorem Json.nesting_canonical_le {n : Nat} {j : Json} (hj : j.nesting ≤ n) :
    j.canonical.nesting ≤ n := by
  induction n generalizing j with
  | zero =>
    cases j with
    | array | object => simp [nesting_eq, isContainer] at hj
    | _ => rwa [canonical.eq_def]
  | succ n ih =>
    refine nesting_le_succ fun p hp => ?_
    cases j with
    | array items =>
      rw [canonical_array] at hp
      obtain ⟨i, hi, rfl⟩ := List.mem_map.1 (show p ∈ items.map canonical from hp)
      exact ih (nesting_le_of_part hj hi)
    | object fields =>
      rw [canonical_object] at hp
      obtain ⟨g, hg, rfl⟩ := List.mem_map.1 (show p ∈ _ from hp)
      obtain ⟨f, hf, rfl⟩ := List.mem_map.1 (mem_collapse hg)
      exact ih (nesting_le_of_part hj (List.mem_map_of_mem hf))
    | _ => rw [canonical.eq_def] at hp; cases hp

section
variable {n : Nat} {j : Json}

theorem Node.asks_nested (hj : j.nesting ≤ n) : AsksUpTo n fun f => nested f j := by
  intro f g hfg
  induction n generalizing j with
  | zero =>
    have hparts : j.parts = [] := by
      refine List.eq_nil_iff_forall_not_mem.2 fun p hp => absurd (Json.nesting_part hp) (by omega)
    simp only [nested_eq _ j, hfg j hj, hparts, List.flatMap_nil]
  | succ n ih =>
    simp only [nested_eq _ j, hfg j hj]
    congr 1
    exact List.flatMap_congr fun p hp =>
      ih (Json.nesting_le_of_part hj hp) fun q hq => hfg q (Nat.le_succ_of_le hq)

theorem Node.asks_unsupported? (hj : j.nesting ≤ n + 1) : AsksUpTo n fun f => unsupported? f j := by
  cases j with
  | object fields =>
    refine .known fun outline _ => ?_
    intro f g hfg
    have hnested : ∀ field ∈
        (Json.collapse fields).filter fun f => f.key != "kind" && f.key != "span",
        nested f field.value.canonical = nested g field.value.canonical := by
      intro field hfield
      have hmem := Json.mem_collapse (List.mem_filter.1 hfield).1
      have hdepth := Json.nesting_le_of_part hj (List.mem_map_of_mem hmem)
      exact asks_nested (Json.nesting_canonical_le hdepth) f g hfg
    simp only [List.flatMap_congr hnested]
  | _ => exact .const _

theorem Node.asks_either (hj : j.nesting ≤ n + 1) :
    AsksUpTo n fun f => (modelled? f j).or (unsupported? f j) := by
  intro f g hfg
  have hmodelled : modelled? f j = modelled? g j := asks_modelled? hj f g hfg
  have hunsupported : unsupported? f j = unsupported? g j := asks_unsupported? hj f g hfg
  simp only [hmodelled, hunsupported]

end

/-! ## Levels -/

namespace Node

theorem ofJsonWithin?_scalar {j : Json} (h : j.isContainer = false) (levels : Nat) :
    ofJsonWithin? levels j = none := by
  cases levels with
  | zero => rfl
  | succ levels =>
    rw [ofJsonWithin?_succ]
    cases j with
    | array | object => cases h
    | _ => rfl

/-- Further levels change nothing. -/
theorem ofJsonWithin?_of_le {levels : Nat} {j : Json} (h : j.nesting ≤ levels) :
    ofJsonWithin? levels j = ofJson? j := by
  induction levels using Nat.strongRecOn generalizing j with
  | ind levels ih =>
    cases hj : j.isContainer with
    | false => rw [ofJson?, ofJsonWithin?_scalar hj, ofJsonWithin?_scalar hj]
    | true =>
      -- A container has a level of its own, so both readings go at least one level down.
      obtain ⟨m, hm⟩ : ∃ m, j.nesting = m + 1 := ⟨_, by rw [j.nesting_eq, if_pos hj]⟩
      obtain ⟨k, rfl⟩ : ∃ k, levels = k + 1 := ⟨levels - 1, by omega⟩
      have hagree : ∀ p : Json, p.nesting ≤ m → ofJsonWithin? k p = ofJsonWithin? m p := by
        intro p hp
        rw [ih k (by omega) (by omega), ih m (by omega) hp]
      have hdepth : j.nesting ≤ m + 1 := Nat.le_of_eq hm
      rw [ofJson?, hm, ofJsonWithin?_succ, ofJsonWithin?_succ]
      exact asks_either hdepth _ _ hagree

/-- A value is a modelled node if it can be read as one, and else an unsupported one, if it can be
read as that. -/
theorem ofJson?_eq (j : Json) : ofJson? j = (modelled? ofJson? j).or (unsupported? ofJson? j) := by
  have hdepth : j.nesting ≤ j.nesting + 1 := Nat.le_succ _
  have hagree : ∀ p : Json, p.nesting ≤ j.nesting → ofJsonWithin? j.nesting p = ofJson? p :=
    fun p => ofJsonWithin?_of_le
  rw [← ofJsonWithin?_of_le hdepth, ofJsonWithin?_succ]
  exact asks_either hdepth _ _ hagree

end Node

end ScriptTaint
