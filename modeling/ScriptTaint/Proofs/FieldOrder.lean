import Mathlib.Data.String.Basic
import ScriptTaint.Script.DecodeLemmas

/-!
# The order of fields

A record is read by looking its fields up, so the order in which an object lists its fields does not
matter as long as no key repeats. `Json.Recast` is a rewriting of values that reorders fields and
does nothing else; to leave a value alone is one, and to make it canonical is another
(`Recast.canonical`). `Json.Shows` says that an object lists given fields in some order, each
recast; what a reader of a record finds there is `Shows.members` and, behind a tag, `Shows.tagged`.
-/

set_option autoImplicit false

namespace ScriptTaint.Json

/-! ## Looking fields up -/

/-- No key repeats. -/
def Distinct (fields : List Field) : Prop := (fields.map (·.key)).Nodup

theorem lookup?_nil (key : String) : lookup? [] key = none := rfl

theorem lookup?_cons (f : Field) (fields : List Field) (key : String) :
    lookup? (f :: fields) key = if f.key = key then some f.value else lookup? fields key := by
  unfold lookup?
  by_cases h : f.key = key
  · rw [List.find?_cons_of_pos (by simpa using h), if_pos h]
    rfl
  · rw [List.find?_cons_of_neg (by simpa using h), if_neg h]

theorem lookup?_eq_none {fields : List Field} {key : String} :
    lookup? fields key = none ↔ key ∉ fields.map (·.key) := by
  induction fields with
  | nil => simp [lookup?_nil]
  | cons f fields ih =>
    rw [lookup?_cons, List.map_cons, List.mem_cons, not_or, ← ih]
    by_cases h : f.key = key
    · simp [h]
    · simp [h, Ne.symm h]

theorem lookup?_of_mem {fields : List Field} (hd : Distinct fields) {f : Field} (h : f ∈ fields) :
    lookup? fields f.key = some f.value := by
  induction fields with
  | nil => cases h
  | cons g fields ih =>
    obtain ⟨hg, hd⟩ := List.nodup_cons.1 hd
    rw [lookup?_cons]
    rcases List.mem_cons.1 h with rfl | h
    · rw [if_pos rfl]
    · have hne : g.key ≠ f.key := fun heq => hg (List.mem_map.2 ⟨f, h, heq.symm⟩)
      rw [if_neg hne, ih hd h]

theorem lookup?_filter (keep : String → Bool) (fields : List Field) (key : String) :
    lookup? (fields.filter fun f => keep f.key) key =
      if keep key then lookup? fields key else none := by
  induction fields with
  | nil => simp [lookup?_nil]
  | cons f fields ih =>
    rw [List.filter_cons, lookup?_cons]
    by_cases hkey : f.key = key
    · subst hkey
      by_cases hkeep : keep f.key = true
      · rw [if_pos hkeep, if_pos hkeep, lookup?_cons, if_pos rfl, if_pos rfl]
      · rw [if_neg hkeep, if_neg hkeep, ih, if_neg hkeep]
    · rw [if_neg hkey, ← ih]
      by_cases hkeep : keep f.key = true
      · rw [if_pos hkeep, lookup?_cons, if_neg hkey]
      · rw [if_neg hkeep]

/-- The one field of a key. -/
theorem filter_key {fields : List Field} (hd : Distinct fields) {key : String} {value : Json}
    (h : lookup? fields key = some value) : fields.filter (·.key == key) = [⟨key, value⟩] := by
  induction fields with
  | nil => cases h
  | cons f fields ih =>
    obtain ⟨hf, hd⟩ := List.nodup_cons.1 hd
    rw [lookup?_cons] at h
    by_cases hkey : f.key = key
    · rw [if_pos hkey] at h
      subst hkey
      have hrest : fields.filter (·.key == f.key) = [] := by
        refine List.filter_eq_nil_iff.2 fun g hg heq => hf ?_
        exact List.mem_map.2 ⟨g, hg, by simpa using heq⟩
      rw [List.filter_cons_of_pos (by simp), hrest]
      obtain rfl := Option.some.inj h
      cases f
      rfl
    · rw [if_neg hkey] at h
      rw [List.filter_cons_of_neg (by simpa using hkey), ih hd h]

theorem Distinct.filter {fields : List Field} (h : Distinct fields) (keep : Field → Bool) :
    Distinct (fields.filter keep) :=
  h.sublist (List.filter_sublist.map _)

/-! ## Collapsing fields -/

/-- Keys ascend. -/
def Ascending (fields : List Field) : Prop := fields.Pairwise fun f g => f.key < g.key

theorem Ascending.distinct {fields : List Field} (h : Ascending fields) : Distinct fields := by
  unfold Distinct
  rw [List.Nodup, List.pairwise_map]
  exact h.imp fun hlt => ne_of_lt hlt

theorem lookup?_insertField (f : Field) (fields : List Field) (key : String) :
    lookup? (insertField f fields) key =
      if f.key = key then some f.value else lookup? fields key := by
  induction fields with
  | nil => rw [insertField, lookup?_cons]
  | cons g fields ih =>
    unfold insertField
    split
    · rw [lookup?_cons]
    · split
      · rename_i heq
        rw [lookup?_cons, lookup?_cons, heq]
        split <;> rfl
      · rename_i hne
        rw [lookup?_cons, ih, lookup?_cons]
        by_cases hg : g.key = key
        · rw [if_pos hg, if_pos hg, if_neg (hg ▸ hne)]
        · rw [if_neg hg, if_neg hg]

theorem mem_insertField {f g : Field} {fields : List Field} (h : g ∈ insertField f fields) :
    g = f ∨ g ∈ fields := by
  induction fields with
  | nil => exact .inl (List.mem_singleton.1 h)
  | cons k fields ih =>
    unfold insertField at h
    split at h
    · exact List.mem_cons.1 h
    · split at h
      · exact (List.mem_cons.1 h).imp_right (List.mem_cons_of_mem _)
      · rcases List.mem_cons.1 h with rfl | h
        · exact .inr List.mem_cons_self
        · exact (ih h).imp_right (List.mem_cons_of_mem _)

theorem Ascending.insertField {fields : List Field} (h : Ascending fields) (f : Field) :
    Ascending (insertField f fields) := by
  induction fields with
  | nil => exact List.pairwise_singleton _ _
  | cons g fields ih =>
    obtain ⟨hg, hrest⟩ := List.pairwise_cons.1 h
    unfold Json.insertField
    split
    · rename_i hlt
      refine List.pairwise_cons.2 ⟨fun k hk => ?_, h⟩
      rcases List.mem_cons.1 hk with rfl | hk
      · exact hlt
      · exact lt_trans hlt (hg k hk)
    · split
      · rename_i heq
        exact List.pairwise_cons.2 ⟨fun k hk => heq ▸ hg k hk, hrest⟩
      · rename_i hlt hne
        refine List.pairwise_cons.2 ⟨fun k hk => ?_, ih hrest⟩
        rcases mem_insertField hk with rfl | hk
        · exact lt_of_le_of_ne (not_lt.1 hlt) (Ne.symm hne)
        · exact hg k hk

/-- Inserting fields one after the other: the keys ascend, and each new field is found. -/
theorem foldl_insertField {fields : List Field} (hd : Distinct fields) {done : List Field}
    (hdone : Ascending done) :
    Ascending (fields.foldl (fun done f => insertField f done) done) ∧
      ∀ key, lookup? (fields.foldl (fun done f => insertField f done) done) key =
        (lookup? fields key).or (lookup? done key) := by
  induction fields generalizing done with
  | nil => exact ⟨hdone, fun key => rfl⟩
  | cons f fields ih =>
    obtain ⟨hf, hd⟩ := List.nodup_cons.1 hd
    obtain ⟨hascending, hlookup⟩ := ih hd (hdone.insertField f)
    refine ⟨hascending, fun key => ?_⟩
    rw [List.foldl_cons, hlookup, lookup?_insertField, lookup?_cons]
    by_cases hkey : f.key = key
    · subst hkey
      rw [if_pos rfl, if_pos rfl, lookup?_eq_none.2 hf]
      rfl
    · rw [if_neg hkey, if_neg hkey]

section collapse
variable {fields : List Field} (h : Distinct fields)

include h

theorem ascending_collapse : Ascending (collapse fields) :=
  (foldl_insertField h List.Pairwise.nil).1

theorem lookup?_collapse (key : String) : lookup? (collapse fields) key = lookup? fields key := by
  have hlookup := (foldl_insertField h List.Pairwise.nil).2 key
  rw [lookup?_nil, Option.or_none] at hlookup
  exact hlookup

end collapse

/-! ## Recasting values -/

/-- An object that lists these fields in some order, each value recast by `φ`. -/
structure Shows (φ : Json → Json) (j : Json) (fields : List Field) : Prop where
  listing : ∃ shown, j = .object shown ∧ Distinct shown ∧
    ∀ key, lookup? shown key = (lookup? fields key).map φ

/-- A rewriting of values that reorders the fields of objects and does nothing else. Where keys
repeat it is free. -/
structure Recast (φ : Json → Json) : Prop where
  scalar {j : Json} : j.isContainer = false → φ j = j
  array (items : List Json) : φ (.array items) = .array (items.map φ)
  object {fields : List Field} : Distinct fields → Shows φ (φ (.object fields)) fields

theorem canonical_array (items : List Json) :
    (Json.array items).canonical = .array (items.map canonical) := by
  rw [canonical.eq_def]
  simp

theorem canonical_object (fields : List Field) : (Json.object fields).canonical =
    .object (collapse (fields.map fun f => ⟨f.key, f.value.canonical⟩)) := by
  rw [canonical.eq_def]
  simp

theorem lookup?_map (φ : Json → Json) (fields : List Field) (key : String) :
    lookup? (fields.map fun f => ⟨f.key, φ f.value⟩) key = (lookup? fields key).map φ := by
  induction fields with
  | nil => rfl
  | cons f fields ih =>
    rw [List.map_cons, lookup?_cons, lookup?_cons, ih]
    split <;> rfl

theorem Distinct.map {fields : List Field} (h : Distinct fields) (φ : Json → Json) :
    Distinct (fields.map fun f => ⟨f.key, φ f.value⟩) := by
  unfold Distinct
  rw [List.map_map]
  exact h

namespace Recast

theorem refl : Recast fun j => j where
  scalar _ := rfl
  array items := by rw [List.map_id']
  object h := ⟨_, rfl, h, fun key => by simp⟩

theorem canonical : Recast Json.canonical where
  scalar {j} h := by
    cases j with
    | array | object => cases h
    | _ => rw [canonical.eq_def]
  array := canonical_array
  object {fields} h := by
    have hmap := h.map Json.canonical
    refine ⟨_, canonical_object fields, (ascending_collapse hmap).distinct, fun key => ?_⟩
    rw [lookup?_collapse hmap, lookup?_map]

theorem comp {φ ψ : Json → Json} (hψ : Recast ψ) (hφ : Recast φ) : Recast fun j => ψ (φ j) where
  scalar h := by rw [hφ.scalar h, hψ.scalar h]
  array items := by rw [hφ.array, hψ.array, List.map_map]; rfl
  object h := by
    obtain ⟨shown, hshown, hdistinct, hlookup⟩ := (hφ.object h).listing
    obtain ⟨again, hagain, hdistinct', hlookup'⟩ := (hψ.object hdistinct).listing
    refine ⟨again, by rw [hshown, hagain], hdistinct', fun key => ?_⟩
    rw [hlookup', hlookup, Option.map_map]
    rfl

end Recast

/-! ## Reading what is shown -/

section
variable {φ : Json → Json} {j : Json} {fields : List Field}

/-- A reader of a record finds the fields it knows. -/
theorem Shows.members (h : Shows φ j fields) (names : List String) :
    ∃ m, j.members? names = some m ∧
      ∀ key ∈ names, lookup? m key = (lookup? fields key).map φ := by
  obtain ⟨shown, rfl, hdistinct, hlookup⟩ := h.listing
  refine ⟨shown.filter fun f => names.contains f.key, ?_, fun key hkey => ?_⟩
  · have hknown : ((shown.filter fun f => names.contains f.key).map (·.key)).Nodup :=
      hdistinct.filter _
    simp only [members?, if_pos hknown]
  · rw [lookup?_filter (fun key => names.contains key), if_pos (by simpa using hkey), hlookup]

/-- Reading a record that is shown comes down to reading its fields. -/
theorem Shows.read {α : Type} {names : List String} {k : List Field → Option α} {x : Option α}
    (h : Shows φ j fields)
    (hk : ∀ m, (∀ key ∈ names, lookup? m key = (lookup? fields key).map φ) → k m = x) :
    (j.members? names >>= k) = x := by
  obtain ⟨m, hm, hlookup⟩ := h.members names
  rw [hm]
  exact hk m hlookup

/-- A reader of a tag finds the tag, and the other fields behind it. -/
theorem Shows.tagged {tag : Json} (h : Shows φ j (⟨"kind", tag⟩ :: fields))
    (hkind : lookup? fields "kind" = none) :
    ∃ body, j.tagged? = some (φ tag, body) ∧ Shows φ body fields := by
  obtain ⟨shown, rfl, hdistinct, hlookup⟩ := h.listing
  have htag : lookup? shown "kind" = some (φ tag) := by
    rw [hlookup, lookup?_cons, if_pos rfl]
    rfl
  refine ⟨.object (shown.filter (·.key != "kind")), ?_, _, rfl, hdistinct.filter _, fun key => ?_⟩
  · simp only [tagged?, filter_key hdistinct htag]
  · rw [lookup?_filter (· != "kind"), hlookup, lookup?_cons]
    by_cases hkey : key = "kind"
    · subst hkey
      rw [if_neg (by simp), hkind]
      rfl
    · rw [if_pos (by simpa using hkey), if_neg (Ne.symm hkey)]

/-- Reading a tagged record comes down to reading what is behind the tag. -/
theorem Recast.readTagged {α : Type} (hφ : Recast φ) {title : String}
    {k : Json × Json → Option α} {x : Option α}
    (hd : Distinct (⟨"kind", .text title⟩ :: fields))
    (hk : ∀ body, Shows φ body fields → k (.text title, body) = x) :
    ((φ (.object (⟨"kind", .text title⟩ :: fields))).tagged? >>= k) = x := by
  have hkind : lookup? fields "kind" = none := lookup?_eq_none.2 (List.nodup_cons.1 hd).1
  obtain ⟨body, htag, hbody⟩ := (hφ.object hd).tagged hkind
  rw [htag, hφ.scalar rfl]
  exact hk body hbody

end

/-! ## Values without fields -/

section
variable {φ : Json → Json} (hφ : Recast φ)

include hφ

theorem text?_recast (s : String) : text? (φ (.text s)) = some s := by
  rw [hφ.scalar rfl]
  rfl

theorem bool?_recast (b : Bool) : bool? (φ (.bool b)) = some b := by
  rw [hφ.scalar rfl]
  rfl

theorem offset?_recast (o : UInt32) : offset? (φ (.natural o.toNat)) = some o := by
  have hlt : o.toNat < UInt32.size := o.toNat_lt_size
  rw [hφ.scalar rfl, offset?, if_pos hlt, UInt32.ofNat_toNat]

section
variable {α β : Type} {read : Json → Option β} {write : α → Json} {g : α → β}

theorem list?_recast {l : List α} (h : ∀ a ∈ l, read (φ (write a)) = some (g a)) :
    list? read (φ (.array (l.map write))) = some (l.map g) := by
  rw [hφ.array, list?, List.map_map]
  induction l with
  | nil => rfl
  | cons a l ih =>
    rw [List.map_cons, List.mapM_cons, ih fun b hb => h b (List.mem_cons_of_mem _ hb)]
    simp only [Function.comp_apply, h a List.mem_cons_self, List.map_cons]
    rfl

theorem optional?_recast {x : Option α} (hnull : ∀ a, x = some a → φ (write a) ≠ .null)
    (h : ∀ a, x = some a → read (φ (write a)) = some (g a)) :
    optional? read (φ (Json.ofOption write x)) = some (x.map g) := by
  cases x with
  | none =>
    rw [Json.ofOption, hφ.scalar rfl]
    rfl
  | some a =>
    have ha := h a rfl
    rw [Json.ofOption]
    generalize hj : φ (write a) = j at ha
    cases j with
    | null => exact absurd hj (hnull a rfl)
    | _ => simp only [optional?, ha, Option.map_some]

end

theorem ne_null_of_object {fields : List Field} (h : Distinct fields) :
    φ (.object fields) ≠ .null := by
  obtain ⟨shown, hshown, -⟩ := (hφ.object h).listing
  rw [hshown]
  exact fun heq => Json.noConfusion heq

end

end ScriptTaint.Json
