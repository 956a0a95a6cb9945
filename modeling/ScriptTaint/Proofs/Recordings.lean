import ScriptTaint.Proofs.Loops
import Mathlib.Data.Finset.Card

/-!
# What is kept of recordings

Bindings are changed by recordings only (`Bindings.ofRecordings`), in any order of keys and offsets.
A recording appends one event to one history, and of any two events the later one has the greater
offset, is varying, and has the mark of the earlier one (`Event.Precedes`). This is kept by every
recording (`History.Kept.record`), and all else follows from it.

* `History.Kept.search?_eq`: bisection finds what a use sees. It needs the order of the offsets.
* `recordings_kept`: a use sees the last event up to its offset, which is constant only if it is the
  only one; what is varying or marked at an offset is so from there on; and there are as many
  histories as keys.
* `Block.exists_recordings`: the bindings of a scope are made of recordings, with the parameters
  first.
-/

set_option autoImplicit false

namespace ScriptTaint

/-! ## Histories -/

/-- How an event of a history stands to a later one. -/
structure Event.Precedes (e f : Event) : Prop where
  since : e.since ≤ f.since
  varying : f.binding.constancy = .varying
  escaped : e.binding.escaped = true → f.binding.escaped = true

theorem Event.Precedes.trans {e f g : Event} (h : e.Precedes f) (h' : f.Precedes g) :
    e.Precedes g where
  since := UInt32.le_trans h.since h'.since
  varying := h'.varying
  escaped := fun he => h'.escaped (h.escaped he)

namespace History

/-- Each event precedes the ones behind it. -/
def Kept (h : History) : Prop := h.Pairwise Event.Precedes

theorem precedes_next (h : History) (last : Event) (since : UInt32) (b : Binding) :
    last.Precedes (next (h ++ [last]) since b) := by
  simp only [next, List.getLast?_concat]
  refine ⟨?_, rfl, fun he => by simp [he]⟩
  split
  · exact UInt32.le_refl _
  · exact UInt32.not_lt.1 ‹_›

theorem Kept.record {h : History} (hk : h.Kept) (since : UInt32) (b : Binding) :
    (h.record since b).Kept := by
  rw [record_eq]
  rcases List.eq_nil_or_concat' h with rfl | ⟨l, last, rfl⟩
  · exact List.pairwise_singleton ..
  · refine List.pairwise_append.2 ⟨hk, List.pairwise_singleton .., fun e he f hf => ?_⟩
    obtain rfl := List.mem_singleton.1 hf
    have hnext := precedes_next l last since b
    rcases List.mem_append.1 he with he | he
    · -- The event stands before the last one, and that before the new one.
      exact ((List.pairwise_append.1 hk).2.2 e he last List.mem_cons_self).trans hnext
    · obtain rfl := List.mem_singleton.1 he
      exact hnext

section
variable {h : History} {offset : UInt32}

theorem Kept.ordered (hk : h.Kept) : h.Pairwise fun e f => e.since ≤ f.since :=
  hk.imp fun he => he.since

/-- The events up to an offset are the first ones. -/
theorem Kept.takeWhile_eq (hk : h.Kept) :
    h.takeWhile (·.since ≤ offset) = h.filter (·.since ≤ offset) := by
  induction h with
  | nil => rfl
  | cons e h ih =>
    obtain ⟨he, hh⟩ := List.pairwise_cons.1 hk
    by_cases hle : e.since ≤ offset
    · simp [hle, ih hh]
    · have hnone : h.filter (·.since ≤ offset) = [] := by
        refine List.filter_eq_nil_iff.2 fun f hf hfo => hle ?_
        exact UInt32.le_trans (he f hf).since (of_decide_eq_true hfo)
      simp [hle, hnone]

theorem Kept.bindingAt?_eq (hk : h.Kept) :
    h.bindingAt? offset = ((h.filter (·.since ≤ offset)).getLast?).map (·.binding) := by
  rw [bindingAt?, hk.takeWhile_eq]

/-- A constant that is seen is alone. -/
theorem Kept.length_of_constant (hk : h.Kept) {x : Binding} (hx : h.bindingAt? offset = some x)
    (hc : x.constancy = .constant) : (h.filter (·.since ≤ offset)).length = 1 := by
  rw [hk.bindingAt?_eq] at hx
  obtain ⟨e, he, rfl⟩ := Option.map_eq_some_iff.1 hx
  obtain ⟨l, hl⟩ := List.getLast?_eq_some_iff.1 he
  have hseen : (l ++ [e]).Pairwise Event.Precedes := hl ▸ List.Pairwise.filter _ hk
  cases l with
  | nil => simp [hl]
  | cons f l =>
    -- A second event would be varying.
    have hp := (List.pairwise_append.1 hseen).2.2 f List.mem_cons_self e List.mem_cons_self
    rw [hp.varying] at hc
    cases hc

/-- What is seen later is what was seen before, or an event behind it. -/
theorem Kept.bindingAt?_mono (hk : h.Kept) {offset' : UInt32} (hle : offset ≤ offset')
    {x : Binding} (hx : h.bindingAt? offset = some x) :
    ∃ y, h.bindingAt? offset' = some y ∧ (x.constancy = .varying → y.constancy = .varying) ∧
      (x.escaped = true → y.escaped = true) := by
  rw [hk.bindingAt?_eq] at hx
  obtain ⟨e, he, rfl⟩ := Option.map_eq_some_iff.1 hx
  obtain ⟨heh, heo⟩ := List.mem_filter.1 (List.mem_of_getLast? he)
  have hmem : e ∈ h.filter (·.since ≤ offset') :=
    List.mem_filter.2 ⟨heh, decide_eq_true (UInt32.le_trans (of_decide_eq_true heo) hle)⟩
  obtain ⟨f, hf⟩ := Option.isSome_iff_exists.1 (List.getLast?_isSome.2 (List.ne_nil_of_mem hmem))
  obtain ⟨l, hl⟩ := List.getLast?_eq_some_iff.1 hf
  have hseen : (l ++ [f]).Pairwise Event.Precedes := hl ▸ List.Pairwise.filter _ hk
  refine ⟨f.binding, by rw [hk.bindingAt?_eq, hf]; rfl, ?_⟩
  rw [hl, List.mem_append, List.mem_singleton] at hmem
  rcases hmem with hmem | rfl
  · have hp := (List.pairwise_append.1 hseen).2.2 e hmem f List.mem_cons_self
    exact ⟨fun _ => hp.varying, hp.escaped⟩
  · exact ⟨id, id⟩

/-- A history that does not begin with a constant has none. -/
theorem Kept.all_varying (hk : h.Kept)
    (hfirst : ∀ e ∈ h.head?, e.binding.constancy = .varying) :
    ∀ e ∈ h, e.binding.constancy = .varying := by
  cases h with
  | nil => simp
  | cons f h =>
    intro e he
    rcases List.mem_cons.1 he with rfl | he
    · exact hfirst e rfl
    · exact ((List.pairwise_cons.1 hk).1 e he).varying

end

/-! ## Bisection -/

/-- The number of events up to `offset`, if it lies between `lo` and `hi`. -/
def bisect (h : History) (offset : UInt32) (lo hi : Nat) : Nat :=
  if lo < hi then
    if (h[(lo + hi) / 2]?).any (·.since ≤ offset) then h.bisect offset ((lo + hi) / 2 + 1) hi
    else h.bisect offset lo ((lo + hi) / 2)
  else lo
termination_by hi - lo

/-- The binding that a use at `offset` sees, found by bisection. -/
def search? (h : History) (offset : UInt32) : Option Binding :=
  match h.bisect offset 0 h.length with
  | 0 => none
  | i + 1 => (h[i]?).map (·.binding)

section
variable {h : History} {offset : UInt32}

/-- In a kept history the events up to an offset are told by their places. -/
theorem Kept.any_getElem?_iff (hk : h.Kept) {i : Nat} (hi : i < h.length) :
    (h[i]?).any (·.since ≤ offset) = true ↔
      i < (h.takeWhile (·.since ≤ offset)).length := by
  induction h generalizing i with
  | nil => simp at hi
  | cons e h ih =>
    obtain ⟨he, hh⟩ := List.pairwise_cons.1 hk
    by_cases hle : e.since ≤ offset
    · cases i with
      | zero => simp [hle]
      | succ i => simpa [hle] using ih hh (Nat.lt_of_succ_lt_succ hi)
    · have hlater : ∀ f ∈ e :: h, ¬ f.since ≤ offset := by
        intro f hf hfo
        rcases List.mem_cons.1 hf with rfl | hf
        · exact hle hfo
        · exact hle (UInt32.le_trans (he f hf).since hfo)
      rw [List.getElem?_eq_getElem hi]
      simp [hle, hlater _ (List.getElem_mem hi)]

theorem Kept.bisect_eq (hk : h.Kept) {lo hi : Nat}
    (hlo : lo ≤ (h.takeWhile (·.since ≤ offset)).length)
    (hhi : (h.takeWhile (·.since ≤ offset)).length ≤ hi) (hlen : hi ≤ h.length) :
    h.bisect offset lo hi = (h.takeWhile (·.since ≤ offset)).length := by
  fun_induction bisect h offset lo hi with
  | case1 lo hi hlt hseen ih =>
    have hplace := (hk.any_getElem?_iff (by omega)).1 hseen
    exact ih (by omega) hhi hlen
  | case2 lo hi hlt hunseen ih =>
    have hplace : ¬ (lo + hi) / 2 < (h.takeWhile (·.since ≤ offset)).length :=
      mt (hk.any_getElem?_iff (by omega)).2 hunseen
    exact ih hlo (by omega) (by omega)
  | case3 lo hi hge => omega

/-- **Bisection finds what a use sees.** -/
theorem Kept.search?_eq (hk : h.Kept) : h.search? offset = h.bindingAt? offset := by
  have hprefix : h.takeWhile (·.since ≤ offset) <+: h := List.takeWhile_prefix _
  rw [search?, hk.bisect_eq (Nat.zero_le _) hprefix.length_le (Nat.le_refl _), bindingAt?]
  have htake := List.prefix_iff_eq_take.1 hprefix
  have hlen := hprefix.length_le
  generalize h.takeWhile (·.since ≤ offset) = seen at htake hlen ⊢
  cases hn : seen.length with
  | zero => simp [List.eq_nil_of_length_eq_zero hn]
  | succ i =>
    have hi : i < h.length := by omega
    rw [htake, hn, List.take_succ_eq_append_getElem hi, List.getLast?_concat]
    exact congrArg (Option.map _) (List.getElem?_eq_getElem hi)

end

end History

/-! ## Recordings -/

/-- One change of bindings. -/
inductive Recording
  | record (key : String) (since : UInt32) (binding : Binding)
  | declare (key : String) (since : UInt32)

namespace Recording

def key : Recording → String
  | .record key _ _ => key
  | .declare key _ => key

def since : Recording → UInt32
  | .record _ since _ => since
  | .declare _ since => since

/-- A declared variable holds an unknown value. -/
def binding : Recording → Binding
  | .record _ _ binding => binding
  | .declare _ _ => ⟨.varying, false⟩

end Recording

namespace Bindings

def enter (b : Bindings) : Recording → Bindings
  | .record key since binding => b.record key since binding
  | .declare key since => b.declare key since

/-- The bindings after the recordings. -/
def ofRecordings (rs : List Recording) : Bindings := rs.foldl enter empty

theorem enter_eq (b : Bindings) (r : Recording) : b.enter r = b.record r.key r.since r.binding := by
  cases r <;> rfl

theorem ofRecordings_concat (rs : List Recording) (r : Recording) :
    ofRecordings (rs ++ [r]) = (ofRecordings rs).record r.key r.since r.binding := by
  rw [ofRecordings, List.foldl_concat, enter_eq, ofRecordings]

/-- What every recording keeps of each history holds of all that recordings make. -/
theorem ofRecordings_induction {P : String → List Recording → History → Prop}
    (hnil : ∀ k, P k [] [])
    (hsame : ∀ k rs r h, r.key ≠ k → P k rs h → P k (rs ++ [r]) h)
    (hrecord : ∀ rs r h, P r.key rs h → P r.key (rs ++ [r]) (h.record r.since r.binding))
    (rs : List Recording) (k : String) : P k rs ((ofRecordings rs).history k) := by
  induction rs using List.reverseRecOn with
  | nil => exact hnil k
  | append_singleton rs r ih =>
    rw [ofRecordings_concat]
    by_cases hk : k = r.key
    · subst hk
      rw [history_record_self]
      exact hrecord rs r _ ih
    · rw [history_record_ne _ hk]
      exact hsame k rs r _ (Ne.symm hk) ih

theorem kept_ofRecordings (rs : List Recording) (k : String) :
    ((ofRecordings rs).history k).Kept :=
  ofRecordings_induction (P := fun _ _ h => h.Kept) (fun _ => List.Pairwise.nil)
    (fun _ _ _ _ _ hk => hk) (fun _ r _ hk => hk.record r.since r.binding) rs k

theorem length_history_ofRecordings (rs : List Recording) (k : String) :
    ((ofRecordings rs).history k).length = rs.countP (·.key = k) := by
  refine ofRecordings_induction (P := fun k rs h => h.length = rs.countP (·.key = k))
    (fun _ => rfl) (fun k rs r h hne hl => ?_) (fun rs r h hl => ?_) rs k
  · simp [hl, hne]
  · simp [History.record_eq, hl]

/-- A history begins with the first recording under its key. -/
theorem head?_history_ofRecordings (rs : List Recording) (k : String) :
    ((ofRecordings rs).history k).head?.map (·.binding) =
      (rs.find? (·.key = k)).map (·.binding) := by
  refine ofRecordings_induction
    (P := fun k rs h => h.head?.map (·.binding) = (rs.find? (·.key = k)).map (·.binding))
    (fun _ => rfl) (fun k rs r h hne hh => ?_) (fun rs r h hh => ?_) rs k
  · simp [List.find?_append, hne, hh]
  · rw [History.record_eq, List.find?_append]
    cases h with
    | nil =>
      have hnone : rs.find? (·.key = r.key) = none := by simpa using hh.symm
      simp [hnone]
    | cons e h =>
      obtain ⟨f, hf, hfe⟩ := Option.map_eq_some_iff.1 hh.symm
      simp [hf, hfe]

/-! ## Keys -/

def keys (b : Bindings) : List String := b.histories.map (·.1)

theorem length_keys (b : Bindings) : b.keys.length = b.size := List.length_map ..

theorem mem_map_adjust {key k : String} {f : History → History} {hs : List (String × History)} :
    k ∈ (adjust key f hs).map (·.1) ↔ k = key ∨ k ∈ hs.map (·.1) := by
  induction hs with
  | nil => simp [adjust]
  | cons x hs ih =>
    obtain ⟨j, h⟩ := x
    by_cases hj : j = key
    · simp [adjust, hj]
    · simp [adjust, hj, ih]
      tauto

theorem nodup_map_adjust {key : String} {f : History → History} {hs : List (String × History)}
    (hnodup : (hs.map (·.1)).Nodup) : ((adjust key f hs).map (·.1)).Nodup := by
  induction hs with
  | nil => simp [adjust]
  | cons x hs ih =>
    obtain ⟨j, h⟩ := x
    rw [List.map_cons, List.nodup_cons] at hnodup
    by_cases hj : j = key
    · simpa [adjust, hj] using hnodup
    · rw [adjust, if_neg hj, List.map_cons, List.nodup_cons, mem_map_adjust]
      exact ⟨fun hm => hm.elim hj hnodup.1, ih hnodup.2⟩

theorem keys_ofRecordings (rs : List Recording) :
    (ofRecordings rs).keys.Nodup ∧
      (ofRecordings rs).keys.toFinset = (rs.map (·.key)).toFinset := by
  induction rs using List.reverseRecOn with
  | nil => exact ⟨List.nodup_nil, rfl⟩
  | append_singleton rs r ih =>
    rw [ofRecordings_concat]
    refine ⟨nodup_map_adjust ih.1, ?_⟩
    ext k
    have hk := congrArg (k ∈ ·) ih.2
    simp only [List.mem_toFinset, eq_iff_iff] at hk ⊢
    rw [List.map_append, List.mem_append, ← hk]
    unfold keys record
    rw [mem_map_adjust]
    simp [or_comm]

theorem size_ofRecordings (rs : List Recording) :
    (ofRecordings rs).size = (rs.map (·.key)).toFinset.card := by
  obtain ⟨hnodup, hkeys⟩ := keys_ofRecordings rs
  rw [← length_keys, ← hkeys, List.toFinset_card_of_nodup hnodup]

/-- What is seen of a variable whose first recording is varying is varying. -/
theorem varying_of_first {rs : List Recording} {k : String} {r : Recording}
    (hr : rs.find? (·.key = k) = some r) (hv : r.binding.constancy = .varying) {offset : UInt32}
    {x : Binding} (hx : (ofRecordings rs).bindingAt? k offset = some x) :
    x.constancy = .varying := by
  have hk := kept_ofRecordings rs k
  have hhead := head?_history_ofRecordings rs k
  rw [hr] at hhead
  obtain ⟨e, he, rfl⟩ := Option.map_eq_some_iff.1 hx
  refine hk.all_varying (fun f hf => ?_) e
    ((List.takeWhile_sublist _).mem (List.mem_of_getLast? he))
  rw [Option.mem_def.1 hf] at hhead
  exact (congrArg Binding.constancy (Option.some.inj hhead)).trans hv

end Bindings

/-! ## The recordings of a scope -/

namespace Bindings

theorem Recorded.exists_recordings {since : UInt32} {keys : List String} {b c : Bindings}
    (h : Recorded since keys b c) : ∃ rs : List Recording, c = rs.foldl enter b := by
  induction h with
  | refl => exact ⟨[], rfl⟩
  | @record c key x _ _ ih =>
    obtain ⟨rs, rfl⟩ := ih
    exact ⟨rs ++ [.record key since x], by rw [List.foldl_concat]; rfl⟩

theorem exists_recordings_run (b : Bindings) (steps : List Step) :
    ∃ rs : List Recording, b.run steps = rs.foldl enter b := by
  induction steps generalizing b with
  | nil => exact ⟨[], rfl⟩
  | cons s steps ih =>
    obtain ⟨rs, hrs⟩ := (b.step_recorded s).exists_recordings
    obtain ⟨rs', hrs'⟩ := ih (b.step s)
    exact ⟨rs ++ rs', by rw [run_cons, hrs', hrs, List.foldl_append]⟩

end Bindings

/-- The recordings of a block's parameters. -/
def Block.paramRecordings (b : Block) : List Recording :=
  b.params.map fun p => .declare (Text.lower p.name) b.span.start

/-- The bindings of a scope are made of recordings, and its parameters are recorded first. -/
theorem Block.exists_recordings (b : Block) :
    ∃ rs : List Recording, b.bindings = Bindings.ofRecordings (b.paramRecordings ++ rs) := by
  have hparams : ∀ (ps : List Param) (c : Bindings),
      c.run (ps.map fun p => .declare (Text.lower p.name) b.span.start) =
        (ps.map fun p => Recording.declare (Text.lower p.name) b.span.start).foldl
          Bindings.enter c := by
    intro ps
    induction ps with
    | nil => exact fun _ => rfl
    | cons p ps ih => exact fun c => ih _
  obtain ⟨rs, hrs⟩ := (Bindings.empty.run b.paramSteps).exists_recordings_run
    (b.statements.flatMap Node.steps)
  refine ⟨rs, ?_⟩
  rw [bindings_eq, steps_eq, Bindings.run_append, hrs, paramSteps, hparams,
    Bindings.ofRecordings, List.foldl_append, paramRecordings]

/-- The first recording under the name of a parameter is the declaration of one. -/
theorem Block.exists_first_declare {b : Block} {p : Param} (hp : p ∈ b.params)
    (rs : List Recording) : ∃ key since,
      (b.paramRecordings ++ rs).find? (·.key = Text.lower p.name) = some (.declare key since) := by
  have hsome : (b.paramRecordings.find? (·.key = Text.lower p.name)).isSome :=
    List.find?_isSome.2 ⟨_, List.mem_map_of_mem hp, decide_eq_true rfl⟩
  obtain ⟨r, hr⟩ := Option.isSome_iff_exists.1 hsome
  obtain ⟨q, -, rfl⟩ := List.mem_map.1 (List.mem_of_find?_eq_some hr)
  exact ⟨_, _, by rw [List.find?_append, hr, Option.some_or]⟩

/-! ## The representation -/

/-- How bindings represent the recordings that they were made of. -/
structure Bindings.Represents (b : Bindings) (rs : List Recording) : Prop where
  /-- There is one event for each recording, and the first event holds what was recorded first. -/
  complete : ∀ k, (b.history k).length = rs.countP (·.key = k)
  first : ∀ k, (b.history k).head?.map (·.binding) = (rs.find? (·.key = k)).map (·.binding)
  ordered : ∀ k, (b.history k).Pairwise fun e f => e.since ≤ f.since
  /-- A use sees the last event up to its offset, if there is one. -/
  seen : ∀ k offset, b.bindingAt? k offset =
    ((b.history k).filter (·.since ≤ offset)).getLast?.map (·.binding)
  /-- Bisection finds it. -/
  found : ∀ k offset, (b.history k).search? offset = b.bindingAt? k offset
  alone : ∀ k offset x, b.bindingAt? k offset = some x → x.constancy = .constant →
    ((b.history k).filter (·.since ≤ offset)).length = 1
  /-- What is known, varying or marked at an offset is so at every greater one. -/
  lasting : ∀ k offset offset' x, offset ≤ offset' → b.bindingAt? k offset = some x →
    ∃ y, b.bindingAt? k offset' = some y ∧
      (x.constancy = .varying → y.constancy = .varying) ∧ (x.escaped = true → y.escaped = true)
  size : b.size = (rs.map (·.key)).toFinset.card
  /-- A variable that is declared first is varying wherever it is known. -/
  declared : ∀ k r, rs.find? (·.key = k) = some r → r.binding.constancy = .varying →
    ∀ offset x, b.bindingAt? k offset = some x → x.constancy = .varying

/-- **Recordings are kept in order, whatever their order was.** The bindings made by any recordings
represent them, and so do the bindings of every scope. Parameters are recorded first, so they are
never constant. -/
theorem recordings_kept :
    (∀ rs : List Recording, (Bindings.ofRecordings rs).Represents rs) ∧
      ∀ b : Block, (∃ rs, b.bindings.Represents rs) ∧
        ∀ p ∈ b.params, ∀ offset x, b.bindings.bindingAt? (Text.lower p.name) offset = some x →
          x.constancy = .varying := by
  have hall : ∀ rs : List Recording, (Bindings.ofRecordings rs).Represents rs := fun rs =>
    { complete := Bindings.length_history_ofRecordings rs
      first := Bindings.head?_history_ofRecordings rs
      ordered := fun k => (Bindings.kept_ofRecordings rs k).ordered
      seen := fun k offset => (Bindings.kept_ofRecordings rs k).bindingAt?_eq
      found := fun k offset => (Bindings.kept_ofRecordings rs k).search?_eq
      alone := fun k offset x => (Bindings.kept_ofRecordings rs k).length_of_constant
      lasting := fun k offset offset' x hle => (Bindings.kept_ofRecordings rs k).bindingAt?_mono hle
      size := Bindings.size_ofRecordings rs
      declared := fun k r hr hv offset x => Bindings.varying_of_first hr hv }
  refine ⟨hall, fun b => ?_⟩
  obtain ⟨rs, hrs⟩ := b.exists_recordings
  rw [hrs]
  refine ⟨⟨_, hall _⟩, fun p hp offset x hx => ?_⟩
  obtain ⟨key, since, hfirst⟩ := Block.exists_first_declare hp rs
  exact Bindings.varying_of_first hfirst rfl hx

/-- An event recorded for an earlier offset than the last one takes effect with the last one. -/
example : (Bindings.ofRecordings
    [.record "cmd" 30 ⟨.constant, false⟩, .declare "cmd" 10]).bindingAt? "cmd" 20 = none := by
  decide

end ScriptTaint
