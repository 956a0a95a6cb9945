import ScriptTaint.Flow.Bindings

/-!
# Laws of histories

`History.record` appends one event (`History.next`), which is varying unless it is the first one
(`next_varying`). A use at `offset` sees the last of the events up to `offset`
(`bindingAt?_append`). So one varying event, with nothing but varying events behind it, settles
every use from its offset on (`bindingAt?_varying`).
-/

set_option autoImplicit false

namespace ScriptTaint

namespace History

/-- The event that `record` appends. -/
def next (h : History) (since : UInt32) (b : Binding) : Event :=
  match h.getLast? with
  | none => ⟨since, b⟩
  | some last =>
    ⟨if since < last.since then last.since else since,
      ⟨.varying, b.escaped || last.binding.escaped⟩⟩

theorem record_eq (h : History) (since : UInt32) (b : Binding) :
    h.record since b = h ++ [h.next since b] := by
  unfold record next
  cases hl : h.getLast? with
  | none => simp [List.getLast?_eq_none_iff.1 hl]
  | some last => rfl

@[simp] theorem next_nil (since : UInt32) (b : Binding) : next [] since b = ⟨since, b⟩ := rfl

theorem next_varying {h : History} (hn : h ≠ []) (since : UInt32) (b : Binding) :
    (h.next since b).binding.constancy = .varying := by
  unfold next
  cases hl : h.getLast? with
  | none => exact absurd (List.getLast?_eq_none_iff.1 hl) hn
  | some last => rfl

/-! ## What a use sees -/

/-- Events behind a use are not seen by it. -/
theorem bindingAt?_append_later (h : History) {later : List Event} {offset : UInt32}
    (hlater : ∀ e ∈ later, offset < e.since) :
    bindingAt? (h ++ later) offset = h.bindingAt? offset := by
  have hnone : later.takeWhile (·.since ≤ offset) = [] := by
    cases later with
    | nil => rfl
    | cons e later => simp [UInt32.not_le.2 (hlater e List.mem_cons_self)]
  unfold bindingAt?
  rw [List.takeWhile_append, hnone, List.append_nil]
  split
  · rename_i hall
    rw [(List.takeWhile_prefix _).eq_of_length hall]
  · rfl

/-- A use behind all events sees the last one. -/
theorem bindingAt?_of_le {h : History} {offset : UInt32} (hh : ∀ e ∈ h, e.since ≤ offset) :
    h.bindingAt? offset = h.getLast?.map (·.binding) := by
  have hall : (h ++ []).takeWhile (·.since ≤ offset) = h ++ [] :=
    List.takeWhile_append_of_pos (by simpa using hh)
  rw [bindingAt?, ← List.append_nil h, hall]

/-- A use between two parts of a history sees the last event of the first part. -/
theorem bindingAt?_append {l r : History} {offset : UInt32} (hl : ∀ e ∈ l, e.since ≤ offset)
    (hr : ∀ e ∈ r, offset < e.since) :
    bindingAt? (l ++ r) offset = l.getLast?.map (·.binding) := by
  rw [bindingAt?_append_later l hr, bindingAt?_of_le hl]

/-- The binding seen from a varying event on is varying if all later events are. -/
theorem bindingAt?_varying {l r : History} {e : Event} {offset : UInt32}
    (hl : ∀ x ∈ l, x.since ≤ offset) (he : e.since ≤ offset)
    (hv : ∀ x ∈ e :: r, x.binding.constancy = .varying) :
    ((bindingAt? (l ++ e :: r) offset).map (·.constancy)) = some .varying := by
  have hsplit : (l ++ e :: r).takeWhile (·.since ≤ offset) =
      l ++ e :: r.takeWhile (·.since ≤ offset) := by
    rw [List.takeWhile_append_of_pos (by simpa using hl),
      List.takeWhile_cons_of_pos (by simpa using he)]
  unfold bindingAt?
  rw [hsplit, List.getLast?_append, List.getLast?_cons, Option.some_or]
  -- The last event is `e` or comes behind it.
  have hmem : (r.takeWhile (·.since ≤ offset)).getLast?.getD e ∈ e :: r := by
    cases hx : (r.takeWhile (·.since ≤ offset)).getLast? with
    | none => simp
    | some x =>
      exact List.mem_cons_of_mem _ ((List.takeWhile_sublist _).mem (List.mem_of_getLast? hx))
  simp [hv _ hmem]

/-- The last event of a history is constant if and only if it is the only one, and constant. -/
theorem getLast?_constant_iff {h : History}
    (htail : ∀ e ∈ h.tail, e.binding.constancy = .varying) :
    ((h.getLast?.map (·.binding)).map (·.constancy)).getD .varying = .constant ↔
      ∃ e : Event, h = [e] ∧ e.binding.constancy = .constant := by
  rcases h with _ | ⟨e, _ | ⟨f, r⟩⟩
  · simp
  · simp
  · have hlast : (f :: r).getLast (by simp) ∈ f :: r := List.getLast_mem _
    simp [List.getLast?_eq_some_getLast, htail _ hlast]

end History

namespace Bindings

theorem lookup_adjust (key : String) (f : History → History) (k : String) :
    ∀ hs : List (String × History), ((adjust key f hs).lookup k).getD [] =
      if k = key then f ((hs.lookup k).getD []) else (hs.lookup k).getD []
  | [] => by
    by_cases hk : k = key
    · simp [adjust, hk]
    · have hb : (k == key) = false := by simpa using hk
      simp [adjust, List.lookup_cons, hb, hk]
  | (j, h) :: hs => by
    have ih := lookup_adjust key f k hs
    by_cases hk : k = j
    · subst hk
      by_cases hj : k = key <;> simp [adjust, hj]
    · have hb : (k == j) = false := by simpa using hk
      by_cases hj : j = key
      · subst hj; simp [adjust, List.lookup_cons, hb, hk]
      · simpa [adjust, hj, List.lookup_cons, hb] using ih

@[simp] theorem history_empty (k : String) : empty.history k = [] := rfl

/-- A record changes one history. -/
theorem history_record (b : Bindings) (key : String) (since : UInt32) (x : Binding) (k : String) :
    (b.record key since x).history k =
      if k = key then (b.history k).record since x else b.history k :=
  lookup_adjust key _ k b.histories

theorem history_record_self (b : Bindings) (key : String) (since : UInt32) (x : Binding) :
    (b.record key since x).history key = (b.history key).record since x := by
  rw [history_record, if_pos rfl]

theorem history_record_ne (b : Bindings) {key k : String} (hk : k ≠ key) (since : UInt32)
    (x : Binding) : (b.record key since x).history k = b.history k := by
  rw [history_record, if_neg hk]

/-- The constancy of an unqualified variable is read off its history. -/
theorem constancy_eq (b : Bindings) {v : Variable} (hq : v.isQualified = false) :
    b.constancy v =
      (((b.history v.key).bindingAt? v.span.start).map (·.constancy)).getD .varying := by
  simp [constancy, binding?, hq, bindingAt?]

theorem not_isQualified_of_constant {b : Bindings} {v : Variable}
    (h : b.constancy v = .constant) : v.isQualified = false := by
  cases hq : v.isQualified with
  | false => rfl
  | true => simp [constancy, binding?, hq] at h

end Bindings

end ScriptTaint
