import ScriptTaint.Proofs.Walks
import ScriptTaint.Walk.Trace

/-!
# Walks that are stopped

A recording visitor notes events, at most one at each visit, and stops the walk if `enough` says so
of the events noted so far. A walk is a fold over the visits (`SyntaxTree.walk_eq_foldl`), so a
recording one is a scan of the events of the whole walk, and ends behind the first event with which
there are enough of them (`SyntaxTree.eventsUntil_eq`). `stopped_walk_prefix` is the main statement.
-/

set_option autoImplicit false

namespace ScriptTaint

section
variable {ε : Type}

/-- Reads events behind those noted, up to the one with which there are enough. -/
def noteUntil (enough : List ε → Bool) (noted : List ε) : List ε → List ε
  | [] => noted
  | e :: es => if enough (noted ++ [e]) then noted ++ [e] else noteUntil enough (noted ++ [e]) es

section
variable {enough : List ε → Bool} {noted events : List ε}

theorem noteUntil_of_never
    (h : ∀ i < events.length, enough (noted ++ events.take (i + 1)) = false) :
    noteUntil enough noted events = noted ++ events := by
  induction events generalizing noted with
  | nil => simp [noteUntil]
  | cons e es ih =>
    have hfirst : enough (noted ++ [e]) = false := by simpa using h 0 (by simp)
    rw [noteUntil, hfirst, if_neg Bool.false_ne_true, ih fun i hi => ?_, List.append_assoc]
    · rfl
    · have hlater := h (i + 1) (by simpa using hi)
      rwa [List.take_succ_cons, List.append_cons] at hlater

theorem noteUntil_of_first {i : Nat} (hi : i < events.length)
    (henough : enough (noted ++ events.take (i + 1)) = true)
    (hfirst : ∀ j < i, enough (noted ++ events.take (j + 1)) = false) :
    noteUntil enough noted events = noted ++ events.take (i + 1) := by
  induction events generalizing noted i with
  | nil => simp at hi
  | cons e es ih =>
    cases i with
    | zero =>
      rw [noteUntil, if_pos (by simpa using henough)]
      simp
    | succ i =>
      have hgo : enough (noted ++ [e]) = false := by simpa using hfirst 0 (by simp)
      rw [List.take_succ_cons, List.append_cons] at henough ⊢
      rw [noteUntil, hgo, if_neg Bool.false_ne_true]
      refine ih (by simpa using hi) henough fun j hj => ?_
      have hlater := hfirst (j + 1) (by omega)
      rwa [List.take_succ_cons, List.append_cons] at hlater

end

/-! ## Recording visitors -/

/-- Notes the event of a visit, if it has one, and stops if there are enough of them. -/
def recordEvent (event : Visit → Option ε) (enough : List ε → Bool) (noted : List ε) (v : Visit) :
    Flow (List ε) :=
  match event v with
  | none => .go noted
  | some e => if enough (noted ++ [e]) then .stop (noted ++ [e]) else .go (noted ++ [e])

theorem state_foldl_recordEvent (event : Visit → Option ε) (enough : List ε → Bool)
    (vs : List Visit) (noted : List ε) :
    (vs.foldl (Flow.meet (recordEvent event enough)) (.go noted)).state =
      noteUntil enough noted (vs.filterMap event) := by
  induction vs generalizing noted with
  | nil => rfl
  | cons v vs ih =>
    rw [List.foldl_cons, List.filterMap_cons]
    simp only [Flow.meet, Flow.andThen, recordEvent]
    cases event v with
    | none => exact ih noted
    | some e =>
      simp only [noteUntil]
      split
      · rw [Flow.foldl_meet_stop]
        rfl
      · exact ih _

namespace SyntaxTree

/-- The events of a walk that stops when there are enough of them. -/
def eventsUntil (t : SyntaxTree) (event : Visit → Option ε) (enough : List ε → Bool) : List ε :=
  (t.walk (recordEvent event enough) []).state

/-- The events of a walk that never stops. -/
def events (t : SyntaxTree) (event : Visit → Option ε) : List ε :=
  t.eventsUntil event fun _ => false

variable (t : SyntaxTree) (event : Visit → Option ε) (enough : List ε → Bool)

theorem eventsUntil_eq :
    t.eventsUntil event enough = noteUntil enough [] (t.visits.filterMap event) := by
  rw [eventsUntil, walk_eq_foldl, state_foldl_recordEvent]

theorem events_eq : t.events event = t.visits.filterMap event := by
  rw [events, eventsUntil_eq]
  exact noteUntil_of_never fun _ _ => rfl

theorem eventsUntil_of_never
    (h : ∀ i < (t.events event).length, enough ((t.events event).take (i + 1)) = false) :
    t.eventsUntil event enough = t.events event := by
  rw [eventsUntil_eq, ← events_eq]
  exact noteUntil_of_never h

theorem eventsUntil_of_first {i : Nat} (hi : i < (t.events event).length)
    (henough : enough ((t.events event).take (i + 1)) = true)
    (hfirst : ∀ j < i, enough ((t.events event).take (j + 1)) = false) :
    t.eventsUntil event enough = (t.events event).take (i + 1) := by
  rw [eventsUntil_eq, ← events_eq]
  exact noteUntil_of_first hi henough hfirst

/-- A visitor that stops with its `n`-th event has noted one even if `n` is zero. -/
theorem eventsUntil_length (n : Nat) :
    t.eventsUntil event (fun es => n ≤ es.length) = (t.events event).take (max n 1) := by
  by_cases hlen : max n 1 ≤ (t.events event).length
  · obtain ⟨i, hi⟩ : ∃ i, max n 1 = i + 1 := ⟨max n 1 - 1, by omega⟩
    rw [hi]
    refine t.eventsUntil_of_first event _ (by omega) (decide_eq_true ?_)
      fun j hj => decide_eq_false ?_
    · rw [List.length_take]
      omega
    · rw [List.length_take]
      omega
  · rw [List.take_of_length_le (by omega)]
    refine t.eventsUntil_of_never event _ fun i hi => decide_eq_false ?_
    rw [List.length_take]
    omega

/-- Taking notes is recording them. -/
theorem traceUntil_eq (enough : List Note → Bool) :
    t.traceUntil enough = t.eventsUntil Visit.note? enough := by
  have hvisitor : takeNote enough = recordEvent Visit.note? enough := by
    funext notes v
    unfold takeNote recordEvent
    cases v.note? <;> rfl
  rw [traceUntil, hvisitor, eventsUntil]

end SyntaxTree

end

/-- **A stopped walk is a prefix of the whole one.** Let a visitor note an event at some visits, and
decide from the events noted so far whether to stop. If it would stop at no event of the whole walk,
it notes all of them; else those up to the first at which it would stop. A visitor that stops once
it has noted `n` events notes the first `n` of them, and one if `n` is zero. -/
theorem stopped_walk_prefix {ε : Type} (t : SyntaxTree) (event : Visit → Option ε)
    (enough : List ε → Bool) :
    t.events event = t.visits.filterMap event ∧
    ((∀ i < (t.events event).length, enough ((t.events event).take (i + 1)) = false) →
      t.eventsUntil event enough = t.events event) ∧
    (∀ i < (t.events event).length, enough ((t.events event).take (i + 1)) = true →
      (∀ j < i, enough ((t.events event).take (j + 1)) = false) →
      t.eventsUntil event enough = (t.events event).take (i + 1)) ∧
    (∀ n, t.eventsUntil event (fun es => n ≤ es.length) = (t.events event).take (max n 1)) ∧
    t.trace = t.events Visit.note? ∧ ∀ n, t.traceUpTo n = t.trace.take (max n 1) := by
  have htrace : t.trace = t.events Visit.note? := (t.events_eq Visit.note?).symm
  refine ⟨t.events_eq event, t.eventsUntil_of_never event enough,
    fun i hi henough hfirst => t.eventsUntil_of_first event enough hi henough hfirst,
    t.eventsUntil_length event, htrace, fun n => ?_⟩
  rw [SyntaxTree.traceUpTo, t.traceUntil_eq, t.eventsUntil_length, htrace]

end ScriptTaint
