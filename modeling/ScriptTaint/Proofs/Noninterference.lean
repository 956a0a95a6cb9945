import ScriptTaint.Proofs.DocumentOrder
import ScriptTaint.Proofs.Execution

/-!
# Constant expressions have one value

`constant_noninterference`: in any two runs of a script in document order, from any two stores and
with any choices and numbers of rounds, an expression that the analysis calls constant has the same
value whenever it is evaluated.

The proof compares every run with one store `ρ`, in which each variable holds the value of its first
assignment (`settle`). A key is settled (`Bindings.Settled`) at a point of the reading if what was
recorded before it is one constant event. The invariant of a run is `Agrees`: the store has the
values of `ρ` at the settled keys. An assignment keeps it (`Agrees.assign`), since the value it
settles is made of settled ones. A loop keeps it, since its body changes no settled key and settles
none (`settled_body_iff`), so that the invariant at the start of the body and at its end are the
same.
-/

set_option autoImplicit false

namespace ScriptTaint

/-! ## Settled keys -/

namespace Bindings

/-- One constant binding is all that is known of the key. -/
def Settled (b : Bindings) (k : String) : Prop :=
  ∃ e : Event, b.history k = [e] ∧ e.binding.constancy = .constant

theorem Settled.history_ne_nil {b : Bindings} {k : String} (h : b.Settled k) :
    b.history k ≠ [] := by
  obtain ⟨e, he, -⟩ := h
  simp [he]

/-- Only a first record can settle a key. -/
theorem Settled.of_record {b : Bindings} {key : String} {since : UInt32} {x : Binding}
    (h : (b.record key since x).Settled key) : b.history key = [] ∧ x.constancy = .constant := by
  obtain ⟨e, he, hc⟩ := h
  rw [history_record_self, History.record_eq, List.append_eq_singleton_iff] at he
  rcases he with ⟨hnil, hnext⟩ | ⟨-, hnext⟩
  · rw [hnil, History.next_nil] at hnext
    obtain rfl := List.singleton_inj.1 hnext
    exact ⟨hnil, hc⟩
  · cases hnext

/-- Varying events settle nothing. -/
theorem Settled.of_append_varying {b c : Bindings} {k : String} {events : List Event}
    (h : c.Settled k) (he : c.history k = b.history k ++ events)
    (hv : ∀ e ∈ events, e.binding.constancy = .varying) : b.Settled k ∧ events = [] := by
  obtain ⟨e, hc, hconst⟩ := h
  rw [hc, eq_comm, List.append_eq_singleton_iff] at he
  rcases he with ⟨-, rfl⟩ | ⟨hb, rfl⟩
  · rw [hv e (by simp)] at hconst
    cases hconst
  · exact ⟨⟨e, hb, hconst⟩, rfl⟩

/-- Declarations settle nothing, and unsettle what they declare. -/
theorem Settled.of_declare {b : Bindings} {steps : List Step} {k : String}
    (hs : ∀ s ∈ steps, ∃ key since, s = .declare key since) (h : (b.run steps).Settled k) :
    b.Settled k ∧ ∀ since, .declare k since ∉ steps := by
  obtain ⟨events, he, hv⟩ := run_varying (k := k) (b := b) fun _ s hm _ => hs s hm
  obtain ⟨hb, rfl⟩ := h.of_append_varying he hv
  refine ⟨hb, fun since hm => ?_⟩
  have := length_history_run hm b
  simp [he] at this

/-- A variable that is constant at a use is settled at every point of the reading that parts the
steps before the use from those behind it. -/
theorem settled_of_constant {pre rest : List Step} {v : Variable}
    (hpre : ∀ s ∈ pre, s.since ≤ v.span.start) (hrest : ∀ s ∈ rest, v.span.start < s.since)
    (hc : (empty.run (pre ++ rest)).constancy v = .constant) :
    (empty.run pre).Settled v.key := by
  have hle : ∀ e ∈ (empty.run pre).history v.key, e.since ≤ v.span.start :=
    run_le hpre (by simp)
  obtain ⟨later, hlater, hafter, -⟩ := (empty.run pre).extends_run rest v.key
  have hgt : ∀ e ∈ later, v.span.start < e.since := by
    intro e he
    obtain ⟨s, hs, hle⟩ := hafter e he
    exact UInt32.lt_of_lt_of_le (hrest s hs) hle
  rw [constancy_eq _ (not_isQualified_of_constant hc), run_append, hlater,
    History.bindingAt?_append hle hgt] at hc
  exact (History.getLast?_constant_iff (tail_varying_run pre (by simp))).1 hc

theorem settled_of_constant_last {pre : List Step} {v : Variable}
    (hpre : ∀ s ∈ pre, s.since ≤ v.span.start)
    (hc : (empty.run pre).constancy v = .constant) : (empty.run pre).Settled v.key := by
  rw [← List.append_nil pre] at hc
  exact settled_of_constant hpre (by simp) hc

end Bindings

/-! ## The store of first assignments -/

section
variable {V : Type} (I : Interpretation V) (free : Node → V)

/-- A first assignment takes effect, any other step does not. -/
def settleStep (b : Bindings) (ρ : Store V) : Step → Store V
  | .assign (.reference v) e _ _ =>
    if (b.history v.key).isEmpty then ρ.set v.key (e.eval I free ρ) else ρ
  | _ => ρ

/-- The store in which each variable holds the value of its first assignment. -/
def settle : Bindings → Store V → List Step → Store V
  | _, ρ, [] => ρ
  | b, ρ, s :: steps => settle (b.step s) (settleStep I free b ρ s) steps

theorem settle_append (b : Bindings) (ρ : Store V) (l r : List Step) :
    settle I free b ρ (l ++ r) = settle I free (b.run l) (settle I free b ρ l) r := by
  induction l generalizing b ρ with
  | nil => rfl
  | cons s l ih => exact ih ..

/-- What is known is not settled again. -/
theorem settle_of_history_ne_nil {b : Bindings} {k : String} (hk : b.history k ≠ [])
    (ρ : Store V) (steps : List Step) : settle I free b ρ steps k = ρ k := by
  induction steps generalizing b ρ with
  | nil => rfl
  | cons s steps ih =>
    have hstep : settleStep I free b ρ s k = ρ k := by
      unfold settleStep
      split
      · split
        · rename_i v _ _ _ hv
          have hne : k ≠ v.key := by
            rintro rfl
            exact hk (List.isEmpty_iff.1 hv)
          rw [Store.set_ne _ hne]
        · rfl
      · rfl
    obtain ⟨events, he, -, -⟩ := (b.step_recorded s).grows k
    rw [settle, ih (by simp [he, hk]), hstep]

/-- A first assignment settles its variable for good. -/
theorem settle_first {b : Bindings} {v : Variable} (hq : v.isQualified = false)
    (hnil : b.history v.key = []) (ρ : Store V) (e : Node) (op : AssignOp) (since : UInt32)
    (steps : List Step) :
    settle I free b ρ (.assign (.reference v) e op since :: steps) v.key = e.eval I free ρ := by
  rw [settle, settle_of_history_ne_nil]
  · simp [settleStep, hnil]
  · simp [Bindings.step_reference _ hq, Bindings.history_record_self, History.record_eq]

end

/-! ## Places in the reading -/

/-- The keys that a statement binds are assigned in it. -/
theorem Node.Executable.keys_subset_assigned {n : Node} (h : n.Executable) {s : Step}
    (hs : s ∈ n.steps) : ∀ k ∈ s.keys, k ∈ n.assigned := by
  induction h with
  | @assign v e op span hq he =>
    rw [he.steps_assignment, List.mem_singleton] at hs
    subst hs
    intro k hk
    rw [Node.assigned_eq]
    exact List.mem_append_left _ hk
  | @forEach item iterable body span hq hi _ ih =>
    intro k hk
    rw [Node.assigned_eq]
    rcases Node.mem_steps hs with ⟨c, hc, hsc⟩ | hown
    · refine List.mem_append_right _ (List.mem_flatMap.2 ⟨c, hc, ?_⟩)
      rcases List.mem_cons.1 hc with rfl | hc
      · rw [hi.steps_eq_nil] at hsc
        cases hsc
      · exact ih c hc hsc k hk
    · rcases List.mem_cons.1 hown with rfl | hentry
      · obtain rfl := List.mem_singleton.1 hk
        exact List.mem_append_left _ (by simp [assignsHere, hq])
      · obtain ⟨key, hkey, rfl⟩ := Node.mem_loopEntry.1 hentry
        obtain rfl := List.mem_singleton.1 hk
        obtain ⟨c, hc, hk⟩ := List.mem_flatMap.1 hkey
        exact List.mem_append_right _ (List.mem_flatMap.2 ⟨c, List.mem_cons_of_mem _ hc, hk⟩)

/-- The statements `ss` stand behind `p`; the reading of the whole script takes the steps `pre`
before them and `post` behind them. -/
structure Placed (all pre post : List Step) (ss : List Node) (p : UInt32) : Prop where
  split : all = pre ++ ss.flatMap Node.steps ++ post
  before : ∀ s ∈ pre, s.since ≤ p
  behind : ∀ s ∈ post, ∀ n ∈ ss, n.span.stop ≤ s.since
  inOrder : Node.InOrderFrom p ss
  executable : ∀ n ∈ ss, n.Executable

namespace Placed

variable {all pre post : List Step} {n : Node} {ss : List Node} {p : UInt32}

/-- What is read behind the first statement takes effect behind it. -/
theorem stop_le (h : Placed all pre post (n :: ss) p) {s : Step}
    (hs : s ∈ ss.flatMap Node.steps ++ post) : n.span.stop ≤ s.since := by
  rcases List.mem_append.1 hs with hs | hs
  · obtain ⟨c, hc, hs⟩ := List.mem_flatMap.1 hs
    exact UInt32.le_trans (h.inOrder.tail.behind c hc)
      ((h.inOrder.tail.each c hc).steps_mem hs).1
  · exact h.behind s hs n List.mem_cons_self

theorem tail (h : Placed all pre post (n :: ss) p) :
    Placed all (pre ++ n.steps) post ss n.span.stop where
  split := by simp [h.split]
  before := by
    intro s hs
    rcases List.mem_append.1 hs with hs | hs
    · exact UInt32.le_trans (h.before s hs) (UInt32.le_trans h.inOrder.le_head
        (UInt32.le_of_lt h.inOrder.head.here.nonempty))
    · exact (h.inOrder.head.steps_mem hs).2
  behind := fun s hs c hc => h.behind s hs c (List.mem_cons_of_mem _ hc)
  inOrder := h.inOrder.tail
  executable := fun c hc => h.executable c (List.mem_cons_of_mem _ hc)

theorem body {l : Loop} (h : Placed all pre post (n :: ss) p) (hl : n.loop? = some l)
    (he : ∀ c ∈ l.body, c.Executable) :
    Placed all (pre ++ l.head ++ Node.loopEntry l.body l.entry) (ss.flatMap Node.steps ++ post)
      l.body l.entry where
  split := by simp [h.split, Node.steps_loop hl, Loop.steps]
  before := by
    intro s hs
    obtain ⟨hstart, hhead⟩ := h.inOrder.head.head_le hl
    simp only [List.mem_append] at hs
    rcases hs with (hs | hs) | hs
    · exact UInt32.le_trans (h.before s hs) (UInt32.le_trans h.inOrder.le_head hstart)
    · exact hhead s hs
    · obtain ⟨key, -, rfl⟩ := Node.mem_loopEntry.1 hs
      exact UInt32.le_refl _
  behind := fun s hs c hc => UInt32.le_trans
    (h.inOrder.head.child_mem (Node.body_subset_children hl c hc)).2 (h.stop_le hs)
  inOrder := h.inOrder.head.body_from hl
  executable := he

/-- What is read before a statement takes effect before the variables in it. -/
theorem le_start {e : Node} (h : Placed all pre post (n :: ss) p) (he : e ∈ n.children)
    {v : Variable} (hv : .reference v ∈ e.within) : ∀ s ∈ pre, s.since ≤ v.span.start :=
  fun s hs => UInt32.le_trans (h.before s hs) (UInt32.le_trans h.inOrder.le_head
    (UInt32.le_trans (h.inOrder.head.child_mem he).1 ((h.inOrder.head.child he).within_mem hv).1))

/-- The constant variables of an expression that is evaluated before the steps of its statement
are settled when the reading arrives there. -/
theorem settled {e : Node} (h : Placed all pre post (n :: ss) p) (he : e ∈ n.children)
    (hfirst : ∀ s ∈ n.steps, e.span.stop ≤ s.since) {v : Variable}
    (hv : .reference v ∈ e.within) (hc : (Bindings.empty.run all).constancy v = .constant) :
    (Bindings.empty.run pre).Settled v.key := by
  have hsplit : all = pre ++ (n.steps ++ (ss.flatMap Node.steps ++ post)) := by simp [h.split]
  rw [hsplit] at hc
  refine Bindings.settled_of_constant (h.le_start he hv) (fun s hs => ?_) hc
  refine UInt32.lt_of_lt_of_le ((h.inOrder.head.child he).within_mem hv).2 ?_
  rcases List.mem_append.1 hs with hs | hs
  · exact hfirst s hs
  · exact UInt32.le_trans (h.inOrder.head.child_mem he).2 (h.stop_le hs)

end Placed

/-! ## What a loop settles -/

section
variable {item : Variable} {iterable : Node} {body : List Node} {span : Span} {l : Loop}
  (hl : (Node.forEach item iterable body span).loop? = some l) (hfree : iterable.BindingFree)
include hl hfree

/-- Up to the statements of its body a loop over a binding-free iterable only declares. -/
theorem Loop.declares_before_body {s : Step} (hs : s ∈ l.head ++ Node.loopEntry l.body l.entry) :
    ∃ key since, s = .declare key since := by
  obtain rfl := Option.some.inj hl
  simp only [hfree.steps_eq_nil, List.nil_append, List.mem_append, List.mem_singleton] at hs
  rcases hs with rfl | hs
  · exact ⟨_, _, rfl⟩
  · obtain ⟨key, -, rfl⟩ := Node.mem_loopEntry.1 hs
    exact ⟨key, _, rfl⟩

/-- The steps of such a loop take effect behind its iterable. -/
theorem Loop.iterable_le (ho : (Node.forEach item iterable body span).InOrder) {s : Step}
    (hs : s ∈ (Node.forEach item iterable body span).steps) : iterable.span.stop ≤ s.since := by
  have hfrom := ho.body_from hl
  rw [Node.steps_loop hl] at hs
  obtain rfl := Option.some.inj hl
  simp only [Loop.steps, hfree.steps_eq_nil, List.nil_append, List.mem_append, List.mem_singleton,
    List.mem_flatMap] at hs
  rcases hs with rfl | hs | ⟨c, hc, hs⟩
  · exact UInt32.le_refl _
  · obtain ⟨key, -, rfl⟩ := Node.mem_loopEntry.1 hs
    exact UInt32.le_refl _
  · exact UInt32.le_trans (hfrom.behind c hc) ((hfrom.each c hc).steps_mem hs).1

end

section
variable {pre : List Step} {l : Loop} (hl : ∀ c ∈ l.body, c.Executable)
include hl

/-- The body of a loop changes no settled key and settles none. -/
theorem settled_body_iff (k : String) :
    (Bindings.empty.run (pre ++ Node.loopEntry l.body l.entry ++ l.body.flatMap Node.steps)).Settled
      k ↔ (Bindings.empty.run (pre ++ Node.loopEntry l.body l.entry)).Settled k := by
  simp only [Bindings.run_append]
  constructor
  · intro h
    obtain ⟨events, he, hv⟩ := l.body_varying (Bindings.empty.run pre) k
    exact (h.of_append_varying he hv).1
  · intro h
    have hk : ∀ s ∈ l.body.flatMap Node.steps, k ∉ s.keys := by
      intro s hs hk
      obtain ⟨c, hm, hs⟩ := List.mem_flatMap.1 hs
      have hmem : k ∈ l.assigned :=
        List.mem_flatMap.2 ⟨c, hm, (hl c hm).keys_subset_assigned hs k hk⟩
      obtain ⟨f, events, hf, hv⟩ := l.run_entry (Bindings.empty.run pre) hmem
      cases (h.of_append_varying hf hv).2
    obtain ⟨e, he, hc⟩ := h
    exact ⟨e, by rw [Bindings.history_run_of_not_mem hk, he], hc⟩

end

/-! ## Runs -/

section
variable {V : Type} {I : Interpretation V} {ρ σ τ : Store V}

/-- The store has the values of `ρ` at the settled keys. -/
def Agrees (ρ σ : Store V) (b : Bindings) : Prop := ∀ k, b.Settled k → σ k = ρ k

theorem Agrees.set {b : Bindings} (h : Agrees ρ σ b) {key : String} (hk : ¬ b.Settled key) (x : V) :
    Agrees ρ (σ.set key x) b := by
  intro k hs
  have hne : k ≠ key := by
    rintro rfl
    exact hk hs
  rw [Store.set_ne _ hne, h k hs]

variable (free : Node → V) (ρ₀ : Store V) {all pre post : List Step} {ss : List Node} {p : UInt32}

/-- An assignment to a settled key gives it the value it has in the store of first assignments. -/
theorem Agrees.assign {v : Variable} {e : Node} {op : AssignOp} {span : Span}
    (h : Placed all pre post (.assignment (.reference v) e op span :: ss) p)
    (ha : Agrees (settle I free .empty ρ₀ all) σ (Bindings.empty.run pre)) {x : V}
    {choice : Node → V} (hx : op = .assign → x = e.eval I choice σ) :
    Agrees (settle I free .empty ρ₀ all) (σ.set v.key x)
      (Bindings.empty.run (pre ++ (Node.assignment (.reference v) e op span).steps)) := by
  obtain ⟨hq, hfree⟩ := (h.executable _ List.mem_cons_self).of_assignment
  have hchild : e ∈ (Node.assignment (.reference v) e op span).children := by simp [Node.children]
  let b := Bindings.empty.run pre
  let s : Step := .assign (.reference v) e op span.stop
  have hsteps : (Node.assignment (.reference v) e op span).steps = [s] :=
    hfree.steps_assignment (.reference v) op span
  have hall : all = pre ++ s :: (ss.flatMap Node.steps ++ post) := by simp [h.split, hsteps]
  rw [hsteps, Bindings.run_append]
  intro k hk
  change (b.step s).Settled k at hk
  by_cases hkey : k = v.key
  · subst hkey
    rw [b.step_reference hq] at hk
    obtain ⟨hnil, hconst⟩ := hk.of_record
    have hop : op = .assign := by
      cases op with
      | assign => rfl
      | compound => cases hconst
    subst hop
    -- The variables of `e` that are constant have the same value in all three stores.
    have heval : e.eval I choice σ = e.eval I free (settle I free .empty ρ₀ pre) := by
      refine Node.eval_congr I choice free hfree hconst fun u hu hc => ?_
      have hset := Bindings.settled_of_constant_last (h.le_start hchild hu) hc
      rw [ha u.key hset, hall, settle_append, settle_of_history_ne_nil I free hset.history_ne_nil]
    rw [Store.set_self, hx rfl, heval, hall, settle_append, settle_first I free hq hnil]
  · rw [Store.set_ne _ hkey]
    refine ha k ?_
    obtain ⟨f, hf, hc⟩ := hk
    rw [b.step_reference hq, Bindings.history_record_ne _ hkey] at hf
    exact ⟨f, hf, hc⟩

/-- The constant expressions of a log have the values they have in `ρ`. -/
def FixedLog (I : Interpretation V) (free : Node → V) (all : List Step) (ρ : Store V)
    (log : List (Node × V)) : Prop :=
  ∀ m x, (m, x) ∈ log → m.constancy (Bindings.empty.run all) = .constant → x = m.eval I free ρ

theorem FixedLog.append {log log' : List (Node × V)} (h : FixedLog I free all ρ log)
    (h' : FixedLog I free all ρ log') : FixedLog I free all ρ (log ++ log') :=
  fun m x hm => (List.mem_append.1 hm).elim (h m x) (h' m x)

/-- The expression that a statement evaluates first is fixed by what is settled. -/
theorem Placed.fixedLog {n e : Node} (h : Placed all pre post (n :: ss) p)
    (he : e ∈ n.children) (hfree : e.BindingFree) (hfirst : ∀ s ∈ n.steps, e.span.stop ≤ s.since)
    (ha : Agrees ρ σ (Bindings.empty.run pre)) (choice : Node → V) :
    FixedLog I free all ρ (e.observed I choice σ) := by
  intro m x hm hc
  obtain ⟨m', hm', heq⟩ := List.mem_map.1 hm
  obtain ⟨rfl, rfl⟩ := Prod.mk.inj heq
  refine Node.eval_congr I choice free (hfree.of_within hm') hc fun v hv hconst => ?_
  exact ha v.key (h.settled he hfirst (Node.within_trans hm' hv) hconst)

/-- What a run keeps, wherever it stands in the script. The rounds of a loop come back to the
invariant at the start of the body. -/
def Work.Sound (I : Interpretation V) (all : List Step) (ρ : Store V) :
    Work → Store V → List (Node × V) → Store V → Prop
  | .statements ss, σ, log, τ => ∀ pre post p, Placed all pre post ss p →
      Agrees ρ σ (Bindings.empty.run pre) →
      Agrees ρ τ (Bindings.empty.run (pre ++ ss.flatMap Node.steps)) ∧ FixedLog I free all ρ log
  | .rounds item body, σ, log, τ => ∀ pre post entry,
      Placed all (pre ++ Node.loopEntry body entry) post body entry →
      ¬ (Bindings.empty.run (pre ++ Node.loopEntry body entry)).Settled item.key →
      Agrees ρ σ (Bindings.empty.run (pre ++ Node.loopEntry body entry)) →
      Agrees ρ τ (Bindings.empty.run (pre ++ Node.loopEntry body entry)) ∧
        FixedLog I free all ρ log

/-- What an assignment reads is fixed by what is settled before it. -/
theorem Placed.fixedLog_assignment {v : Variable} {e c : Node} {op : AssignOp} {span : Span}
    (h : Placed all pre post (.assignment (.reference v) e op span :: ss) p)
    (hc : c ∈ [.reference v, e]) (ha : Agrees ρ σ (Bindings.empty.run pre)) (choice : Node → V) :
    FixedLog I free all ρ (c.observed I choice σ) := by
  have hfree := (h.executable _ List.mem_cons_self).of_assignment.2
  refine h.fixedLog free hc ?_ (fun s hs => ?_) ha choice
  · rcases List.mem_cons.1 hc with rfl | hc
    · exact .reference v
    · obtain rfl := List.mem_singleton.1 hc
      exact hfree
  · rw [hfree.steps_assignment] at hs
    obtain rfl := List.mem_singleton.1 hs
    exact (h.inOrder.head.child_mem hc).2

theorem Work.Sound.assign {v : Variable} {e : Node} {op : AssignOp} {span : Span} {x : V}
    {seen log : List (Node × V)} (choice : Node → V) (hx : op = .assign → x = e.eval I choice σ)
    (hseen : ∀ y ∈ seen, ∃ c ∈ [.reference v, e], y ∈ c.observed I choice σ)
    (ih : (Work.statements ss).Sound free I all (settle I free .empty ρ₀ all) (σ.set v.key x)
      log τ) :
    (Work.statements (.assignment (.reference v) e op span :: ss)).Sound free I all
      (settle I free .empty ρ₀ all) σ (seen ++ log) τ := by
  intro pre post p h ha
  have hfixed : FixedLog I free all (settle I free .empty ρ₀ all) seen := by
    intro m y hm
    obtain ⟨c, hc, hm⟩ := hseen (m, y) hm
    exact h.fixedLog_assignment free hc ha choice m y hm
  have hrest := ih _ _ _ h.tail (ha.assign free ρ₀ h hx)
  rw [List.flatMap_cons, ← List.append_assoc]
  exact ⟨hrest.1, hfixed.append free hrest.2⟩

theorem Work.Sound.forEach {item : Variable} {iterable : Node} {body : List Node} {span : Span}
    {υ : Store V} {choice : Node → V} {log log' : List (Node × V)}
    (ih : (Work.rounds item body).Sound free I all ρ σ log τ)
    (ih' : (Work.statements ss).Sound free I all ρ τ log' υ) :
    (Work.statements (.forEach item iterable body span :: ss)).Sound free I all ρ σ
      (iterable.observed I choice σ ++ log ++ log') υ := by
  intro pre post p h ha
  obtain ⟨hfree, hexec⟩ : iterable.BindingFree ∧ ∀ c ∈ body, c.Executable := by
    cases h.executable _ List.mem_cons_self with
    | forEach _ hfree hexec => exact ⟨hfree, hexec⟩
  let n := Node.forEach item iterable body span
  obtain ⟨l, hl⟩ : ∃ l, n.loop? = some l := ⟨_, rfl⟩
  obtain ⟨hitem, hbody⟩ : .declare item.key l.entry ∈ l.head ∧ l.body = body := by
    obtain rfl := Option.some.inj hl
    exact ⟨by simp, rfl⟩
  subst hbody
  have hchild : iterable ∈ n.children := by simp [n, Node.children]
  have hfirst : ∀ s ∈ n.steps, iterable.span.stop ≤ s.since :=
    fun s hs => l.iterable_le hl hfree h.inOrder.head hs
  have hentry : Bindings.empty.run (pre ++ l.head ++ Node.loopEntry l.body l.entry) =
      (Bindings.empty.run pre).run (l.head ++ Node.loopEntry l.body l.entry) := by
    simp only [Bindings.run_append]
  have hnew : ∀ k, (Bindings.empty.run (pre ++ l.head ++ Node.loopEntry l.body l.entry)).Settled k →
      (Bindings.empty.run pre).Settled k ∧ k ≠ item.key := by
    intro k hk
    rw [hentry] at hk
    obtain ⟨hb, hdecl⟩ := hk.of_declare fun s hs => l.declares_before_body hl hfree hs
    refine ⟨hb, ?_⟩
    rintro rfl
    exact hdecl l.entry (List.mem_append_left _ hitem)
  have hrounds := ih _ _ _ (h.body hl hexec) (fun hk => (hnew _ hk).2 rfl)
    (fun k hk => ha k (hnew k hk).1)
  have hafter : Agrees ρ τ (Bindings.empty.run (pre ++ n.steps)) := by
    intro k hk
    refine hrounds.1 k ((settled_body_iff hexec k).1 ?_)
    rw [Node.steps_loop hl] at hk
    simpa only [Loop.steps, List.append_assoc] using hk
  have hrest := ih' _ _ _ h.tail hafter
  rw [List.flatMap_cons, ← List.append_assoc]
  exact ⟨hrest.1, ((h.fixedLog free hchild hfree hfirst ha choice).append free hrounds.2).append
    free hrest.2⟩

/-- **Every run keeps the invariant**, and logs only fixed values of constant expressions. -/
theorem Runs.sound {w : Work} {log : List (Node × V)} (h : Runs I w σ log τ) :
    w.Sound free I all (settle I free .empty ρ₀ all) σ log τ := by
  induction h with
  | nil =>
    intro pre post p _ ha
    exact ⟨by simpa using ha, by simp [FixedLog]⟩
  | @assign v e span ss σ τ log choice _ ih =>
    exact .assign free ρ₀ choice (fun _ => rfl) (fun y hy => ⟨e, by simp, hy⟩) ih
  | @compound v e span ss σ τ log choice x _ ih =>
    refine .assign free ρ₀ choice (fun h => by cases h) (fun y hy => ?_) ih
    rcases List.mem_append.1 hy with hy | hy
    · exact ⟨.reference v, by simp, hy⟩
    · exact ⟨e, by simp, hy⟩
  | forEach choice _ _ ih ih' => exact .forEach free ih ih'
  | done =>
    intro pre post entry _ _ ha
    exact ⟨ha, by simp [FixedLog]⟩
  | @round item body σ τ υ log log' x _ _ ih ih' =>
    intro pre post entry h hitem ha
    have hbody := ih _ _ _ h (ha.set hitem x)
    have hback : Agrees (settle I free .empty ρ₀ all) τ
        (Bindings.empty.run (pre ++ Node.loopEntry body entry)) := fun k hk =>
      hbody.1 k ((settled_body_iff (l := ⟨[], body, entry⟩) h.executable k).2 hk)
    have hrest := ih' _ _ _ h hitem hback
    exact ⟨hrest.1, hbody.2.append free hrest.2⟩

end

/-! ## Two runs -/

theorem Block.InOrder.placed {b : Block} (ho : b.InOrder)
    (he : ∀ s ∈ b.statements, s.Executable) :
    Placed b.steps b.paramSteps [] b.statements b.span.start where
  split := by rw [b.steps_eq, List.append_nil]
  before := by
    intro s hs
    obtain ⟨p, -, rfl⟩ := List.mem_map.1 hs
    exact UInt32.le_refl _
  behind := by simp
  inOrder := ho.statements_from
  executable := he

/-- In every run of a script, the constant expressions have their values in one store that does not
depend on the run, those in the log as well as those that come behind the script. -/
theorem Runs.fixed {V : Type} {I : Interpretation V} {b : Block} (ho : b.InOrder)
    (he : ∀ s ∈ b.statements, s.Executable) (free : Node → V) (ρ₀ : Store V) {σ τ : Store V}
    {log : List (Node × V)} (h : Runs I (.statements b.statements) σ log τ) :
    FixedLog I free b.steps (settle I free .empty ρ₀ b.steps) log ∧
      Agrees (settle I free .empty ρ₀ b.steps) τ b.bindings := by
  have hstart : Agrees (settle I free .empty ρ₀ b.steps) σ (Bindings.empty.run b.paramSteps) := by
    intro k hk
    have hdecl : ∀ s ∈ b.paramSteps, ∃ key since, s = .declare key since := by
      intro s hs
      obtain ⟨p, -, rfl⟩ := List.mem_map.1 hs
      exact ⟨_, _, rfl⟩
    obtain ⟨⟨e, hnil, -⟩, -⟩ := hk.of_declare hdecl
    cases hnil
  obtain ⟨hend, hlog⟩ := h.sound free ρ₀ _ _ _ (ho.placed he) hstart
  exact ⟨hlog, hend⟩

/-- **Noninterference.** Take any two runs of a script in document order, from any stores, with any
free choices, items and numbers of rounds. An expression that the analysis calls constant has the
same value whenever it is evaluated in either run, and an expression behind the script has the same
value after both. -/
theorem constant_noninterference {V : Type} {I : Interpretation V} {b : Block} (ho : b.InOrder)
    (he : ∀ s ∈ b.statements, s.Executable) {σ₁ σ₂ τ₁ τ₂ : Store V}
    {log₁ log₂ : List (Node × V)} (h₁ : Runs I (.statements b.statements) σ₁ log₁ τ₁)
    (h₂ : Runs I (.statements b.statements) σ₂ log₂ τ₂) :
    (∀ n x₁ x₂, (n, x₁) ∈ log₁ → (n, x₂) ∈ log₂ → n.constancy b.bindings = .constant →
      x₁ = x₂) ∧
    (∀ n : Node, n.InOrder → n.BindingFree → b.span.start ≤ n.span.start →
      (∀ s ∈ b.statements, s.span.stop ≤ n.span.start) → n.constancy b.bindings = .constant →
      ∀ free₁ free₂, n.eval I free₁ τ₁ = n.eval I free₂ τ₂) := by
  let free : Node → V := fun _ => σ₁ ""
  obtain ⟨hlog₁, hend₁⟩ := h₁.fixed ho he free σ₁
  obtain ⟨hlog₂, hend₂⟩ := h₂.fixed ho he free σ₁
  refine ⟨fun n x₁ x₂ hn₁ hn₂ hc => (hlog₁ n x₁ hn₁ hc).trans (hlog₂ n x₂ hn₂ hc).symm, ?_⟩
  intro n hn hfree hstart hbehind hc free₁ free₂
  refine Node.eval_congr I free₁ free₂ hfree hc fun v hv hconst => ?_
  have hpre : ∀ s ∈ b.steps, s.since ≤ v.span.start := by
    intro s hs
    refine UInt32.le_trans ?_ (hn.within_mem hv).1
    rcases List.mem_append.1 hs with hs | hs
    · obtain ⟨p, -, rfl⟩ := List.mem_map.1 hs
      exact hstart
    · obtain ⟨c, hc, hs⟩ := List.mem_flatMap.1 hs
      exact UInt32.le_trans ((ho.each c hc).steps_mem hs).2 (hbehind c hc)
  have hset := Bindings.settled_of_constant_last hpre hconst
  exact (hend₁ _ hset).trans (hend₂ _ hset).symm

/-- Values that are texts, and operators that join them. -/
def joining : Interpretation String where
  literal := id
  typeLiteral := id
  scriptBlock := fun _ => ""
  automatic := id
  expandable := fun text holes => text ++ String.join holes
  binary := fun _ left right => left ++ right
  array := String.join
  paren := id
  cast := fun _ x => x
  pipeline := id

/-- `$x = 'a'; foreach ($i in $p) { $y = $X + $i }`. -/
def tagging : Block :=
  { span := ⟨0, 50⟩
    params := []
    annotations := []
    statements :=
      [.assignment (.reference ⟨"x", ⟨0, 2⟩⟩) (.literal "a" ⟨5, 8⟩) .assign ⟨0, 8⟩,
       .forEach ⟨"i", ⟨19, 21⟩⟩ (.reference ⟨"p", ⟨25, 27⟩⟩)
        [.assignment (.reference ⟨"y", ⟨31, 33⟩⟩)
          (.binary .add (.reference ⟨"X", ⟨36, 38⟩⟩) (.reference ⟨"i", ⟨41, 43⟩⟩) ⟨36, 43⟩)
          .assign ⟨31, 43⟩]
        ⟨10, 45⟩] }

/-- Two runs of it, one without a round and one with a round, leave the same value for `"$x"`. -/
theorem constant_noninterference_tagging :
    let use : Node := .expandable "" [.reference ⟨"x", ⟨51, 53⟩⟩] ⟨50, 54⟩
    use.constancy tagging.bindings = .constant ∧
    ∃ log₁ log₂ τ₁ τ₂,
      Runs joining (.statements tagging.statements) (fun _ => "u") log₁ τ₁ ∧
      Runs joining (.statements tagging.statements) (fun _ => "w") log₂ τ₂ ∧
      τ₁ "y" ≠ τ₂ "y" ∧
      use.eval joining (fun _ => "f") τ₁ = use.eval joining (fun _ => "g") τ₂ := by
  have ho : tagging.InOrder := by decide +kernel
  have he : ∀ s ∈ tagging.statements, s.Executable := by
    intro s hs
    simp only [tagging, List.mem_cons, List.not_mem_nil, or_false] at hs
    rcases hs with rfl | rfl
    · exact .assign (by decide) (by decide +kernel)
    · refine .forEach (by decide) (by decide +kernel) fun c hc => ?_
      obtain rfl := List.mem_singleton.1 hc
      exact .assign (by decide) (by decide +kernel)
  have hc : (Node.expandable "" [.reference ⟨"x", ⟨51, 53⟩⟩] ⟨50, 54⟩).constancy
      tagging.bindings = .constant := by decide +kernel
  have run₁ : Runs joining (.statements tagging.statements) (fun _ => "u") _ _ :=
    .assign (fun _ => "f") (.forEach (fun _ => "f") .done .nil)
  have run₂ : Runs joining (.statements tagging.statements) (fun _ => "w") _ _ :=
    .assign (fun _ => "g") (.forEach (fun _ => "g")
      (.round "b" (.assign (fun _ => "g") .nil) .done) .nil)
  refine ⟨hc, _, _, _, _, run₁, run₂, by decide +kernel, ?_⟩
  exact (constant_noninterference ho he run₁ run₂).2 _ (by decide +kernel) (by decide +kernel)
    (by decide) (by decide +kernel) hc _ _

end ScriptTaint
