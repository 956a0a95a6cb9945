import ScriptTaint.Proofs.ScopeLaws
import ScriptTaint.Scope.Suppression

/-!
# Resolving suppressions

The resolver goes inwards first, through the first child that contains the span, and then outwards
until a scope silences the detector. Where scopes nest (`ScopeTree.Nested`), no nonempty span lies
in two siblings, so the way inwards passes every scope around the span (`Nested.inwards_eq`). The
way back outwards then meets every scope that silences the detector there, the deepest one first:
`suppression_resolution`.
-/

set_option autoImplicit false

namespace ScriptTaint

/-- Some offset lies in both spans. -/
def Span.Overlaps (a b : Span) : Prop :=
  ∃ i, (a.start ≤ i ∧ i < a.stop) ∧ (b.start ≤ i ∧ i < b.stop)

/-- If any offset lies in both spans, the later of the two starts does. -/
theorem Span.overlaps_iff {a b : Span} :
    a.Overlaps b ↔
      (a.start < a.stop ∧ a.start < b.stop) ∧ (b.start < a.stop ∧ b.start < b.stop) := by
  simp only [Overlaps, UInt32.lt_iff_toNat_lt, UInt32.le_iff_toNat_le]
  constructor
  · rintro ⟨i, ha, hb⟩
    omega
  · intro h
    by_cases hab : a.start.toNat ≤ b.start.toNat
    · exact ⟨b.start, by omega⟩
    · exact ⟨a.start, by omega⟩

instance (a b : Span) : Decidable (a.Overlaps b) := decidable_of_iff _ Span.overlaps_iff.symm

theorem Span.contains_trans {a b s : Span} (hab : a.contains b = true) (hbs : b.contains s = true) :
    a.contains s = true := by
  rw [contains_iff] at *
  exact ⟨UInt32.le_trans hab.1 hbs.1, UInt32.le_trans hbs.2 hab.2⟩

theorem Span.overlaps_of_contains {a b s : Span} (hs : s.start < s.stop)
    (ha : a.contains s = true) (hb : b.contains s = true) : a.Overlaps b := by
  rw [contains_iff] at ha hb
  exact ⟨s.start, ⟨ha.1, UInt32.lt_of_lt_of_le hs ha.2⟩, hb.1, UInt32.lt_of_lt_of_le hs hb.2⟩

/-- A suppression declared on the scope names the detector, and its body contains the span. -/
def Scope.Silences (c : Scope) (detector : String) (s : Span) : Prop :=
  ∃ x ∈ c.suppressions, x.detector = detector ∧ x.body.contains s = true

theorem Scope.any_covers {c : Scope} {detector : String} {s : Span} :
    c.suppressions.any (·.covers detector s) = true ↔ c.Silences detector s := by
  simp [Silences, Suppression.covers]

namespace ScopeTree

variable {t : ScopeTree} {i : Nat} {c d : Scope} {s : Span} {detector : String}

/-- Scopes lie inside their parents, and those with one parent do not overlap. -/
structure Nested (t : ScopeTree) : Prop where
  inside : ∀ c ∈ t.scopes, ∀ p ∈ t.scopes, c.parent = some p.id → p.span.contains c.span = true
  apart : ∀ c ∈ t.scopes, ∀ d ∈ t.scopes, c.parent = d.parent → c.id ≠ d.id →
    ¬ c.span.Overlaps d.span

instance (t : ScopeTree) : Decidable t.Nested :=
  decidable_of_iff (_ ∧ _) ⟨fun h => Nested.mk h.1 h.2, fun h => ⟨h.inside, h.apart⟩⟩

theorem exists_silences :
    (∃ c ∈ t.scopes, c.Silences detector s) ↔
      ∃ x ∈ t.suppressions, x.detector = detector ∧ x.body.contains s = true := by
  constructor
  · rintro ⟨c, hc, x, hx, h⟩
    exact ⟨x, List.mem_flatMap.2 ⟨c, hc, hx⟩, h⟩
  · rintro ⟨x, hx, h⟩
    obtain ⟨c, hc, hx⟩ := List.mem_flatMap.1 hx
    exact ⟨c, hc, x, hx, h⟩

/-! ## The way inwards -/

/-- From the parent of a scope around the span, the way inwards goes to that scope. -/
theorem Nested.inwards_parent (hn : t.Nested) (h : t.WellFormed) (hs : s.start < s.stop)
    {p bound : Nat} (hc : t.get? i = some c) (hp : c.parent = some p) (hd : t.get? p = some d)
    (hin : c.span.contains s = true) : t.inwards s (bound + 1) p = t.inwards s bound i := by
  have hfind : d.children.find? (fun k => (t.get? k).any (·.span.contains s)) = some i := by
    have hi : i ∈ d.children := (h.mem_children hd).2 ⟨c, hc, hp⟩
    have hsome : (d.children.find? fun k => (t.get? k).any (·.span.contains s)).isSome = true :=
      List.find?_isSome.2 ⟨i, hi, by simpa [hc] using hin⟩
    obtain ⟨k, hk⟩ := Option.isSome_iff_exists.1 hsome
    obtain ⟨e, he, hep⟩ := (h.mem_children hd).1 (List.mem_of_find?_eq_some hk)
    have hein : e.span.contains s = true := by simpa [he] using List.find?_some hk
    -- The child that was found and `c` share the start of the span, so they are one.
    have hki : k = i := by
      refine Classical.byContradiction fun hne => ?_
      refine hn.apart e (mem_of_get? he) c (mem_of_get? hc) (hep.trans hp.symm) ?_
        (Span.overlaps_of_contains hs hein hin)
      rwa [h.id_eq he, h.id_eq hc]
    rw [hk, hki]
  rw [inwards]
  simp only [hd, Option.map_some, Option.getD_some, hfind]

/-- The way inwards passes every scope around the span, with enough of the bound left. -/
theorem Nested.inwards_eq (hn : t.Nested) (h : t.WellFormed) (hs : s.start < s.stop)
    (hc : t.get? i = some c) (hin : c.span.contains s = true) :
    ∃ bound, t.inwards s t.size 0 = t.inwards s bound i ∧ t.size ≤ i + bound := by
  induction i, c, hc using h.induction_inwards with
  | root c hc _ => exact ⟨t.size, rfl, by omega⟩
  | child i c p d hc hd hp ih =>
    have hlt := h.parent_lt hc hp
    have hsize := get?_lt hc
    have hparent : d.span.contains c.span = true :=
      hn.inside c (mem_of_get? hc) d (mem_of_get? hd) (by rw [hp, h.id_eq hd])
    obtain ⟨bound, heq, hle⟩ := ih (Span.contains_trans hparent hin)
    obtain ⟨bound, rfl⟩ : ∃ k, bound = k + 1 := ⟨bound - 1, by omega⟩
    refine ⟨bound, ?_, by omega⟩
    rw [heq, hn.inwards_parent h hs hc hp hd hin]

/-- Every scope around a span is met on the way outwards from the innermost one. -/
theorem Nested.mem_ancestors_innermost (hn : t.Nested) (h : t.WellFormed) (hs : s.start < s.stop)
    (hc : c ∈ t.scopes) (hin : c.span.contains s = true) :
    c ∈ t.ancestors (t.inwards s t.size 0) := by
  have hc := h.get?_id hc
  obtain ⟨bound, heq, -⟩ := hn.inwards_eq h hs hc hin
  obtain ⟨path, hpath, -⟩ := h.inwards_path s bound c.id
  rw [heq, hpath, h.ancestors_eq hc]
  exact List.mem_append_right _ List.mem_cons_self

/-! ## The way outwards -/

/-- The first scope on the way outwards that passes a test has every other one that does around
it. -/
theorem WellFormed.mem_ancestors_found (h : t.WellFormed) {test : Scope → Bool} {e : Scope}
    (he : t.get? i = some e) (hd : (t.ancestors i).find? test = some d) (hc : c ∈ t.ancestors i)
    (htest : test c = true) : c ∈ t.ancestors d.id := by
  induction i, e, he using h.induction_inwards with
  | root e he hp =>
    rw [h.ancestors_root he hp] at hc hd
    obtain rfl := List.mem_singleton.1 hc
    obtain rfl : c = d := by simpa [htest] using hd
    rw [h.id_eq he, h.ancestors_root he hp]
    exact List.mem_singleton_self c
  | child i e p f he hf hp ih =>
    rw [h.ancestors_child he hp] at hc hd
    by_cases hte : test e = true
    · obtain rfl : e = d := by simpa [hte] using hd
      rw [h.id_eq he, h.ancestors_child he hp]
      exact hc
    · have hne : c ≠ e := fun hce => hte (hce ▸ htest)
      rw [List.find?_cons_of_neg hte] at hd
      exact ih hd ((List.mem_cons.1 hc).resolve_left hne)

/-- The scope that is found is in the tree and silences the detector. -/
theorem covering?_silences (h : t.covering? detector s = some c) :
    c ∈ t.scopes ∧ c.Silences detector s := by
  obtain ⟨k, -, hfind⟩ := Option.bind_eq_some_iff.1 h
  have htest := List.find?_some hfind
  exact ⟨mem_outwards (List.mem_of_find?_eq_some hfind), Scope.any_covers.1 htest⟩

/-- Where scopes nest, a scope that silences the detector is found, or one inside it. -/
theorem Nested.covering?_mem_ancestors (hn : t.Nested) (h : t.WellFormed)
    (hs : s.start < s.stop) (hd : d ∈ t.scopes) (hsil : d.Silences detector s) :
    ∃ c, t.covering? detector s = some c ∧ d ∈ t.ancestors c.id := by
  have hin : d.span.contains s = true := by
    obtain ⟨x, hx, -, hbody⟩ := hsil
    rwa [h.body_eq (h.get?_id hd) hx] at hbody
  have hmem := hn.mem_ancestors_innermost h hs hd hin
  have htest := Scope.any_covers.2 hsil
  have hsome : ((t.ancestors (t.inwards s t.size 0)).find? fun c =>
      c.suppressions.any (·.covers detector s)).isSome = true :=
    List.find?_isSome.2 ⟨d, hmem, htest⟩
  obtain ⟨c, hc⟩ := Option.isSome_iff_exists.1 hsome
  refine ⟨c, ?_, ?_⟩
  · rw [covering?, innermost?, h.root?_eq hd]
    exact hc
  · obtain ⟨e, he⟩ := exists_get?_of_mem_ancestors hmem
    exact h.mem_ancestors_found he hc hmem htest

end ScopeTree

/-- **A suppression silences exactly what it covers.** A silenced finding has a declared
suppression that names the detector and contains its span. Where scopes nest, every such declaration
silences, and the scope that is found is the deepest one that has one. -/
theorem suppression_resolution (t : SyntaxTree) (detector : String) (s : Span) :
    (t.scopes.isSuppressed detector s = true →
      ∃ x ∈ t.scopes.suppressions, x.detector = detector ∧ x.body.contains s = true) ∧
    (t.scopes.Nested → s.start < s.stop →
      (∃ x ∈ t.scopes.suppressions, x.detector = detector ∧ x.body.contains s = true) →
      t.scopes.isSuppressed detector s = true ∧
      ∃ c ∈ t.scopes.scopes, t.scopes.covering? detector s = some c ∧ c.Silences detector s ∧
        ∀ d ∈ t.scopes.scopes, d.Silences detector s →
          d = c ∨ t.scopes.depth d.id < t.scopes.depth c.id) := by
  have hwf := t.scopes_wellFormed
  refine ⟨fun h => ?_, fun hn hs hx => ?_⟩
  · obtain ⟨c, hc⟩ := Option.isSome_iff_exists.1 h
    obtain ⟨hmem, hsil⟩ := ScopeTree.covering?_silences hc
    exact ScopeTree.exists_silences.1 ⟨c, hmem, hsil⟩
  · obtain ⟨e, he, hsil⟩ := ScopeTree.exists_silences.2 hx
    obtain ⟨c, hc, -⟩ := hn.covering?_mem_ancestors hwf hs he hsil
    obtain ⟨hmem, hcsil⟩ := ScopeTree.covering?_silences hc
    refine ⟨Option.isSome_iff_exists.2 ⟨c, hc⟩, c, hmem, hc, hcsil, fun d hd hdsil => ?_⟩
    obtain ⟨c', hc', hd⟩ := hn.covering?_mem_ancestors hwf hs hd hdsil
    obtain rfl : c = c' := Option.some.inj (hc.symm.trans hc')
    exact hwf.depth_lt (hwf.get?_id hmem) hd

/-- A function with a script block inside it and another one behind it. The first two are annotated
alike. -/
def annotatedTwice : SyntaxTree where
  path := "module.psm1"
  lineStarts := [0]
  root :=
    { span := ⟨0, 90⟩, params := [], annotations := []
      statements :=
        [.function "Get-Report" ⟨0, 60⟩
          { span := ⟨20, 60⟩, params := [], annotations := [⟨"CodeInjection", none, ⟨21, 30⟩⟩]
            statements :=
              [.scriptBlock { span := ⟨35, 55⟩, params := [], statements := []
                              annotations := [⟨"CodeInjection", some "reviewed", ⟨36, 40⟩⟩] }] },
          .scriptBlock { span := ⟨60, 90⟩, params := [], annotations := [], statements := [] }] }

theorem suppression_resolution_annotatedTwice :
    annotatedTwice.scopes.Nested ∧
    annotatedTwice.scopes.isSuppressed "CodeInjection" ⟨42, 50⟩ = true ∧
    ∃ c ∈ annotatedTwice.scopes.scopes,
      annotatedTwice.scopes.covering? "CodeInjection" ⟨42, 50⟩ = some c ∧
      c.Silences "CodeInjection" ⟨42, 50⟩ ∧
      ∀ d ∈ annotatedTwice.scopes.scopes, d.Silences "CodeInjection" ⟨42, 50⟩ →
        d = c ∨ annotatedTwice.scopes.depth d.id < annotatedTwice.scopes.depth c.id := by
  have hn : annotatedTwice.scopes.Nested := by decide +kernel
  have hx : ∃ x ∈ annotatedTwice.scopes.suppressions,
      x.detector = "CodeInjection" ∧ x.body.contains ⟨42, 50⟩ = true := by decide +kernel
  exact ⟨hn, (suppression_resolution annotatedTwice "CodeInjection" ⟨42, 50⟩).2 hn (by decide) hx⟩

end ScriptTaint
