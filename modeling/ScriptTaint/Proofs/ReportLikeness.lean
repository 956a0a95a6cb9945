import ScriptTaint.Proofs.Annotations
import ScriptTaint.Proofs.SinkLikeness

/-!
# Reports of files that are alike

Alike files have scopes of the same structure with alike spans (`SyntaxTree.Like.scopes`), so that a
suppression silences a finding of the one if it silences the like finding of the other
(`ScopeTree.Like.isSuppressed_eq`). Their findings are alike, detector by detector
(`SyntaxTree.Like.run`). Hence so are their reports (`SyntaxTree.Like.report`): the same findings
stand and the same are silenced, in the same order, but for messages, where texts may differ, and
for spans and places, where offsets may.
-/

set_option autoImplicit false

namespace ScriptTaint

open List (Forall₂)

variable {φ : Likeness}

/-! ## Scopes -/

namespace Span.Like

variable {s s' u u' : Span}

theorem contains_eq (h : s.Like φ s') (hu : u.Like φ u') : s.contains u = s'.contains u' := by
  unfold contains
  rw [decide_eq_decide.2 (φ.le_iff h.start hu.start), decide_eq_decide.2 (φ.le_iff hu.stop h.stop)]

theorem eq_iff (h : s.Like φ s') (hu : u.Like φ u') : s = u ↔ s' = u' := by
  rw [Span.mk.injEq, Span.mk.injEq, φ.eq_iff h.start hu.start, φ.eq_iff h.stop hu.stop]

end Span.Like

structure Suppression.Like (φ : Likeness) (s s' : Suppression) : Prop where
  detector : s.detector = s'.detector
  body : s.body.Like φ s'.body

theorem Suppression.Like.covers_eq {s s' : Suppression} (h : s.Like φ s') (detector : String)
    {u u' : Span} (hu : u.Like φ u') : s.covers detector u = s'.covers detector u' := by
  unfold covers
  rw [h.detector, h.body.contains_eq hu]

theorem Block.Like.suppressions {b b' : Block} (h : b.Like φ b') :
    Forall₂ (Suppression.Like φ) b.suppressions b'.suppressions := by
  cases h with
  | mk hspan _ hannotations _ => exact List.rel_map (fun _ _ ha => ⟨ha.rule, hspan⟩) hannotations

structure Scope.Like (φ : Likeness) (s s' : Scope) : Prop where
  id : s.id = s'.id
  parent : s.parent = s'.parent
  children : s.children = s'.children
  span : s.span.Like φ s'.span
  suppressions : Forall₂ (Suppression.Like φ) s.suppressions s'.suppressions

/-- The scopes stand to each other in the same way. -/
def ScopeTree.Like (φ : Likeness) (t t' : ScopeTree) : Prop :=
  Forall₂ (Scope.Like φ) t.scopes t'.scopes

namespace ScopeTree.Like

variable {t t' : ScopeTree}

theorem size_eq (h : t.Like φ t') : t.size = t'.size := h.length_eq

theorem get? (h : t.Like φ t') (i : Nat) : Option.Rel (Scope.Like φ) (t.get? i) (t'.get? i) :=
  rel_getElem? h i

theorem create (h : t.Like φ t') (kind kind' : ScopeKind) (parent : Option Nat) {b b' : Block}
    (hb : b.Like φ b') (name name' : Option String) :
    (t.create kind parent b name).Like φ (t'.create kind' parent b' name') := by
  refine List.rel_append (List.rel_map (fun s s' hs => ?_) h)
    (.cons ⟨h.size_eq, rfl, rfl, hb.span, hb.suppressions⟩ .nil)
  have hadopt : (parent = some s.id) = (parent = some s'.id) := by rw [hs.id]
  simp only [hadopt]
  split
  · exact ⟨hs.id, hs.parent, by rw [hs.children, h.size_eq], hs.span, hs.suppressions⟩
  · exact hs

/-- Alike nodes add alike scopes. -/
theorem addScopes {n n' : Node} (hn : n.Like φ n') : ∀ (scope : Nat) (t t' : ScopeTree),
    t.Like φ t' → (n.addScopes scope t).Like φ (n'.addScopes scope t') := by
  refine Node.Like.induction_parts hn (fun m m' _ hb hb' ih scope t t' h => ?_)
    fun m m' b b' _ hb hb' hbb ih scope t t' h => ?_
  · rw [Node.addScopes_children hb, Node.addScopes_children hb']
    exact List.rel_foldl (fun t t' h c c' hc => hc scope t t' h) h ih
  · obtain ⟨kind, name, hadd⟩ := m.addScopes_block hb scope t
    obtain ⟨kind', name', hadd'⟩ := m'.addScopes_block hb' scope t'
    rw [hadd, hadd', Block.addScopes_eq, Block.addScopes_eq, h.size_eq]
    exact List.rel_foldl (fun t t' h c c' hc => hc _ t t' h) (h.create _ _ _ hbb _ _) ih

/-- The way inwards is the same. -/
theorem inwards_eq (h : t.Like φ t') {s s' : Span} (hs : s.Like φ s') (bound i : Nat) :
    t.inwards s bound i = t'.inwards s' bound i := by
  induction bound generalizing i with
  | zero => rfl
  | succ bound ih =>
    have hchildren : ((t.get? i).map (·.children)).getD [] =
        ((t'.get? i).map (·.children)).getD [] := by
      rw [map_eq_of_rel (h.get? i) fun _ _ hi => hi.children]
    have hcontains (c : Nat) : (t.get? c).any (·.span.contains s) =
        (t'.get? c).any (·.span.contains s') :=
      any_eq_of_rel (h.get? c) fun _ _ hc => hc.span.contains_eq hs
    simp only [inwards, hchildren, hcontains]
    split
    · rfl
    · exact ih _

theorem innermost?_eq (h : t.Like φ t') {s s' : Span} (hs : s.Like φ s') :
    t.innermost? s = t'.innermost? s' := by
  have hroot : t.root? = t'.root? := map_eq_of_rel (rel_head? h) fun _ _ hi => hi.id
  have hinwards : t.inwards s t.size = t'.inwards s' t'.size := by
    funext i
    rw [h.size_eq]
    exact h.inwards_eq hs _ i
  unfold innermost?
  rw [hroot, hinwards]

theorem outwards (h : t.Like φ t') (bound i : Nat) :
    Forall₂ (Scope.Like φ) (t.outwards bound i) (t'.outwards bound i) := by
  induction bound generalizing i with
  | zero => exact .nil
  | succ bound ih =>
    have hi := h.get? i
    simp only [ScopeTree.outwards]
    generalize t.get? i = o, t'.get? i = o' at hi ⊢
    cases hi with
    | none => exact .nil
    | some hs =>
      refine .cons hs ?_
      rw [hs.parent]
      generalize Scope.parent _ = parent
      cases parent with
      | none => exact .nil
      | some p => exact ih p

/-- The same suppressions silence a detector at alike spans. -/
theorem isSuppressed_eq (h : t.Like φ t') (detector : String) {s s' : Span} (hs : s.Like φ s') :
    t.isSuppressed detector s = t'.isSuppressed detector s' := by
  unfold isSuppressed covering?
  rw [h.innermost?_eq hs]
  cases t'.innermost? s' with
  | none => rfl
  | some i =>
    have hancestors : Forall₂ (Scope.Like φ) (t.ancestors i) (t'.ancestors i) := by
      unfold ancestors
      rw [h.size_eq]
      exact h.outwards _ i
    have hfind := rel_find? hancestors
      (p := fun c => c.suppressions.any (·.covers detector s))
      (q := fun c => c.suppressions.any (·.covers detector s')) fun c c' hc =>
        any_eq_of_forall₂ hc.suppressions fun _ _ hx => hx.covers_eq detector hs
    rw [Option.bind_some, Option.bind_some, ← Option.not_isNone, ← Option.not_isNone,
      isNone_eq_of_rel hfind]

end ScopeTree.Like

theorem SyntaxTree.Like.scopes {t t' : SyntaxTree} (h : t.Like φ t') :
    t.scopes.Like φ t'.scopes := by
  have hroot : (ScopeTree.empty.create .script none t.root none).Like φ
      (ScopeTree.empty.create .script none t'.root none) :=
    ScopeTree.Like.create .nil _ _ _ h.root _ _
  unfold SyntaxTree.scopes
  rw [Block.addScopes_eq, Block.addScopes_eq]
  exact List.rel_foldl (R := Node.Like φ)
    (fun t t' h n n' hn => ScopeTree.Like.addScopes hn _ t t' h) hroot h.root.nodes

/-! ## Findings -/

/-- The findings say the same of spans that may stand for each other. Where texts only stand for
themselves they have one message, and where offsets only stand for themselves one place. -/
structure Finding.Like (φ : Likeness) (f f' : Finding) : Prop where
  ruleId : f.ruleId = f'.ruleId
  detector : f.detector = f'.detector
  severity : f.severity = f'.severity
  confidence : f.confidence = f'.confidence
  message : (∀ s s', φ.text s s' → s = s') → f.message = f'.message
  span : f.span.Like φ f'.span
  file : f.file = f'.file
  place : (∀ o o', φ.offset o o' → o = o') → f.line = f'.line ∧ f.column = f'.column
  suggestion : f.suggestion = f'.suggestion

theorem Finding.firstPerSpan_like {fs fs' : List Finding} (h : Forall₂ (Finding.Like φ) fs fs') :
    Forall₂ (Finding.Like φ) (firstPerSpan fs) (firstPerSpan fs') := by
  refine List.rel_foldl (fun kept kept' hkept f f' hf => ?_) .nil h
  have hseen : kept.any (·.span == f.span) = kept'.any (·.span == f'.span) :=
    any_eq_of_forall₂ hkept fun g g' hg => by
      simp only [beq_eq_decide, decide_eq_decide.2 (hg.span.eq_iff hf.span)]
  rw [hseen]
  split
  · exact hkept
  · exact List.rel_append hkept (.cons hf .nil)

theorem Ranking.apply_like (k : Ranking) (p : Profile) {fs fs' : List Finding}
    (h : Forall₂ (Finding.Like φ) fs fs') :
    Forall₂ (Finding.Like φ) (k.apply p fs) (k.apply p fs') := by
  refine forall₂_filter (List.rel_map (fun f f' hf => ?_) h) fun f f' hf => ?_
  · exact { hf with severity := by rw [hf.severity] }
  · rw [hf.confidence]

namespace SyntaxTree.Like

variable {t t' : SyntaxTree} (h : t.Like φ t')

include h

theorem finding (p : Profile) {s s' : Span} (hs : s.Like φ s') {message message' : String}
    (hm : (∀ s s', φ.text s s' → s = s') → message = message') (suggestion : String) :
    (p.finding t s message suggestion).Like φ (p.finding t' s' message' suggestion) where
  ruleId := rfl
  detector := rfl
  severity := rfl
  confidence := rfl
  message := hm
  span := hs
  file := h.path
  place hoffset := by
    simp only [Profile.finding, location, h.lineStarts, hoffset _ _ hs.start, and_self]
  suggestion := rfl

theorem check_ofSites (r : SinkRegistry) (p : Profile) {reports : CodeSite → Bool}
    (hreports : ∀ s s' : CodeSite, s.Like φ s' → reports s = reports s')
    (message : String → String) (suggestion : String) :
    ∃ fs fs', (Detector.ofSites p reports message suggestion).check t r = .ok fs ∧
      (Detector.ofSites p reports message suggestion).check t' r = .ok fs' ∧
      Forall₂ (Finding.Like φ) fs fs' := by
  refine ⟨_, _, rfl, rfl, Finding.firstPerSpan_like (List.rel_map (fun s s' hs => ?_)
    (forall₂_filter (h.codeSites r) hreports))⟩
  exact h.finding p hs.span (fun htext => by rw [htext _ _ hs.sink]) suggestion

theorem check_memberInjection (r : SinkRegistry) :
    ∃ fs fs', Detector.memberInjection.check t r = .ok fs ∧
      Detector.memberInjection.check t' r = .ok fs' ∧ Forall₂ (Finding.Like φ) fs fs' := by
  refine ⟨_, _, rfl, rfl, Finding.firstPerSpan_like (List.rel_map (fun m m' hm => ?_)
    h.computedMembers)⟩
  refine h.finding _ hm.span (fun _ => ?_) _
  unfold Detector.ComputedMember.message
  rw [hm.isStatic, hm.isInvoked]

/-- A built-in detector finds the like in alike files. -/
theorem check (r : SinkRegistry) {d : Detector} (hd : d ∈ Detector.builtin) :
    ∃ fs fs', d.check t r = .ok fs ∧ d.check t' r = .ok fs' ∧ Forall₂ (Finding.Like φ) fs fs' := by
  obtain ⟨p, c, message, suggestion, rfl⟩ | rfl | rfl := Detector.builtin_cases hd
  · refine h.check_ofSites r p (fun s s' hs => ?_) message suggestion
    unfold Detector.isTaintedSite
    rw [hs.category, hs.tainted]
  · exact h.check_memberInjection r
  · exact h.check_ofSites r _ (fun s s' hs => by rw [hs.category, hs.escaped]) _ _

/-- The built-in detectors have alike findings, and break down for the same reasons. -/
theorem run {r : Roster} (hr : r.detectors = Detector.builtin) :
    Forall₂ (Finding.Like φ) (r.run t).1 (r.run t').1 ∧ (r.run t).2 = (r.run t').2 := by
  have hdetectors : Forall₂ (fun d d' => d ∈ Detector.builtin ∧ d = d')
      (r.detectors.filter fun d => !r.ranking.isDisabled d.profile)
      (r.detectors.filter fun d => !r.ranking.isDisabled d.profile) :=
    List.forall₂_same.2 fun d hd => ⟨hr ▸ (List.mem_filter.1 hd).1, rfl⟩
  refine List.rel_foldl (R := fun d d' => d ∈ Detector.builtin ∧ d = d')
    (P := fun s s' : List Finding × List DetectorFault =>
      Forall₂ (Finding.Like φ) s.1 s'.1 ∧ s.2 = s'.2)
    (fun s s' hs d d' hd => ?_) ⟨.nil, rfl⟩ hdetectors
  obtain ⟨hmem, rfl⟩ := hd
  obtain ⟨fs, fs', hfs, hfs', hlike⟩ := h.check r.sinks hmem
  simp only [hfs, hfs']
  exact ⟨List.rel_append hs.1 (r.ranking.apply_like d.profile hlike), hs.2⟩

end SyntaxTree.Like

structure Report.Like (φ : Likeness) (p p' : Report) : Prop where
  path : p.path = p'.path
  findings : Forall₂ (Finding.Like φ) p.findings p'.findings
  suppressed : Forall₂ (Finding.Like φ) p.suppressed p'.suppressed
  faults : p.faults = p'.faults

/-- **Alike files have alike reports.** -/
theorem SyntaxTree.Like.report {t t' : SyntaxTree} (h : t.Like φ t') {r : Roster}
    (hr : r.detectors = Detector.builtin) : (r.report t).Like φ (r.report t') := by
  obtain ⟨hfindings, hfaults⟩ := h.run hr
  have hsuppressed (f f' : Finding) (hf : f.Like φ f') :
      t.scopes.isSuppressed f.detector f.span = t'.scopes.isSuppressed f'.detector f'.span := by
    rw [hf.detector]
    exact h.scopes.isSuppressed_eq _ hf.span
  constructor
  · exact h.path
  · rw [Roster.findings_report, Roster.findings_report]
    exact forall₂_filter hfindings fun f f' hf => by rw [hsuppressed f f' hf]
  · rw [Roster.suppressed_report, Roster.suppressed_report]
    exact forall₂_filter hfindings hsuppressed
  · exact hfaults

end ScriptTaint
