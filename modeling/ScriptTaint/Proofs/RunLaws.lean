import Mathlib.Data.List.Basic
import ScriptTaint.Proofs.Annotations

/-!
# What a run reports

A run is put together from its detectors, each by itself (`Roster.run_configure`). A detector that
runs gives its findings, graded by the ranking, or else one fault. Nothing that it gives depends on
the detectors around it (`Roster.run_split`). If the detectors sign their findings with their own id
and name, as the built-in ones do (`Detector.signs_of_mem_builtin`), the ranking can as well be
applied to the findings of a plain run (`Roster.run_eq_select`), before or after these are divided
by the suppressions of the file (`Ranking.filter_select`).
-/

set_option autoImplicit false

namespace ScriptTaint

/-! ## What a ranking makes of findings -/

namespace Ranking

variable (k : Ranking)

/-- Neither the id nor the name of a detector is disabled. -/
def enables (id name : String) : Bool := decide (id ∉ k.disabled ∧ name ∉ k.disabled)

/-- The finding is not below the least confidence, if one is set. -/
def admits (f : Finding) : Bool :=
  decide (∀ least ∈ k.minConfidence, least.level ≤ f.confidence.level)

/-- The finding with the severity set for the id of a detector, else with the one set for the name,
if there is one. -/
def regrade (id name : String) (f : Finding) : Finding :=
  match k.severity.lookup id, k.severity.lookup name with
  | some severity, _ => { f with severity }
  | none, some severity => { f with severity }
  | none, none => f

/-- The findings of a detector with this id and name as they are reported. -/
def grade (id name : String) (fs : List Finding) : List Finding :=
  (fs.filter k.admits).map (k.regrade id name)

/-- The findings of several detectors as they are reported, each by the id and name it carries. -/
def select (fs : List Finding) : List Finding :=
  (fs.filter fun f => k.enables f.ruleId f.detector && k.admits f).map fun f =>
    k.regrade f.ruleId f.detector f

theorem not_isDisabled (p : Profile) : (!k.isDisabled p) = k.enables p.id p.name := by
  simp [isDisabled, enables]

theorem regrade_eq (p : Profile) (f : Finding) :
    k.regrade p.id p.name f = { f with severity := (k.severity? p).getD f.severity } := by
  unfold regrade severity?
  cases k.severity.lookup p.id with
  | some severity => rfl
  | none => cases k.severity.lookup p.name <;> rfl

theorem admits_eq (f : Finding) : k.admits f = decide (k.leastLevel ≤ f.confidence.level) := by
  unfold admits leastLevel
  cases k.minConfidence with
  | none => cases f.confidence <;> rfl
  | some least => simp

/-- The severity of a finding and its confidence are settled apart. -/
theorem apply_eq_grade (p : Profile) (fs : List Finding) :
    k.apply p fs = k.grade p.id p.name fs := by
  unfold apply grade
  rw [List.filter_map, funext (k.regrade_eq p), funext k.admits_eq]
  rfl

theorem regrade_fields (id name : String) (f : Finding) :
    (k.regrade id name f).detector = f.detector ∧ (k.regrade id name f).span = f.span := by
  unfold regrade
  split <;> exact ⟨rfl, rfl⟩

/-- To divide findings by detector and span and to rank them is the same in either order. -/
theorem filter_select (p : String → Span → Bool) (fs : List Finding) :
    (k.select fs).filter (fun f => p f.detector f.span) =
      k.select (fs.filter fun f => p f.detector f.span) := by
  have hkeep (f : Finding) : p (k.regrade f.ruleId f.detector f).detector
      (k.regrade f.ruleId f.detector f).span = p f.detector f.span := by
    obtain ⟨hdetector, hspan⟩ := k.regrade_fields f.ruleId f.detector f
    rw [hdetector, hspan]
  unfold select
  rw [List.filter_map, List.filter_filter, List.filter_filter]
  congr 1
  refine List.filter_congr fun f _ => ?_
  rw [Function.comp_apply, hkeep, Bool.and_comm]

/-- Without settings every detector runs and every finding is reported as found. -/
theorem grade_default (id name : String) (fs : List Finding) :
    ({} : Ranking).grade id name fs = fs := by
  have hadmits (f : Finding) : ({} : Ranking).admits f = true := by simp [admits]
  have hregrade (f : Finding) : ({} : Ranking).regrade id name f = f := rfl
  rw [grade, List.filter_eq_self.2 fun f _ => hadmits f, funext hregrade, List.map_id']

theorem select_append (fs gs : List Finding) :
    k.select (fs ++ gs) = k.select fs ++ k.select gs := by
  simp only [select, List.filter_append, List.map_append]

end Ranking

/-! ## What a detector gives to a run -/

namespace Detector

/-- The findings of a detector; none if it breaks down. -/
def found (d : Detector) (t : SyntaxTree) (s : SinkRegistry) : List Finding :=
  match d.check t s with
  | .ok fs => fs
  | .error _ => []

/-- The fault of a detector that breaks down. -/
def fault? (d : Detector) (t : SyntaxTree) (s : SinkRegistry) : Option DetectorFault :=
  match d.check t s with
  | .ok _ => none
  | .error e => some ⟨d.profile.id, d.profile.name, e.message⟩

/-- The detector puts its own id and name on what it finds. -/
def Signs (d : Detector) : Prop :=
  ∀ t s, ∀ f ∈ d.found t s, f.ruleId = d.profile.id ∧ f.detector = d.profile.name

theorem signs_ofSites (p : Profile) (reports : CodeSite → Bool) (message : String → String)
    (suggestion : String) : (ofSites p reports message suggestion).Signs := by
  intro t s f hf
  obtain hf | hf := (Finding.spans_foldl_keep _ []).2.1 f hf
  · cases hf
  · obtain ⟨site, -, rfl⟩ := List.mem_map.1 hf
    exact ⟨rfl, rfl⟩

theorem signs_memberInjection : memberInjection.Signs := by
  intro t s f hf
  obtain hf | hf := (Finding.spans_foldl_keep _ []).2.1 f hf
  · cases hf
  · obtain ⟨m, -, rfl⟩ := List.mem_map.1 hf
    exact ⟨rfl, rfl⟩

theorem signs_of_mem_builtin {d : Detector} (hd : d ∈ builtin) : d.Signs := by
  obtain ⟨p, c, message, suggestion, rfl⟩ | rfl | rfl := builtin_cases hd
  · exact signs_ofSites p _ message suggestion
  · exact signs_memberInjection
  · exact signs_ofSites _ _ _ _

/-- Signed findings are ranked as those of their detector. -/
theorem Signs.select_found {d : Detector} (h : d.Signs) (k : Ranking) (t : SyntaxTree)
    (s : SinkRegistry) :
    k.select (d.found t s) =
      if k.enables d.profile.id d.profile.name then
        k.grade d.profile.id d.profile.name (d.found t s)
      else [] := by
  have hsigned := h t s
  generalize d.found t s = fs at hsigned ⊢
  unfold Ranking.select Ranking.grade
  have hfilter : fs.filter (fun f => k.enables f.ruleId f.detector && k.admits f) =
      fs.filter fun f => k.enables d.profile.id d.profile.name && k.admits f := by
    refine List.filter_congr fun f hf => ?_
    obtain ⟨hid, hname⟩ := hsigned f hf
    rw [hid, hname]
  rw [hfilter]
  cases k.enables d.profile.id d.profile.name with
  | false => simp
  | true =>
    simp only [Bool.true_and, if_true]
    refine List.map_congr_left fun f hf => ?_
    obtain ⟨hid, hname⟩ := hsigned f (List.mem_filter.1 hf).1
    rw [hid, hname]

end Detector

/-! ## Runs -/

namespace Roster

variable (r : Roster) (k : Ranking) (t : SyntaxTree)

/-- The detectors that a ranking lets run, in their order. -/
def enabled : List Detector :=
  r.detectors.filter fun d => k.enables d.profile.id d.profile.name

/-- The roster with other detectors. -/
def withDetectors (ds : List Detector) : Roster := { r with detectors := ds }

/-- What a detector adds to the findings and faults of those before it. -/
def adds (state : List Finding × List DetectorFault) (d : Detector) :
    List Finding × List DetectorFault :=
  (state.1 ++ k.grade d.profile.id d.profile.name (d.found t r.sinks),
    state.2 ++ (d.fault? t r.sinks).toList)

theorem foldl_adds (ds : List Detector) (state : List Finding × List DetectorFault) :
    ds.foldl (r.adds k t) state =
      (state.1 ++ ds.flatMap fun d => k.grade d.profile.id d.profile.name (d.found t r.sinks),
        state.2 ++ ds.filterMap fun d => d.fault? t r.sinks) := by
  rw [List.filterMap_eq_flatMap_toList]
  induction ds generalizing state with
  | nil => simp
  | cons d ds ih =>
    rw [List.foldl_cons, ih, adds, List.flatMap_cons, List.flatMap_cons, List.append_assoc,
      List.append_assoc]

/-- **A run is put together from its detectors**: the graded findings of each, and one fault of each
that breaks down. -/
theorem run_configure :
    (r.configure k).run t =
      ((r.enabled k).flatMap fun d => k.grade d.profile.id d.profile.name (d.found t r.sinks),
        (r.enabled k).filterMap fun d => d.fault? t r.sinks) := by
  have henabled : ((r.configure k).detectors.filter fun d =>
      !(r.configure k).ranking.isDisabled d.profile) = r.enabled k :=
    List.filter_congr fun d _ => k.not_isDisabled d.profile
  have hruns : (r.configure k).run t = (r.enabled k).foldl (r.adds k t) ([], []) := by
    unfold run
    rw [henabled]
    refine List.foldl_ext _ _ _ fun state d _ => ?_
    simp only [adds, Detector.found, Detector.fault?, configure]
    cases d.check t r.sinks with
    | ok fs => simp only [k.apply_eq_grade, Option.toList_none, List.append_nil]
    | error e => simp [Ranking.grade]
  rw [hruns, foldl_adds, List.nil_append, List.nil_append]

/-- The detectors before and behind a detector give what they give without it. -/
theorem run_split {before after : List Detector} {d : Detector}
    (h : r.detectors = before ++ d :: after) :
    (r.configure k).run t =
      ((((r.withDetectors before).configure k).run t).1 ++
          (if k.enables d.profile.id d.profile.name then
            k.grade d.profile.id d.profile.name (d.found t r.sinks) else []) ++
          (((r.withDetectors after).configure k).run t).1,
        (((r.withDetectors before).configure k).run t).2 ++
          (if k.enables d.profile.id d.profile.name then (d.fault? t r.sinks).toList else []) ++
          (((r.withDetectors after).configure k).run t).2) := by
  rw [run_configure, run_configure, run_configure]
  simp only [enabled, withDetectors, h, List.filter_append, List.filter_cons]
  split <;> simp [List.filterMap_eq_flatMap_toList]

/-- A ranking can be applied to what a plain run finds, if the detectors sign their findings. -/
theorem run_eq_select (hsigns : ∀ d ∈ r.detectors, d.Signs) :
    ((r.configure k).run t).1 = k.select ((r.configure {}).run t).1 := by
  have hplain : ((r.configure {}).run t).1 = r.detectors.flatMap fun d => d.found t r.sinks := by
    have henabled : r.enabled {} = r.detectors := by simp [enabled, Ranking.enables]
    rw [run_configure, henabled]
    exact List.flatMap_congr fun d _ => Ranking.grade_default _ _ _
  have hselect (ds : List Detector) (hds : ∀ d ∈ ds, d.Signs) :
      ((ds.filter fun d => k.enables d.profile.id d.profile.name).flatMap fun d =>
          k.grade d.profile.id d.profile.name (d.found t r.sinks)) =
        k.select (ds.flatMap fun d => d.found t r.sinks) := by
    induction ds with
    | nil => rfl
    | cons d ds ih =>
      rw [List.flatMap_cons, k.select_append, ← ih fun e he => hds e (List.mem_cons_of_mem _ he),
        (hds d List.mem_cons_self).select_found, List.filter_cons]
      split <;> rfl
  rw [run_configure, hplain]
  exact hselect r.detectors hsigns

end Roster

/-- **A configuration factors through the plain run.** Whatever a roster holds and was told before,
under a ranking that is set last:
the findings of a run are those of its enabled detectors, one after the other, graded by the
ranking, and the faults are one for each enabled detector that breaks down;
a detector that breaks down leaves alone what the detectors before and behind it give;
the report divides the findings of the run in two, each part in the order of the run;
and both parts of the report of the built-in detectors are what the ranking makes of the same
part without a configuration. -/
theorem configuration_factors (r : Roster) (k : Ranking) (t : SyntaxTree) :
    (r.configure k).run t =
      ((r.enabled k).flatMap fun d => k.grade d.profile.id d.profile.name (d.found t r.sinks),
        (r.enabled k).filterMap fun d => d.fault? t r.sinks) ∧
    (∀ before d after e, r.detectors = before ++ d :: after → d.check t r.sinks = .error e →
      (r.configure k).run t =
        ((((r.withDetectors before).configure k).run t).1 ++
            (((r.withDetectors after).configure k).run t).1,
          (((r.withDetectors before).configure k).run t).2 ++
            (if k.enables d.profile.id d.profile.name then
              [⟨d.profile.id, d.profile.name, e.message⟩] else []) ++
            (((r.withDetectors after).configure k).run t).2)) ∧
    ((r.configure k).report t).findings = ((r.configure k).run t).1.filter
      (fun f => !t.scopes.isSuppressed f.detector f.span) ∧
    ((r.configure k).report t).suppressed = ((r.configure k).run t).1.filter
      (fun f => t.scopes.isSuppressed f.detector f.span) ∧
    (({ rules := k } : Config).roster.report t).findings =
      k.select (({} : Config).roster.report t).findings ∧
    (({ rules := k } : Config).roster.report t).suppressed =
      k.select (({} : Config).roster.report t).suppressed := by
  have hselect : (({ rules := k } : Config).roster.run t).1 =
      k.select (({} : Config).roster.run t).1 :=
    Roster.builtin.run_eq_select k t fun d hd => Detector.signs_of_mem_builtin hd
  refine ⟨r.run_configure k t, fun before d after e h he => ?_, Roster.findings_report _ _,
    Roster.suppressed_report _ _, ?_, ?_⟩
  · have hfound : d.found t r.sinks = [] := by rw [Detector.found, he]
    have hfault : d.fault? t r.sinks = some ⟨d.profile.id, d.profile.name, e.message⟩ := by
      rw [Detector.fault?, he]
    rw [r.run_split k t h, hfound, hfault]
    simp only [Ranking.grade, List.filter_nil, List.map_nil, ite_self, List.append_nil,
      Option.toList_some]
  · rw [Roster.findings_report, Roster.findings_report, hselect,
      k.filter_select fun detector span => !t.scopes.isSuppressed detector span]
  · rw [Roster.suppressed_report, Roster.suppressed_report, hselect, k.filter_select]

/-- A detector that breaks down on every file. -/
def brokenDetector : Detector where
  profile :=
    { id := "X001", name := "Custom.Broken", description := "Breaks down", severity := .error,
      confidence := .high, examples := none }
  check := fun _ _ => .error (.said "index out of range")

/-- A detector that breaks down stands between two detectors of one id. The severity set for the id
counts, not the one set for the name. -/
theorem configuration_factors_brokenDetector :
    let r : Roster :=
      { detectors := [.invokeExpression, brokenDetector, .invokeExpression]
        ranking := { disabled := ["IH001"] } }
    let k : Ranking :=
      { severity := [("InjectionRisk.InvokeExpression", .hint), ("IH001", .info)]
        minConfidence := some .medium }
    brokenDetector.check evaluatingTwice r.sinks = .error (.said "index out of range") ∧
    ((r.configure k).run evaluatingTwice).1.map (fun f => (f.severity, f.span)) =
      [(.info, ⟨30, 36⟩), (.info, ⟨80, 86⟩), (.info, ⟨30, 36⟩), (.info, ⟨80, 86⟩)] ∧
    ((r.configure k).run evaluatingTwice).2 =
      [⟨"X001", "Custom.Broken", "index out of range"⟩] := by
  intro r k
  obtain ⟨-, hbroken, -⟩ := configuration_factors r k evaluatingTwice
  rw [hbroken [.invokeExpression] brokenDetector [.invokeExpression] (.said "index out of range")
    rfl rfl]
  decide +kernel

end ScriptTaint
