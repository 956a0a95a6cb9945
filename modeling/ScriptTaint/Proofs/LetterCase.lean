import ScriptTaint.Flow.Escaping
import ScriptTaint.Sink.CommandLine
import ScriptTaint.Sink.Name

/-!
# Names and letter case

What the analysis reads off a text, it reads off the text in lower case (`Text.Caseless`): the name
of a command or of a type, a switch, an abbreviation of a parameter, a pattern of quotes. Folding
moves no character into or out of a class that holds no letters (`Text.apply_toLower`), so it
commutes with trimming and with every search for a mark.
-/

set_option autoImplicit false

namespace ScriptTaint

namespace Text

theorem toList_lower (s : String) : (lower s).toList = s.toList.map Char.toLower :=
  String.toList_ofList

/-- Folding changes the letters `A`-`Z` only. -/
theorem toLower_cases (c : Char) :
    c.toLower = c ∨ ∃ i < 26, c = Char.ofNat (65 + i) ∧ c.toLower = Char.ofNat (97 + i) := by
  by_cases h : c.val ≥ 'A'.val ∧ c.val ≤ 'Z'.val
  · right
    have hlo : 65 ≤ c.toNat := h.1
    have hhi : c.toNat ≤ 90 := h.2
    obtain ⟨i, hi⟩ : ∃ i, c.toNat = 65 + i := ⟨c.toNat - 65, by omega⟩
    have hc : c = Char.ofNat (65 + i) := by rw [← hi, Char.ofNat_toNat]
    have hfold : ∀ i < 26, (Char.ofNat (65 + i)).toLower = Char.ofNat (97 + i) := by decide
    refine ⟨i, by omega, hc, ?_⟩
    rw [hc]
    exact hfold i (by omega)
  · left
    unfold Char.toLower
    rw [dif_neg h]

/-- A property that tells no capital letter from its small letter does not see folding. -/
theorem apply_toLower {α : Type} (p : Char → α)
    (h : ∀ i < 26, p (Char.ofNat (97 + i)) = p (Char.ofNat (65 + i))) (c : Char) :
    p c.toLower = p c := by
  rcases toLower_cases c with hc | ⟨i, hi, hc, hlower⟩
  · rw [hc]
  · rw [hlower, hc]
    exact h i hi

theorem ofList_map_toLower (cs : List Char) :
    String.ofList (cs.map Char.toLower) = lower (String.ofList cs) := by
  rw [lower, String.toList_ofList]

theorem lower_lower (s : String) : lower (lower s) = lower s := by
  have htwice (c : Char) : c.toLower.toLower = c.toLower := apply_toLower Char.toLower (by decide) c
  unfold lower
  rw [String.toList_ofList, List.map_map]
  congr 1
  exact List.map_congr_left fun c _ => htwice c

/-- The function has one value for all texts that differ in the case of ASCII letters only. -/
def Caseless {α : Type} (f : String → α) : Prop := ∀ s, f (lower s) = f s

theorem Caseless.eq {α : Type} {f : String → α} (hf : Caseless f) {s s' : String}
    (h : lower s = lower s') : f s = f s' := by
  rw [← hf s, h, hf]

theorem trim_lower (s : String) : trim (lower s) = lower (trim s) := by
  have hblank : isBlank ∘ Char.toLower = isBlank := by
    funext c
    exact apply_toLower isBlank (by decide) c
  unfold trim lower
  simp only [String.toList_ofList, List.dropWhile_map, ← List.map_reverse, hblank]

theorem caseless_abbreviates (full : String) :
    Caseless fun written => abbreviates written full := by
  intro s
  unfold abbreviates
  simp only [lower_lower, toList_lower, List.isEmpty_map]

end Text

open Text

theorem caseless_commandName : Caseless commandName := by
  intro s
  unfold commandName
  rw [trim_lower, lower_lower]

theorem caseless_typeName : Caseless typeName := by
  intro s
  have hopen : (· == '[') ∘ Char.toLower = (· == '[') := by
    funext c
    exact apply_toLower (· == '[') (by decide) c
  have hclose : (· == ']') ∘ Char.toLower = (· == ']') := by
    funext c
    exact apply_toLower (· == ']') (by decide) c
  unfold typeName
  simp only [toList_lower, List.dropWhile_map, ← List.map_reverse, hopen, hclose,
    ofList_map_toLower, lower_lower]

theorem caseless_isSwitch : Caseless isSwitch := by
  have hmark (m : Char) (h : ∀ i < 26,
      (some (Char.ofNat (97 + i)) == some m) = (some (Char.ofNat (65 + i)) == some m))
      (s : String) : ((lower s).toList.head? == some m) = (s.toList.head? == some m) := by
    rw [toList_lower, List.head?_map]
    cases s.toList.head? with
    | none => rfl
    | some c => exact apply_toLower (fun c => some c == some m) h c
  intro s
  unfold isSwitch
  rw [hmark '-' (by decide), hmark '/' (by decide)]

/-- Neither quotes nor the backslash are letters. -/
theorem isQuoteRun_map_toLower (cs : List Char) :
    isQuoteRun (cs.map Char.toLower) = isQuoteRun cs := by
  have hquote (c : Char) : quotes.contains c.toLower = quotes.contains c :=
    apply_toLower (fun c => quotes.contains c) (by decide) c
  have hbackslash (c : Char) : (c.toLower = '\\') = (c = '\\') :=
    apply_toLower (fun c => c = '\\') (by decide) c
  induction cs using isQuoteRun.induct with
  | case1 => rfl
  | case2 c cs ih =>
    have hself : Char.toLower '\\' = '\\' := by decide
    simp only [List.map_cons, hself, isQuoteRun, hquote, ih]
  | case3 c cs hne ih =>
    rw [List.map_cons]
    by_cases hc : c = '\\'
    · -- A backslash at the end escapes nothing.
      subst hc
      cases cs with
      | nil => rfl
      | cons d ds => exact absurd rfl (hne d ds rfl)
    · have hc' : c.toLower ≠ '\\' := fun h => hc ((hbackslash c).mp h)
      rw [isQuoteRun.eq_3 _ _ fun _ _ h => absurd h hc', isQuoteRun.eq_3 _ _ hne, hquote, ih]

theorem caseless_isQuotePattern : Caseless isQuotePattern := by
  intro s
  unfold isQuotePattern
  rw [toList_lower, List.isEmpty_map, isQuoteRun_map_toLower]

namespace Variable

theorem key_eq {v v' : Variable} (h : lower v.name = lower v'.name) : v.key = v'.key := by
  unfold key
  rw [h]

theorem isQualified_eq {v v' : Variable} (h : lower v.name = lower v'.name) :
    v.isQualified = v'.isQualified := by
  unfold isQualified
  rw [key_eq h]

theorem isAutomatic_eq {v v' : Variable} (h : lower v.name = lower v'.name) :
    v.isAutomatic = v'.isAutomatic := by
  unfold isAutomatic
  rw [key_eq h]

end Variable

end ScriptTaint
