import ScriptTaint.Proofs.LetterCase
import ScriptTaint.Proofs.Related
import ScriptTaint.Sink.Alias

/-!
# Spellings of command names

A command can be written with blanks around it, behind a path or module, with the suffix `.exe` and
in any case (`Spelling`). `commandName` undoes these one after the other, and each step leaves what
the next one needs: blanks go first, so that the suffix is at the end; a path ends in a separator,
which is no blank, so trimming cannot take more than the front of the path
(`lastSegment_trim_append`); and no letter is a blank or a separator, so case does not matter to
either.

`spellings_identified` is the main statement: all spellings of a bare name are one command.
-/

set_option autoImplicit false

namespace ScriptTaint

/-- The one is a capital letter `A`-`Z` and the other is its small letter. -/
def Text.IsCapitalOf (c d : Char) : Prop :=
  ∃ i < 26, c = Char.ofNat (65 + i) ∧ d = Char.ofNat (97 + i)

/-- The texts differ in the case of letters `A`-`Z` only. -/
def Text.IsVariant (s s' : String) : Prop :=
  List.Forall₂ (fun c d => c = d ∨ IsCapitalOf c d ∨ IsCapitalOf d c) s.toList s'.toList

/-- The text is empty or ends in a separator. -/
def isPath (p : String) : Bool := p.toList.getLast?.all isSeparator

/-- A text that can stand between two separators, with no blanks at its ends. -/
structure IsSegment (s : String) : Prop where
  first : s.toList.head?.any Text.isBlank = false
  last : s.toList.getLast?.any Text.isBlank = false
  noSeparator : s.toList.any isSeparator = false

/-- A name with nothing around it that a spelling could add. -/
structure IsBareName (n : String) : Prop extends IsSegment n where
  noSuffix : ".exe".toList.isSuffixOf (Text.lower n).toList = false

/-- A way of writing a command name. -/
structure Spelling (n : String) where
  path : String
  suffix : String
  /-- The path, the name and the suffix in any case. -/
  written : String
  before : String
  after : String
  path_ends : isPath path = true
  suffix_eq : suffix = "" ∨ suffix = ".exe"
  written_variant : Text.IsVariant written (path ++ n ++ suffix)
  before_blank : before.toList.all Text.isBlank = true
  after_blank : after.toList.all Text.isBlank = true

def Spelling.text {n : String} (s : Spelling n) : String := s.before ++ s.written ++ s.after

/-! ## Case and blanks -/

namespace Text

theorem IsCapitalOf.toLower_eq {c d : Char} (h : IsCapitalOf c d) : c.toLower = d.toLower := by
  obtain ⟨i, hi, rfl, rfl⟩ := h
  have hfold : ∀ i < 26, (Char.ofNat (65 + i)).toLower = (Char.ofNat (97 + i)).toLower := by decide
  exact hfold i hi

theorem IsVariant.lower_eq {s s' : String} (h : IsVariant s s') : lower s = lower s' := by
  refine congrArg String.ofList (map_eq_of_forall₂ (h.imp fun c d hcd => ?_))
  rcases hcd with rfl | hcd | hcd
  · rfl
  · exact hcd.toLower_eq
  · exact hcd.toLower_eq.symm

theorem dropWhile_isBlank {cs : List Char} (h : cs.head?.any isBlank = false) :
    cs.dropWhile isBlank = cs := by
  cases cs with
  | nil => rfl
  | cons c cs =>
    have hc : isBlank c = false := h
    exact List.dropWhile_cons_of_neg (by simp [hc])

/-- Blanks around a text are trimmed away, also if the text is blank itself. -/
theorem trim_surrounded {before after : String} (hbefore : before.toList.all isBlank = true)
    (hafter : after.toList.all isBlank = true) (s : String) :
    trim (before ++ s ++ after) = trim s := by
  rw [List.all_eq_true] at hbefore hafter
  unfold trim
  rw [String.toList_append, String.toList_append, List.append_assoc,
    List.dropWhile_append_of_pos hbefore, List.dropWhile_append]
  split
  · rename_i hempty
    have hnone : (after.toList ++ []).dropWhile isBlank = [] :=
      List.dropWhile_append_of_pos hafter
    rw [List.append_nil] at hnone
    rw [List.isEmpty_iff.1 hempty, hnone]
  · rw [List.reverse_append, List.dropWhile_append_of_pos fun c hc =>
      hafter c (List.mem_reverse.1 hc)]

theorem lower_append (s s' : String) : lower (s ++ s') = lower s ++ lower s' := by
  unfold lower
  rw [String.toList_append, List.map_append, String.ofList_append]

theorem before?_append (s tail : String) : before? tail (s ++ tail) = some s := by
  unfold before?
  rw [String.toList_append, if_pos (by simp)]
  simp

theorem before?_eq_none {s tail : String} (h : tail.toList.isSuffixOf s.toList = false) :
    before? tail s = none := by
  unfold before?
  rw [if_neg (Bool.eq_false_iff.1 h)]

end Text

/-! ## Segments -/

theorem isBlank_of_isSeparator {c : Char} (h : isSeparator c = true) : Text.isBlank c = false := by
  simp only [isSeparator, Bool.or_eq_true, beq_iff_eq] at h
  rcases h with rfl | rfl <;> decide

theorem lastSegment_lower (s : String) :
    lastSegment (Text.lower s) = Text.lower (lastSegment s) := by
  have hseparator : (fun c => !isSeparator c) ∘ Char.toLower = fun c => !isSeparator c := by
    funext c
    exact Text.apply_toLower (fun c => !isSeparator c) (by decide) c
  unfold lastSegment
  rw [Text.toList_lower, ← List.map_reverse, List.takeWhile_map, hseparator, ← List.map_reverse,
    Text.ofList_map_toLower]

/-- What trimming leaves of a path ends in a separator. -/
theorem isSeparator_of_isPath {p : String} (hp : isPath p = true) {c : Char}
    (hc : (p.toList.dropWhile Text.isBlank).getLast? = some c) : isSeparator c = true := by
  obtain ⟨front, hfront⟩ := List.dropWhile_suffix Text.isBlank (l := p.toList)
  rwa [isPath, ← hfront, List.getLast?_append, hc, Option.some_or] at hp

/-- Trimming takes nothing from a segment behind a path. -/
theorem toList_trim_append {p m : String} (hp : isPath p = true) (hm : IsSegment m) :
    (Text.trim (p ++ m)).toList = p.toList.dropWhile Text.isBlank ++ m.toList := by
  have hfront : (p.toList ++ m.toList).dropWhile Text.isBlank =
      p.toList.dropWhile Text.isBlank ++ m.toList := by
    rw [List.dropWhile_append]
    split
    · rename_i hempty
      rw [List.isEmpty_iff.1 hempty, List.nil_append, Text.dropWhile_isBlank hm.first]
    · rfl
  have hlast : (p.toList.dropWhile Text.isBlank ++ m.toList).getLast?.any Text.isBlank =
      false := by
    rw [List.getLast?_append]
    cases hm' : m.toList.getLast? with
    | some c =>
      have := hm.last
      rwa [hm'] at this
    | none =>
      cases hc : (p.toList.dropWhile Text.isBlank).getLast? with
      | none => rfl
      | some c => exact isBlank_of_isSeparator (isSeparator_of_isPath hp hc)
  rw [← List.head?_reverse] at hlast
  unfold Text.trim
  rw [String.toList_append, hfront, String.toList_ofList, Text.dropWhile_isBlank hlast,
    List.reverse_reverse]

theorem lastSegment_trim_append {p m : String} (hp : isPath p = true) (hm : IsSegment m) :
    lastSegment (Text.trim (p ++ m)) = m := by
  have hpath : (p.toList.dropWhile Text.isBlank).reverse.takeWhile (fun c => !isSeparator c) =
      [] := by
    cases hc : (p.toList.dropWhile Text.isBlank).reverse with
    | nil => rfl
    | cons c cs =>
      have hlast : (p.toList.dropWhile Text.isBlank).getLast? = some c := by
        rw [← List.head?_reverse, hc]
        rfl
      exact List.takeWhile_cons_of_neg (by simp [isSeparator_of_isPath hp hlast])
  unfold lastSegment
  rw [toList_trim_append hp hm, List.reverse_append, List.takeWhile_append_of_pos, hpath,
    List.append_nil, List.reverse_reverse, String.ofList_toList]
  intro c hc
  simpa using List.any_eq_false.1 hm.noSeparator c (List.mem_reverse.1 hc)

/-- The suffix has neither blanks nor separators. -/
theorem IsSegment.append_suffix {n : String} (hn : IsSegment n) : IsSegment (n ++ ".exe") where
  first := by
    rw [String.toList_append, List.head?_append]
    cases hc : n.toList.head? with
    | none => decide
    | some c =>
      have := hn.first
      rwa [hc] at this
  last := by
    have hlast : ".exe".toList.getLast? = some 'e' := by decide
    rw [String.toList_append, List.getLast?_append, hlast, Option.some_or]
    decide
  noSeparator := by
    rw [String.toList_append, List.any_append, hn.noSeparator]
    decide

/-! ## Names -/

namespace Spelling

variable {n : String}

theorem isSegment (s : Spelling n) (hn : IsBareName n) : IsSegment (n ++ s.suffix) := by
  rcases s.suffix_eq with h | h
  · rw [h, String.append_empty]
    exact hn.toIsSegment
  · rw [h]
    exact hn.append_suffix

/-- What is left of the name and the suffix without the suffix. -/
theorem before?_suffix (s : Spelling n) (hn : IsBareName n) :
    (Text.before? ".exe" (Text.lower (n ++ s.suffix))).getD (Text.lower (n ++ s.suffix)) =
      Text.lower n := by
  rcases s.suffix_eq with h | h
  · rw [h, String.append_empty, Text.before?_eq_none hn.noSuffix, Option.getD_none]
  · have hlower : Text.lower ".exe" = ".exe" := by decide
    rw [h, Text.lower_append, hlower, Text.before?_append, Option.getD_some]

theorem commandName_eq (s : Spelling n) (hn : IsBareName n) :
    commandName s.text = Text.lower n := by
  have hcase : Text.lower s.text =
      Text.lower (s.before ++ (s.path ++ (n ++ s.suffix)) ++ s.after) := by
    have hassoc : s.path ++ n ++ s.suffix = s.path ++ (n ++ s.suffix) := String.append_assoc
    simp only [text, Text.lower_append s.before, Text.lower_append _ s.after,
      s.written_variant.lower_eq, hassoc]
  rw [caseless_commandName.eq hcase]
  unfold commandName
  rw [Text.trim_surrounded s.before_blank s.after_blank, lastSegment_lower,
    lastSegment_trim_append s.path_ends (s.isSegment hn)]
  exact s.before?_suffix hn

/-- The name as it is. -/
def bare (n : String) : Spelling n where
  path := ""
  suffix := ""
  written := n
  before := ""
  after := ""
  path_ends := rfl
  suffix_eq := .inl rfl
  written_variant := by
    rw [String.append_empty, String.empty_append]
    exact List.forall₂_same.2 fun c _ => .inl rfl
  before_blank := rfl
  after_blank := rfl

theorem text_bare (n : String) : (bare n).text = n := by
  show "" ++ n ++ "" = n
  rw [String.append_empty, String.empty_append]

end Spelling

/-- **All spellings of a name are one command.** With blanks around it, behind a path, with the
suffix `.exe` and in any case, a bare name is known as itself in lower case. So whatever is
registered and whatever aliases there are, every spelling means the sink that the bare name means,
and is an interpreter if and only if the bare name is. -/
theorem spellings_identified {n : String} (hn : IsBareName n) (s : Spelling n) :
    commandName s.text = Text.lower n ∧
      ∀ (r : SinkRegistry) (a : Aliases), r.resolve? a s.text = r.resolve? a n ∧
        r.isInterpreter s.text = r.isInterpreter n := by
  have hbare : commandName n = Text.lower n := by
    have := (Spelling.bare n).commandName_eq hn
    rwa [Spelling.text_bare] at this
  have hname := s.commandName_eq hn
  refine ⟨hname, fun r a => ⟨?_, ?_⟩⟩
  · rw [SinkRegistry.resolve?, SinkRegistry.resolve?, hname, hbare]
  · rw [SinkRegistry.isInterpreter, SinkRegistry.isInterpreter, hname, hbare]

/-- `C:\Tools/CMD.exe` with a no-break space before it and a line end behind it. -/
def qualifiedShell : Spelling "cmd" where
  path := "c:\\tools/"
  suffix := ".exe"
  written := "C:\\Tools/CMD.exe"
  before := "\u00a0"
  after := "\n"
  path_ends := by decide
  suffix_eq := .inr rfl
  written_variant := by
    unfold Text.IsVariant Text.IsCapitalOf
    decide +kernel
  before_blank := by decide
  after_blank := by decide

theorem isBareName_cmd : IsBareName "cmd" where
  first := by decide
  last := by decide
  noSeparator := by decide
  noSuffix := by decide

theorem spellings_identified_qualifiedShell :
    qualifiedShell.text = "\u00a0C:\\Tools/CMD.exe\n" ∧ commandName qualifiedShell.text = "cmd" ∧
      SinkRegistry.builtin.isInterpreter qualifiedShell.text = true ∧
      SinkRegistry.builtin.resolve? .empty qualifiedShell.text =
        some ⟨"cmd", .externalInterpreter, [], none⟩ := by
  obtain ⟨hname, hsame⟩ := spellings_identified isBareName_cmd qualifiedShell
  obtain ⟨hresolve, hinterpreter⟩ := hsame .builtin .empty
  refine ⟨by decide, hname.trans (by decide), hinterpreter.trans ?_, hresolve.trans ?_⟩
  · decide +kernel
  · decide +kernel

end ScriptTaint
