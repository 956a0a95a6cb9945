import ScriptTaint.Script.Location

/-!
# Locations are faithful

In an ascending list of line starts, the lines that start at or before an offset come first, so
their number says where any search finds the offset (`SyntaxTree.start_le_iff`). The line of the
offset is the last of them, and the column counts from the start of that line.

`locations_faithful` is the main statement: a location can be turned back into its offset, and
offsets in order have locations in order. Offsets before the first line all count as its start.
-/

set_option autoImplicit false

namespace ScriptTaint

namespace SyntaxTree

variable {t : SyntaxTree}

/-- The number of lines that start at or before an offset. -/
def linesUpTo (t : SyntaxTree) (offset : UInt32) : Nat :=
  (t.lineStarts.takeWhile (· ≤ offset)).length

/-- The start of the line that an offset is located on; zero if no lines are known. -/
def lineStart (t : SyntaxTree) (offset : UInt32) : UInt32 :=
  (t.lineStarts[t.linesUpTo offset - 1]?).getD 0

/-- From where the columns of an offset are counted: from the start of its line, but not from behind
the offset. -/
def columnBase (t : SyntaxTree) (offset : UInt32) : UInt32 :=
  if t.lineStart offset ≤ offset then t.lineStart offset else offset

/-- Some line starts at or before the offset. -/
def IsInLines (t : SyntaxTree) (offset : UInt32) : Prop :=
  ∃ first, t.lineStarts.head? = some first ∧ first ≤ offset

theorem location_eq (t : SyntaxTree) (s : Span) :
    t.location s =
      (t.linesUpTo s.start - 1 + 1, s.start.toNat - (t.lineStart s.start).toNat + 1) := rfl

theorem columnBase_le (t : SyntaxTree) (offset : UInt32) : t.columnBase offset ≤ offset := by
  unfold columnBase
  split
  · assumption
  · exact UInt32.le_refl offset

/-- The difference of which the column is made does not wrap around. -/
theorem column_eq (t : SyntaxTree) (s : Span) :
    (t.location s).2 = (s.start - t.columnBase s.start).toNat + 1 := by
  rw [location_eq, UInt32.toNat_sub_of_le _ _ (t.columnBase_le s.start)]
  unfold columnBase
  split
  · rfl
  · rename_i hlt
    have hlt : s.start.toNat < (t.lineStart s.start).toNat :=
      UInt32.lt_iff_toNat_lt.1 (UInt32.not_le.1 hlt)
    show s.start.toNat - (t.lineStart s.start).toNat + 1 = s.start.toNat - s.start.toNat + 1
    omega

/-! ## The lines up to an offset -/

theorem linesUpTo_le_length (t : SyntaxTree) (offset : UInt32) :
    t.linesUpTo offset ≤ t.lineStarts.length :=
  (List.takeWhile_sublist _).length_le

theorem linesUpTo_mono (t : SyntaxTree) {o o' : UInt32} (h : o ≤ o') :
    t.linesUpTo o ≤ t.linesUpTo o' := by
  unfold linesUpTo
  induction t.lineStarts with
  | nil => exact Nat.le_refl _
  | cons x starts ih =>
    by_cases hx : x ≤ o
    · simpa [hx, UInt32.le_trans hx h] using ih
    · simp [hx]

/-- The lines that start at or before an offset are the first ones. -/
theorem start_le_iff (h : t.lineStarts.Pairwise (· ≤ ·)) {i : Nat} {x offset : UInt32}
    (hx : t.lineStarts[i]? = some x) : x ≤ offset ↔ i < t.linesUpTo offset := by
  unfold linesUpTo
  generalize t.lineStarts = starts at h hx
  induction starts generalizing i with
  | nil => cases hx
  | cons first starts ih =>
    obtain ⟨hfirst, hstarts⟩ := List.pairwise_cons.1 h
    by_cases hle : first ≤ offset
    · cases i with
      | zero =>
        obtain rfl := Option.some.inj hx
        simp [hle]
      | succ i =>
        rw [List.takeWhile_cons_of_pos (by simpa using hle), List.length_cons,
          Nat.add_lt_add_iff_right]
        exact ih hstarts hx
    · -- No later line starts earlier than the first.
      have hx : ¬ x ≤ offset := by
        rcases List.mem_cons.1 (List.mem_of_getElem? hx) with rfl | hmem
        · exact hle
        · exact fun hxo => hle (UInt32.le_trans (hfirst x hmem) hxo)
      rw [List.takeWhile_cons_of_neg (by simpa using hle)]
      simp [hx]

/-- The place that parts the lines up to an offset from the later ones is their number, however it
is searched for. -/
theorem eq_linesUpTo (h : t.lineStarts.Pairwise (· ≤ ·)) {k : Nat} {offset : UInt32}
    (hk : k ≤ t.lineStarts.length)
    (hparts : ∀ i x, t.lineStarts[i]? = some x → (x ≤ offset ↔ i < k)) :
    k = t.linesUpTo offset := by
  have hcount := t.linesUpTo_le_length offset
  have hsame (i : Nat) (hi : i < t.lineStarts.length) : i < k ↔ i < t.linesUpTo offset := by
    have hget := List.getElem?_eq_getElem hi
    rw [← hparts i _ hget, start_le_iff h hget]
  rcases Nat.lt_trichotomy k (t.linesUpTo offset) with hlt | heq | hlt
  · exact absurd ((hsame k (by omega)).2 hlt) (Nat.lt_irrefl k)
  · exact heq
  · exact absurd ((hsame _ (by omega)).1 hlt) (Nat.lt_irrefl _)

theorem IsInLines.linesUpTo_pos (h : t.lineStarts.Pairwise (· ≤ ·)) {offset : UInt32}
    (hin : t.IsInLines offset) : 0 < t.linesUpTo offset := by
  obtain ⟨first, hfirst, hle⟩ := hin
  rw [List.head?_eq_getElem?] at hfirst
  exact (start_le_iff h hfirst).1 hle

/-! ## From a location back to its offset -/

section
variable (h : t.lineStarts.Pairwise (· ≤ ·)) {s s' : Span}

include h

/-- The line of an offset starts at or before it, and the column tells how far before. -/
theorem IsInLines.exists_start (hin : t.IsInLines s.start) :
    ∃ start, t.lineStarts[(t.location s).1 - 1]? = some start ∧
      start.toNat + (t.location s).2 - 1 = s.start.toNat := by
  have hpos := hin.linesUpTo_pos h
  have hlen := t.linesUpTo_le_length s.start
  have hlt : t.linesUpTo s.start - 1 < t.lineStarts.length := by omega
  have hget := List.getElem?_eq_getElem hlt
  have hle : t.lineStarts[t.linesUpTo s.start - 1] ≤ s.start :=
    (start_le_iff h hget).2 (by omega)
  refine ⟨t.lineStarts[t.linesUpTo s.start - 1], hget, ?_⟩
  have hstart : t.lineStart s.start = t.lineStarts[t.linesUpTo s.start - 1] := by
    rw [lineStart, hget, Option.getD_some]
  have hle := UInt32.le_iff_toNat_le.1 hle
  simp only [location_eq, hstart]
  omega

/-- The next line, if there is one, starts behind the offset. -/
theorem IsInLines.line_cases (hin : t.IsInLines s.start) :
    (t.location s).1 = t.lineStarts.length ∨
      ∃ next, t.lineStarts[(t.location s).1]? = some next ∧ s.start < next := by
  have hpos := hin.linesUpTo_pos h
  have hline : (t.location s).1 = t.linesUpTo s.start := Nat.sub_add_cancel hpos
  rw [hline]
  rcases Nat.lt_or_eq_of_le (t.linesUpTo_le_length s.start) with hlt | heq
  · right
    have hget := List.getElem?_eq_getElem hlt
    refine ⟨_, hget, UInt32.not_le.1 fun hle => ?_⟩
    exact Nat.lt_irrefl _ ((start_le_iff h hget).1 hle)
  · exact .inl heq

theorem IsInLines.start_eq_of_location_eq (hin : t.IsInLines s.start)
    (hin' : t.IsInLines s'.start) (heq : t.location s = t.location s') : s.start = s'.start := by
  obtain ⟨start, hget, hstart⟩ := hin.exists_start h
  obtain ⟨start', hget', hstart'⟩ := hin'.exists_start h
  rw [heq] at hget hstart
  obtain rfl := Option.some.inj (hget.symm.trans hget')
  exact UInt32.toNat_inj.1 (hstart.symm.trans hstart')

end

/-! ## Order -/

/-- A later offset is on a later line, or farther on the same one. -/
theorem location_mono (t : SyntaxTree) {s s' : Span} (h : s.start ≤ s'.start) :
    Prod.Lex (· < ·) (· ≤ ·) (t.location s) (t.location s') := by
  have hlines := t.linesUpTo_mono h
  rw [Prod.lex_def]
  by_cases heq : t.linesUpTo s.start - 1 = t.linesUpTo s'.start - 1
  · right
    have hstart : t.lineStart s.start = t.lineStart s'.start := by
      unfold lineStart
      rw [heq]
    have hle := UInt32.le_iff_toNat_le.1 h
    simp only [location_eq, hstart]
    omega
  · left
    simp only [location_eq]
    omega

end SyntaxTree

open SyntaxTree

/-- **Locations are faithful**, in every file whose line starts are ascending:

* lines and columns count from one, and the difference that gives the column does not wrap around;
* the line is the last one before the place that parts the lines up to the offset from the later
  ones, or the first line;
* for offsets at or behind the first line, the start of the line and the column give the offset
  back, and the line is the last one or the next one starts behind the offset;
* so no two of these offsets have one location;
* without lines every offset is on line one;
* offsets in order have locations in order, by line and then by column.
-/
theorem locations_faithful (t : SyntaxTree) (h : t.lineStarts.Pairwise (· ≤ ·)) :
    (∀ s, 1 ≤ (t.location s).1 ∧ 1 ≤ (t.location s).2 ∧ t.columnBase s.start ≤ s.start ∧
      (t.location s).2 = (s.start - t.columnBase s.start).toNat + 1) ∧
    (∀ s k, k ≤ t.lineStarts.length →
      (∀ i x, t.lineStarts[i]? = some x → (x ≤ s.start ↔ i < k)) →
      (t.location s).1 = k - 1 + 1) ∧
    (∀ s, t.IsInLines s.start →
      (∃ start, t.lineStarts[(t.location s).1 - 1]? = some start ∧
        start.toNat + (t.location s).2 - 1 = s.start.toNat) ∧
      ((t.location s).1 = t.lineStarts.length ∨
        ∃ next, t.lineStarts[(t.location s).1]? = some next ∧ s.start < next)) ∧
    (∀ s s', t.IsInLines s.start → t.IsInLines s'.start → s.start ≠ s'.start →
      t.location s ≠ t.location s') ∧
    (t.lineStarts = [] → ∀ s, t.location s = (1, s.start.toNat + 1)) ∧
    ∀ s s', s.start ≤ s'.start → Prod.Lex (· < ·) (· ≤ ·) (t.location s) (t.location s') := by
  refine ⟨fun s => ?_, fun s k hk hparts => ?_,
    fun s hin => ⟨hin.exists_start h, hin.line_cases h⟩,
    fun s s' hin hin' hne heq => hne (hin.start_eq_of_location_eq h hin' heq), ?_,
    fun s s' hle => t.location_mono hle⟩
  · exact ⟨Nat.le_add_left .., Nat.le_add_left .., t.columnBase_le s.start, t.column_eq s⟩
  · rw [location_eq, eq_linesUpTo h hk hparts]
  · intro hnone s
    simp [location_eq, lineStart, linesUpTo, hnone]

/-- Four lines, of which the second and third start at one offset. -/
def repeatedStart : SyntaxTree where
  path := "lines.ps1"
  lineStarts := [4, 13, 13, 27]
  root := { span := ⟨4, 40⟩, params := [], annotations := [], statements := [] }

theorem locations_faithful_repeatedStart :
    repeatedStart.lineStarts.Pairwise (· ≤ ·) ∧ repeatedStart.IsInLines 20 ∧
      repeatedStart.location ⟨20, 21⟩ = (3, 8) ∧
      (∃ start, repeatedStart.lineStarts[2]? = some start ∧ start.toNat + 8 - 1 = 20) ∧
      (∃ next, repeatedStart.lineStarts[3]? = some next ∧ 20 < next) ∧
      repeatedStart.location ⟨13, 14⟩ ≠ repeatedStart.location ⟨20, 21⟩ ∧
      Prod.Lex (· < ·) (· ≤ ·) (repeatedStart.location ⟨2, 3⟩)
        (repeatedStart.location ⟨13, 14⟩) := by
  have h : repeatedStart.lineStarts.Pairwise (· ≤ ·) := by decide
  have hin : repeatedStart.IsInLines 20 := ⟨4, rfl, by decide⟩
  obtain ⟨-, -, hback, hne, -, hmono⟩ := locations_faithful repeatedStart h
  obtain ⟨hstart, hlast | hnext⟩ := hback ⟨20, 21⟩ hin
  · exact absurd hlast (by decide)
  · exact ⟨h, hin, by decide, hstart, hnext, hne _ _ ⟨4, rfl, by decide⟩ hin (by decide),
      hmono _ _ (by decide)⟩

end ScriptTaint
