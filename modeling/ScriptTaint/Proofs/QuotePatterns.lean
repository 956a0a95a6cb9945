import Mathlib.Logic.ExistsUnique
import ScriptTaint.Flow.Escaping

/-!
# Patterns of quotes

`isQuoteRun` reads a pattern from left to right. What it accepts can be told in two other ways: by
what stands at each place (`QuotesOnly`), which needs no reading order, and by how the pattern is
made, as a sequence of quotes that are bare or escaped (`QuoteMark`). The backslash is no quote, so
the first character of a mark tells where the mark ends (`QuoteMark.text_append_inj`), and a pattern
is made in one way only.
-/

set_option autoImplicit false

namespace ScriptTaint

/-- Each character is a quote, or a backslash right before one. -/
def QuotesOnly (cs : List Char) : Prop :=
  ∀ i c, cs[i]? = some c → c ∈ quotes ∨ c = '\\' ∧ ∃ q ∈ quotes, cs[i + 1]? = some q

/-- A quote, with a backslash before it or without. -/
structure QuoteMark where
  escaped : Bool
  quote : Char
  isQuote : quote ∈ quotes

def QuoteMark.text (m : QuoteMark) : List Char :=
  if m.escaped then ['\\', m.quote] else [m.quote]

/-- The code points of the quotes: the straight ones, the backtick and the curly ones. -/
theorem mem_quotes {c : Char} :
    c ∈ quotes ↔
      c.toNat ∈ [0x27, 0x22, 0x60, 0x2018, 0x2019, 0x201A, 0x201B, 0x201C, 0x201D] := by
  have hcodes : quotes.map Char.toNat =
      [0x27, 0x22, 0x60, 0x2018, 0x2019, 0x201A, 0x201B, 0x201C, 0x201D] := by decide
  rw [← hcodes, List.mem_map]
  constructor
  · intro hc
    exact ⟨c, hc, rfl⟩
  · rintro ⟨q, hq, heq⟩
    rwa [← Char.toNat_inj.1 heq]

theorem backslash_notMem_quotes : '\\' ∉ quotes := by decide

/-! ## What stands at each place -/

theorem quotesOnly_cons {c : Char} {cs : List Char} :
    QuotesOnly (c :: cs) ↔
      (c ∈ quotes ∨ c = '\\' ∧ ∃ q ∈ quotes, cs.head? = some q) ∧ QuotesOnly cs := by
  constructor
  · intro h
    refine ⟨?_, fun i => h (i + 1)⟩
    simpa [List.head?_eq_getElem?] using h 0 c rfl
  · rintro ⟨hfirst, hrest⟩ i d hd
    cases i with
    | zero =>
      obtain rfl := Option.some.inj hd
      simpa [List.head?_eq_getElem?] using hfirst
    | succ i => exact hrest i d hd

/-- What a backslash stands before is a quote. -/
theorem QuotesOnly.next_mem {cs : List Char} (h : QuotesOnly cs) {i : Nat}
    (hi : cs[i]? = some '\\') : ∃ q ∈ quotes, cs[i + 1]? = some q := by
  rcases h i _ hi with hq | ⟨-, hnext⟩
  · exact absurd hq backslash_notMem_quotes
  · exact hnext

theorem QuotesOnly.last_mem {cs : List Char} (h : QuotesOnly cs) {c : Char}
    (hc : cs.getLast? = some c) : c ∈ quotes := by
  rw [List.getLast?_eq_getElem?] at hc
  rcases h _ c hc with hq | ⟨-, q, -, hnext⟩
  · exact hq
  · have := (List.getElem?_eq_some_iff.1 hnext).1
    omega

/-- The reading accepts what has the right characters at each place. -/
theorem isQuoteRun_iff {cs : List Char} : isQuoteRun cs = true ↔ QuotesOnly cs := by
  induction cs using isQuoteRun.induct with
  | case1 => simp [isQuoteRun, QuotesOnly]
  | case2 c cs ih =>
    rw [isQuoteRun, Bool.and_eq_true, List.contains_iff_mem, ih, quotesOnly_cons, quotesOnly_cons]
    constructor
    · rintro ⟨hc, hcs⟩
      exact ⟨.inr ⟨rfl, c, hc, rfl⟩, .inl hc, hcs⟩
    · rintro ⟨hfirst | ⟨-, q, hq, heq⟩, -, hcs⟩
      · exact absurd hfirst backslash_notMem_quotes
      · obtain rfl := Option.some.inj heq
        exact ⟨hq, hcs⟩
  | case3 c cs hne ih =>
    rw [isQuoteRun.eq_3 c cs hne, Bool.and_eq_true, List.contains_iff_mem, ih, quotesOnly_cons]
    constructor
    · rintro ⟨hc, hcs⟩
      exact ⟨.inl hc, hcs⟩
    · rintro ⟨hc | ⟨rfl, q, -, hhead⟩, hcs⟩
      · exact ⟨hc, hcs⟩
      · -- A backslash is read here only if nothing follows it.
        obtain ⟨rest, rfl⟩ := List.head?_eq_some_iff.1 hhead
        exact absurd rfl (hne q rest rfl)

/-! ## How a pattern is made -/

namespace QuoteMark

/-- A mark ends after its quote, wherever it stands. -/
theorem text_append_inj {m m' : QuoteMark} {cs cs' : List Char}
    (h : m.text ++ cs = m'.text ++ cs') : m = m' ∧ cs = cs' := by
  obtain ⟨escaped, quote, hq⟩ := m
  obtain ⟨escaped', quote', hq'⟩ := m'
  cases escaped with
  | true =>
    cases escaped' with
    | true =>
      obtain ⟨-, h⟩ := List.cons.inj h
      obtain ⟨rfl, rfl⟩ := List.cons.inj h
      exact ⟨rfl, rfl⟩
    | false =>
      obtain ⟨rfl, -⟩ := List.cons.inj h
      exact absurd hq' backslash_notMem_quotes
  | false =>
    cases escaped' with
    | true =>
      obtain ⟨rfl, -⟩ := List.cons.inj h
      exact absurd hq backslash_notMem_quotes
    | false =>
      obtain ⟨rfl, rfl⟩ := List.cons.inj h
      exact ⟨rfl, rfl⟩

theorem text_ne_nil (m : QuoteMark) : m.text ≠ [] := by
  unfold text
  split <;> exact List.cons_ne_nil _ _

theorem flatMap_text_inj {ms ms' : List QuoteMark} (h : ms.flatMap text = ms'.flatMap text) :
    ms = ms' := by
  induction ms generalizing ms' with
  | nil =>
    cases ms' with
    | nil => rfl
    | cons m' ms' => exact absurd (List.append_eq_nil_iff.1 h.symm).1 m'.text_ne_nil
  | cons m ms ih =>
    cases ms' with
    | nil => exact absurd (List.append_eq_nil_iff.1 h).1 m.text_ne_nil
    | cons m' ms' =>
      obtain ⟨rfl, hrest⟩ := text_append_inj h
      rw [ih hrest]

theorem isQuoteRun_text_append (m : QuoteMark) (cs : List Char) :
    isQuoteRun (m.text ++ cs) = isQuoteRun cs := by
  obtain ⟨escaped, quote, hq⟩ := m
  have hcontains : quotes.contains quote = true := List.contains_iff_mem.2 hq
  cases escaped with
  | true =>
    show isQuoteRun ('\\' :: quote :: cs) = _
    rw [isQuoteRun, hcontains, Bool.true_and]
  | false =>
    show isQuoteRun (quote :: cs) = _
    have hne : quote ≠ '\\' := fun h => backslash_notMem_quotes (h ▸ hq)
    rw [isQuoteRun.eq_3 _ _ fun _ _ h => absurd h hne, hcontains, Bool.true_and]

end QuoteMark

/-- The reading accepts the texts of sequences of marks. -/
theorem isQuoteRun_iff_exists {cs : List Char} :
    isQuoteRun cs = true ↔ ∃ ms : List QuoteMark, ms.flatMap QuoteMark.text = cs := by
  constructor
  · intro h
    induction cs using isQuoteRun.induct with
    | case1 => exact ⟨[], rfl⟩
    | case2 c cs ih =>
      rw [isQuoteRun, Bool.and_eq_true, List.contains_iff_mem] at h
      obtain ⟨ms, rfl⟩ := ih h.2
      exact ⟨⟨true, c, h.1⟩ :: ms, rfl⟩
    | case3 c cs hne ih =>
      rw [isQuoteRun.eq_3 c cs hne, Bool.and_eq_true, List.contains_iff_mem] at h
      obtain ⟨ms, rfl⟩ := ih h.2
      exact ⟨⟨false, c, h.1⟩ :: ms, rfl⟩
  · rintro ⟨ms, rfl⟩
    induction ms with
    | nil => rfl
    | cons m ms ih => rw [List.flatMap_cons, m.isQuoteRun_text_append, ih]

/-! ## Patterns -/

theorem isQuotePattern_eq_true {s : String} :
    isQuotePattern s = true ↔ s.toList ≠ [] ∧ isQuoteRun s.toList = true := by
  rw [isQuotePattern, Bool.and_eq_true, Bool.not_eq_true', List.isEmpty_eq_false_iff]

theorem isQuotePattern_iff_exists {s : String} :
    isQuotePattern s = true ↔
      ∃ ms : List QuoteMark, ms ≠ [] ∧ ms.flatMap QuoteMark.text = s.toList := by
  rw [isQuotePattern_eq_true, isQuoteRun_iff_exists]
  constructor
  · rintro ⟨hne, ms, hms⟩
    refine ⟨ms, ?_, hms⟩
    rintro rfl
    exact hne hms.symm
  · rintro ⟨ms, hne, hms⟩
    refine ⟨?_, ms, hms⟩
    rw [← hms]
    cases ms with
    | nil => exact absurd rfl hne
    | cons m ms => exact fun h => m.text_ne_nil (List.append_eq_nil_iff.1 h).1

theorem isQuotePattern_append {s s' : String} (h : isQuotePattern s = true)
    (h' : isQuotePattern s' = true) : isQuotePattern (s ++ s') = true := by
  obtain ⟨ms, hne, hms⟩ := isQuotePattern_iff_exists.1 h
  obtain ⟨ms', -, hms'⟩ := isQuotePattern_iff_exists.1 h'
  refine isQuotePattern_iff_exists.2 ⟨ms ++ ms', by simp [hne], ?_⟩
  rw [List.flatMap_append, hms, hms', String.toList_append]

/-- **Patterns of quotes**: the quotes are the two straight ones, the backtick and the six curly ones
from U+2018 to U+201D. A text is a pattern if and only if it is nonempty and each of its characters
is a quote or a backslash right before a quote. So no backslash in a pattern follows another or ends
it, and no line end does. Patterns one after the other are a pattern, and each is made of quotes,
bare or escaped, in exactly one way. -/
theorem quotePatterns_recognised (s : String) :
    (∀ c : Char, c ∈ quotes ↔
      c.toNat ∈ [0x27, 0x22, 0x60, 0x2018, 0x2019, 0x201A, 0x201B, 0x201C, 0x201D]) ∧
    (isQuotePattern s = true ↔ s ≠ "" ∧ QuotesOnly s.toList) ∧
    (isQuotePattern s = true →
      (∀ i, s.toList[i]? = some '\\' → s.toList[i + 1]? ≠ some '\\') ∧
      s.toList.getLast? ≠ some '\\' ∧ s.toList.getLast? ≠ some '\n') ∧
    (∀ s', isQuotePattern s = true → isQuotePattern s' = true →
      isQuotePattern (s ++ s') = true) ∧
    (isQuotePattern s = true ↔
      ∃! ms : List QuoteMark, ms ≠ [] ∧ ms.flatMap QuoteMark.text = s.toList) := by
  refine ⟨fun c => mem_quotes, ?_, fun h => ?_, fun s' => isQuotePattern_append, fun h => ?_,
    fun h => ?_⟩
  · rw [isQuotePattern_eq_true, isQuoteRun_iff, ne_eq, String.toList_eq_nil_iff]
  · have hplaces := isQuoteRun_iff.1 (isQuotePattern_eq_true.1 h).2
    refine ⟨fun i hi hnext => ?_, fun hlast => ?_, fun hlast => ?_⟩
    · obtain ⟨q, hq, heq⟩ := hplaces.next_mem hi
      obtain rfl := Option.some.inj (hnext.symm.trans heq)
      exact backslash_notMem_quotes hq
    · exact backslash_notMem_quotes (hplaces.last_mem hlast)
    · exact absurd (hplaces.last_mem hlast) (by decide)
  · obtain ⟨ms, hne, hms⟩ := isQuotePattern_iff_exists.1 h
    refine ⟨ms, ⟨hne, hms⟩, fun ms' hms' => ?_⟩
    exact QuoteMark.flatMap_text_inj (hms'.2.trans hms.symm)
  · exact isQuotePattern_iff_exists.2 h.exists

/-- An escaped quote and a curly one; a quote behind two backslashes; a quote and a line end. -/
example : isQuotePattern "\\'”" = true ∧ isQuotePattern "\\\\'" = false ∧
    isQuotePattern "'\n" = false := by
  decide

end ScriptTaint
