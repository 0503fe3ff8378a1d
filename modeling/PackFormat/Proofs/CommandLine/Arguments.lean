import Mathlib.Data.List.TakeWhile
import PackFormat.CommandLine.Arguments
import PackFormat.Proofs.Numeral

/-!
# Two paths and a chunk size

A path that does not start with a minus sign is no switch, and a number is none either, a
negative one included: no switch has a digit behind its minus sign.

* `classify_of_head`, `classify_of_numeral?`: what these arguments are by themselves.
* `Invocation.parse_numeral`: **the run that two paths and a chunk size ask for.**
-/

namespace PackFormat.CommandLine

variable {text input output : String} {k : ℤ} {c : Char} {digits chars : List Char}

/-- **What has no minus sign in front is no switch.** -/
theorem classify_of_head (h : text.toList.head? ≠ some '-') : classify text = .ok (.plain text) := by
  rw [classify]
  exact if_pos (Or.inl h)

theorem splitValue_of_notMem (h : '=' ∉ chars) : splitValue chars = (chars, none) := by
  induction chars with
  | nil => rfl
  | cons c rest ih =>
    rw [List.mem_cons, not_or] at h
    rw [splitValue, if_neg (Ne.symm h.1), ih h.2]

/-- No switch has a digit behind its minus sign. -/
theorem isDigit_spelling : ∀ s ∈ spellings, (s.1.toList.getD 1 '0').isDigit = false := by
  decide +kernel

/-- A minus sign with a digit behind it spells no switch, and is short for none. -/
theorem lookup_spellings (hc : c.isDigit = true) (h : text.toList = '-' :: c :: digits) :
    spellings.lookup text = none := by
  rw [List.lookup_eq_none_iff]
  intro s hs
  rw [bne_iff_ne]
  rintro rfl
  have := isDigit_spelling s hs
  rw [h] at this
  exact absurd hc (by simpa using this)

theorem candidates_of_isDigit (hc : c.isDigit = true) : candidates ('-' :: c :: digits) = [] := by
  have hnone : ∀ s ∈ spellings, ¬ decide (s.1.toList = ['-', c]) = true := by
    intro s hs heq
    have := isDigit_spelling s hs
    rw [of_decide_eq_true heq] at this
    exact absurd hc (by simpa using this)
  rw [candidates, List.filter_eq_nil_iff.2 hnone]
  · rfl
  · exact ne_of_isDigit hc rfl

/-- Digits with a minus sign in front are a negative number. -/
theorem looksNegative_of_isDigit (h : ∀ d ∈ c :: digits, d.isDigit = true) :
    looksNegative ('-' :: c :: digits) = true := by
  have hlast : (c :: digits).getLast? ≠ some '\n' := by
    intro heq
    exact absurd rfl (ne_of_isDigit (h _ (List.mem_of_getLast? heq)) rfl)
  have hdrop : (c :: digits).dropWhile isDecimalDigit = [] :=
    List.dropWhile_eq_nil_iff.2 fun d hd => isDecimalDigit_of_isDigit (h d hd)
  simp only [looksNegative, if_neg hlast, hdrop]
  rfl

/-- **A number is no switch**, a negative one neither. -/
theorem classify_of_numeral? (h : numeral? k = some text) : classify text = .ok (.plain text) := by
  obtain ⟨-, htext⟩ := toList_of_numeral? h
  obtain ⟨c, digits, hdigits⟩ :=
    List.exists_cons_of_ne_nil (Nat.toDigits_ne_nil (n := k.natAbs) (b := 10))
  have hall : ∀ d ∈ c :: digits, d.isDigit = true := fun d hd =>
    isDigit_of_mem_toDigits (hdigits ▸ hd)
  have hc := hall c List.mem_cons_self
  rw [hdigits] at htext
  by_cases hk : k < 0
  · rw [if_pos hk, List.singleton_append] at htext
    have hminus : ¬ (text.toList.head? ≠ some '-' ∨ text = "-") := by
      rintro (hne | rfl)
      · exact hne (by rw [htext]; rfl)
      · cases htext
    have hvalue : '=' ∉ '-' :: c :: digits := by
      rw [List.mem_cons, not_or]
      exact ⟨by decide, fun hmem => absurd rfl (ne_of_isDigit (hall _ hmem) rfl)⟩
    rw [classify, if_neg hminus, lookup_spellings hc htext, htext, splitValue_of_notMem hvalue]
    simp only [candidates_of_isDigit hc, looksNegative_of_isDigit hall, Bool.true_or, if_true]
    split
    · rename_i heq
      cases heq
    · rfl
  · rw [if_neg hk, List.nil_append] at htext
    refine classify_of_head ?_
    rw [htext, List.head?_cons]
    exact fun heq => ne_of_isDigit hc rfl (Option.some.inj heq)

/-- Nor is it the separator. -/
theorem ne_separator_of_numeral? (h : numeral? k = some text) : text ≠ "--" := by
  rintro rfl
  have := classify_of_numeral? h
  revert this
  decide

/-- What has no minus sign in front is not the separator. -/
theorem ne_separator_of_head (h : text.toList.head? ≠ some '-') : text ≠ "--" := by
  rintro rfl
  exact h rfl

namespace Reading

/-- A path, as long as one is missing. -/
theorem plain_of_lt {r : Reading} (hr : r.paths.length < 2) (h : text ≠ "--") :
    r.plain text = { r with paths := r.paths ++ [some text], before := .path } := by
  rw [plain, if_neg (not_le.2 hr), if_neg fun hsep => h hsep.1]

/-- A chunk size. -/
theorem size_of_numeral? (r : Reading) (h : numeral? k = some text) :
    r.size text = .ok { r with chunkSize := some k, before := .other } := by
  rw [size, if_neg (ne_separator_of_numeral? h), integer?_of_numeral? h]

end Reading

/-- **The run that two paths and a chunk size ask for.** -/
theorem Invocation.parse_numeral (hin : input.toList.head? ≠ some '-')
    (hout : output.toList.head? ≠ some '-') (h : numeral? k = some text) :
    Invocation.parse [input, output, "--chunk-size", text] =
      .ok ⟨some input, some output, some k, false⟩ := by
  have hswitch : classify "--chunk-size" = .ok (.switch .chunkSize false none) := by decide +kernel
  have hclassified : classifyAll [input, output, "--chunk-size", text] =
      .ok [.plain input, .plain output, .switch .chunkSize false none, .plain text] := by
    simp only [classifyAll, if_neg (ne_separator_of_head hin), if_neg (ne_separator_of_head hout),
      if_neg (ne_separator_of_numeral? h), classify_of_head hin, classify_of_head hout, hswitch,
      classify_of_numeral? h]
    rfl
  have hread : readArguments {} [.plain input, .plain output, .switch .chunkSize false none, .plain text] =
      .ok { paths := [some input, some output], chunkSize := some k } := by
    have hfirst : Reading.plain {} input = { paths := [some input], before := .path } :=
      Reading.plain_of_lt Nat.zero_lt_two (ne_separator_of_head hin)
    have hsecond : Reading.plain { paths := [some input], before := .path } output =
        { paths := [some input, some output], before := .path } :=
      Reading.plain_of_lt Nat.one_lt_two (ne_separator_of_head hout)
    simp only [readArguments, hfirst, hsecond, Reading.size_of_numeral? _ h]
    rfl
  rw [parse, hclassified]
  change readArguments {} _ >>= ofReading = _
  rw [hread]
  rfl

end PackFormat.CommandLine
