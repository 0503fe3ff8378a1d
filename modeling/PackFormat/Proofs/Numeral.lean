import Mathlib.Tactic
import PackFormat.Text.Numeral

/-!
# Numbers as they are printed

A number is printed with the ten digits that come first among all scripts, a minus sign in
front of a negative one, and nothing around it. People may type more than that, but what is
printed is read back.

* `numeral?`: the text of a number. A number has none if it has more digits than may be
  read.
* `toList_of_numeral?`: its characters.
* `integer?_of_numeral?`: **the number of that text.**
-/

namespace PackFormat

/-- **The text of a number**. What has more digits than may be read is not printed either. -/
def numeral? (k : ℤ) : Option String :=
  if k.natAbs < 10 ^ maxDigits then some (toString k) else none

section Digits

variable {c : Char} {text : List Char}

/-- Where the ten digits are. -/
theorem toNat_of_isDigit (h : c.isDigit = true) : 48 ≤ c.toNat ∧ c.toNat ≤ 57 := by
  simpa [Char.isDigit, UInt32.le_iff_toNat_le] using h

/-- They are the first script that is looked at. -/
theorem digitValue?_of_isDigit (h : c.isDigit = true) : digitValue? c = some (c.toNat - 48) := by
  have hrange := toNat_of_isDigit h
  rw [digitValue?, decimalZeros, List.findSome?_cons, if_pos (by omega)]

theorem isDecimalDigit_of_isDigit (h : c.isDigit = true) : isDecimalDigit c = true := by
  rw [isDecimalDigit, digitValue?_of_isDigit h]
  rfl

theorem isBlank_of_isDigit (h : c.isDigit = true) : isBlank c = false := by
  have hrange := toNat_of_isDigit h
  rw [isBlank, ← Bool.not_eq_true, List.contains_iff_mem]
  intro hmem
  simp only [blanks, List.mem_cons, List.not_mem_nil, or_false] at hmem
  omega

/-- Any other character is no digit. -/
theorem ne_of_isDigit {d : Char} (h : c.isDigit = true) (hd : d.isDigit = false) : c ≠ d := by
  rintro rfl
  rw [h] at hd
  cases hd

/-- **Digits without underscores** have their values one by one. -/
theorem digits?_of_isDigit (hne : text ≠ []) (h : ∀ c ∈ text, c.isDigit = true) :
    digits? text = some (text.map fun c => c.toNat - 48) := by
  induction text with
  | nil => exact absurd rfl hne
  | cons c rest ih =>
    have hc := digitValue?_of_isDigit (h c List.mem_cons_self)
    cases rest with
    | nil =>
      rw [digits?, hc]
      rfl
    | cons c' rest =>
      have hdigits : ∀ d ∈ c' :: rest, d.isDigit = true := fun d hd => h d (List.mem_cons_of_mem _ hd)
      have hunderscore : c' ≠ '_' := ne_of_isDigit (hdigits c' List.mem_cons_self) rfl
      rw [digits?, hc, ih (List.cons_ne_nil _ _) hdigits]
      · rfl
      · exact hunderscore

/-- No white space, nothing to trim. -/
theorem trimBlanks_of_forall (h : ∀ c ∈ text, isBlank c = false) : trimBlanks text = text := by
  have hdrop : ∀ {l : List Char}, (∀ c ∈ l, isBlank c = false) → l.dropWhile isBlank = l := by
    intro l hl
    cases l with
    | nil => rfl
    | cons c rest => exact List.dropWhile_cons_of_neg (by simp [hl c List.mem_cons_self])
  rw [trimBlanks, hdrop h, hdrop fun c hc => h c (List.mem_reverse.1 hc), List.reverse_reverse]

end Digits

section Print

variable {n : ℕ} {k : ℤ} {text : String} {c : Char}

theorem isDigit_of_mem_toDigits (h : c ∈ Nat.toDigits 10 n) : c.isDigit = true :=
  Nat.isDigit_of_mem_toDigits (by decide) (by decide) h

/-- **A natural number as it is printed** is read as that. -/
theorem natural?_toDigits (h : n < 10 ^ maxDigits) : natural? (Nat.toDigits 10 n) = some n := by
  have hlength : (Nat.toDigits 10 n).length ≤ maxDigits :=
    (Nat.length_toDigits_le_iff (by decide) (by decide)).2 h
  rw [natural?, digits?_of_isDigit Nat.toDigits_ne_nil fun c => isDigit_of_mem_toDigits,
    Option.bind_some, if_neg (by rw [List.length_map]; omega), List.foldl_map]
  exact congrArg some Nat.ofDigitChars_ten_toDigits

/-- **The characters of a number**: its digits, and a minus sign if it is negative. -/
theorem toList_of_numeral? (h : numeral? k = some text) :
    k.natAbs < 10 ^ maxDigits ∧
      text.toList = (if k < 0 then ['-'] else []) ++ Nat.toDigits 10 k.natAbs := by
  unfold numeral? at h
  split at h
  · rename_i hlt
    refine ⟨hlt, ?_⟩
    rw [← Option.some.inj h, Int.toString_eq_repr, Int.repr_eq_if]
    by_cases hk : k < 0
    · rw [if_neg (by omega), if_pos hk, String.toList_append, Nat.toList_repr,
        show (-k).toNat = k.natAbs by omega]
      rfl
    · rw [if_pos (by omega), if_neg hk, Nat.toList_repr, show k.toNat = k.natAbs by omega]
      rfl
  · cases h

/-- **What is printed is read back.** -/
theorem integer?_of_numeral? (h : numeral? k = some text) : integer? text.toList = some k := by
  obtain ⟨hlt, htext⟩ := toList_of_numeral? h
  have hblank : ∀ c ∈ text.toList, isBlank c = false := by
    intro c hc
    rw [htext, List.mem_append] at hc
    rcases hc with hc | hc
    · split at hc
      · rw [List.mem_singleton.1 hc]; decide
      · cases hc
    · exact isBlank_of_isDigit (isDigit_of_mem_toDigits hc)
  rw [integer?, trimBlanks_of_forall hblank, htext]
  by_cases hk : k < 0
  · rw [if_pos hk]
    simp only [List.singleton_append, natural?_toDigits hlt]
    exact congrArg some (by omega : -(k.natAbs : ℤ) = k)
  · obtain ⟨c, rest, hdigits⟩ :=
      List.exists_cons_of_ne_nil (Nat.toDigits_ne_nil (n := k.natAbs) (b := 10))
    have hc : c.isDigit = true := isDigit_of_mem_toDigits (hdigits ▸ List.mem_cons_self)
    rw [if_neg hk, List.nil_append]
    have hread := natural?_toDigits hlt
    split
    · rename_i digits heq
      rw [hdigits] at heq
      exact absurd (List.cons.inj heq).1 (ne_of_isDigit hc rfl)
    · rename_i digits heq
      rw [hdigits] at heq
      exact absurd (List.cons.inj heq).1 (ne_of_isDigit hc rfl)
    · rw [hread, Option.map_some, Option.some.injEq]
      exact Int.natAbs_of_nonneg (not_lt.1 hk)

end Print

end PackFormat
