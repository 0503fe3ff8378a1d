import Mathlib.Tactic
import PackFormat.Bits

/-!
# Bit strings as numbers

`wordValue` reads a bit string as a number, its first bit the highest. On bit
strings of one length it is the inverse of `lowBits`.

* `wordValue_lowBits`, `lowBits_wordValue`: the two inverses.
* `lowBits_add`: the high part of a word is the word of a shifted number.
* `wordValue_take`: so is the value of a prefix.
-/

namespace PackFormat

/-- The number that bits make, the first bit the highest. -/
def wordValue (bits : List Bool) : ℕ := bits.foldl (fun v b => 2 * v + b.toNat) 0

@[simp] theorem wordValue_nil : wordValue [] = 0 := rfl

theorem wordValue_concat (p : List Bool) (b : Bool) :
    wordValue (p ++ [b]) = 2 * wordValue p + b.toNat := by
  simp [wordValue, List.foldl_append]

/-- Any number is some bits and one more. -/
theorem exists_last_bit (v : ℕ) : ∃ u, ∃ b : Bool, v = 2 * u + b.toNat := by
  refine ⟨v / 2, decide (v % 2 = 1), ?_⟩
  rcases Nat.mod_two_eq_zero_or_one v with h | h <;> simp [h] <;> omega

theorem wordValue_append (p q : List Bool) :
    wordValue (p ++ q) = 2 ^ q.length * wordValue p + wordValue q := by
  induction q using List.reverseRecOn with
  | nil => simp
  | append_singleton q b ih =>
    rw [← List.append_assoc, wordValue_concat, ih, wordValue_concat, List.length_append]
    simp only [List.length_cons, List.length_nil, pow_succ]
    ring

theorem wordValue_lt (p : List Bool) : wordValue p < 2 ^ p.length := by
  induction p using List.reverseRecOn with
  | nil => simp
  | append_singleton p b ih =>
    rw [wordValue_concat, List.length_append, List.length_singleton, pow_succ]
    have := Bool.toNat_le b
    omega

/-- The value of a prefix is the value shifted down. -/
theorem wordValue_take (p : List Bool) (k : ℕ) :
    wordValue (p.take k) = wordValue p / 2 ^ (p.length - k) := by
  have h := wordValue_append (p.take k) (p.drop k)
  rw [List.take_append_drop, List.length_drop] at h
  have hlt := wordValue_lt (p.drop k)
  rw [List.length_drop] at hlt
  rw [h, Nat.mul_add_div (by positivity), Nat.div_eq_of_lt hlt, add_zero]

@[simp] theorem lowBits_zero (c : ℤ) : lowBits 0 c = [] := rfl

theorem byteBits_ofNat {v : ℕ} (hv : v < 2 ^ 8) : byteBits (UInt8.ofNat v) = lowBits 8 (v : ℤ) := by
  rw [byteBits, UInt8.toNat_ofNat', Nat.mod_eq_of_lt hv]

theorem lowBits_succ (n v : ℕ) :
    lowBits (n + 1) (v : ℤ) = decide (v / 2 ^ n % 2 = 1) :: lowBits n v := by
  have h : (v : ℤ).shiftRight n = ((v / 2 ^ n : ℕ) : ℤ) := by
    rw [← Nat.shiftRight_eq_div_pow]; rfl
  rw [lowBits, h, List.cons.injEq]
  refine ⟨?_, rfl⟩
  rw [Bool.eq_iff_iff, beq_iff_eq, decide_eq_true_iff]
  omega

/-- **The high part of a word** is the word of the number shifted down. -/
theorem lowBits_add (k m v : ℕ) :
    lowBits (k + m) (v : ℤ) = lowBits k (v / 2 ^ m : ℕ) ++ lowBits m (v : ℤ) := by
  induction k with
  | zero => simp
  | succ k ih =>
    rw [show k + 1 + m = k + m + 1 by omega, lowBits_succ, ih, lowBits_succ, Nat.div_div_eq_div_mul,
      ← pow_add, add_comm m k]
    rfl

theorem lowBits_concat (n v : ℕ) (b : Bool) :
    lowBits (n + 1) ((2 * v + b.toNat : ℕ) : ℤ) = lowBits n (v : ℤ) ++ [b] := by
  have hdiv : (2 * v + b.toNat) / 2 ^ 1 = v := by have := Bool.toNat_le b; omega
  rw [lowBits_add n 1, hdiv, lowBits_succ]
  cases b <;> simp [lowBits]

/-- A word is the word of its value. -/
theorem lowBits_wordValue (p : List Bool) : lowBits p.length (wordValue p : ℤ) = p := by
  induction p using List.reverseRecOn with
  | nil => rfl
  | append_singleton p b ih =>
    rw [List.length_append, List.length_singleton, wordValue_concat, lowBits_concat, ih]

/-- The value of a word is the number, as far as the word reaches. -/
theorem wordValue_lowBits {n v : ℕ} (hv : v < 2 ^ n) : wordValue (lowBits n (v : ℤ)) = v := by
  induction n generalizing v with
  | zero => simp at hv; subst hv; rfl
  | succ n ih =>
    obtain ⟨u, b, rfl⟩ := exists_last_bit v
    rw [lowBits_concat, wordValue_concat, ih (by rw [pow_succ] at hv; omega)]

end PackFormat
