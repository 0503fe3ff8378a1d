import Mathlib.Algebra.BigOperators.Intervals
import Mathlib.Data.List.GetD
import Mathlib.Data.Rat.Floor
import PackFormat.Proofs.Levels

/-!
# Interior nodes in closed form

The interior nodes of a level are half of all nodes below it, rounded down, and so from
level to level up to the root. Rounding on each level loses no more than rounding once at
the end would: a level's interior nodes are the leaves below it, each weighed by how far
down it is, divided once.

* `eq_div_of_halves`: halving again and again is one division.
* `getD_interiorCounts_eq_div`: a level's interior nodes from the leaves below it.
* `interiorCounts_closed_form`: **the interior nodes of any leaves**, and the room that
  they need.
-/

namespace PackFormat

open Finset

/-- **Halving again and again is one division.** -/
theorem eq_div_of_halves {f g : ℕ → ℤ} {n : ℕ} (hf : ∀ l, f l = (f (l + 1) + g (l + 1)) / 2)
    (hn : f n = 0) {l : ℕ} (hl : l ≤ n) :
    f l = (∑ k ∈ Ico (l + 1) (n + 1), g k * 2 ^ (n - k)) / 2 ^ (n - l) := by
  -- from the last level up
  induction hd : n - l generalizing l with
  | zero =>
    obtain rfl : l = n := by omega
    rw [hn, Ico_self, sum_empty, Int.zero_ediv]
  | succ d ih =>
    have ih := ih (l := l + 1) (by omega) (by omega)
    have hpow : (0 : ℤ) < 2 ^ d := by positivity
    rw [hf l, ih, ← Int.add_mul_ediv_right _ _ hpow.ne', Int.ediv_ediv_of_nonneg hpow.le, ← pow_succ,
      sum_eq_sum_Ico_succ_bot (by omega : l + 1 < n + 1), show n - (l + 1) = d by omega, add_comm]

/-- The numbers that a signed word of 32 bits holds. -/
def FitsWord (c : ℤ) : Prop := -2 ^ 31 ≤ c ∧ c < 2 ^ 31

theorem FitsWord.mean {a b : ℤ} (ha : FitsWord a) (hb : FitsWord b) : FitsWord ((a + b) / 2) := by
  unfold FitsWord at *
  omega

variable {leaves : List ℤ}

/-- Past the end there are neither nodes nor leaves, so the last level has no interior nodes. -/
theorem getD_interiorCounts_last (leaves : List ℤ) :
    (interiorCounts leaves).getD (leaves.length - 1) 0 = 0 := by
  have hinner : (interiorCounts leaves).getD (leaves.length - 1 + 1) 0 = 0 :=
    List.getD_eq_default _ _ (by rw [length_interiorCounts]; omega)
  have hleaves : leaves.getD (leaves.length - 1 + 1) 0 = 0 := List.getD_eq_default _ _ (by omega)
  rw [getD_interiorCounts, hinner, hleaves]
  rfl

/-- **The interior nodes of a level**, with one division. -/
theorem getD_interiorCounts_eq_div {l : ℕ} (hl : l < leaves.length) :
    (interiorCounts leaves).getD l 0 =
      (∑ k ∈ Ico (l + 1) leaves.length, leaves.getD k 0 * 2 ^ (leaves.length - 1 - k)) /
        2 ^ (leaves.length - 1 - l) := by
  have h := eq_div_of_halves (f := fun l => (interiorCounts leaves).getD l 0)
    (g := fun l => leaves.getD l 0) (getD_interiorCounts leaves) (getD_interiorCounts_last leaves)
    (show l ≤ leaves.length - 1 by omega)
  rwa [Nat.sub_add_cancel (by omega)] at h

/-- **The interior nodes of any leaves**, be the leaves as many as they may or even fewer than none.
Each level has them, the last one none, and rounding on each level comes to rounding the exact quotient
once. Where the leaves fit a word of 32 bits so do the interior nodes, though the weighed leaves do
not. -/
theorem interiorCounts_closed_form (h : ∀ c ∈ leaves, FitsWord c) :
    (interiorCounts leaves).length = leaves.length ∧
      (∀ c ∈ interiorCounts leaves, FitsWord c) ∧
      (∀ l < leaves.length, (interiorCounts leaves)[l]? =
        some ⌊(∑ k ∈ Ico (l + 1) leaves.length,
          (leaves.getD k 0 : ℚ) * 2 ^ (leaves.length - 1 - k)) / 2 ^ (leaves.length - 1 - l)⌋) ∧
      (leaves ≠ [] → (interiorCounts leaves).getLast? = some 0) := by
  have hlength := length_interiorCounts leaves
  refine ⟨hlength, interiorCounts_of_mean (by unfold FitsWord; omega) FitsWord.mean h, ?_, ?_⟩
  · intro l hl
    have hfloor := Rat.floor_intCast_div_natCast
      (∑ k ∈ Ico (l + 1) leaves.length, leaves.getD k 0 * 2 ^ (leaves.length - 1 - k))
      (2 ^ (leaves.length - 1 - l))
    push_cast at hfloor
    rw [hfloor, ← getD_interiorCounts_eq_div hl, List.getD_eq_getElem _ _ (by omega),
      List.getElem?_eq_getElem (by omega)]
  · intro hne
    have hpos := List.length_pos_iff.2 hne
    have hlast := getD_interiorCounts_last leaves
    rw [List.getD_eq_getElem _ _ (by omega)] at hlast
    rw [List.getLast?_eq_getElem?, hlength, List.getElem?_eq_getElem (by omega), hlast]

/-- The largest words twice, whose sum is none, above the smallest one. -/
theorem interiorCounts_closed_form_extreme :
    let leaves : List ℤ := [0, 2 ^ 31 - 1, 2 ^ 31 - 1, -2 ^ 31, -1]
    (∀ c ∈ leaves, FitsWord c) ∧ (∀ c ∈ interiorCounts leaves, FitsWord c) ∧
      interiorCounts leaves = [1342177279, 536870911, -1073741825, -1, 0] := by
  intro leaves
  have h : ∀ c ∈ leaves, FitsWord c := by
    intro c hc
    simp only [leaves, List.mem_cons, List.not_mem_nil, or_false] at hc
    unfold FitsWord
    omega
  exact ⟨h, (interiorCounts_closed_form h).2.1, by decide⟩

end PackFormat
