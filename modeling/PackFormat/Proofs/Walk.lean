import Mathlib.Data.List.GetD
import PackFormat.Proofs.Levels

/-!
# Walks that hold on to nothing but a cursor

A walk over a bit string can be cut anywhere: the rest goes on from the cursor that
the first part led to (`Tree.scan_append`). In a consistent tree a walk stays inside
the tables and ends at a slot or past the leaves of a level.

* `Tree.scan_append`: a walk over two bit strings, one after the other.
* `Tree.Consistent.step_eq`: one bit in a consistent tree.
* `Tree.Consistent.scan_level`, `Tree.Consistent.scan_failed`: where a walk in a
  consistent tree can stand, and how alone it can fail.
-/

namespace PackFormat

namespace Tree

variable {t : Tree}

/-- **A walk goes on where it stopped.** -/
theorem scan_append (t : Tree) (c : Cursor) (symbols : Array UInt8) (used : ℕ) (xs ys : List Bool) :
    t.scan c symbols used (xs ++ ys) =
      match t.scan c symbols used xs with
      | ⟨symbols', used', .more c'⟩ => t.scan c' symbols' used' ys
      | r => r := by
  induction xs generalizing c symbols used with
  | nil => rfl
  | cons bit xs ih =>
    rw [List.cons_append]
    simp only [scan]
    cases t.step c bit with
    | descend c => exact ih ..
    | symbol b => exact ih ..
    | stop => rfl
    | fail f => rfl

/-- A walk that goes on has used all bits. -/
theorem scan_used_of_more {c c' : Cursor} {symbols : Array UInt8} {used : ℕ} {bits : List Bool}
    (h : (t.scan c symbols used bits).ending = .more c') :
    (t.scan c symbols used bits).used = used + bits.length := by
  induction bits generalizing c symbols used with
  | nil => rfl
  | cons bit bits ih =>
    simp only [scan] at h ⊢
    cases hstep : t.step c bit with
    | descend c => simp only [hstep] at h ⊢; rw [ih h, List.length_cons]; omega
    | symbol b => simp only [hstep] at h ⊢; rw [ih h, List.length_cons]; omega
    | stop => simp only [hstep] at h; cases h
    | fail f => simp only [hstep] at h; cases h

/-- A walk uses no more bits than there are, and one at least to come to an end. -/
theorem scan_used_le (t : Tree) (c : Cursor) (symbols : Array UInt8) (used : ℕ) (bits : List Bool) :
    (t.scan c symbols used bits).used ≤ used + bits.length ∧
      ((∀ c', (t.scan c symbols used bits).ending ≠ .more c') →
        used < (t.scan c symbols used bits).used) := by
  induction bits generalizing c symbols used with
  | nil => exact ⟨le_rfl, fun h => absurd rfl (h c)⟩
  | cons bit bits ih =>
    simp only [scan, List.length_cons]
    cases t.step c bit with
    | descend c =>
      obtain ⟨h1, h2⟩ := ih c symbols (used + 1)
      exact ⟨by simp only; omega, fun h => by have := h2 h; simp only; omega⟩
    | symbol b =>
      obtain ⟨h1, h2⟩ := ih {} (symbols.push b) (used + 1)
      exact ⟨by simp only; omega, fun h => by have := h2 h; simp only; omega⟩
    | stop => exact ⟨by simp only; omega, fun _ => Nat.lt_succ_self used⟩
    | fail f => exact ⟨by simp only; omega, fun _ => Nat.lt_succ_self used⟩

/-- The only failures of a walk are corrupt codes and tables that are too short. -/
theorem kind_of_step_fail {c : Cursor} {bit : Bool} {f : Failure} (h : t.step c bit = .fail f) :
    f.kind = .corruptCode ∨ f.kind = .outOfRange := by
  unfold step at h
  dsimp only at h
  split at h
  · cases h; exact Or.inr rfl
  split at h
  · unfold leaf at h
    split at h
    · cases h; exact Or.inr rfl
    split at h
    · cases h; exact Or.inl rfl
    split at h
    · cases h; exact Or.inr rfl
    split at h
    · cases h
    split at h
    · cases h; exact Or.inr rfl
    · cases h
  split at h
  · cases h; exact Or.inl rfl
  · cases h

theorem kind_of_scan_failed {c : Cursor} {symbols : Array UInt8} {used : ℕ} {bits : List Bool}
    {f : Failure} (h : (t.scan c symbols used bits).ending = .failed f) :
    f.kind = .corruptCode ∨ f.kind = .outOfRange := by
  induction bits generalizing c symbols used with
  | nil => cases h
  | cons bit bits ih =>
    simp only [scan] at h
    cases hstep : t.step c bit with
    | descend c => rw [hstep] at h; exact ih h
    | symbol b => rw [hstep] at h; exact ih h
    | stop => rw [hstep] at h; cases h
    | fail g => rw [hstep] at h; cases h; exact kind_of_step_fail hstep

/-- What a slot stands for: the stop code or a symbol. -/
def slotStep (t : Tree) (x : Slot) : Step := if x = t.stopSlot then .stop else .symbol (t.symbolAt x)

namespace Consistent

/-- A leaf of a level is what its slot stands for. -/
theorem leaf_eq (h : t.Consistent) {x : Slot} (hl : x.level < t.interior.length)
    (hi : (x.index : ℤ) < t.leavesAt x.level) : t.leaf x.level x.index = t.slotStep x := by
  have hplace := h.place_lt_or_eq hl hi
  have hl₁ : x.level < t.leaves.length := by rw [h.length_leaves]; exact hl
  have hl₂ : x.level < t.offsets.length := by rw [h.length_offsets]; exact hl
  unfold leavesAt at hi
  rw [List.getD_eq_getElem _ _ hl₁] at hi
  unfold leaf slotStep
  rw [List.getElem?_eq_getElem hl₁]
  simp only
  rw [if_neg (by omega), List.getElem?_eq_getElem hl₂]
  have hp : t.offsets[x.level] + x.index = t.place x := by
    rw [place, List.getD_eq_getElem _ _ hl₂]
  simp only [hp, stopIndex]
  rcases hplace with ⟨hx, hlt⟩ | ⟨hx, heq⟩
  · rw [if_neg (by omega), if_neg hx, List.getElem?_eq_getElem hlt, symbolAt,
      List.getD_eq_getElem _ _ hlt]
  · rw [if_pos heq, if_pos hx]

/-- Past the leaves of a level there is only a corrupt code. -/
theorem leaf_fail (h : t.Consistent) {l i : ℕ} (hl : l < t.interior.length)
    (hi : t.leavesAt l ≤ i) : t.leaf l i = .fail (.leafOutOfRange i l) := by
  have hl₁ : l < t.leaves.length := by rw [h.length_leaves]; exact hl
  unfold leavesAt at hi
  rw [List.getD_eq_getElem _ _ hl₁] at hi
  unfold leaf
  rw [List.getElem?_eq_getElem hl₁]
  simp only
  rw [if_pos hi]

/-- **One bit in a consistent tree**: down, to a slot, or past the leaves. -/
theorem step_eq (h : t.Consistent) {c : Cursor} (hc : c.level < t.interior.length) (bit : Bool) :
    (((2 * c.code + bit.toNat : ℕ) : ℤ) < t.innerAt c.level ∧ c.level + 1 < t.interior.length ∧
        t.step c bit = .descend ⟨c.level + 1, 2 * c.code + bit.toNat⟩) ∨
      ∃ i : ℕ, ((2 * c.code + bit.toNat : ℕ) : ℤ) = t.innerAt c.level + i ∧
        (((i : ℤ) < t.leavesAt c.level ∧ t.step c bit = t.slotStep ⟨c.level, i⟩) ∨
          (t.leavesAt c.level ≤ i ∧ t.step c bit = .fail (.leafOutOfRange i c.level))) := by
  have hinner : t.interior[c.level]? = some (t.innerAt c.level) := by
    rw [innerAt, List.getD_eq_getElem _ _ hc, List.getElem?_eq_getElem hc]
  unfold step
  simp only [hinner]
  by_cases hlt : ((2 * c.code + bit.toNat : ℕ) : ℤ) < t.innerAt c.level
  · left
    -- the last level has no interior nodes to go down from
    have hlevel : c.level + 1 < t.interior.length := by
      by_contra hlast
      have := h.innerAt_last
      rw [show t.interior.length - 1 = c.level by omega] at this
      omega
    have hmax : ¬t.maxLevel < (c.level : ℤ) + 1 := by unfold maxLevel; rw [h.levels]; omega
    rw [if_neg (by omega), if_neg hmax]
    exact ⟨hlt, hlevel, rfl⟩
  · right
    refine ⟨(((2 * c.code + bit.toNat : ℕ) : ℤ) - t.innerAt c.level).toNat, by omega, ?_⟩
    rw [if_pos (by omega)]
    by_cases hi : ((((2 * c.code + bit.toNat : ℕ) : ℤ) - t.innerAt c.level).toNat : ℤ) <
        t.leavesAt c.level
    · exact Or.inl ⟨hi, h.leaf_eq (x := ⟨c.level, _⟩) hc hi⟩
    · exact Or.inr ⟨not_lt.1 hi, h.leaf_fail hc (not_lt.1 hi)⟩

/-- **A walk stays on the levels of the tree.** -/
theorem scan_level (h : t.Consistent) {c c' : Cursor} (hc : c.level < t.interior.length)
    {symbols : Array UInt8} {used : ℕ} {bits : List Bool}
    (hmore : (t.scan c symbols used bits).ending = .more c') : c'.level < t.interior.length := by
  induction bits generalizing c symbols used with
  | nil => cases hmore; exact hc
  | cons bit bits ih =>
    simp only [scan] at hmore
    rcases h.step_eq hc bit with ⟨-, hlevel, hs⟩ | ⟨i, -, ⟨-, hs⟩ | ⟨-, hs⟩⟩
    · rw [hs] at hmore; exact ih hlevel hmore
    · unfold slotStep at hs
      split at hs
      · rw [hs] at hmore; cases hmore
      · rw [hs] at hmore; exact ih h.levels_pos hmore
    · rw [hs] at hmore; cases hmore

/-- **A walk fails only past the leaves of a level.** -/
theorem scan_failed (h : t.Consistent) {c : Cursor} (hc : c.level < t.interior.length)
    {symbols : Array UInt8} {used : ℕ} {bits : List Bool} {f : Failure}
    (hf : (t.scan c symbols used bits).ending = .failed f) :
    ∃ i l, f = .leafOutOfRange i l := by
  induction bits generalizing c symbols used with
  | nil => cases hf
  | cons bit bits ih =>
    simp only [scan] at hf
    rcases h.step_eq hc bit with ⟨-, hlevel, hs⟩ | ⟨i, -, ⟨-, hs⟩ | ⟨-, hs⟩⟩
    · rw [hs] at hf; exact ih hlevel hf
    · unfold slotStep at hs
      split at hs
      · rw [hs] at hf; cases hf
      · rw [hs] at hf; exact ih h.levels_pos hf
    · rw [hs] at hf; cases hf; exact ⟨i, c.level, rfl⟩

end Consistent

end Tree

end PackFormat
