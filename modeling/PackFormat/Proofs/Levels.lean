import PackFormat.Proofs.Header
import PackFormat.Walk

/-!
# The tables of a tree

The tables of a tree read from a header fit together (`Tree.Consistent`), though
the last level's count is used in three ways: as stored, with one more for its
symbols, with two more for its leaves. Each slot, a leaf of a level, has a place
in the symbol table or is the stop code's.

* `interiorCounts_of_mean`: what a mean keeps, the interior nodes have from the leaves.
* `Tree.consistent_ofCounts`: good headers give consistent trees.
* `Tree.Consistent.place_lt_or_eq`: a slot's place is in the table or, for the last
  slot of the last level alone, right behind it.
-/

namespace PackFormat

theorem getElem?_addToLast (n : ℕ) (counts : List ℕ) (l : ℕ) :
    (addToLast n counts)[l]? = counts[l]?.map (· + if l + 1 = counts.length then n else 0) := by
  induction counts generalizing l with
  | nil => rfl
  | cons c counts ih =>
    cases counts with
    | nil => cases l <;> rfl
    | cons c' counts =>
      cases l with
      | zero => simp [addToLast]
      | succ l => simpa [addToLast] using ih l

/-- Adding to the last entry leaves the entries before it alone. -/
theorem take_addToLast (n : ℕ) {counts : List ℕ} {l : ℕ} (hl : l < counts.length) :
    (addToLast n counts).take l = counts.take l := by
  refine List.ext_getElem? fun i => ?_
  rw [List.getElem?_take, List.getElem?_take, getElem?_addToLast]
  split
  · rw [if_neg (by omega)]; simp
  · rfl

theorem getElem?_runningSums (start : ℕ) (counts : List ℕ) {l : ℕ} (hl : l < counts.length) :
    (runningSums start counts)[l]? = some (start + Header.total (counts.take l)) := by
  induction counts generalizing start l with
  | nil => simp at hl
  | cons c counts ih =>
    cases l with
    | zero => simp [runningSums, Header.total]
    | succ l =>
      rw [runningSums, List.getElem?_cons_succ, ih _ (by simpa using hl)]
      simp [Header.total, Nat.add_assoc]

/-- **Each level's interior nodes carry the nodes of the level below**, two each. -/
theorem getD_interiorCounts (leaves : List ℤ) (l : ℕ) :
    (interiorCounts leaves).getD l 0 =
      ((interiorCounts leaves).getD (l + 1) 0 + leaves.getD (l + 1) 0) / 2 := by
  induction leaves generalizing l with
  | nil => rfl
  | cons c leaves ih =>
    cases leaves with
    | nil => cases l <;> simp [interiorCounts]
    | cons below rest =>
      cases l with
      | zero => simp [interiorCounts, List.head?_eq_getElem?]
      | succ l => simpa [interiorCounts] using ih l

/-- **What two numbers share with their mean**, the interior nodes share with the leaves. -/
theorem interiorCounts_of_mean {P : ℤ → Prop} (hzero : P 0)
    (hmean : ∀ {a b}, P a → P b → P ((a + b) / 2)) {leaves : List ℤ} (h : ∀ c ∈ leaves, P c) :
    ∀ c ∈ interiorCounts leaves, P c := by
  induction leaves with
  | nil => intro c hc; cases hc
  | cons c leaves ih =>
    cases leaves with
    | nil =>
      intro c hc
      obtain rfl := List.mem_singleton.1 hc
      exact hzero
    | cons below rest =>
      have hrest := ih fun c hc => h c (List.mem_cons_of_mem _ hc)
      have hbelow := h below (by simp)
      have hhead : P ((interiorCounts (below :: rest)).headD 0) := by
        cases hi : interiorCounts (below :: rest) with
        | nil => exact hzero
        | cons i _ => exact hrest i (by rw [hi]; simp)
      intro c hc
      rw [interiorCounts, List.mem_cons] at hc
      rcases hc with rfl | hc
      · exact hmean hhead hbelow
      · exact hrest c hc

theorem interiorCounts_nonneg {leaves : List ℤ} (h : ∀ c ∈ leaves, 0 ≤ c) :
    ∀ c ∈ interiorCounts leaves, 0 ≤ c :=
  interiorCounts_of_mean le_rfl (fun ha hb => Int.ediv_nonneg (by omega) (by omega)) h

/-- A leaf of a level, counted from the first. -/
structure Slot where
  level : ℕ
  index : ℕ
deriving DecidableEq, Repr

namespace Tree

/-- The interior nodes of a level, none past the last. -/
def innerAt (t : Tree) (l : ℕ) : ℤ := t.interior.getD l 0

/-- The leaves of a level, none past the last. -/
def leavesAt (t : Tree) (l : ℕ) : ℤ := t.leaves.getD l 0

/-- The place of a slot in the symbol table. -/
def place (t : Tree) (x : Slot) : ℕ := t.offsets.getD x.level 0 + x.index

/-- The symbol of a slot. -/
def symbolAt (t : Tree) (x : Slot) : UInt8 := t.symbols.getD (t.place x) 0

/-- **The slot of the stop code**: the last of the last level. -/
def stopSlot (t : Tree) : Slot :=
  ⟨t.interior.length - 1, (t.leavesAt (t.interior.length - 1)).toNat - 1⟩

/-- **Tables that fit together.** -/
structure Consistent (t : Tree) : Prop where
  levels : t.levels = t.interior.length
  levels_pos : 0 < t.interior.length
  length_leaves : t.leaves.length = t.interior.length
  length_offsets : t.offsets.length = t.interior.length
  /-- Interior nodes carry two nodes each. -/
  halves : ∀ l, t.innerAt l = (t.innerAt (l + 1) + t.leavesAt (l + 1)) / 2
  innerAt_nonneg : ∀ l, 0 ≤ t.innerAt l
  leavesAt_nonneg : ∀ l, 0 ≤ t.leavesAt l
  /-- Above the last level, all leaves have symbols. -/
  place_le : ∀ l, l + 1 < t.interior.length → t.place ⟨l, 0⟩ + t.leavesAt l ≤ t.symbols.length
  /-- On the last level, all but the last have. -/
  place_last : t.place ⟨t.interior.length - 1, 0⟩ + t.leavesAt (t.interior.length - 1) =
    t.symbols.length + 1

variable {counts : List ℕ} {symbols : List UInt8}

theorem leavesAt_ofCounts (size : Option ℤ) {l : ℕ} (hl : l < counts.length) :
    (ofCounts counts symbols size).leavesAt l =
      (counts[l] + if l + 1 = counts.length then 2 else 0 : ℕ) := by
  rw [leavesAt, ofCounts, List.getD_eq_getElem?_getD, List.getElem?_map, getElem?_addToLast,
    List.getElem?_eq_getElem hl]
  rfl

theorem place_ofCounts (size : Option ℤ) {l : ℕ} (hl : l < counts.length) (i : ℕ) :
    (ofCounts counts symbols size).place ⟨l, i⟩ = Header.total (counts.take l) + i := by
  rw [place, ofCounts, List.getD_eq_getElem?_getD,
    getElem?_runningSums 0 _ (by rwa [length_addToLast]), take_addToLast 1 hl]
  simp

theorem total_take_succ {counts : List ℕ} {l : ℕ} (hl : l < counts.length) :
    Header.total (counts.take (l + 1)) = Header.total (counts.take l) + counts[l] := by
  unfold Header.total
  rw [List.take_succ_eq_append_getElem hl]
  induction counts.take l with
  | nil => simp
  | cons c cs ih => simp only [List.cons_append, List.foldr_cons, ih]; omega

theorem total_take_le (counts : List ℕ) (l : ℕ) :
    Header.total (counts.take l) ≤ Header.total counts := by
  unfold Header.total
  induction counts generalizing l with
  | nil => simp
  | cons c counts ih =>
    cases l with
    | zero => simp
    | succ l => have := ih l; simp only [List.take_succ_cons, List.foldr_cons]; omega

/-- **The tables of a good header fit together.** -/
theorem consistent_ofCounts (h : Header.Good counts symbols) (size : Option ℤ) :
    (ofCounts counts symbols size).Consistent := by
  have hpos := h.depth_pos
  have hlen : (ofCounts counts symbols size).interior.length = counts.length := by simp [ofCounts]
  have hleaves : ∀ c ∈ (ofCounts counts symbols size).leaves, 0 ≤ c := by
    intro c hc
    obtain ⟨n, -, rfl⟩ := List.mem_map.1 hc
    exact Int.natCast_nonneg n
  have hgetD : ∀ (cs : List ℤ), (∀ c ∈ cs, 0 ≤ c) → ∀ l, 0 ≤ cs.getD l 0 := by
    intro cs hcs l
    rw [List.getD_eq_getElem?_getD]
    cases hl : cs[l]? with
    | none => rfl
    | some c => exact hcs c (List.mem_of_getElem? hl)
  refine ⟨by rw [hlen]; rfl, by omega, by simp [ofCounts], by simp [ofCounts],
    getD_interiorCounts _, hgetD _ (interiorCounts_nonneg hleaves), hgetD _ hleaves, ?_, ?_⟩
  · -- the leaves up to here are among those that the table is made for
    intro l hl
    rw [hlen] at hl
    rw [place_ofCounts _ (by omega), leavesAt_ofCounts _ (by omega), if_neg (by omega)]
    have h1 := total_take_succ (show l < counts.length by omega)
    have h2 := total_take_le counts (l + 1)
    have h3 := h.symbols_length
    change _ ≤ (symbols.length : ℤ)
    omega
  · -- two leaves more than its count, and one symbol more
    rw [hlen, place_ofCounts _ (by omega), leavesAt_ofCounts _ (by omega), if_pos (by omega)]
    have h1 := total_take_succ (show counts.length - 1 < counts.length by omega)
    rw [Nat.sub_add_cancel hpos, List.take_length] at h1
    have h3 := h.symbols_length
    change _ = (symbols.length : ℤ) + 1
    omega

variable {t : Tree}

theorem place_eq (t : Tree) (x : Slot) : t.place x = t.place ⟨x.level, 0⟩ + x.index := rfl

/-- The last level has no interior nodes. -/
theorem Consistent.innerAt_last (h : t.Consistent) : t.innerAt (t.interior.length - 1) = 0 := by
  rw [h.halves, Nat.sub_add_cancel h.levels_pos]
  have h1 : t.innerAt t.interior.length = 0 := by simp [innerAt]
  have h2 : t.leavesAt t.interior.length = 0 := by simp [leavesAt, h.length_leaves]
  rw [h1, h2]; rfl

/-- **Each slot has a symbol, but the stop code's**, whose place is the first behind the table. -/
theorem Consistent.place_lt_or_eq (h : t.Consistent) {x : Slot} (hl : x.level < t.interior.length)
    (hi : (x.index : ℤ) < t.leavesAt x.level) :
    (x ≠ t.stopSlot ∧ t.place x < t.symbols.length) ∨
      (x = t.stopSlot ∧ t.place x = t.symbols.length) := by
  have hp := t.place_eq x
  have hlast := h.place_last
  by_cases hlevel : x.level + 1 < t.interior.length
  · left
    have := h.place_le x.level hlevel
    refine ⟨?_, by omega⟩
    intro hx
    have := congrArg Slot.level hx
    simp only [stopSlot] at this
    omega
  · have hx : x.level = t.interior.length - 1 := by omega
    rw [hx] at hp hi
    by_cases hindex : x.index = (t.leavesAt (t.interior.length - 1)).toNat - 1
    · right
      obtain ⟨l, i⟩ := x
      simp only at hx hindex hp hi
      exact ⟨by rw [stopSlot, hx, hindex], by omega⟩
    · left
      refine ⟨fun hs => hindex ?_, by omega⟩
      rw [hs]; rfl

end Tree

end PackFormat
