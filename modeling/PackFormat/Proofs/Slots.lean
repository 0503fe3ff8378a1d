import Mathlib.Data.Set.Function
import PackFormat.Proofs.Kraft

/-!
# Where the slots of a tree lie

A header is taken apart from the front, and each thing that can be wrong with it is
found before a byte behind it is read. What it tells is a tree whose levels lie one
behind the other in the symbol table, without gaps (`Tree.Tiled`): the table has a
place for each slot, in their order, and one place more, for the stop code.

* `Tree.tiled_ofCounts`: good headers give such trees.
* `Tree.Tiled.place_lt_place`, `Tree.Tiled.exists_slot`: places go up, and each has its
  slot.
* `Tree.Tiled.numbered`: **the numbering of the slots.**
* `Tree.read_cases`: **what reading a tree comes to**, and how far it reads.
-/

namespace PackFormat

/-- Slots go by level, and by index on one level. -/
def Slot.Before (x y : Slot) : Prop := x.level < y.level ∨ x.level = y.level ∧ x.index < y.index

namespace Tree

/-- A slot that a tree has. -/
structure HasSlot (t : Tree) (x : Slot) : Prop where
  level_lt : x.level < t.interior.length
  index_lt : (x.index : ℤ) < t.leavesAt x.level

/-- **Levels that lie one behind the other**, from the first place on. -/
structure Tiled (t : Tree) : Prop extends t.Consistent where
  place_zero : t.place ⟨0, 0⟩ = 0
  place_succ : ∀ l, l + 1 < t.interior.length →
    (t.place ⟨l + 1, 0⟩ : ℤ) = t.place ⟨l, 0⟩ + t.leavesAt l

/-- **Slots that are numbered by their places**: one for each place up to the stop code's, in their
order. Each level has a run of the table to itself, right behind the level above. -/
structure Numbered (t : Tree) : Prop where
  levels : t.levels = t.interior.length
  bijOn : Set.BijOn t.place {x | t.HasSlot x} (Set.Iic t.stopIndex)
  place_lt : ∀ x y, t.HasSlot x → t.HasSlot y → x.Before y → t.place x < t.place y
  first : t.place ⟨0, 0⟩ = 0
  /-- The run of a level starts where the one above ends. -/
  run : ∀ l, l + 1 < t.interior.length →
    (t.place ⟨l + 1, 0⟩ : ℤ) = t.place ⟨l, 0⟩ + t.leavesAt l
  /-- The symbols of the table are those of the slots. -/
  symbol : ∀ x, t.HasSlot x → x ≠ t.stopSlot → t.symbols[t.place x]? = some (t.symbolAt x)
  place_eq_iff : ∀ x, t.HasSlot x → (t.place x = t.stopIndex ↔ x = t.stopSlot)

variable {counts : List ℕ} {symbols : List UInt8} {t : Tree}

/-- **The tree of a good header is tiled.** -/
theorem tiled_ofCounts (h : Header.Good counts symbols) (size : Option ℤ) :
    (ofCounts counts symbols size).Tiled := by
  have hlen : (ofCounts counts symbols size).interior.length = counts.length := by simp [ofCounts]
  refine ⟨consistent_ofCounts h size, ?_, ?_⟩
  · rw [place_ofCounts size h.depth_pos]
    rfl
  · intro l hl
    rw [hlen] at hl
    have hsum := total_take_succ (show l < counts.length by omega)
    rw [place_ofCounts size hl, place_ofCounts size (by omega), leavesAt_ofCounts size (by omega),
      if_neg (by omega), hsum]
    push_cast
    ring

namespace Tiled

/-- A run ends no later than a later one starts. -/
theorem run_end_le (h : t.Tiled) {l m : ℕ} (hlm : l < m) (hm : m < t.interior.length) :
    (t.place ⟨l, 0⟩ : ℤ) + t.leavesAt l ≤ t.place ⟨m, 0⟩ := by
  induction m with
  | zero => omega
  | succ m ih =>
    have hnext := h.place_succ m hm
    rcases Nat.lt_or_eq_of_le (Nat.le_of_lt_succ hlm) with hlt | rfl
    · have := ih hlt (by omega)
      have := h.leavesAt_nonneg m
      omega
    · exact hnext.ge

/-- **Places go up with the slots.** -/
theorem place_lt_place (h : t.Tiled) {x y : Slot} (hx : t.HasSlot x) (hy : t.HasSlot y)
    (hxy : x.Before y) : t.place x < t.place y := by
  have hpx := t.place_eq x
  have hpy := t.place_eq y
  have hindex := hx.index_lt
  rcases hxy with hlevel | ⟨hlevel, hlt⟩
  · have := h.run_end_le hlevel hy.level_lt
    omega
  · rw [hlevel] at hpx
    omega

/-- No two slots have one place. -/
theorem place_injOn (h : t.Tiled) : Set.InjOn t.place {x | t.HasSlot x} := by
  intro x hx y hy heq
  by_contra hne
  have hbefore : x.Before y ∨ y.Before x := by
    unfold Slot.Before
    rcases Nat.lt_trichotomy x.level y.level with hlt | hlevel | hgt
    · exact Or.inl (Or.inl hlt)
    · rcases Nat.lt_trichotomy x.index y.index with hlt | hindex | hgt
      · exact Or.inl (Or.inr ⟨hlevel, hlt⟩)
      · obtain ⟨l, i⟩ := x
        obtain ⟨m, j⟩ := y
        exact absurd (by simp only at hlevel hindex; rw [hlevel, hindex]) hne
      · exact Or.inr (Or.inr ⟨hlevel.symm, hgt⟩)
    · exact Or.inr (Or.inl hgt)
  rcases hbefore with hxy | hyx
  · exact (h.place_lt_place hx hy hxy).ne heq
  · exact (h.place_lt_place hy hx hyx).ne' heq

/-- **Each place before a level has its slot**, on a level above. -/
theorem exists_slot_above (h : t.Tiled) {m p : ℕ} (hm : m < t.interior.length)
    (hp : p < t.place ⟨m, 0⟩) : ∃ x, t.HasSlot x ∧ t.place x = p := by
  induction m with
  | zero => rw [h.place_zero] at hp; omega
  | succ m ih =>
    have hnext := h.place_succ m hm
    rcases Nat.lt_or_ge p (t.place ⟨m, 0⟩) with hlt | hge
    · exact ih (by omega) hlt
    · -- behind the start of the last level above, it is on that level
      have hplace := t.place_eq ⟨m, p - t.place ⟨m, 0⟩⟩
      refine ⟨⟨m, p - t.place ⟨m, 0⟩⟩, ⟨by simp only; omega, ?_⟩, ?_⟩
      · simp only; omega
      · rw [hplace]; simp only; omega

/-- **Each place has its slot**, up to the stop code's. -/
theorem exists_slot (h : t.Tiled) {p : ℕ} (hp : p ≤ t.stopIndex) :
    ∃ x, t.HasSlot x ∧ t.place x = p := by
  have hpos := h.levels_pos
  have hlast := h.place_last
  unfold stopIndex at hp
  rcases Nat.lt_or_ge p (t.place ⟨t.interior.length - 1, 0⟩) with hlt | hge
  · exact h.exists_slot_above (by omega) hlt
  · have hplace := t.place_eq ⟨t.interior.length - 1, p - t.place ⟨t.interior.length - 1, 0⟩⟩
    refine ⟨⟨t.interior.length - 1, p - t.place ⟨t.interior.length - 1, 0⟩⟩,
      ⟨by simp only; omega, ?_⟩, ?_⟩
    · simp only; omega
    · rw [hplace]; simp only; omega

/-- **The slots are numbered.** -/
theorem numbered (h : t.Tiled) : t.Numbered := by
  have hplace : ∀ x, t.HasSlot x → (x ≠ t.stopSlot ∧ t.place x < t.stopIndex) ∨
      (x = t.stopSlot ∧ t.place x = t.stopIndex) := fun x hx =>
    h.place_lt_or_eq hx.level_lt hx.index_lt
  refine ⟨h.levels, ⟨?_, h.place_injOn, ?_⟩, fun x y hx hy hxy => h.place_lt_place hx hy hxy,
    h.place_zero, h.place_succ, ?_, ?_⟩
  · intro x hx
    rcases hplace x hx with ⟨-, hlt⟩ | ⟨-, heq⟩
    · exact hlt.le
    · exact heq.le
  · intro p hp
    exact h.exists_slot hp
  · intro x hx hne
    rcases hplace x hx with ⟨-, hlt⟩ | ⟨heq, -⟩
    · rw [symbolAt, List.getElem?_eq_getElem hlt, List.getD_eq_getElem _ _ hlt]
    · exact absurd heq hne
  · intro x hx
    rcases hplace x hx with ⟨hne, hlt⟩ | ⟨heq, hstop⟩
    · exact ⟨fun hstop => absurd hstop hlt.ne, fun heq => absurd heq hne⟩
    · exact ⟨fun _ => heq, fun _ => hstop⟩

end Tiled

/-- **Interior nodes are few**: half as many at most as there are leaves. -/
theorem innerAt_le (h : Header.Good counts symbols) (size : Option ℤ) (l : ℕ) :
    (ofCounts counts symbols size).innerAt l ≤ 128 := by
  have ht := consistent_ofCounts h size
  have hleaves := sum_leavesAt_ofCounts h size
  have htotal := h.total_lt
  unfold Header.maxSymbols at htotal
  rcases Nat.lt_or_ge (l + 1) (ofCounts counts symbols size).leaves.length with hl | hl
  · have hbelow := ht.two_mul_innerAt_le l
    have hnodes := ht.nodesAt_le hl
    omega
  · -- no level is below the last
    have hzero : (ofCounts counts symbols size).innerAt l = 0 := by
      rw [ht.length_leaves] at hl
      rcases Nat.lt_or_ge l (ofCounts counts symbols size).interior.length with hlt | hge
      · obtain rfl : l = (ofCounts counts symbols size).interior.length - 1 := by omega
        exact ht.innerAt_last
      · exact List.getD_eq_default _ _ hge
    omega

open Header

section Read

variable {s : Source} {depth : UInt8} {bytes : List UInt8}

/-- A header that is cut short. -/
theorem read_of_truncated (hs : s.Clean) (size : Option ℤ) {part : String}
    (h : parse s.upcoming = .error (.truncated part)) :
    ∃ s', read [] size s = .error (.truncated part) s' := by
  have hnone : ([] : List UInt8).length ≤ 1 := Nat.zero_le 1
  obtain ⟨s', hread⟩ := read_of_parse_error hs.maxRead hnone size h
  rw [hs.haltError, Failure.atHalt_none] at hread
  exact ⟨s', hread⟩

/-- What stands behind a depth byte, counts first. -/
theorem cons_eq_encode (hlen : depth.toNat ≤ bytes.length) :
    depth :: bytes =
      encode ((bytes.take depth.toNat).map UInt8.toNat) (bytes.drop depth.toNat) := by
  rw [encode, List.length_map, List.length_take_of_le hlen, UInt8.ofNat_toNat, map_toNat_ofNat,
    List.take_append_drop]

/-- The leaves of a tree are its header's counts, with two more on the last level. -/
theorem getElem?_leaves_ofCounts (counts : List ℕ) (symbols : List UInt8) (size : Option ℤ)
    (l : ℕ) : (ofCounts counts symbols size).leaves[l]? =
      counts[l]?.map fun c => ((c + if l + 1 = counts.length then 2 else 0 : ℕ) : ℤ) := by
  rw [ofCounts, List.getElem?_map, getElem?_addToLast, Option.map_map]
  rfl

/-- **What reading a tree comes to**, from a source that does not fail, however little its reads
give. A header byte out of range is refused right behind it, and too many symbols right behind the
counts. A header that is cut short is refused as such. Any other is read to its last byte and no
further, and the places of its table number the slots of its tree. -/
theorem read_cases (hs : s.Clean) (size : Option ℤ) :
    match s.upcoming with
    | [] => ∃ s', read [] size s = .error (.truncated "pack header") s'
    | depth :: bytes =>
      let levels := depth.toNat
      let counts := (bytes.take levels).map UInt8.toNat
      let sum := counts.sum
      if levels < 1 ∨ 24 < levels then
        ∃ s', read [] size s = .error (.insaneLevels levels) s' ∧ s.Past 1 s'
      else if bytes.length < levels then
        ∃ s', read [] size s = .error (.truncated "symbol count table") s'
      else if 255 < sum then
        ∃ s', read [] size s = .error (.tableOverflow (1 + sum)) s' ∧ s.Past (1 + levels) s'
      else if bytes.length < levels + (sum + 1) then
        ∃ s', read [] size s = .error (.truncated "symbol table") s'
      else
        ∃ t s', read [] size s = .ok t s' ∧ s.Past (1 + levels + (sum + 1)) s' ∧
          t.levels = levels ∧
          (∀ l, t.leaves[l]? =
            counts[l]?.map fun c => ((c + if l + 1 = levels then 2 else 0 : ℕ) : ℤ)) ∧
          t.symbols = (bytes.drop levels).take (sum + 1) ∧ t.Numbered ∧
          ∀ l, 0 ≤ t.innerAt l ∧ t.innerAt l ≤ 128 := by
  have hm := hs.maxRead
  have hnone : ([] : List UInt8).length ≤ 1 := Nat.zero_le 1
  rcases hbytes : s.upcoming with _ | ⟨depth, bytes⟩
  · apply read_of_truncated hs
    rw [hbytes, parse]
  simp only
  -- the checks of a header, in their order
  split
  · rename_i hdepth
    obtain ⟨s₁, hp₁, -, hr₁⟩ := readDepth_of_cons hm hnone hbytes
    rw [if_neg (by unfold maxDepth; omega)] at hr₁
    exact ⟨s₁, read_of_readDepth_error hr₁, hp₁⟩
  rename_i hdepth
  split
  · rename_i hlen
    apply read_of_truncated hs
    rw [hbytes, parse, if_neg (by unfold maxDepth; omega), if_pos hlen]
  rename_i hlen
  have hencode := hbytes.trans (cons_eq_encode (not_lt.1 hlen))
  have hcounts : ((bytes.take depth.toNat).map UInt8.toNat).length = depth.toNat := by
    rw [List.length_map, List.length_take_of_le (not_lt.1 hlen)]
  have hsum : ((bytes.take depth.toNat).map UInt8.toNat).sum =
      total ((bytes.take depth.toNat).map UInt8.toNat) := rfl
  have hlt : ∀ c ∈ (bytes.take depth.toNat).map UInt8.toNat, c < 256 := by
    intro c hc
    obtain ⟨b, -, rfl⟩ := List.mem_map.1 hc
    exact b.toNat_lt
  split
  · rename_i htotal
    obtain ⟨s', hread, hp⟩ := read_of_overflow hm hnone size (by omega)
      (by unfold maxDepth; omega) hlt (by unfold maxSymbols; omega) hencode
    rw [hcounts] at hp
    exact ⟨s', hread, hp⟩
  rename_i htotal
  split
  · rename_i htable
    apply read_of_truncated hs
    rw [hbytes, parse, if_neg (by unfold maxDepth; omega), if_neg hlen]
    simp only
    rw [if_neg (by unfold maxSymbols; omega), if_pos (by rw [List.length_drop]; omega)]
  rename_i htable
  have hgood : Good ((bytes.take depth.toNat).map UInt8.toNat) ((bytes.drop depth.toNat).take
      (((bytes.take depth.toNat).map UInt8.toNat).sum + 1)) := by
    refine ⟨by omega, by unfold maxDepth; omega, by unfold maxSymbols; omega, ?_⟩
    rw [List.length_take, List.length_drop]; omega
  rw [← List.take_append_drop (((bytes.take depth.toNat).map UInt8.toNat).sum + 1)
    (bytes.drop depth.toNat), encode, ← List.append_assoc, ← List.cons_append] at hencode
  obtain ⟨s', hread, hp, -⟩ :=
    read_of_parse_ok hm hnone size (parse_eq_ok_iff.2 ⟨hgood, hencode⟩)
  have hleaves := getElem?_leaves_ofCounts ((bytes.take depth.toNat).map UInt8.toNat)
    ((bytes.drop depth.toNat).take (((bytes.take depth.toNat).map UInt8.toNat).sum + 1)) size
  rw [length_encode, hgood.symbols_length, hcounts] at hp
  rw [hcounts] at hleaves
  have hinner := (consistent_ofCounts hgood size).innerAt_nonneg
  exact ⟨_, s', hread, hp, congrArg Nat.cast hcounts, hleaves, rfl,
    (tiled_ofCounts hgood size).numbered, fun l => ⟨hinner l, innerAt_le hgood size l⟩⟩

/-- A tree behind another byte, two bytes at a time: it ends before the last byte there is. -/
theorem read_cases_three_levels :
    ∃ t s', read [] none
        { data := #[9, 3, 0, 2, 0, 65, 66, 67, 255], pos := 1, maxRead := some 2 } = .ok t s' ∧
      s'.pos = 8 ∧ t.leaves = [0, 2, 2] ∧ t.symbols = [65, 66, 67] ∧ t.Numbered := by
  have h := read_cases
    (s := { data := #[9, 3, 0, 2, 0, 65, 66, 67, 255], pos := 1, maxRead := some 2 })
    ⟨rfl, by decide⟩ none
  obtain ⟨t, s', hread, hpast, -, hleaves, hsymbols, hnumbered, -⟩ := h
  refine ⟨t, s', hread, by rw [hpast]; rfl, ?_, hsymbols, hnumbered⟩
  refine List.ext_getElem? fun l => (hleaves l).trans ?_
  rcases l with _ | _ | _ | l <;> rfl

end Read

end Tree

end PackFormat
