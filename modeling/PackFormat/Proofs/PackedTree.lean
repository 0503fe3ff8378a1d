import PackFormat.Proofs.Grammar
import PackFormat.Proofs.HeaderWriter
import PackFormat.Proofs.Layout
import PackFormat.Proofs.Writer

/-!
# The tree that a packed header tells

The counts of a header leave two leaves of the last level out, and the tree that is
read from it puts them back. What comes out has the levels that the header was
written from, every leaf of it has a word, and the words are the codes that were
written.

* `FillsTree.consistent`, `FillsTree.innerAt_eq`, `FillsTree.leavesAt_eq`: the tree
  that a packed header tells.
* `FillsTree.slot_of_symbol`: **each symbol's code is the word of a slot that stands
  for it.**
-/

namespace PackFormat

theorem take_storedCounts {cs : List ℤ} {l : ℕ} (hl : l < cs.length) :
    (storedCounts cs).take l = cs.take l := by
  refine List.ext_getElem? fun i => ?_
  rw [List.getElem?_take, List.getElem?_take, getElem?_storedCounts]
  split
  · rw [if_neg (by omega)]; simp
  · rfl

namespace Header

/-- There are no more bytes than 256. -/
theorem length_le_of_nodup {symbols : List UInt8} (h : symbols.Nodup) : symbols.length ≤ 256 := by
  have hrange : symbols.map UInt8.toNat ⊆ List.range 256 := by
    intro n hn
    obtain ⟨b, -, rfl⟩ := List.mem_map.1 hn
    exact List.mem_range.2 b.toNat_lt
  have := (List.subperm_of_subset (h.map fun a b hab => UInt8.toNat_inj.1 hab) hrange).length_le
  rwa [List.length_map, List.length_range] at this

/-- What a header is checked for. -/
theorem good_of_check {counts : List ℤ} {symbols : List UInt8} (h : check counts symbols = none)
    (hnodup : symbols.Nodup) :
    Good (counts.map Int.toNat) symbols ∧ ∀ c ∈ counts, 0 ≤ c := by
  have hw := check_eq_none_iff.1 h
  have hle := length_le_of_nodup hnodup
  have hlength := hw.symbols_length
  exact ⟨hw.good (by omega), fun c hc => (hw.counts_le c hc).1⟩

/-- **A header that is written** passed the check, and is what it is encoded as. -/
theorem write_eq_ok {counts : List ℤ} {symbols : List UInt8} {k : Sink}
    (h : write counts symbols {} = .ok () k) :
    check counts symbols = none ∧ k.written.toList = encode (counts.map Int.toNat) symbols := by
  have hw := writable_of_write h
  obtain ⟨k', hrun, hwritten⟩ := write_of_writable hw (k := {}) rfl
  rw [hrun] at h
  cases h
  exact ⟨check_eq_none_iff.2 hw, by rw [hwritten]; simp⟩

end Header

/-- What a symbol is to a walk. -/
def Symbol.step : Symbol → Step
  | byte b => .symbol b
  | stop => .stop

/-- A slot stands for what the table has at its place, when the stop mark is put behind the table. -/
theorem Tree.Consistent.slotStep_of_getElem? {t : Tree} (h : t.Consistent) {x : Slot}
    (hx : t.HasWord x) {s : Symbol} (hs : (t.symbols.map .byte ++ [.stop])[t.place x]? = some s) :
    t.slotStep x = s.step := by
  have hlen : (t.symbols.map Symbol.byte).length = t.symbols.length := List.length_map _
  rcases h.place_lt_or_eq (h.level_lt hx) hx.index_lt with ⟨hne, hlt⟩ | ⟨heq, hend⟩
  · rw [List.getElem?_append_left (by omega), List.getElem?_map, Option.map_eq_some_iff] at hs
    obtain ⟨b, hb, rfl⟩ := hs
    have hsymbol : t.symbolAt x = b := by
      rw [symbolAt, List.getD_eq_getElem?_getD, hb, Option.getD_some]
    rw [slotStep, if_neg hne, hsymbol]
    rfl
  · rw [hend, ← hlen, List.getElem?_append_right le_rfl, Nat.sub_self] at hs
    cases hs
    rw [slotStep, if_pos heq]
    rfl

/-- The counts of a header packed from code lengths. -/
def headerCounts (lengths : List (Symbol × ℕ)) : List ℕ :=
  (storedCounts (levelSizes (levelSymbols lengths))).map Int.toNat

/-- The tree that the header tells. -/
def packedTree (lengths : List (Symbol × ℕ)) (size : Option ℤ) : Tree :=
  .ofCounts (headerCounts lengths) (symbolTable (levelSymbols lengths)) size

/-- **Lengths that can be packed**: their header passes the check. -/
def Packable (lengths : List (Symbol × ℕ)) : Prop :=
  Header.check (storedCounts (levelSizes (levelSymbols lengths)))
    (symbolTable (levelSymbols lengths)) = none

namespace FillsTree

variable {lengths : List (Symbol × ℕ)} {t : CodeTree}

theorem deepest_pos (hp : Packable lengths) : 0 < deepest lengths := by
  unfold Packable Header.check at hp
  dsimp only at hp
  split at hp
  · cases hp
  · rename_i hdepth
    rw [not_not, length_storedCounts, length_levelSizes, length_levelSymbols] at hdepth
    exact hdepth.1

theorem nodup_symbolTable (h : FillsTree lengths t) (hpos : 0 < deepest lengths) :
    (symbolTable (levelSymbols lengths)).Nodup := by
  have hnodup := h.nodup_flatten
  rw [h.flatten_levelSymbols hpos] at hnodup
  exact (List.nodup_append.1 hnodup).1.of_map _

/-- The header of packable lengths is good. -/
theorem good (h : FillsTree lengths t) (hp : Packable lengths) :
    Header.Good (headerCounts lengths) (symbolTable (levelSymbols lengths)) ∧
      ∀ c ∈ storedCounts (levelSizes (levelSymbols lengths)), 0 ≤ c :=
  Header.good_of_check hp (h.nodup_symbolTable (deepest_pos hp))

theorem consistent (h : FillsTree lengths t) (hp : Packable lengths) (size : Option ℤ) :
    (packedTree lengths size).Consistent :=
  Tree.consistent_ofCounts (h.good hp).1 size

theorem leaves_eq (h : FillsTree lengths t) (hp : Packable lengths) (size : Option ℤ) :
    (packedTree lengths size).leaves = levelSizes (levelSymbols lengths) :=
  addToLast_storedCounts (h.good hp).2

/-- **The tree has the leaves of the lengths' tree**, level by level. -/
theorem leavesAt_eq (h : FillsTree lengths t) (hp : Packable lengths) (size : Option ℤ) (l : ℕ) :
    (packedTree lengths size).leavesAt l = t.leavesAt (l + 1) := by
  rw [Tree.leavesAt, h.leaves_eq hp, getD_levelSizes, h.length_symbolsAt]

/-- **And its interior nodes.** -/
theorem innerAt_eq (h : FillsTree lengths t) (hp : Packable lengths) (size : Option ℤ) (l : ℕ) :
    (packedTree lengths size).innerAt l = t.innerAt (l + 1) := by
  have hinterior : (packedTree lengths size).interior =
      interiorCounts (levelSizes (levelSymbols lengths)) :=
    congrArg interiorCounts (h.leaves_eq hp size)
  rw [Tree.innerAt, hinterior, h.getD_interiorCounts_levels]

/-- **Every leaf has a word.** -/
theorem hasWord (h : FillsTree lengths t) (hp : Packable lengths) (size : Option ℤ) {x : Slot}
    (hl : x.level < deepest lengths) (hi : x.index < t.leavesAt (x.level + 1)) :
    (packedTree lengths size).HasWord x := by
  have hcode : (packedTree lengths size).slotCode x = (t.innerAt (x.level + 1) + x.index : ℕ) := by
    rw [Tree.slotCode, h.innerAt_eq hp]; push_cast; rfl
  have hlt : t.innerAt (x.level + 1) + x.index < t.nodesAt (x.level + 1) := by
    rw [t.nodesAt_eq]; omega
  refine ⟨?_, ?_, ?_, ?_⟩
  · rw [(h.consistent hp size).levels]
    simpa [packedTree, Tree.ofCounts, headerCounts] using hl
  · rw [h.leavesAt_eq hp]; exact_mod_cast hi
  · have := t.nodesAt_le (x.level + 1)
    rw [hcode]; exact_mod_cast (by omega : t.innerAt (x.level + 1) + x.index < 2 ^ (x.level + 1))
  · -- below an interior node there is room for twice as many nodes with each level
    intro k hk
    have hroom := t.nodesAt_le_mul (k + 1) (x.level - k - 1)
    rw [show k + 1 + (x.level - k - 1 + 1) = x.level + 1 by omega,
      show x.level - k - 1 + 1 = x.level - k by omega] at hroom
    rw [hcode, h.innerAt_eq hp, Int.shiftRight_eq_div_pow]
    exact_mod_cast Nat.div_lt_of_lt_mul (lt_of_lt_of_le hlt hroom)

/-- No symbol of packable lengths lies at the root. -/
theorem length_pos (h : FillsTree lengths t) (hp : Packable lengths) {x : Symbol × ℕ}
    (hx : x ∈ lengths) : 0 < x.2 := by
  by_contra hzero
  have hroot : 0 < t.leavesAt 0 := by
    rw [CodeTree.leavesAt, ← h.depths.count_eq, List.count_pos_iff]
    exact List.mem_map.2 ⟨x, hx, by omega⟩
  obtain ⟨y, hy, hdeep⟩ := exists_deepest (List.ne_nil_of_mem hx)
  have hbelow : 0 < t.leavesAt (deepest lengths) := by
    rw [CodeTree.leavesAt, ← h.depths.count_eq, List.count_pos_iff, ← hdeep]
    exact List.mem_map_of_mem hy
  -- a root that is a leaf has nothing below it
  have hinner : t.innerAt 0 = 0 := by
    have := t.nodesAt_eq 0
    have := t.nodesAt_le 0
    omega
  have hnodes := t.nodesAt_le_mul 0 (deepest lengths - 1)
  rw [zero_add, Nat.sub_add_cancel (deepest_pos hp), hinner, mul_zero, t.nodesAt_eq] at hnodes
  omega

/-- The place of a slot in the table is its place among the symbols of all levels. -/
theorem getElem?_place (size : Option ℤ) {s : Symbol} {x : Slot}
    (hl : x.level < deepest lengths) (hi : (symbolsAt lengths x.level)[x.index]? = some s) :
    (levelSymbols lengths).flatten[(packedTree lengths size).place x]? = some s := by
  have hplace : (packedTree lengths size).place x =
      Header.total (((levelSymbols lengths).take x.level).map List.length) + x.index := by
    have hcounts : x.level < (headerCounts lengths).length := by simpa [headerCounts] using hl
    have htake : (headerCounts lengths).take x.level =
        ((levelSymbols lengths).take x.level).map List.length := by
      rw [headerCounts, ← List.map_take, take_storedCounts (by simpa using hl), levelSizes,
        ← List.map_take, List.map_map]
      rfl
    rw [← htake]
    exact Tree.place_ofCounts size hcounts x.index
  rw [hplace]
  exact getElem?_flatten_levels (getElem?_levelSymbols hl) hi

/-- The word of a symbol is its code's: its place on its level, behind the interior nodes. -/
theorem codeWord_eq (h : FillsTree lengths t) {s : Symbol} {l : ℕ} (hs : (s, l + 1) ∈ lengths) :
    ∃ i : ℕ, (symbolsAt lengths l)[i]? = some s ∧
      codeWord (codes (levelSymbols lengths)) s = lowBits (l + 1) (t.innerAt (l + 1) + i) := by
  obtain ⟨i, hi, hlookup⟩ := h.lookup_codes hs
  exact ⟨i, hi, by rw [codeWord, hlookup, Option.map_some, Option.getD_some]⟩

/-- **Each symbol's code is the word of a slot that stands for it.** -/
theorem slot_of_symbol (h : FillsTree lengths t) (hp : Packable lengths) (size : Option ℤ)
    {s : Symbol} {d : ℕ} (hs : (s, d) ∈ lengths) :
    ∃ x, (packedTree lengths size).HasWord x ∧
      (packedTree lengths size).word x = codeWord (codes (levelSymbols lengths)) s ∧
      (packedTree lengths size).slotStep x = s.step := by
  have hd : 0 < d := h.length_pos hp hs
  obtain ⟨l, rfl⟩ : ∃ l, d = l + 1 := ⟨d - 1, by omega⟩
  have hl : l < deepest lengths := le_deepest hs
  obtain ⟨i, hi, hcode⟩ := h.codeWord_eq hs
  have hindex : i < t.leavesAt (l + 1) := by
    rw [← h.length_symbolsAt]
    exact (List.getElem?_eq_some_iff.1 hi).1
  have hword := h.hasWord hp size (x := ⟨l, i⟩) hl hindex
  rw [← h.innerAt_eq hp size] at hcode
  have hplace := getElem?_place size (x := ⟨l, i⟩) hl hi
  rw [h.flatten_levelSymbols (deepest_pos hp)] at hplace
  exact ⟨⟨l, i⟩, hword, hcode.symm, (h.consistent hp size).slotStep_of_getElem? hword hplace⟩

end FillsTree

end PackFormat
