import Mathlib.Algebra.Order.BigOperators.Group.Finset
import PackFormat.Proofs.Acceptance
import PackFormat.Proofs.Halving
import PackFormat.Proofs.Safety

/-!
# Trees that every payload fits

Halving the nodes of a level again and again loses the odd ones, but no more than one
division at the end would (`eq_div_of_halves`). So the nodes of the first level are the
weight of all leaves, cut to a whole number, and they are two at least exactly if the
leaves weigh what the Kraft sum of a full tree is.

A walk can fail on the first bit of a word alone: below it, a level has all the
nodes that the level above can lead to.

* `Tree.Consistent.nodesAt_eq_div`: the nodes of a level and the weight of the leaves.
* `Tree.Consistent.scan_failed_iff`: the payloads that a walk fails on.
* `corrupt_iff_weight_lt`: **when a payload can be corrupt.**
-/

namespace PackFormat

open Finset

namespace Tree

/-- The nodes of a level, interior ones and leaves. -/
def nodesAt (t : Tree) (l : ℕ) : ℤ := t.innerAt l + t.leavesAt l

/-- **The weight of the leaves from a level on**: one of the last level weighs one, and one of any
other level twice as much as one of the level below. -/
def weightFrom (t : Tree) (l : ℕ) : ℤ :=
  ∑ k ∈ Ico l t.leaves.length, t.leavesAt k * 2 ^ (t.leaves.length - 1 - k)

/-- **The bounds of a bit that is looked at**, and of the number that it makes with the bits since the
last leaf: two at the root, and two for each interior node of the level above below it, for which
there is room. -/
structure BitBounds (t : Tree) (c : Cursor) (b : Bool) : Prop where
  level_le : (c.level : ℤ) ≤ t.maxLevel
  root : c.level = 0 → 2 * c.code + b.toNat < 2
  below : ∀ l, c.level = l + 1 → ((2 * c.code + b.toNat : ℕ) : ℤ) < 2 * t.innerAt l ∧
    2 * t.innerAt l ≤ t.innerAt (l + 1) + t.leavesAt (l + 1)
  le_byte : 2 * c.code + b.toNat ≤ 255

/-- **A payload where no word begins that has to**: behind words of symbols comes a bit past all nodes
of the first level. -/
def Misfit (t : Tree) (bits : List Bool) : Prop :=
  ∃ (slots : List Slot) (b : Bool) (rest : List Bool), (∀ x ∈ slots, t.HasWord x ∧ x ≠ t.stopSlot) ∧
    bits = slots.flatMap t.word ++ b :: rest ∧ t.innerAt 0 + t.leavesAt 0 ≤ b.toNat

variable {t : Tree} {p bits : List Bool} {b : Bool} {l : ℕ}

/-- The value of a way down is below the interior nodes that it ends at. -/
theorem Inner.wordValue_lt (hp : t.Inner p) (hl : p.length = l + 1) :
    (wordValue p : ℤ) < t.innerAt l := by
  have := hp l (by omega)
  rwa [List.take_of_length_le (by omega)] at this

/-- The first bit of a word has no level above it, any other is one of two below an interior node. -/
theorem Inner.next_lt (hp : t.Inner p) (b : Bool) :
    (p = [] ∧ 2 * wordValue p + b.toNat < 2) ∨
      ∃ l, p.length = l + 1 ∧ ((2 * wordValue p + b.toNat : ℕ) : ℤ) < 2 * t.innerAt l := by
  have hb := Bool.toNat_le b
  cases hlen : p.length with
  | zero =>
    obtain rfl := List.eq_nil_of_length_eq_zero hlen
    exact Or.inl ⟨rfl, by rw [wordValue_nil]; omega⟩
  | succ l =>
    have := hp.wordValue_lt hlen
    exact Or.inr ⟨l, rfl, by push_cast; omega⟩

/-- No payload is a misfit if the first level has two nodes. -/
theorem not_misfit (hnodes : ¬t.nodesAt 0 < 2) (bits : List Bool) : ¬t.Misfit bits := by
  rintro ⟨slots, b, rest, -, -, hpast⟩
  have := Bool.toNat_le b
  unfold nodesAt at hnodes
  omega

namespace Consistent

/-- **Interior nodes carry two nodes each**, and at most one is left over. -/
theorem two_mul_innerAt_le (h : t.Consistent) (l : ℕ) : 2 * t.innerAt l ≤ t.nodesAt (l + 1) := by
  have := h.halves l
  unfold nodesAt
  omega

/-- The interior nodes of a level, from the leaves below it. -/
theorem innerAt_eq_div (h : t.Consistent) (hl : l < t.leaves.length) :
    t.innerAt l = t.weightFrom (l + 1) / 2 ^ (t.leaves.length - 1 - l) := by
  have hlast : t.innerAt (t.leaves.length - 1) = 0 := h.length_leaves ▸ h.innerAt_last
  have := eq_div_of_halves h.halves hlast (show l ≤ t.leaves.length - 1 by omega)
  rwa [Nat.sub_add_cancel (by omega)] at this

/-- **The nodes of a level, from the leaves on it and below it.** -/
theorem nodesAt_eq_div (h : t.Consistent) (hl : l < t.leaves.length) :
    t.nodesAt l = t.weightFrom l / 2 ^ (t.leaves.length - 1 - l) := by
  have hpow : (2 : ℤ) ^ (t.leaves.length - 1 - l) ≠ 0 := by positivity
  rw [nodesAt, h.innerAt_eq_div hl, ← Int.add_mul_ediv_right _ _ hpow, weightFrom, weightFrom,
    sum_eq_sum_Ico_succ_bot hl, add_comm]

/-- A level has no more nodes than there are leaves on it and below it. -/
theorem nodesAt_le (h : t.Consistent) (hl : l < t.leaves.length) :
    t.nodesAt l ≤ ∑ k ∈ range t.leaves.length, t.leavesAt k := by
  have hweight : t.weightFrom l ≤
      (∑ k ∈ Ico l t.leaves.length, t.leavesAt k) * 2 ^ (t.leaves.length - 1 - l) := by
    rw [weightFrom, sum_mul]
    refine sum_le_sum fun k hk => mul_le_mul_of_nonneg_left ?_ (h.leavesAt_nonneg k)
    have := (mem_Ico.1 hk).1
    exact pow_le_pow_right₀ (by decide) (by omega)
  rw [h.nodesAt_eq_div hl]
  refine (Int.ediv_le_of_le_mul (by positivity) hweight).trans ?_
  refine sum_le_sum_of_subset_of_nonneg ?_ fun k _ _ => h.leavesAt_nonneg k
  intro k hk
  exact mem_range.2 (mem_Ico.1 hk).2

/-- **The first level has two nodes exactly if the leaves weigh enough.** -/
theorem nodesAt_zero_lt_iff (h : t.Consistent) :
    t.nodesAt 0 < 2 ↔ t.weightFrom 0 < 2 ^ t.leaves.length := by
  have hpos : 0 < t.leaves.length := h.length_leaves ▸ h.levels_pos
  rw [h.nodesAt_eq_div hpos, Int.ediv_lt_iff_lt_mul (by positivity), ← pow_succ',
    show t.leaves.length - 1 - 0 + 1 = t.leaves.length by omega]

/-- **A bit past the nodes of its level is the first of a word.** -/
theorem eq_nil_of_past (h : t.Consistent) (hp : t.Inner p) {i : ℕ}
    (hi : ((2 * wordValue p + b.toNat : ℕ) : ℤ) = t.innerAt p.length + i)
    (hge : t.leavesAt p.length ≤ i) : p = [] := by
  rcases hp.next_lt b with ⟨hnil, -⟩ | ⟨l, hl, hlt⟩
  · exact hnil
  · have := h.two_mul_innerAt_le l
    rw [hl] at hi hge
    unfold nodesAt at this
    omega

/-- **The payloads that a walk fails on.** -/
theorem scan_failed_iff (h : t.Consistent) :
    (∃ f, (t.scan {} #[] 0 bits).ending = .failed f) ↔ t.Misfit bits := by
  constructor
  · rintro ⟨f, hf⟩
    obtain ⟨slots, tail, hwords, hbits, hend⟩ := h.words_of_scan (Inner.nil t) #[] 0 bits
    change t.EndsWith tail (t.scan {} #[] 0 bits).ending at hend
    rw [hf] at hend
    obtain ⟨p, b, rest, i, rfl, hp, hi, hge, -⟩ := hend
    obtain rfl := h.eq_nil_of_past hp hi hge
    refine ⟨slots, b, rest, hwords, hbits, ?_⟩
    simp only [wordValue_nil, List.length_nil] at hi hge
    omega
  · rintro ⟨slots, b, rest, hwords, rfl, hpast⟩
    rw [h.scan_words hwords, scan]
    rcases h.step_eq (c := {}) h.levels_pos b with ⟨hlt, -, -⟩ | ⟨i, hi, ⟨hlt, -⟩ | ⟨-, hs⟩⟩
    · have := h.leavesAt_nonneg 0
      simp only at hlt
      omega
    · simp only at hi hlt
      omega
    · rw [hs]
      exact ⟨_, rfl⟩

/-- A walk fails at the first level. -/
theorem level_of_failed (h : t.Consistent) {f : Failure}
    (hf : (t.scan {} #[] 0 bits).ending = .failed f) : ∃ i, f = .leafOutOfRange i 0 := by
  obtain ⟨slots, tail, -, -, hend⟩ := h.words_of_scan (Inner.nil t) #[] 0 bits
  change t.EndsWith tail (t.scan {} #[] 0 bits).ending at hend
  rw [hf] at hend
  obtain ⟨p, b, rest, i, -, hp, hi, hge, rfl⟩ := hend
  obtain rfl := h.eq_nil_of_past hp hi hge
  exact ⟨i, rfl⟩

/-- **Where a walk can stand**: at the root, or below an interior node of the level above. -/
theorem inner_of_more (h : t.Consistent) {c : Cursor}
    (hmore : (t.scan {} #[] 0 bits).ending = .more c) :
    ∃ p, t.Inner p ∧ c = ⟨p.length, wordValue p⟩ := by
  obtain ⟨slots, tail, -, -, hend⟩ := h.words_of_scan (Inner.nil t) #[] 0 bits
  change t.EndsWith tail (t.scan {} #[] 0 bits).ending at hend
  rw [hmore] at hend
  exact ⟨tail, hend⟩

/-- **Bits are within bounds**, if the tree has no more leaves than symbols and two. -/
theorem bitBounds (h : t.Consistent) (hleaves : ∑ l ∈ range t.leaves.length, t.leavesAt l ≤ 257)
    {c : Cursor} (hmore : (t.scan {} #[] 0 bits).ending = .more c) (b : Bool) : t.BitBounds c b := by
  have hlevel := (h.inRange_of_scan hmore).interior
  obtain ⟨p, hp, rfl⟩ := h.inner_of_more hmore
  have hnext := hp.next_lt b
  have hbelow : ∀ l, p.length = l + 1 → ((2 * wordValue p + b.toNat : ℕ) : ℤ) < 2 * t.innerAt l := by
    intro l hl
    rcases hnext with ⟨rfl, -⟩ | ⟨l', hl', hlt⟩
    · cases hl
    · obtain rfl : l' = l := by omega
      exact hlt
  simp only at hlevel
  refine ⟨by rw [maxLevel, h.levels]; simp only; omega, ?_,
    fun l hl => ⟨hbelow l hl, h.two_mul_innerAt_le l⟩, ?_⟩
  · intro hzero
    rcases hnext with ⟨-, hlt⟩ | ⟨l, hl, -⟩
    · exact hlt
    · simp only at hzero; omega
  · rcases hnext with ⟨-, hlt⟩ | ⟨l, hl, hlt⟩
    · simp only; omega
    · -- the nodes of a level hang in pairs, so an odd one of them is left out
      have h1 := h.two_mul_innerAt_le l
      have h2 := h.nodesAt_le (l := l + 1) (by rw [h.length_leaves]; omega)
      simp only; omega

/-- **A payload is corrupt exactly if a walk over it fails.** -/
theorem decode_corrupt_iff (h : t.Consistent) {s : Streams} (hs : s.source.Clean)
    (hsink : s.sink.fault = none) {k : ℤ} (hk : 1 ≤ k) :
    (∃ f, outcome (t.decode k s) = .error f ∧ f.kind = .corruptCode) ↔
      t.Misfit (bitsOf s.source.upcoming) := by
  obtain ⟨hout, -, -⟩ := t.decode_clean hs hsink hk
  rw [← h.scan_failed_iff]
  unfold verdict at hout
  constructor
  · rintro ⟨f, hf, hkind⟩
    rw [hf] at hout
    rcases hscan : t.scan {} #[] 0 (bitsOf s.source.upcoming) with ⟨symbols, used, c | _ | f'⟩
    · rw [hscan] at hout
      cases hout
      cases hkind
    · rw [hscan] at hout
      exact absurd (Or.inl hkind) (not_isCut_of_settled hout.symm)
    · exact ⟨f', rfl⟩
  · rintro ⟨f, hf⟩
    obtain ⟨i, rfl⟩ := h.level_of_failed hf
    rcases hscan : t.scan {} #[] 0 (bitsOf s.source.upcoming) with ⟨symbols, used, ending⟩
    rw [hscan] at hf hout
    simp only at hf
    subst hf
    exact ⟨_, eq_error_of_map hout, rfl⟩

end Consistent

/-- **A corrupt code comes from a walk**, whatever the streams do. -/
theorem scan_of_decode_corrupt {s : Streams} {k : ℤ} {f : Failure} (hkind : f.kind = .corruptCode)
    (hf : outcome (t.decode k s) = .error f) : ∃ bits, (t.scan {} #[] 0 bits).ending = .failed f := by
  rcases failure_of_decode hf with ⟨-, rfl⟩ | hinterruption | ⟨p, hsettle⟩
  · cases hkind
  · cases hinterruption with
    | @reading fail hfail =>
      rcases kind_ofRead "packed payload" fail.error with h | h
      · rw [h] at hkind; cases hkind
      · rw [h] at hkind; cases hkind
    | @writing fail hfail =>
      rcases kind_ofWrite fail.error with h | h
      · rw [h] at hkind; cases hkind
      · rw [h] at hkind; cases hkind
    | walk hwalk => exact ⟨_, hwalk⟩
  · rcases eq_of_settle_error hsettle with rfl | ⟨expected, rfl⟩
    · cases hkind
    · cases hkind

/-- The leaves of a good header's tree, all levels together. -/
theorem sum_leavesAt_ofCounts {counts : List ℕ} {symbols : List UInt8}
    (h : Header.Good counts symbols) (size : Option ℤ) :
    ∑ l ∈ range (ofCounts counts symbols size).leaves.length,
      (ofCounts counts symbols size).leavesAt l = Header.total counts + 2 := by
  have hlen : (ofCounts counts symbols size).leaves.length = counts.length := by simp [ofCounts]
  -- level by level, with the two leaves that the last count leaves out
  have hsum : ∀ l ≤ counts.length, ∑ k ∈ range l, (ofCounts counts symbols size).leavesAt k =
      (Header.total (counts.take l) + if l = counts.length then 2 else 0 : ℕ) := by
    intro l
    induction l with
    | zero =>
      intro _
      rw [range_zero, sum_empty, if_neg (by have := h.depth_pos; omega)]
      rfl
    | succ l ih =>
      intro hl
      rw [sum_range_succ, ih (by omega), leavesAt_ofCounts size (by omega), if_neg (by omega),
        total_take_succ (by omega)]
      push_cast
      ring
  rw [hlen, hsum _ le_rfl, if_pos rfl, List.take_length]
  rfl

end Tree

/-- **When a payload can be corrupt.** Bits are looked at within bounds, so a code can be corrupt by its
first bit alone, if the first level has no node for it. And there is a payload with such a code exactly
if the leaves weigh less than those of a full tree. -/
theorem corrupt_iff_weight_lt {ahead : List UInt8} {size : Option ℤ} {source source' : Source}
    {t : Tree} (hread : Tree.read ahead size source = .ok t source') :
    (∀ bits c, (t.scan {} #[] 0 bits).ending = .more c → ∀ b, t.BitBounds c b) ∧
    (∀ s k f, outcome (t.decode k s) = .error f → f.kind = .corruptCode →
      ∃ i, f = .leafOutOfRange i 0) ∧
    (∀ (s : Streams) (k : ℤ), s.source.Clean → s.sink.fault = none → 1 ≤ k →
      ((∃ f, outcome (t.decode k s) = .error f ∧ f.kind = .corruptCode) ↔
        t.Misfit (bitsOf s.source.upcoming))) ∧
    ((∃ payload, ∀ (s : Streams) (k : ℤ), s.source.Clean → s.sink.fault = none → 1 ≤ k →
        s.source.upcoming = payload →
          ∃ f, outcome (t.decode k s) = .error f ∧ f.kind = .corruptCode) ↔
      ∑ l ∈ range t.leaves.length, t.leavesAt l * 2 ^ (t.leaves.length - 1 - l) <
        2 ^ t.leaves.length) ∧
    (2 ^ t.leaves.length ≤
        ∑ l ∈ range t.leaves.length, t.leavesAt l * 2 ^ (t.leaves.length - 1 - l) →
      ∀ s k f, outcome (t.decode k s) = .error f → f.kind ≠ .corruptCode) := by
  obtain ⟨counts, symbols, hg, rfl, -⟩ := Tree.good_of_read hread
  have h := Tree.consistent_ofCounts hg size
  have hleaves := Tree.sum_leavesAt_ofCounts hg size
  have htotal := hg.total_lt
  unfold Header.maxSymbols at htotal
  generalize Tree.ofCounts counts symbols size = t at h hleaves ⊢
  have hweight : ∑ l ∈ range t.leaves.length, t.leavesAt l * 2 ^ (t.leaves.length - 1 - l) =
      t.weightFrom 0 := by rw [range_eq_Ico]; rfl
  rw [hweight, ← h.nodesAt_zero_lt_iff, ← not_lt, ← h.nodesAt_zero_lt_iff]
  refine ⟨?_, ?_, fun s k hs hsink hk => h.decode_corrupt_iff hs hsink hk, ⟨?_, ?_⟩, ?_⟩
  · intro bits c hmore b
    exact h.bitBounds (by omega) hmore b
  · intro s k f hf hkind
    obtain ⟨bits, hbits⟩ := Tree.scan_of_decode_corrupt hkind hf
    exact h.level_of_failed hbits
  · rintro ⟨payload, hall⟩
    by_contra hnodes
    have hclean : ({ data := payload.toArray } : Source).Clean := ⟨rfl, by simp⟩
    have hcorrupt := hall { source := { data := payload.toArray } } 1 hclean rfl le_rfl
      (Source.upcoming_whole _ _)
    exact Tree.not_misfit hnodes _ ((h.decode_corrupt_iff hclean rfl le_rfl).1 hcorrupt)
  · -- a first bit that is set is past one node
    intro hnodes
    refine ⟨[0x80], ?_⟩
    intro s k hs hsink hk hpayload
    refine (h.decode_corrupt_iff hs hsink hk).2 ?_
    rw [hpayload]
    refine ⟨[], true, List.replicate 7 false, fun _ hx => absurd hx List.not_mem_nil, ?_, ?_⟩
    · rw [List.flatMap_nil]; decide
    unfold Tree.nodesAt at hnodes
    simp only [Bool.toNat_true]
    omega
  · intro hnodes s k f hf hkind
    obtain ⟨bits, hbits⟩ := Tree.scan_of_decode_corrupt hkind hf
    exact Tree.not_misfit hnodes bits (h.scan_failed_iff.1 ⟨f, hbits⟩)

/-- Two leaves on two levels leave half of the codes out, a third one none. -/
theorem corrupt_iff_weight_lt_two_levels :
    (∃ t source', Tree.read [] none { data := #[2, 0, 0, 65] } = .ok t source' ∧
      t.BitBounds ⟨1, 0⟩ true ∧
      ∃ f, outcome (t.decode 3 { source := { data := #[0x20] } }) = .error f ∧
        f.kind = .corruptCode ∧ ∃ i, f = .leafOutOfRange i 0) ∧
    ∃ t source', Tree.read [] none { data := #[2, 1, 0, 65, 66] } = .ok t source' ∧
      ∀ s k f, outcome (t.decode k s) = .error f → f.kind ≠ .corruptCode := by
  have hm : (none : Option ℕ) ≠ some 0 := by decide
  have ha : ([] : List UInt8).length ≤ 1 := by decide
  constructor
  · have hparse : Header.parse ([] ++ ({ data := #[2, 0, 0, 65] } : Source).upcoming) =
        .ok ([0, 0], [65], []) := by decide
    obtain ⟨source', hread, -, -⟩ := Tree.read_of_parse_ok hm ha none hparse
    obtain ⟨hbounds, hlevel, hiff, -, -⟩ := corrupt_iff_weight_lt hread
    have hclean : ({ data := #[0x20] } : Source).Clean := ⟨rfl, hm⟩
    have hwords : ∀ x ∈ [(⟨1, 0⟩ : Slot)], (Tree.ofCounts [0, 0] [65] none).HasWord x ∧
        x ≠ (Tree.ofCounts [0, 0] [65] none).stopSlot := by
      intro x hx
      rw [List.mem_singleton.1 hx]
      exact ⟨⟨by decide, by decide, by decide, by decide⟩, by decide⟩
    obtain ⟨f, hf, hkind⟩ := (hiff { source := { data := #[0x20] } } 3 hclean rfl (by decide)).2
      ⟨[⟨1, 0⟩], true, List.replicate 5 false, hwords, by decide, by decide⟩
    exact ⟨_, source', hread, hbounds [false] ⟨1, 0⟩ (by decide) true, f, hf, hkind,
      hlevel _ _ f hf hkind⟩
  · have hparse : Header.parse ([] ++ ({ data := #[2, 1, 0, 65, 66] } : Source).upcoming) =
        .ok ([1, 0], [65, 66], []) := by decide
    obtain ⟨source', hread, -, -⟩ := Tree.read_of_parse_ok hm ha none hparse
    obtain ⟨-, -, -, -, hnever⟩ := corrupt_iff_weight_lt hread
    exact ⟨_, source', hread, hnever (by decide)⟩

end PackFormat
