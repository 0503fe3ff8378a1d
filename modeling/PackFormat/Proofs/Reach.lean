import PackFormat.Proofs.Accounting
import PackFormat.Proofs.Kraft
import PackFormat.Proofs.Slots
import PackFormat.Proofs.Writer

/-!
# What payloads can reach

A header may ask for more leaves than a tree of its depth has, or for an odd one on a
level. Its slots are numbered all the same, but the bits of a payload lead only so far on
each level: two numbers at the root, and below it two for each interior node that bits
can lead to (`Tree.reach`). A slot beyond them is never come upon, the stop code's not
excepted.

* `Tree.exists_inner`, `Tree.Inner.next_lt_reach`: the numbers that bits make on a level.
* `Tree.Consistent.hasWord_iff`: the slots that have words are those within reach.
* `Tree.reach_add_sum_le`: the reach of a level and the leaves above it, when all are
  within reach.
* `Tree.Consistent.reach_eq_nodesAt`: in a full tree the reach of a level is its nodes.
* `reachable_slots`: **what payloads reach**, when one decodes, and when none can miss.
-/

namespace PackFormat

open Finset

/-- Any bits are the first of some byte string. -/
theorem exists_bytes (bits : List Bool) : ∃ bytes rest, bitsOf bytes = bits ++ rest := by
  obtain ⟨hvalid, hbits⟩ := BitWriter.bits_write BitWriter.valid_empty bits
  have hfinish := BitWriter.bits_finish hvalid
  rw [hbits] at hfinish
  exact ⟨_, _, hfinish⟩

namespace Tree

/-- **How far bits lead on a level**: the numbers that they make there are those below this. -/
def reach (t : Tree) : ℕ → ℤ
  | 0 => 2
  | l + 1 => 2 * min (t.reach l) (t.innerAt l)

/-- A walk over bits looks at one of them from a cursor. -/
def Looks (t : Tree) (bits : List Bool) (c : Cursor) (b : Bool) : Prop :=
  ∃ before after, bits = before ++ b :: after ∧ (t.scan {} #[] 0 before).ending = .more c

/-- **A payload whose bits make a number on a level.** -/
def Holds (t : Tree) (payload : List UInt8) (l v : ℕ) : Prop :=
  ∃ c b, t.Looks (bitsOf payload) c b ∧ c.level = l ∧ 2 * c.code + b.toNat = v

/-- **A payload that comes upon a slot**: its bits make the number of the slot on the slot's level,
and the walk takes it for what the slot stands for. -/
def Resolves (t : Tree) (payload : List UInt8) (x : Slot) : Prop :=
  ∃ c b, t.Looks (bitsOf payload) c b ∧ c.level = x.level ∧
    ((2 * c.code + b.toNat : ℕ) : ℤ) = t.innerAt x.level + x.index ∧ t.step c b = t.slotStep x

/-- **A payload that decodes**, however it is cut into chunks. -/
def Decodes (t : Tree) (payload : List UInt8) : Prop :=
  ∀ (s : Streams) (k : ℤ), s.source.Clean → s.sink.fault = none → 1 ≤ k →
    s.source.upcoming = payload → ∃ d, outcome (t.decode k s) = .ok d

variable {t : Tree} {p : List Bool} {c : Cursor} {b : Bool} {l v : ℕ} {x : Slot}

/-- Bits lead no further than that. -/
theorem Inner.next_lt_reach (hp : t.Inner p) (b : Bool) :
    ((2 * wordValue p + b.toNat : ℕ) : ℤ) < t.reach p.length := by
  -- by the last bit of the way down
  induction p using List.reverseRecOn generalizing b with
  | nil =>
    have := Bool.toNat_le b
    simp only [wordValue_nil, List.length_nil, reach]
    omega
  | append_singleton p b' ih =>
    obtain ⟨hp, hinner⟩ := inner_concat.1 hp
    have hreach := ih hp b'
    have := Bool.toNat_le b
    rw [wordValue_concat, List.length_append, List.length_singleton, reach]
    have hmin := lt_min hreach hinner
    push_cast at hmin ⊢
    omega

/-- **Bits lead as far as that.** -/
theorem exists_inner (hv : (v : ℤ) < t.reach l) :
    ∃ p, ∃ b : Bool, t.Inner p ∧ p.length = l ∧ 2 * wordValue p + b.toNat = v := by
  induction l generalizing v with
  | zero =>
    obtain ⟨u, b, rfl⟩ := exists_last_bit v
    have hu : u = 0 := by
      rw [reach] at hv
      push_cast at hv
      omega
    exact ⟨[], b, Inner.nil t, rfl, by rw [hu, wordValue_nil]⟩
  | succ l ih =>
    -- the number without its last bit is an interior node's
    obtain ⟨u, b, rfl⟩ := exists_last_bit v
    have hu : (u : ℤ) < min (t.reach l) (t.innerAt l) := by
      rw [reach] at hv
      push_cast at hv
      omega
    obtain ⟨hreach, hinner⟩ := lt_min_iff.1 hu
    obtain ⟨p, b', hp, rfl, rfl⟩ := ih hreach
    refine ⟨p ++ [b'], b, inner_concat.2 ⟨hp, hinner⟩, ?_, ?_⟩
    · rw [List.length_append, List.length_singleton]
    · rw [wordValue_concat]

/-- The reach of a level is a number of nodes. -/
theorem Consistent.reach_nonneg (h : t.Consistent) (l : ℕ) : 0 ≤ t.reach l := by
  induction l with
  | zero => rw [reach]; omega
  | succ l ih =>
    have hmin := le_min ih (h.innerAt_nonneg l)
    rw [reach]
    omega

namespace Consistent

/-- **Where bits are looked at**: behind ways down. -/
theorem looks_iff (h : t.Consistent) :
    (∃ payload, t.Looks (bitsOf payload) c b) ↔ ∃ p, t.Inner p ∧ c = ⟨p.length, wordValue p⟩ := by
  constructor
  · rintro ⟨payload, before, after, -, hmore⟩
    exact h.inner_of_more hmore
  · rintro ⟨p, hp, rfl⟩
    obtain ⟨payload, rest, hbits⟩ := exists_bytes (p ++ [b])
    obtain ⟨-, hscan⟩ := h.scan_inner hp #[] 0 []
    rw [List.append_nil] at hscan
    refine ⟨payload, p, rest, ?_, ?_⟩
    · rw [hbits, List.append_assoc, List.singleton_append]
    · rw [hscan, scan]

/-- **The numbers that payloads hold on a level** are those within its reach. -/
theorem holds_iff (h : t.Consistent) : (∃ payload, t.Holds payload l v) ↔ (v : ℤ) < t.reach l := by
  constructor
  · rintro ⟨payload, c, b, hlooks, rfl, rfl⟩
    obtain ⟨p, hp, rfl⟩ := h.looks_iff.1 ⟨payload, hlooks⟩
    exact hp.next_lt_reach b
  · intro hv
    obtain ⟨p, b, hp, rfl, rfl⟩ := exists_inner hv
    obtain ⟨payload, hlooks⟩ := h.looks_iff.2 ⟨p, hp, rfl⟩
    exact ⟨payload, _, b, hlooks, rfl, rfl⟩

/-- **The slots that payloads come upon** are those whose numbers are within reach. -/
theorem resolves_iff (h : t.Consistent) (hx : t.HasSlot x) :
    (∃ payload, t.Resolves payload x) ↔ t.innerAt x.level + x.index < t.reach x.level := by
  constructor
  · rintro ⟨payload, c, b, hlooks, hlevel, hcode, -⟩
    rw [← hcode, ← hlevel]
    exact h.holds_iff.1 ⟨payload, c, b, hlooks, rfl, rfl⟩
  · intro hreach
    have hinner := h.innerAt_nonneg x.level
    obtain ⟨payload, c, b, hlooks, hlevel, hcode⟩ :=
      (h.holds_iff (l := x.level) (v := (t.innerAt x.level + x.index).toNat)).2 (by omega)
    refine ⟨payload, c, b, hlooks, hlevel, by omega, ?_⟩
    have hindex := hx.index_lt
    rcases h.step_eq (c := c) (by rw [hlevel]; exact hx.level_lt) b with
      ⟨hlt, -⟩ | ⟨i, hi, ⟨-, hs⟩ | ⟨hge, -⟩⟩
    · rw [hlevel] at hlt
      omega
    · rw [hlevel] at hi hs
      obtain rfl : i = x.index := by omega
      exact hs
    · rw [hlevel] at hi hge
      omega

/-- **The slots that have words** are those within reach. -/
theorem hasWord_iff (h : t.Consistent) :
    t.HasWord x ↔ t.HasSlot x ∧ t.innerAt x.level + x.index < t.reach x.level := by
  constructor
  · intro hx
    obtain ⟨p, b, hword, hlen, hp⟩ := h.word_eq_concat hx
    have hreach := hp.next_lt_reach b
    have hvalue := h.wordValue_word hx
    rw [hword, wordValue_concat] at hvalue
    rw [hvalue, hlen] at hreach
    exact ⟨⟨h.level_lt hx, hx.index_lt⟩, hreach⟩
  · obtain ⟨l, i⟩ := x
    rintro ⟨⟨hlevel, hindex⟩, hreach⟩
    simp only at hlevel hindex hreach
    have hinner := h.innerAt_nonneg l
    obtain ⟨p, b, hp, rfl, hcode⟩ :=
      exists_inner (t := t) (l := l) (v := (t.innerAt l + i).toNat) (by omega)
    have hvalue : ((2 * wordValue p + b.toNat : ℕ) : ℤ) = t.innerAt p.length + i := by omega
    exact (h.hasWord_of_inner hp hlevel hvalue hindex).1

/-- The stop code has a word exactly if its number is within reach. -/
theorem hasWord_stop_iff (h : t.Consistent) (hlast : 2 ≤ t.leavesAt (t.leaves.length - 1)) :
    t.HasWord t.stopSlot ↔
      t.leavesAt (t.leaves.length - 1) - 1 < t.reach (t.leaves.length - 1) := by
  have hpos := h.levels_pos
  have hinner := h.innerAt_last
  rw [h.length_leaves] at hlast ⊢
  have hindex : ((t.stopSlot.index : ℕ) : ℤ) = t.leavesAt (t.interior.length - 1) - 1 := by
    simp only [stopSlot]
    omega
  have hslot : t.HasSlot t.stopSlot := by
    refine ⟨?_, ?_⟩
    · simp only [stopSlot]; omega
    · rw [hindex]; simp only [stopSlot]; omega
  rw [h.hasWord_iff, hindex, and_iff_right hslot]
  simp only [stopSlot, hinner, zero_add]

/-- Where the stop code is within reach, so is the first slot of its level. -/
theorem hasWord_first (h : t.Consistent) (hlast : 2 ≤ t.leavesAt (t.leaves.length - 1))
    (hreach : t.leavesAt (t.leaves.length - 1) - 1 < t.reach (t.leaves.length - 1)) :
    t.HasWord ⟨t.leaves.length - 1, 0⟩ ∧ (⟨t.leaves.length - 1, 0⟩ : Slot) ≠ t.stopSlot := by
  have hpos := h.levels_pos
  have hinner := h.innerAt_last
  rw [h.length_leaves] at hlast hreach ⊢
  refine ⟨h.hasWord_iff.2 ⟨⟨by simp only; omega, by simp only; omega⟩, ?_⟩, ?_⟩
  · simp only [hinner]; omega
  · intro heq
    have hindex := congrArg Slot.index heq
    simp only [stopSlot] at hindex
    omega

/-- **A payload for a stop code within reach**: as many symbols as are announced, and the stop
code. -/
theorem decodes_of_reach (h : t.Consistent) (hlast : 2 ≤ t.leavesAt (t.leaves.length - 1))
    (hreach : t.leavesAt (t.leaves.length - 1) - 1 < t.reach (t.leaves.length - 1))
    (hsize : ∀ m, t.size = some m → 0 ≤ m) : ∃ payload, t.Decodes payload := by
  have hfirst := h.hasWord_first hlast hreach
  have hstop := (h.hasWord_stop_iff hlast).2 hreach
  obtain ⟨n, hn⟩ : ∃ n : ℕ, t.settled n = .ok n := by
    unfold settled
    cases hm : t.size with
    | none => exact ⟨0, rfl⟩
    | some m =>
      have hnonneg := hsize m hm
      exact ⟨m.toNat, if_pos (by omega)⟩
  obtain ⟨payload, rest, hbits⟩ := exists_bytes
    ((List.replicate n ⟨t.leaves.length - 1, 0⟩).flatMap t.word ++ t.word t.stopSlot)
  have hf : t.Factors (bitsOf payload) (.replicate n ⟨t.leaves.length - 1, 0⟩) rest := by
    refine ⟨?_, hstop, hbits⟩
    intro x hx
    rw [List.eq_of_mem_replicate hx]
    exact hfirst
  refine ⟨payload, ?_⟩
  intro s k hs hsink hk hpayload
  obtain ⟨hout, -, -⟩ := t.decode_clean hs hsink hk
  rw [hpayload, h.verdict_of_factors hf, List.length_replicate] at hout
  simp only [hn] at hout
  cases hd : outcome (t.decode k s) with
  | ok d => exact ⟨d, rfl⟩
  | error f => rw [hd] at hout; cases hout

end Consistent

/-- **What decodes comes to the stop code**, and is no less than nothing. -/
theorem stopped_of_decode {s : Streams} {k : ℤ} {d : Decoded}
    (hd : outcome (t.decode k s) = .ok d) :
    (∃ bytes, (t.scan {} #[] 0 (bitsOf bytes)).ending = .stopped) ∧
      ∀ m, t.size = some m → 0 ≤ m := by
  obtain ⟨-, bytes, out, used, -, hdecodes⟩ := decodesTo_of_decode hd
  refine ⟨⟨bytes, by rw [hdecodes.scan]⟩, ?_⟩
  intro m hm
  rcases size_of_settled hdecodes.settled with hsize | hsize
  · rw [hm] at hsize
    cases hsize
  · rw [hm] at hsize
    cases hsize
    exact Int.natCast_nonneg _

/-- **The reach of a level and the leaves above it** share what there is, when all leaves are within
reach. -/
theorem reach_add_sum_le (hfits : ∀ k < l, 0 < t.leavesAt k → t.nodesAt k ≤ t.reach k)
    (hleaves : ∀ k, 0 ≤ t.leavesAt k) :
    t.reach l + ∑ k ∈ range l, t.leavesAt k * 2 ^ (l - k) ≤ 2 ^ (l + 1) := by
  induction l with
  | zero => simp [reach]
  | succ l ih =>
    have ih := ih fun k hk => hfits k (by omega)
    -- from one level to the next, all weights double
    have hdouble : ∑ k ∈ range l, t.leavesAt k * 2 ^ (l + 1 - k) =
        2 * ∑ k ∈ range l, t.leavesAt k * 2 ^ (l - k) := by
      rw [mul_sum]
      refine sum_congr rfl fun k hk => ?_
      have := mem_range.1 hk
      rw [show l + 1 - k = l - k + 1 by omega, pow_succ]
      ring
    have hlevel : min (t.reach l) (t.innerAt l) + t.leavesAt l ≤ t.reach l := by
      rcases (hleaves l).lt_or_eq with hpos | hzero
      · have := hfits l (by omega) hpos
        have := min_le_right (t.reach l) (t.innerAt l)
        unfold nodesAt at *
        omega
      · have := min_le_left (t.reach l) (t.innerAt l)
        omega
    rw [sum_range_succ, hdouble, show l + 1 - l = 1 by omega, pow_one, reach, pow_succ 2 (l + 1)]
    omega

/-- The weight of the leaves from a level on is that of the level's and that of the others. -/
theorem weightFrom_eq (hl : l < t.leaves.length) : t.weightFrom l =
    t.leavesAt l * 2 ^ (t.leaves.length - 1 - l) + t.weightFrom (l + 1) := by
  rw [weightFrom, weightFrom, sum_eq_sum_Ico_succ_bot hl]

/-- **In a full tree nothing is lost in halving**: each level leaves a whole number of nodes to the
levels below. -/
theorem dvd_weightFrom (hfull : t.weightFrom 0 = 2 ^ t.leaves.length) (hl : l ≤ t.leaves.length) :
    2 ^ (t.leaves.length - l) ∣ t.weightFrom l := by
  induction l with
  | zero => rw [hfull, Nat.sub_zero]
  | succ l ih =>
    have ih := (pow_dvd_pow 2 (Nat.sub_le_sub_left (Nat.le_succ l) _)).trans (ih (by omega))
    have hleaves : (2 : ℤ) ^ (t.leaves.length - (l + 1)) ∣
        t.leavesAt l * 2 ^ (t.leaves.length - 1 - l) := by
      rw [show t.leaves.length - 1 - l = t.leaves.length - (l + 1) by omega]
      exact Dvd.intro_left _ rfl
    rw [weightFrom_eq (by omega)] at ih
    exact (dvd_add_right hleaves).1 ih

namespace Consistent

/-- **In a full tree each level is as wide as the interior nodes above it lead to.** -/
theorem two_mul_innerAt_eq (h : t.Consistent) (hfull : t.weightFrom 0 = 2 ^ t.leaves.length)
    (hl : l + 1 < t.leaves.length) : 2 * t.innerAt l = t.nodesAt (l + 1) := by
  obtain ⟨m, hm⟩ := dvd_weightFrom hfull hl.le
  have hpow : (2 : ℤ) ^ (t.leaves.length - (l + 1)) = 2 ^ (t.leaves.length - 1 - (l + 1)) * 2 := by
    rw [← pow_succ, show t.leaves.length - 1 - (l + 1) + 1 = t.leaves.length - (l + 1) by omega]
  rw [h.innerAt_eq_div (by omega), h.nodesAt_eq_div hl, hm,
    show t.leaves.length - 1 - l = t.leaves.length - (l + 1) by omega,
    Int.mul_ediv_cancel_left _ (by positivity), hpow, mul_assoc,
    Int.mul_ediv_cancel_left _ (by positivity)]

/-- **In a full tree the reach of a level is its nodes.** -/
theorem reach_eq_nodesAt (h : t.Consistent) (hfull : t.weightFrom 0 = 2 ^ t.leaves.length)
    (hl : l < t.leaves.length) : t.reach l = t.nodesAt l := by
  induction l with
  | zero =>
    have hpow : (2 : ℤ) ^ t.leaves.length = 2 ^ (t.leaves.length - 1 - 0) * 2 := by
      rw [← pow_succ, show t.leaves.length - 1 - 0 + 1 = t.leaves.length by omega]
    rw [reach, h.nodesAt_eq_div hl, hfull, hpow, Int.mul_ediv_cancel_left _ (by positivity)]
  | succ l ih =>
    have hinner : t.innerAt l ≤ t.nodesAt l := by
      have := h.leavesAt_nonneg l
      unfold nodesAt
      omega
    rw [reach, ih (by omega), min_eq_right hinner, h.two_mul_innerAt_eq hfull hl]

/-- **Full trees** are those whose slots are all within reach, and whose first level has two
nodes. -/
theorem full_iff (h : t.Consistent) :
    ((∀ x, t.HasSlot x → t.innerAt x.level + x.index < t.reach x.level) ∧ ¬t.nodesAt 0 < 2) ↔
      t.weightFrom 0 = 2 ^ t.leaves.length := by
  constructor
  · rintro ⟨hslots, hnodes⟩
    rw [h.nodesAt_zero_lt_iff, not_lt] at hnodes
    have hfits : ∀ k < t.leaves.length, 0 < t.leavesAt k → t.nodesAt k ≤ t.reach k := by
      intro k hk hpos
      rw [h.length_leaves] at hk
      have := hslots ⟨k, (t.leavesAt k).toNat - 1⟩ ⟨hk, by simp only; omega⟩
      unfold nodesAt
      simp only at this
      omega
    have hsum := reach_add_sum_le hfits h.leavesAt_nonneg
    have hreach := h.reach_nonneg t.leaves.length
    have hweight : ∑ k ∈ range t.leaves.length, t.leavesAt k * 2 ^ (t.leaves.length - k) =
        2 * t.weightFrom 0 := by
      rw [weightFrom, ← range_eq_Ico, mul_sum]
      refine sum_congr rfl fun k hk => ?_
      have := mem_range.1 hk
      rw [show t.leaves.length - k = t.leaves.length - 1 - k + 1 by omega, pow_succ]
      ring
    rw [hweight, pow_succ] at hsum
    omega
  · intro hfull
    refine ⟨?_, by rw [h.nodesAt_zero_lt_iff, hfull, not_lt]⟩
    intro x hx
    have hindex := hx.index_lt
    rw [h.reach_eq_nodesAt hfull (by rw [h.length_leaves]; exact hx.level_lt)]
    unfold nodesAt
    omega

/-- **No payload is corrupt** exactly if the first level has two nodes. -/
theorem never_corrupt_iff (h : t.Consistent) :
    (∀ s k f, outcome (t.decode k s) = .error f → f.kind ≠ .corruptCode) ↔ ¬t.nodesAt 0 < 2 := by
  constructor
  · intro hnever hnodes
    -- a first bit that is set is past one node
    have hclean : ({ data := #[0x80] } : Source).Clean := ⟨rfl, by simp⟩
    have hmisfit : t.Misfit (bitsOf [0x80]) := by
      refine ⟨[], true, .replicate 7 false, fun _ hx => absurd hx List.not_mem_nil, ?_, ?_⟩
      · rw [List.flatMap_nil]; decide
      · unfold nodesAt at hnodes
        simp only [Bool.toNat_true]
        omega
    obtain ⟨f, hf, hkind⟩ := (h.decode_corrupt_iff (s := { source := { data := #[0x80] } })
      hclean rfl le_rfl).2 hmisfit
    exact hnever _ _ f hf hkind
  · intro hnodes s k f hf hkind
    obtain ⟨bits, hbits⟩ := scan_of_decode_corrupt hkind hf
    exact not_misfit hnodes bits (h.scan_failed_iff.1 ⟨f, hbits⟩)

end Consistent

/-- The last level of a header's tree has two leaves at least. -/
theorem two_le_leavesAt_last {counts : List ℕ} {symbols : List UInt8}
    (hg : Header.Good counts symbols) (size : Option ℤ) :
    2 ≤ (ofCounts counts symbols size).leavesAt
      ((ofCounts counts symbols size).leaves.length - 1) := by
  have hpos := hg.depth_pos
  have hlen : (ofCounts counts symbols size).leaves.length = counts.length := by simp [ofCounts]
  rw [hlen, leavesAt_ofCounts size (by omega), if_pos (by omega)]
  push_cast
  omega

/-- An odd leaf on the last level is out of reach. -/
theorem Consistent.reach_last_lt (h : t.Consistent) (hlevels : 2 ≤ t.leaves.length)
    (hodd : Odd (t.leavesAt (t.leaves.length - 1))) :
    t.reach (t.leaves.length - 1) ≤ t.leavesAt (t.leaves.length - 1) - 1 := by
  obtain ⟨m, hm⟩ := hodd
  have hlast := h.innerAt_last
  have hhalves := h.halves (t.leaves.length - 2)
  have hmin := min_le_right (t.reach (t.leaves.length - 2)) (t.innerAt (t.leaves.length - 2))
  rw [← h.length_leaves] at hlast
  rw [show t.leaves.length - 2 + 1 = t.leaves.length - 1 by omega, hlast] at hhalves
  rw [show t.leaves.length - 1 = t.leaves.length - 2 + 1 by omega, reach,
    show t.leaves.length - 2 + 1 = t.leaves.length - 1 by omega]
  omega

end Tree

/-- **What payloads reach** in the tree of a header. On each level they hold the numbers within its
reach and no others, and so come upon the slots whose numbers these are. One of them decodes if and
only if the stop code is within reach, unless a number of bytes below zero is announced; none does
if the last of several levels has an odd leaf. All slots are come upon and no payload is corrupt if
and only if the leaves weigh what those of a full tree do. -/
theorem reachable_slots {ahead : List UInt8} {size : Option ℤ} {source source' : Source} {t : Tree}
    (hread : Tree.read ahead size source = .ok t source') :
    let last := t.leaves.length - 1
    (∀ l v, (∃ payload, t.Holds payload l v) ↔ (v : ℤ) < t.reach l) ∧
    (∀ x, t.HasSlot x → ((∃ payload, t.Resolves payload x) ↔
      t.innerAt x.level + x.index < t.reach x.level)) ∧
    ((∃ payload, t.Decodes payload) ↔
      t.leavesAt last - 1 < t.reach last ∧ ∀ m, t.size = some m → 0 ≤ m) ∧
    (∀ s k d, outcome (t.decode k s) = .ok d → t.leavesAt last - 1 < t.reach last) ∧
    (2 ≤ t.leaves.length → Odd (t.leavesAt last) → ∀ s k d, outcome (t.decode k s) ≠ .ok d) ∧
    ((∀ x, t.HasSlot x → ∃ payload, t.Resolves payload x) ∧
        (∀ s k f, outcome (t.decode k s) = .error f → f.kind ≠ .corruptCode) ↔
      ∑ l ∈ range t.leaves.length, t.leavesAt l * 2 ^ (t.leaves.length - 1 - l) =
        2 ^ t.leaves.length) := by
  obtain ⟨counts, symbols, hg, rfl, -⟩ := Tree.good_of_read hread
  have h := Tree.consistent_ofCounts hg size
  have hlast := Tree.two_le_leavesAt_last hg size
  generalize Tree.ofCounts counts symbols size = t at h hlast ⊢
  intro last
  have hreach : ∀ s k d, outcome (t.decode k s) = .ok d → t.leavesAt last - 1 < t.reach last := by
    intro s k d hd
    obtain ⟨⟨bytes, hstop⟩, -⟩ := Tree.stopped_of_decode hd
    obtain ⟨slots, rest, hf⟩ := h.factors_of_scan hstop
    exact (h.hasWord_stop_iff hlast).1 hf.stop
  refine ⟨fun l v => h.holds_iff, fun x hx => h.resolves_iff hx, ⟨?_, ?_⟩, hreach, ?_, ?_⟩
  · rintro ⟨payload, hdecodes⟩
    have hclean : ({ data := payload.toArray } : Source).Clean := ⟨rfl, by simp⟩
    obtain ⟨d, hd⟩ := hdecodes { source := { data := payload.toArray } } 1 hclean rfl le_rfl
      (Source.upcoming_whole _ _)
    exact ⟨hreach _ _ d hd, (Tree.stopped_of_decode hd).2⟩
  · rintro ⟨hstop, hsize⟩
    exact h.decodes_of_reach hlast hstop hsize
  · intro hlevels hodd s k d hd
    exact absurd (hreach s k d hd) (not_lt.2 (h.reach_last_lt hlevels hodd))
  · rw [range_eq_Ico, ← Tree.weightFrom, ← h.full_iff, h.never_corrupt_iff]
    refine and_congr_left fun _ => forall₂_congr fun x hx => ?_
    exact h.resolves_iff hx

/-- Three leaves below one interior node: the second is come upon, the stop code's never. -/
theorem reachable_slots_odd_leaf :
    ∃ t source', Tree.read [] none { data := #[2, 0, 1, 65, 66] } = .ok t source' ∧
      (∃ payload, t.Resolves payload ⟨1, 1⟩) ∧ (¬∃ payload, t.Resolves payload ⟨1, 2⟩) ∧
      ∀ s k d, outcome (t.decode k s) ≠ .ok d := by
  have hm : (none : Option ℕ) ≠ some 0 := by decide
  have ha : ([] : List UInt8).length ≤ 1 := by decide
  have hparse : Header.parse ([] ++ ({ data := #[2, 0, 1, 65, 66] } : Source).upcoming) =
      .ok ([0, 1], [65, 66], []) := by decide
  obtain ⟨source', hread, -, -⟩ := Tree.read_of_parse_ok hm ha none hparse
  obtain ⟨-, hresolves, -, -, hodd, -⟩ := reachable_slots hread
  refine ⟨_, source', hread, ?_, ?_, hodd (by decide) (by decide)⟩
  · exact (hresolves ⟨1, 1⟩ ⟨by decide, by decide⟩).2 (by decide)
  · rw [hresolves ⟨1, 2⟩ ⟨by decide, by decide⟩]
    decide

end PackFormat
