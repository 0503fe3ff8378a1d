import PackFormat.Proofs.Walk
import PackFormat.Proofs.Word

/-!
# The words of a tree

The word of a slot is its number among the codes of its length. A slot may be out
of reach: then some prefix of its number is a leaf already, or does not fit, and it
has no word. A payload is a run of words of symbols, the word of the stop code, and
anything at all behind it (`Tree.Factors`).

* `Tree.Consistent.scan_of_factors`: a walk over such a payload gives the symbols
  and stops at the stop code's last bit.
* `Tree.Consistent.words_of_scan`: any walk reads words of symbols, and has read such
  a payload if it stops.
* `Tree.Consistent.factors_unique`: there is one way to read a payload.
-/

namespace PackFormat

namespace Tree

/-- The number of a slot among the codes of its length. -/
def slotCode (t : Tree) (x : Slot) : ℤ := t.innerAt x.level + x.index

/-- **Whether a slot has a word**: its number fits, and every shorter prefix of it is an interior
node. -/
structure HasWord (t : Tree) (x : Slot) : Prop where
  level_lt : (x.level : ℤ) < t.levels
  index_lt : (x.index : ℤ) < t.leavesAt x.level
  fits : t.slotCode x < 2 ^ (x.level + 1)
  inner : ∀ k < x.level, t.slotCode x >>> (x.level - k) < t.innerAt k

/-- The word of a slot. -/
def word (t : Tree) (x : Slot) : List Bool := lowBits (x.level + 1) (t.slotCode x)

/-- **A payload and how it is read**: the words of `slots`, none of them the stop code's, then the
stop code's word and `rest`. -/
structure Factors (t : Tree) (bits : List Bool) (slots : List Slot) (rest : List Bool) : Prop where
  words : ∀ x ∈ slots, t.HasWord x ∧ x ≠ t.stopSlot
  stop : t.HasWord t.stopSlot
  bits_eq : bits = slots.flatMap t.word ++ t.word t.stopSlot ++ rest

/-- The bits of a payload up to the stop code's last. -/
def payloadLength (t : Tree) (slots : List Slot) : ℕ :=
  (slots.flatMap t.word ++ t.word t.stopSlot).length

/-- A bit string all of whose prefixes lead to interior nodes. -/
def Inner (t : Tree) (p : List Bool) : Prop :=
  ∀ k < p.length, (wordValue (p.take (k + 1)) : ℤ) < t.innerAt k

/-- **What a walk ends with**: a way down that goes on, the word of the stop code, or a way down with
a bit behind it that leads past the leaves of its level. -/
def EndsWith (t : Tree) (tail : List Bool) : Ending → Prop
  | .more c => t.Inner tail ∧ c = ⟨tail.length, wordValue tail⟩
  | .stopped => t.HasWord t.stopSlot ∧ ∃ rest, tail = t.word t.stopSlot ++ rest
  | .failed f => ∃ p b rest, ∃ i : ℕ, tail = p ++ b :: rest ∧ t.Inner p ∧
      ((2 * wordValue p + b.toNat : ℕ) : ℤ) = t.innerAt p.length + i ∧ t.leavesAt p.length ≤ i ∧
      f = .leafOutOfRange i p.length

@[simp] theorem length_word (t : Tree) (x : Slot) : (t.word x).length = x.level + 1 :=
  length_lowBits _ _

variable {t : Tree}

theorem Inner.nil (t : Tree) : t.Inner [] := fun k hk => absurd hk (Nat.not_lt_zero k)

theorem inner_concat {p : List Bool} {b : Bool} :
    t.Inner (p ++ [b]) ↔ t.Inner p ∧ ((2 * wordValue p + b.toNat : ℕ) : ℤ) < t.innerAt p.length := by
  have hlast : (p ++ [b]).take (p.length + 1) = p ++ [b] := List.take_of_length_le (by simp)
  constructor
  · intro h
    refine ⟨?_, ?_⟩
    · intro k hk
      have := h k (by rw [List.length_append]; omega)
      rwa [List.take_append_of_le_length (by omega)] at this
    · have := h p.length (by simp)
      rwa [hlast, wordValue_concat] at this
  · rintro ⟨h, hb⟩ k hk
    rw [List.length_append, List.length_singleton] at hk
    rcases Nat.lt_succ_iff_lt_or_eq.1 hk with hk | rfl
    · rw [List.take_append_of_le_length (by omega)]; exact h k hk
    · rw [hlast, wordValue_concat]; exact hb

/-- A payload without symbols is the stop code's word. -/
theorem factors_nil_iff {bits rest : List Bool} :
    t.Factors bits [] rest ↔ t.HasWord t.stopSlot ∧ bits = t.word t.stopSlot ++ rest :=
  ⟨fun h => ⟨h.stop, h.bits_eq⟩, fun h => ⟨fun _ hx => absurd hx List.not_mem_nil, h.1, h.2⟩⟩

/-- Any other begins with the word of its first symbol. -/
theorem factors_cons_iff {bits rest : List Bool} {x : Slot} {slots : List Slot} :
    t.Factors bits (x :: slots) rest ↔ (t.HasWord x ∧ x ≠ t.stopSlot) ∧
      ∃ tail, bits = t.word x ++ tail ∧ t.Factors tail slots rest := by
  constructor
  · intro h
    refine ⟨h.words x List.mem_cons_self, _, ?_,
      fun y hy => h.words y (List.mem_cons_of_mem x hy), h.stop, rfl⟩
    rw [h.bits_eq, List.flatMap_cons, List.append_assoc, List.append_assoc, List.append_assoc]
  · rintro ⟨hx, tail, rfl, h⟩
    refine ⟨?_, h.stop, ?_⟩
    · intro y hy
      rcases List.mem_cons.1 hy with rfl | hy
      · exact hx
      · exact h.words y hy
    · rw [h.bits_eq, List.flatMap_cons, List.append_assoc, List.append_assoc, List.append_assoc]

namespace Consistent

theorem level_lt (h : t.Consistent) {x : Slot} (hx : t.HasWord x) : x.level < t.interior.length := by
  have := hx.level_lt
  rw [h.levels] at this
  exact_mod_cast this

/-- In a consistent tree the numbers of slots are natural. -/
theorem slotCode_toNat (h : t.Consistent) (x : Slot) : ((t.slotCode x).toNat : ℤ) = t.slotCode x := by
  have := h.innerAt_nonneg x.level
  unfold slotCode
  omega

theorem wordValue_word (h : t.Consistent) {x : Slot} (hx : t.HasWord x) :
    (wordValue (t.word x) : ℤ) = t.slotCode x := by
  have hc := h.slotCode_toNat x
  have hfits : (t.slotCode x).toNat < 2 ^ (x.level + 1) := by
    zify; rw [hc]; exact hx.fits
  rw [word, ← hc, wordValue_lowBits hfits]

/-- The prefixes of a word lead to interior nodes, and its last bit to its slot. -/
theorem word_eq_concat (h : t.Consistent) {x : Slot} (hx : t.HasWord x) :
    ∃ p b, t.word x = p ++ [b] ∧ p.length = x.level ∧ t.Inner p := by
  have hlast : x.level < (t.word x).length := by rw [length_word]; exact Nat.lt_succ_self _
  refine ⟨(t.word x).take x.level, (t.word x)[x.level], ?_, by simp, ?_⟩
  · rw [← List.take_succ_eq_append_getElem, List.take_of_length_le (by simp)]
  · intro k hk
    rw [List.length_take, length_word] at hk
    have hinner := hx.inner k (by omega)
    rw [← h.wordValue_word hx, Int.shiftRight_eq_div_pow] at hinner
    rw [List.take_take, Nat.min_eq_left (by omega), wordValue_take, length_word,
      show x.level + 1 - (k + 1) = x.level - k by omega]
    exact_mod_cast hinner

/-- A bit that leads from an interior node to a slot ends the word of that slot. -/
theorem hasWord_of_inner (h : t.Consistent) {p : List Bool} {b : Bool} {i : ℕ} (hp : t.Inner p)
    (hl : p.length < t.interior.length)
    (hcode : ((2 * wordValue p + b.toNat : ℕ) : ℤ) = t.innerAt p.length + i)
    (hi : (i : ℤ) < t.leavesAt p.length) :
    t.HasWord ⟨p.length, i⟩ ∧ t.word ⟨p.length, i⟩ = p ++ [b] := by
  have hvalue : t.slotCode ⟨p.length, i⟩ = (wordValue (p ++ [b]) : ℤ) := by
    rw [wordValue_concat, hcode]; rfl
  refine ⟨⟨?_, hi, ?_, ?_⟩, ?_⟩
  · rw [h.levels]; exact_mod_cast hl
  · have := wordValue_lt (p ++ [b])
    rw [List.length_append, List.length_singleton] at this
    rw [hvalue]; exact_mod_cast this
  · -- shifting the last bit out leaves the prefix that led to an interior node
    intro k hk
    simp only at hk
    have := hp k hk
    rw [wordValue_take] at this
    rw [hvalue, Int.shiftRight_eq_div_pow, wordValue_concat]
    have hsplit : (2 * wordValue p + b.toNat) / 2 ^ (p.length - k) =
        wordValue p / 2 ^ (p.length - (k + 1)) := by
      have hb := Bool.toNat_le b
      rw [show p.length - k = 1 + (p.length - (k + 1)) by omega, pow_add, pow_one,
        ← Nat.div_div_eq_div_mul, show (2 * wordValue p + b.toNat) / 2 = wordValue p by omega]
    exact_mod_cast hsplit ▸ this
  · have := lowBits_wordValue (p ++ [b])
    rw [List.length_append, List.length_singleton] at this
    rw [word, hvalue, this]

/-- **The way down.** Along interior nodes the cursor holds the bits as a number. -/
theorem scan_inner (h : t.Consistent) {p : List Bool} (hp : t.Inner p) (symbols : Array UInt8)
    (used : ℕ) (bits : List Bool) :
    p.length < t.interior.length ∧ t.scan {} symbols used (p ++ bits) =
      t.scan ⟨p.length, wordValue p⟩ symbols (used + p.length) bits := by
  -- by the last bit of the way, which is walked from where the others lead
  induction p using List.reverseRecOn generalizing bits with
  | nil => exact ⟨h.levels_pos, rfl⟩
  | append_singleton p b ih =>
    obtain ⟨hp, hb⟩ := inner_concat.1 hp
    obtain ⟨hl, hscan⟩ := ih hp ([b] ++ bits)
    rw [List.append_assoc, hscan, List.length_append, List.length_singleton, wordValue_concat]
    rcases h.step_eq (c := ⟨p.length, wordValue p⟩) hl b with ⟨-, hlevel, hs⟩ | ⟨i, hi, -⟩
    · exact ⟨hlevel, by simp only [List.cons_append, scan, hs, List.nil_append, Nat.add_assoc]⟩
    · simp only at hi; omega

/-- **A walk over a word** gives what its slot stands for. -/
theorem scan_word (h : t.Consistent) {x : Slot} (hx : t.HasWord x) (symbols : Array UInt8)
    (used : ℕ) (bits : List Bool) :
    t.scan {} symbols used (t.word x ++ bits) =
      if x = t.stopSlot then ⟨symbols, used + (t.word x).length, .stopped⟩
      else t.scan {} (symbols.push (t.symbolAt x)) (used + (t.word x).length) bits := by
  obtain ⟨p, b, hword, hlen, hp⟩ := h.word_eq_concat hx
  obtain ⟨hl, hscan⟩ := h.scan_inner hp symbols used ([b] ++ bits)
  have hvalue := h.wordValue_word hx
  rw [hword, wordValue_concat] at hvalue
  rw [hword, List.append_assoc, hscan, List.length_append, List.length_singleton]
  rcases h.step_eq (c := ⟨p.length, wordValue p⟩) hl b with ⟨hlt, -, -⟩ | ⟨i, hi, hs⟩
  · -- an interior node is no slot
    unfold slotCode at hvalue
    simp only [hlen] at hlt
    omega
  · unfold slotCode at hvalue
    simp only [hlen] at hi hs
    obtain rfl : x.index = i := by omega
    rcases hs with ⟨-, hs⟩ | ⟨hge, -⟩
    · change t.step ⟨x.level, wordValue p⟩ b = t.slotStep x at hs
      simp only [List.singleton_append, scan, hlen, hs, slotStep]
      by_cases hstop : x = t.stopSlot
      · rw [if_pos hstop, if_pos hstop, Nat.add_assoc]
      · rw [if_neg hstop, if_neg hstop, Nat.add_assoc]
    · have := hx.index_lt; omega

/-- **A walk over words of symbols** gives the symbols and starts anew. -/
theorem scan_words (h : t.Consistent) {slots : List Slot}
    (hwords : ∀ x ∈ slots, t.HasWord x ∧ x ≠ t.stopSlot) (symbols : Array UInt8) (used : ℕ)
    (bits : List Bool) :
    t.scan {} symbols used (slots.flatMap t.word ++ bits) =
      t.scan {} (symbols ++ slots.map t.symbolAt) (used + (slots.flatMap t.word).length) bits := by
  induction slots generalizing symbols used with
  | nil => simp
  | cons x slots ih =>
    obtain ⟨hx, hne⟩ := hwords x List.mem_cons_self
    rw [List.flatMap_cons, List.append_assoc, h.scan_word hx, if_neg hne,
      ih fun y hy => hwords y (List.mem_cons_of_mem x hy)]
    simp [Nat.add_assoc]

/-- **A walk over a payload** gives its symbols and stops where the stop code ends. -/
theorem scan_of_factors (h : t.Consistent) {bits rest : List Bool} {slots : List Slot}
    (hf : t.Factors bits slots rest) (symbols : Array UInt8) (used : ℕ) :
    t.scan {} symbols used bits =
      ⟨symbols ++ slots.map t.symbolAt, used + t.payloadLength slots, .stopped⟩ := by
  rw [hf.bits_eq, List.append_assoc, h.scan_words hf.words, h.scan_word hf.stop, if_pos rfl,
    payloadLength, List.length_append, Nat.add_assoc]

/-- **What a walk reads**: words of symbols, and behind them what it ends with. -/
theorem words_of_scan (h : t.Consistent) {p : List Bool} (hp : t.Inner p) (symbols : Array UInt8)
    (used : ℕ) (bits : List Bool) :
    ∃ (slots : List Slot) (tail : List Bool), (∀ x ∈ slots, t.HasWord x ∧ x ≠ t.stopSlot) ∧
      p ++ bits = slots.flatMap t.word ++ tail ∧
      t.EndsWith tail (t.scan ⟨p.length, wordValue p⟩ symbols used bits).ending := by
  have hnone : ∀ x ∈ ([] : List Slot), t.HasWord x ∧ x ≠ t.stopSlot :=
    fun _ hx => absurd hx List.not_mem_nil
  -- the way down since the last word is kept beside the bits that are left
  induction bits generalizing p symbols used with
  | nil =>
    refine ⟨[], p, hnone, ?_, hp, rfl⟩
    rw [List.append_nil]; rfl
  | cons b bits ih =>
    obtain ⟨hl, -⟩ := h.scan_inner hp #[] 0 []
    simp only [scan]
    rcases h.step_eq (c := ⟨p.length, wordValue p⟩) hl b with
      ⟨hlt, -, hs⟩ | ⟨i, hi, ⟨hlt, hs⟩ | ⟨hge, hs⟩⟩
    · rw [hs]
      have hp' : t.Inner (p ++ [b]) := inner_concat.2 ⟨hp, hlt⟩
      obtain ⟨slots, tail, hwords, hbits, hend⟩ := ih hp' symbols (used + 1)
      rw [List.append_assoc, List.singleton_append] at hbits
      rw [List.length_append, List.length_singleton, wordValue_concat] at hend
      exact ⟨slots, tail, hwords, hbits, hend⟩
    · obtain ⟨hx, hword⟩ := h.hasWord_of_inner hp hl hi hlt
      have hcut : p ++ b :: bits = t.word ⟨p.length, i⟩ ++ bits := by
        rw [hword, List.append_assoc, List.singleton_append]
      simp only [slotStep] at hs
      split at hs
      · rename_i hstop
        rw [hs]
        rw [hstop] at hx hcut
        exact ⟨[], p ++ b :: bits, hnone, rfl, hx, bits, hcut⟩
      · rename_i hne
        rw [hs]
        obtain ⟨slots, tail, hwords, hbits, hend⟩ :=
          ih (Inner.nil t) (symbols.push (t.symbolAt ⟨p.length, i⟩)) (used + 1)
        refine ⟨⟨p.length, i⟩ :: slots, tail, ?_, ?_, hend⟩
        · intro y hy
          rcases List.mem_cons.1 hy with rfl | hy
          · exact ⟨hx, hne⟩
          · exact hwords y hy
        · rw [hcut, List.flatMap_cons, List.append_assoc, ← hbits, List.nil_append]
    · rw [hs]
      exact ⟨[], p ++ b :: bits, hnone, rfl, p, b, bits, i, rfl, hp, hi, hge, rfl⟩

/-- **A walk that stops has read a payload.** -/
theorem factors_of_scan (h : t.Consistent) {bits : List Bool} {symbols : Array UInt8} {used : ℕ}
    (hstop : (t.scan {} symbols used bits).ending = .stopped) :
    ∃ slots rest, t.Factors bits slots rest := by
  obtain ⟨slots, tail, hwords, hbits, hend⟩ := h.words_of_scan (Inner.nil t) symbols used bits
  change t.EndsWith tail (t.scan {} symbols used bits).ending at hend
  rw [hstop] at hend
  obtain ⟨hx, rest, rfl⟩ := hend
  exact ⟨slots, rest, hwords, hx, by rw [← List.nil_append bits, hbits, List.append_assoc]⟩

/-- No word is the beginning of another slot's. -/
theorem eq_of_word_append (h : t.Consistent) {x y : Slot} (hx : t.HasWord x) (hy : t.HasWord y)
    {xs ys : List Bool} (heq : t.word x ++ xs = t.word y ++ ys) (hle : x.level ≤ y.level) :
    x = y := by
  have hxv := h.wordValue_word hx
  have hyv := h.wordValue_word hy
  have htake : t.word x = (t.word y).take (x.level + 1) := by
    have := congrArg (List.take (x.level + 1)) heq
    rwa [List.take_append_of_le_length (by simp), List.take_append_of_le_length (by simp; omega),
      List.take_of_length_le (by simp)] at this
  rcases Nat.lt_or_eq_of_le hle with hlt | hlevel
  · -- the shorter word would have to be an interior node on the longer one's way
    have hinner := hy.inner x.level hlt
    rw [← hyv, Int.shiftRight_eq_div_pow] at hinner
    rw [htake, wordValue_take, length_word,
      show y.level + 1 - (x.level + 1) = y.level - x.level by omega] at hxv
    push_cast at hxv hinner
    unfold slotCode at hxv
    omega
  · rw [hlevel, List.take_of_length_le (by simp)] at htake
    rw [htake, hyv] at hxv
    unfold slotCode at hxv
    rw [hlevel] at hxv
    obtain ⟨l, i⟩ := x
    obtain ⟨l', i'⟩ := y
    simp only at hlevel hxv
    rw [hlevel, show i = i' by omega]

/-- **There is one way to read a payload.** -/
theorem factors_unique (h : t.Consistent) {bits rest rest' : List Bool} {slots slots' : List Slot}
    (hf : t.Factors bits slots rest) (hf' : t.Factors bits slots' rest') :
    slots = slots' ∧ rest = rest' := by
  have hword : ∀ {x y : Slot} {xs ys : List Bool}, t.HasWord x → t.HasWord y →
      t.word x ++ xs = t.word y ++ ys → x = y ∧ xs = ys := by
    intro x y xs ys hx hy heq
    have hxy : x = y := by
      rcases Nat.le_total x.level y.level with hle | hle
      · exact h.eq_of_word_append hx hy heq hle
      · exact (h.eq_of_word_append hy hx heq.symm hle).symm
    subst hxy
    exact ⟨rfl, List.append_cancel_left heq⟩
  -- equal payloads begin with equal words, and go on equal behind them
  induction slots generalizing bits slots' with
  | nil =>
    obtain ⟨hs, rfl⟩ := factors_nil_iff.1 hf
    cases slots' with
    | nil => exact ⟨rfl, (hword hs hs (factors_nil_iff.1 hf').2).2⟩
    | cons y slots' =>
      obtain ⟨⟨hy, hne⟩, tail, heq, -⟩ := factors_cons_iff.1 hf'
      exact absurd (hword hs hy heq).1.symm hne
  | cons x slots ih =>
    obtain ⟨⟨hx, hne⟩, tail, rfl, htail⟩ := factors_cons_iff.1 hf
    cases slots' with
    | nil =>
      obtain ⟨hs, heq⟩ := factors_nil_iff.1 hf'
      exact absurd (hword hx hs heq).1 hne
    | cons y slots' =>
      obtain ⟨⟨hy, -⟩, tail', heq, htail'⟩ := factors_cons_iff.1 hf'
      obtain ⟨rfl, rfl⟩ := hword hx hy heq
      obtain ⟨rfl, rfl⟩ := ih htail htail'
      exact ⟨rfl, rfl⟩

end Consistent

end Tree

end PackFormat
