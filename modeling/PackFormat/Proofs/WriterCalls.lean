import Mathlib.Data.Int.Bitwise
import PackFormat.Proofs.Reader
import PackFormat.Proofs.Writer

/-!
# A bit writer in use

Codes of any length are written one after the other, and the writer may be finished at any
time and used on. Whatever the calls are, it holds the bits they say, fewer than eight of
them pending, and never appends a number that is no byte.

* `BitWriter.Call.bits`: the bits that a call says.
* `BitWriter.Call.checked`: a call to a writer that refuses to append what is no byte.
* `BitWriter.Holds.call`: what each call keeps.
* `BitWriter.calls_bits`: **any calls**, and what a reader makes of the result.
-/

namespace PackFormat

/-- The bit that a shift brings to the end is that of the two's complement. -/
theorem shiftRight_mod_two (c : ℤ) (n : ℕ) : (c.shiftRight n % 2 == 1) = c.testBit n := by
  cases c with
  | ofNat v =>
    change (((v >>> n : ℕ) : ℤ) % 2 == 1) = v.testBit n
    rw [Nat.testBit_eq_decide_div_mod_eq, Nat.shiftRight_eq_div_pow, Bool.eq_iff_iff, beq_iff_eq,
      decide_eq_true_iff]
    omega
  | negSucc v =>
    change (Int.negSucc (v >>> n) % 2 == 1) = !v.testBit n
    rw [Nat.testBit_eq_decide_div_mod_eq, Nat.shiftRight_eq_div_pow, Bool.eq_iff_iff, beq_iff_eq,
      Bool.not_eq_true', decide_eq_false_iff_not]
    omega

theorem lowBits_eq_map_testBit (n : ℕ) (c : ℤ) :
    lowBits n c = (List.range n).reverse.map c.testBit := by
  induction n with
  | zero => rfl
  | succ n ih =>
    rw [lowBits, shiftRight_mod_two, ih, List.range_succ, List.reverse_append]
    rfl

namespace BitWriter

/-- A call to a writer. -/
inductive Call
  | writeCode (code length : ℤ)
  | finish
deriving DecidableEq, Repr

/-- What a call does. -/
def call (w : BitWriter) : Call → BitWriter
  | .writeCode code length => w.writeCode code length
  | .finish => w.finish

/-- What calls do, one after the other. -/
def run (w : BitWriter) (calls : List Call) : BitWriter := calls.foldl call w

/-- **The bits that a call says**, behind `total` others: the low bits of the code, the highest of them
first, or zeros up to a whole byte. -/
def Call.bits (total : ℕ) : Call → List Bool
  | .writeCode code length => (List.range length.toNat).reverse.map code.testBit
  | .finish => List.replicate (-(total : ℤ) % 8).toNat false

/-- The bits that calls say, one after the other. -/
def Call.allBits (calls : List Call) : List Bool :=
  calls.foldl (fun bits c => bits ++ c.bits bits.length) []

/-- Appends a number, if it is a byte. -/
def append? (bytes : Array UInt8) (n : ℕ) : Option (Array UInt8) :=
  if n ≤ 255 then some (bytes.push (UInt8.ofNat n)) else none

/-- Shifts a bit into the pending ones, and appends them if they make eight. -/
def put? (w : BitWriter) (bit : Bool) : Option BitWriter :=
  if w.pending + 1 = 8 then (append? w.bytes (w.acc <<< 1 ||| bit.toNat)).map (⟨·, 0, 0⟩)
  else some ⟨w.bytes, w.acc <<< 1 ||| bit.toNat, w.pending + 1⟩

/-- **A call that fails** if it would append a number that is no byte. The last byte is filled up at
once, by a shift. -/
def Call.checked (w : BitWriter) : Call → Option BitWriter
  | .writeCode code length => ((List.range length.toNat).reverse.map code.testBit).foldlM put? w
  | .finish =>
    if w.pending = 0 then some w
    else (append? w.bytes (w.acc <<< (8 - w.pending))).map (⟨·, 0, 0⟩)

/-- **What a writer holds** while it is used: `bits`, of which less than a byte is pending. -/
structure Holds (w : BitWriter) (bits : List Bool) : Prop where
  valid : w.Valid
  bits_eq : w.bits = bits

variable {w : BitWriter}

theorem append?_of_le {n : ℕ} (h : n ≤ 255) (bytes : Array UInt8) :
    append? bytes n = some (bytes.push (UInt8.ofNat n)) := if_pos h

/-- A bit makes no number that is no byte. -/
theorem put?_eq (hw : w.Valid) (b : Bool) : w.put? b = some (w.put b) := by
  have hb := Bool.toNat_le b
  have hacc := hw.acc_lt
  have hor : w.acc <<< 1 ||| b.toNat = 2 * w.acc + b.toNat := by
    rw [← Nat.shiftLeft_add_eq_or_of_lt (by omega), Nat.shiftLeft_eq, pow_one, Nat.mul_comm]
  unfold put?
  rw [hor]
  by_cases hfull : w.pending + 1 = 8
  · have hlt : w.acc < 2 ^ 7 := by rwa [show w.pending = 7 by omega] at hacc
    rw [if_pos hfull, put_of_full hfull, append?_of_le (by omega)]
    rfl
  · rw [if_neg hfull, put_of_not_full hfull]

/-- Nor do bits. -/
theorem foldlM_put? (hw : w.Valid) (bits : List Bool) : bits.foldlM put? w = some (w.write bits) := by
  induction bits generalizing w with
  | nil => rfl
  | cons b bits ih =>
    rw [List.foldlM_cons, put?_eq hw b]
    exact ih (bits_put hw b).1

/-- Zeros shift the pending bits up. -/
theorem write_zeros {m : ℕ} (hm : w.pending + (m + 1) = 8) :
    w.write (List.replicate (m + 1) false) =
      ⟨w.bytes.push (UInt8.ofNat (w.acc * 2 ^ (m + 1))), 0, 0⟩ := by
  induction m generalizing w with
  | zero =>
    change w.put false = _
    rw [put_of_full hm, Bool.toNat_false, Nat.add_zero, pow_one, Nat.mul_comm]
  | succ m ih =>
    have hput : w.put false = ⟨w.bytes, 2 * w.acc, w.pending + 1⟩ := put_of_not_full (by omega) false
    change (w.put false).write (List.replicate (m + 1) false) = _
    rw [hput, ih (by simp only; omega)]
    simp only
    rw [pow_succ 2 (m + 1), Nat.mul_comm 2, Nat.mul_assoc, Nat.mul_comm 2]

/-- **Finishing appends one byte**, if there is anything pending. -/
theorem finish_eq (hw : w.Valid) (hpending : w.pending ≠ 0) :
    w.acc <<< (8 - w.pending) ≤ 255 ∧
      w.finish = ⟨w.bytes.push (UInt8.ofNat (w.acc <<< (8 - w.pending))), 0, 0⟩ := by
  have hlt := hw.pending_lt
  have hacc := hw.acc_lt
  obtain ⟨m, hm⟩ : ∃ m, 8 - w.pending = m + 1 := ⟨7 - w.pending, by omega⟩
  have hbyte : w.acc * 2 ^ (m + 1) < 2 ^ 8 := by
    calc w.acc * 2 ^ (m + 1) < 2 ^ w.pending * 2 ^ (m + 1) := by gcongr
      _ = 2 ^ 8 := by rw [← pow_add, ← hm]; congr 1; omega
  rw [hm, Nat.shiftLeft_eq]
  refine ⟨by omega, ?_⟩
  unfold finish
  rw [hm, Nat.mod_eq_of_lt (by omega)]
  exact write_zeros (by omega)

/-- **Each call adds the bits it says**, and appends bytes alone. -/
theorem Holds.call {bits : List Bool} (h : w.Holds bits) (c : Call) :
    c.checked w = some (w.call c) ∧ (w.call c).Holds (bits ++ c.bits bits.length) := by
  obtain ⟨hw, rfl⟩ := h
  cases c with
  | writeCode code length =>
    refine ⟨?_, ?_, ?_⟩
    · change List.foldlM put? w _ = some (w.write _)
      rw [lowBits_eq_map_testBit]
      exact foldlM_put? hw _
    · exact (bits_write hw _).1
    · refine (bits_write hw _).2.trans ?_
      rw [lowBits_eq_map_testBit]
      rfl
  | finish =>
    have hlt := hw.pending_lt
    refine ⟨?_, (pending_finish hw).1, ?_⟩
    · unfold Call.checked
      simp only
      by_cases hpending : w.pending = 0
      · rw [if_pos hpending]
        change _ = some w.finish
        rw [finish, hpending]
        rfl
      · obtain ⟨hbyte, hfinish⟩ := finish_eq hw hpending
        rw [if_neg hpending, append?_of_le hbyte]
        change _ = some w.finish
        rw [hfinish]
        rfl
    · -- zeros up to a whole byte, counted from the bits or from the pending ones
      have hzeros : (-(w.bits.length : ℤ) % 8).toNat = (8 - w.pending) % 8 := by
        rw [length_bits]
        omega
      change w.finish.bits = w.bits ++ List.replicate (-(w.bits.length : ℤ) % 8).toNat false
      rw [hzeros]
      exact (bits_write hw _).2

/-- **So do any calls.** -/
theorem Holds.run {bits : List Bool} (h : w.Holds bits) (calls : List Call) :
    calls.foldlM Call.checked w = some (w.run calls) ∧
      (w.run calls).Holds (calls.foldl (fun bits c => bits ++ c.bits bits.length) bits) := by
  induction calls generalizing w bits with
  | nil => exact ⟨rfl, h⟩
  | cons c calls ih =>
    obtain ⟨hchecked, hcall⟩ := h.call c
    obtain ⟨hrest, hholds⟩ := ih hcall
    rw [List.foldlM_cons, hchecked]
    exact ⟨hrest, hholds⟩

/-- **Any calls.** A writer appends nothing that is no byte, has fewer than eight bits pending and no
others in its number, and holds the bits that the calls say. Finished, it has none pending, and a
reader of its bytes gets these bits and the zeros behind them, in chunks of any size. -/
theorem calls_bits (calls : List Call) :
    let w := run {} calls
    calls.foldlM Call.checked {} = some w ∧
      w.pending ≤ 7 ∧ w.acc < 2 ^ w.pending ∧
      bitsOf w.bytes.toList ++ lowBits w.pending w.acc = Call.allBits calls ∧
      w.finish.pending = 0 ∧
      ∀ k : ℤ, 1 ≤ k → ∃ reader, BitReader.ofChunkSize? k = some reader ∧
        ∀ maxRead ≠ some 0,
          let drained := reader.drain { data := w.finish.bytes, maxRead }
          drained.failure = none ∧
            drained.chunks.flatten = Call.allBits (calls ++ [.finish]) := by
  intro w
  have hstart : Holds {} [] := ⟨valid_empty, rfl⟩
  obtain ⟨hchecked, hholds⟩ := hstart.run calls
  obtain ⟨-, hfinished⟩ := hholds.call .finish
  have hnone := (pending_finish hholds.valid).2
  refine ⟨hchecked, Nat.le_of_lt_succ hholds.valid.pending_lt, hholds.valid.acc_lt, hholds.bits_eq,
    hnone, ?_⟩
  intro k hk
  obtain ⟨reader, hreader, -, -, hended⟩ := Tree.ofChunkSize?_of_pos hk
  refine ⟨reader, hreader, ?_⟩
  intro maxRead hm drained
  have hclean : ({ data := w.finish.bytes, maxRead } : Source).Clean := ⟨rfl, hm⟩
  obtain ⟨hchunks, hfailure, -⟩ := BitReader.drain_eq_upcoming hended hclean
  refine ⟨hfailure, hchunks.trans ?_⟩
  have hwhole := hfinished.bits_eq
  rw [BitWriter.bits, show (w.call .finish).pending = 0 from hnone, lowBits_zero,
    List.append_nil] at hwhole
  rw [Source.upcoming_whole, Call.allBits, List.foldl_append]
  exact hwhole

/-- Three ones, finished; nothing, and twelve bits behind them. -/
theorem calls_bits_two_finishes :
    let calls : List Call := [.writeCode (-1) 3, .finish, .writeCode 5 (-2), .writeCode 0xa5f 12]
    ((1 : ℤ) ≤ 3 ∧ some 2 ≠ some 0) ∧
      calls.foldlM Call.checked {} = some ⟨#[0xe0, 0xa5], 15, 4⟩ ∧
      Call.allBits calls = bitsOf [0xe0, 0xa5] ++ [true, true, true, true] ∧
      ∃ reader, BitReader.ofChunkSize? 3 = some reader ∧
        (reader.drain { data := #[0xe0, 0xa5, 0xf0], maxRead := some 2 }).chunks.flatten =
          bitsOf [0xe0, 0xa5, 0xf0] := by
  intro calls
  have hrun : run {} calls = ⟨#[0xe0, 0xa5], 15, 4⟩ := rfl
  have hfinish : (run {} calls).finish.bytes = #[0xe0, 0xa5, 0xf0] := by decide
  have hk : (1 : ℤ) ≤ 3 := by decide
  have hm : some 2 ≠ some 0 := by decide
  obtain ⟨hchecked, -, -, hbits, -, hread⟩ := calls_bits calls
  rw [hrun] at hchecked hbits
  obtain ⟨reader, hreader, hdrain⟩ := hread 3 hk
  obtain ⟨-, hchunks⟩ := hdrain (some 2) hm
  rw [hfinish] at hchunks
  exact ⟨⟨hk, hm⟩, hchecked, hbits.symm, reader, hreader, hchunks.trans (by decide)⟩

end BitWriter

end PackFormat
