import PackFormat.Pack
import PackFormat.Proofs.Word

/-!
# What a bit writer holds

A writer's bits are its bytes' and the pending ones (`BitWriter.bits`). Writing
appends to them, and finishing appends zeros up to a whole byte.

* `BitWriter.bits_write`, `BitWriter.bits_finish`: what writing and finishing append.
* `bitsOf_payload`: a payload's bits are its words, the stop code's and fewer than
  eight zeros.
-/

namespace PackFormat

namespace BitWriter

/-- **The pending bits are fewer than a byte has**, and no others are set. -/
structure Valid (w : BitWriter) : Prop where
  pending_lt : w.pending < 8
  acc_lt : w.acc < 2 ^ w.pending

variable {w : BitWriter}

theorem valid_empty : Valid {} := ⟨by decide, by decide⟩

theorem put_of_full (h : w.pending + 1 = 8) (b : Bool) :
    w.put b = ⟨w.bytes.push (UInt8.ofNat (2 * w.acc + b.toNat)), 0, 0⟩ := if_pos h

theorem put_of_not_full (h : w.pending + 1 ≠ 8) (b : Bool) :
    w.put b = ⟨w.bytes, 2 * w.acc + b.toNat, w.pending + 1⟩ := if_neg h

/-- **One more bit**, also where it makes a byte full. -/
theorem bits_put (hw : w.Valid) (b : Bool) : (w.put b).Valid ∧ (w.put b).bits = w.bits ++ [b] := by
  have hb := Bool.toNat_le b
  have hacc := hw.acc_lt
  have hlast := lowBits_concat w.pending w.acc b
  by_cases hfull : w.pending + 1 = 8
  · have hlt : 2 * w.acc + b.toNat < 2 ^ 8 := by
      rw [← hfull, pow_succ]; omega
    rw [put_of_full hfull]
    refine ⟨⟨by simp, by simp⟩, ?_⟩
    rw [hfull] at hlast
    simp only [bits, Array.toList_push, bitsOf_append, bitsOf_cons, bitsOf_nil, List.append_nil,
      byteBits_ofNat hlt, hlast, lowBits_zero, List.append_assoc]
  · rw [put_of_not_full hfull]
    refine ⟨⟨by have := hw.pending_lt; simp only; omega, ?_⟩, ?_⟩
    · rw [pow_succ]; simp only; omega
    · simp only [bits, hlast, List.append_assoc]

/-- **Writing appends.** -/
theorem bits_write (hw : w.Valid) (bs : List Bool) :
    (w.write bs).Valid ∧ (w.write bs).bits = w.bits ++ bs := by
  induction bs generalizing w with
  | nil => exact ⟨hw, (List.append_nil _).symm⟩
  | cons b bs ih =>
    obtain ⟨hput, hbits⟩ := bits_put hw b
    obtain ⟨hvalid, hrest⟩ := ih hput
    refine ⟨hvalid, ?_⟩
    change ((w.put b).write bs).bits = _
    rw [hrest, hbits, List.append_assoc, List.singleton_append]

theorem length_bits (w : BitWriter) : w.bits.length = 8 * w.bytes.size + w.pending := by
  simp [bits]

/-- Finishing leaves nothing pending. -/
theorem pending_finish (hw : w.Valid) : w.finish.Valid ∧ w.finish.pending = 0 := by
  obtain ⟨hvalid, hbits⟩ := bits_write hw (.replicate ((8 - w.pending) % 8) false)
  have hlen := congrArg List.length hbits
  rw [length_bits, List.length_append, length_bits, List.length_replicate] at hlen
  have h1 := hvalid.pending_lt
  have h2 := hw.pending_lt
  refine ⟨hvalid, ?_⟩
  unfold finish
  omega

/-- **Finishing appends zeros**, fewer than eight, up to a whole byte. -/
theorem bits_finish (hw : w.Valid) :
    bitsOf w.finish.bytes.toList = w.bits ++ .replicate ((8 - w.pending) % 8) false := by
  obtain ⟨-, hbits⟩ := bits_write hw (.replicate ((8 - w.pending) % 8) false)
  rw [← hbits]
  change _ = w.finish.bits
  rw [bits, (pending_finish hw).2, lowBits_zero, List.append_nil]

end BitWriter

/-- The bits of a symbol's code, none if it has no code. -/
def codeWord (codes : List (Symbol × Code)) (s : Symbol) : List Bool :=
  ((codes.lookup s).map fun c => lowBits c.length c.value).getD []

variable {codes : List (Symbol × Code)}

theorem bits_writeSymbol {w : BitWriter} (hw : w.Valid) (codes : List (Symbol × Code)) (s : Symbol) :
    (writeSymbol codes w s).Valid ∧ (writeSymbol codes w s).bits = w.bits ++ codeWord codes s := by
  unfold writeSymbol codeWord
  cases codes.lookup s with
  | none => exact ⟨hw, (List.append_nil _).symm⟩
  | some c => exact BitWriter.bits_write hw _

theorem bits_foldl_writeSymbol {w : BitWriter} (hw : w.Valid) (codes : List (Symbol × Code))
    (data : List UInt8) :
    (data.foldl (fun w b => writeSymbol codes w (.byte b)) w).Valid ∧
      (data.foldl (fun w b => writeSymbol codes w (.byte b)) w).bits =
        w.bits ++ data.flatMap fun b => codeWord codes (.byte b) := by
  induction data generalizing w with
  | nil => exact ⟨hw, (List.append_nil _).symm⟩
  | cons b data ih =>
    obtain ⟨hvalid, hbits⟩ := bits_writeSymbol hw codes (.byte b)
    obtain ⟨hvalid', hrest⟩ := ih hvalid
    exact ⟨hvalid', by rw [List.foldl_cons, hrest, hbits, List.flatMap_cons, List.append_assoc]⟩

/-- **A payload's bits**: the words of the data, the stop code's, and zeros up to a whole byte. -/
theorem bitsOf_payload (codes : List (Symbol × Code)) (data : List UInt8) :
    ∃ n < 8, bitsOf (payload codes data) =
      (data.flatMap fun b => codeWord codes (.byte b)) ++ codeWord codes .stop ++
        .replicate n false := by
  obtain ⟨hdata, hbits⟩ := bits_foldl_writeSymbol BitWriter.valid_empty codes data
  obtain ⟨hstop, hbits'⟩ := bits_writeSymbol hdata codes .stop
  have hfinish := BitWriter.bits_finish hstop
  rw [hbits', hbits] at hfinish
  exact ⟨_, Nat.mod_lt _ (by decide), hfinish⟩

end PackFormat
