import PackFormat.Bits

/-!
# Writing bits into bytes

A bit writer collects bits until they make a byte. The bits still pending are held
as a number.

* `BitWriter.writeCode`: the low bits of a number.
* `BitWriter.finish`: zeros up to the next whole byte.
* `BitWriter.bits`: everything written so far, as bits.
-/

namespace PackFormat

/-- **A writer of bits.** -/
structure BitWriter where
  bytes : Array UInt8 := #[]
  /-- The number the pending bits make. -/
  acc : Nat := 0
  /-- How many bits are pending, fewer than a byte has. -/
  pending : Nat := 0

namespace BitWriter

/-- Appends a bit. -/
def put (w : BitWriter) (bit : Bool) : BitWriter :=
  let acc := 2 * w.acc + bit.toNat
  if w.pending + 1 = 8 then ⟨w.bytes.push (UInt8.ofNat acc), 0, 0⟩
  else ⟨w.bytes, acc, w.pending + 1⟩

/-- Appends bits. -/
def write (w : BitWriter) (bits : List Bool) : BitWriter := bits.foldl put w

/-- **Appends the low `length` bits of a number**, none if the length is below one. -/
def writeCode (w : BitWriter) (code length : Int) : BitWriter :=
  w.write (lowBits length.toNat code)

/-- **Fills the last byte up with zeros.** The writer can be used on. -/
def finish (w : BitWriter) : BitWriter := w.write (.replicate ((8 - w.pending) % 8) false)

/-- Everything written so far. -/
def bits (w : BitWriter) : List Bool := bitsOf w.bytes.toList ++ lowBits w.pending w.acc

end BitWriter

end PackFormat
