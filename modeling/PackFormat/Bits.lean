/-!
# Bits, most significant first

The format counts bits from the top of each byte. Bits are booleans, and a bit
string is a list of them.

* `lowBits`: the low bits of any integer, negative ones in two's complement.
* `byteBits`, `bitsOf`: the bits of a byte and of a byte string.
* `length_bitsOf`: eight bits to the byte.
-/

namespace PackFormat

/-- The low `n` bits of `c`, the highest of them first. -/
def lowBits : Nat → Int → List Bool
  | 0, _ => []
  | n + 1, c => (c.shiftRight n % 2 == 1) :: lowBits n c

/-- The eight bits of a byte. -/
def byteBits (b : UInt8) : List Bool := lowBits 8 b.toNat

/-- The bits of a byte string. -/
def bitsOf (bytes : List UInt8) : List Bool := bytes.flatMap byteBits

@[simp] theorem length_lowBits (n : Nat) (c : Int) : (lowBits n c).length = n := by
  induction n with
  | zero => rfl
  | succ n ih => simp [lowBits, ih]

@[simp] theorem length_byteBits (b : UInt8) : (byteBits b).length = 8 := length_lowBits 8 _

@[simp] theorem bitsOf_nil : bitsOf [] = [] := rfl

@[simp] theorem bitsOf_cons (b : UInt8) (bytes : List UInt8) :
    bitsOf (b :: bytes) = byteBits b ++ bitsOf bytes := rfl

@[simp] theorem bitsOf_append (xs ys : List UInt8) :
    bitsOf (xs ++ ys) = bitsOf xs ++ bitsOf ys := by
  simp [bitsOf]

/-- **Eight bits to the byte.** -/
@[simp] theorem length_bitsOf (bytes : List UInt8) : (bitsOf bytes).length = 8 * bytes.length := by
  induction bytes with
  | nil => rfl
  | cons b bytes ih => simp [ih, Nat.mul_add, Nat.add_comm]

end PackFormat
