import PackFormat.Header.Read
import PackFormat.Sink

/-!
# Writing the header

What a header may say: a depth that readers accept, counts that fit a byte each,
and a table of the length that the counts ask for.

* `Header.check`: what is wrong with a header, looked for in that order.
* `Header.write`: the depth, the counts and the symbols, a write for each; nothing
  is written of a header that fails the check.
-/

namespace PackFormat

/-- Why a header is not written. -/
inductive HeaderError
  | depthOutOfRange (levels : Nat)
  | countOutOfRange
  /-- The table has not the length that the counts ask for. -/
  | symbolsMismatch
  | stream (error : StreamError)
deriving DecidableEq, Repr

/-- The wording of each cause. -/
def HeaderError.message : HeaderError → String
  | depthOutOfRange levels => "tree depth out of range (1..24): " ++ toString levels
  | countOutOfRange => "level count out of u8 range"
  | symbolsMismatch => "symbol table length does not match counts"
  | stream (.system e) => e.message
  | stream (.objection text) => text

namespace Header

/-- **What is wrong with a header**, if anything is. The counts are as they are stored. -/
def check (counts : List Int) (symbols : List UInt8) : Option HeaderError :=
  let depth := counts.length
  if ¬(1 ≤ depth ∧ depth ≤ maxDepth) then some (.depthOutOfRange depth)
  else if counts.any fun c => c < 0 || 255 < c then some .countOutOfRange
  else if symbols.length ≠ total (counts.map Int.toNat) + 1 then some .symbolsMismatch
  else none

/-- Writes to a sink. -/
def put (bytes : List UInt8) : EStateM HeaderError Sink Unit := fun s =>
  match s.write bytes with
  | .ok () s => .ok () s
  | .error e s => .error (.stream e) s

/-- **Writes a header.** -/
def write (counts : List Int) (symbols : List UInt8) : EStateM HeaderError Sink Unit :=
  match check counts symbols with
  | some e => throw e
  | none => do
    put [UInt8.ofNat counts.length]
    put (counts.map fun c => UInt8.ofNat c.toNat)
    put symbols

end Header

end PackFormat
