import PackFormat.Unpack

/-!
# Where packed bytes are kept

Bytes in memory and bytes of a file can be read in any number at a time that is an
index. For a file, room is set aside for a whole chunk before it is read, so the
chunk has to fit into a byte string, and that into the memory there is for it.

* `Medium.refusal`: why chunks of some size cannot be read.
* `Medium.decode`, `Medium.unpack`: decoding and unpacking within those limits,
  which matter from the first chunk on and not for the header.
-/

namespace PackFormat

/-- The largest index there is. -/
def maxIndex : Int := 9223372036854775807

/-- What a byte string takes besides its bytes. -/
def byteStringHead : Int := 33

/-- **Where packed bytes are kept.** -/
inductive Medium
  | memory
  /-- A file, and the room for a chunk of it, if that is limited. -/
  | file (room : Option Int)
deriving DecidableEq, Repr

namespace Medium

/-- **Why chunks of some size cannot be read**, if they cannot. -/
def refusal (m : Medium) (chunkSize : Int) : Option Failure :=
  if maxIndex < chunkSize then some .chunkSizeOverflow
  else
    match m with
    | memory => none
    | file room =>
      if maxIndex < chunkSize + byteStringHead then some .chunkTooLong
      else if room.any (· < chunkSize + byteStringHead) then some .outOfMemory
      else none

/-- Decodes a payload in chunks that the medium allows. -/
def decode (m : Medium) (t : Tree) (chunkSize : Int) : EStateM Failure Streams Decoded :=
  match m.refusal chunkSize with
  | some f => throw f
  | none => t.decode chunkSize

/-- Unpacks a stream in chunks that the medium allows. -/
def unpack (m : Medium) (chunkSize : Int) : EStateM Failure Streams Nat := do
  let t ← openTree [] none
  let d ← m.decode t chunkSize
  return d.size

end Medium

end PackFormat
