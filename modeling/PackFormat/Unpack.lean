import PackFormat.Decode

/-!
# Unpacking a stream

A packed stream is a header and a payload. Unpacking reads the one and decodes the
other, and counts the header once it is good.

* `openTree`: the header.
* `unpack`: the whole stream.
-/

namespace PackFormat

/-- Reads the header and counts it. -/
def openTree (ahead : List UInt8) (size : Option Int) : EStateM Failure Streams Tree := do
  let t ← fromSource (Tree.read ahead size)
  modify (·.count t.headerLength 0)
  return t

/-- **Unpacks a stream**: the number of bytes written. -/
def unpack (ahead : List UInt8) (size : Option Int) (chunkSize : Int) :
    EStateM Failure Streams Nat := do
  let t ← openTree ahead size
  let d ← t.decode chunkSize
  return d.size

/-- The chunk size that callers use when they have no reason for another. -/
def defaultChunkSize : Int := 8192

end PackFormat
