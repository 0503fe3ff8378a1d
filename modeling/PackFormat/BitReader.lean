import PackFormat.Bits
import PackFormat.Source

/-!
# Reading a stream as bits

A bit reader asks a source for one chunk of bytes at a time and hands out its
bits. It counts the bytes it got. Once the source gives nothing or fails, the
reader has ended and reads no more until it is restarted.

* `BitReader.next`: the next chunk, if there is one.
* `BitReader.drain`: all chunks to the end.
* `BitReader.remaining_lt_of_next`: each chunk brings the end of the source
  nearer.
-/

namespace PackFormat

/-- **A reader of bits, chunk by chunk.** -/
structure BitReader where
  /-- The bytes asked for at a time. -/
  chunkSize : Nat
  chunkSize_pos : 0 < chunkSize
  /-- The bytes got so far. -/
  bytesRead : Nat := 0
  /-- Whether the chunks have come to an end. -/
  ended : Bool := false

namespace BitReader

/-- A reader for chunks of a positive size; there is none for any other. -/
def ofChunkSize? (size : Int) : Option BitReader :=
  if h : 0 < size then some ⟨size.toNat, by omega, 0, false⟩ else none

/-- The same reader, with chunks to come again. -/
def restart (r : BitReader) : BitReader := { r with ended := false }

/-- **The next chunk**: the bits of what one read gives, or none when it gives nothing. -/
def next (r : BitReader) (s : Source) :
    EStateM.Result Failure (BitReader × Source) (Option (List Bool)) :=
  if r.ended then .ok none (r, s)
  else
    match s.read r.chunkSize with
    | .error e s => .error (.ofRead "packed payload" e) ({ r with ended := true }, s)
    | .ok [] s => .ok none ({ r with ended := true }, s)
    | .ok (b :: bytes) s =>
      .ok (some (bitsOf (b :: bytes))) ({ r with bytesRead := r.bytesRead + (bytes.length + 1) }, s)

/-- **Each chunk brings the end nearer.** -/
theorem remaining_lt_of_next {r r' : BitReader} {s s' : Source} {bits : List Bool}
    (h : r.next s = .ok (some bits) (r', s')) : s'.remaining < s.remaining := by
  unfold next at h
  split at h
  · cases h
  · split at h
    · cases h
    · cases h
    · next hr =>
      cases h
      exact Source.remaining_read_lt hr

/-- What reading to the end gives: the chunks, the failure that ended them if one did, and the
reader and the source afterwards. -/
structure Drained where
  chunks : List (List Bool)
  failure : Option Failure
  reader : BitReader
  source : Source

/-- **All chunks to the end.** -/
def drain (r : BitReader) (s : Source) : Drained :=
  match _ : r.next s with
  | .error f (r, s) => ⟨[], some f, r, s⟩
  | .ok none (r, s) => ⟨[], none, r, s⟩
  | .ok (some bits) (r, s) =>
    let rest := drain r s
    { rest with chunks := bits :: rest.chunks }
termination_by s.remaining
decreasing_by exact remaining_lt_of_next ‹_›

end BitReader

end PackFormat
