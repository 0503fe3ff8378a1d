import PackFormat.BitReader
import PackFormat.Streams
import PackFormat.Walk

/-!
# Decoding a payload

The bits come in chunks, and so does the output: what the codes that end in a chunk
stand for is written once the chunk is through. The stop code ends the payload,
whatever follows it.

* `Tree.pump`: chunk after chunk.
* `Tree.decode`: a payload from a source into a sink, with the totals kept.
-/

namespace PackFormat

/-- A pass over a payload that nothing interrupted. -/
structure Pass where
  written : Nat
  /-- The bytes got from the source. -/
  received : Nat
  /-- The bytes up to the one that holds the last bit of the stop code, if that came. -/
  consumed : Option Nat
deriving DecidableEq, Repr

/-- A payload that was decoded. -/
structure Decoded where
  /-- The bytes it decoded to. -/
  size : Nat
  /-- The bytes got from the source. -/
  received : Nat
deriving DecidableEq, Repr

namespace Tree

/-- **Chunk after chunk**, until the stop code or the end of the source. A chunk in which the walk
fails writes nothing. -/
def pump (t : Tree) (reader : BitReader) (c : Cursor) (written : Nat) (source : Source)
    (sink : Sink) : EStateM.Result Failure (Source × Sink) Pass :=
  match _ : reader.next source with
  | .error f (_, source) => .error f (source, sink)
  | .ok none (reader, source) => .ok ⟨written, reader.bytesRead, none⟩ (source, sink)
  | .ok (some bits) (reader, source) =>
    match t.scan c #[] 0 bits with
    | ⟨_, _, .failed f⟩ => .error f (source, sink)
    | ⟨symbols, used, .stopped⟩ =>
      match sink.flush symbols with
      | .error f sink => .error f (source, sink)
      | .ok () sink =>
        let consumed := reader.bytesRead - bits.length / 8 + (used + 7) / 8
        .ok ⟨written + symbols.size, reader.bytesRead, some consumed⟩ (source, sink)
    | ⟨symbols, _, .more c⟩ =>
      match sink.flush symbols with
      | .error f sink => .error f (source, sink)
      | .ok () sink => t.pump reader c (written + symbols.size) source sink
termination_by source.remaining
decreasing_by exact BitReader.remaining_lt_of_next ‹_›

/-- What a pass is worth: the stop code has to have come, and after as many bytes as the tree
expects, if it does. -/
def settle (t : Tree) (p : Pass) : Except Failure Decoded :=
  if p.consumed.isNone then .error (.noStop p.written)
  else
    match t.size with
    | none => .ok ⟨p.written, p.received⟩
    | some expected =>
      if expected = p.written then .ok ⟨p.written, p.received⟩
      else .error (.sizeMismatch p.written expected)

/-- **Decodes a payload.** A pass that nothing interrupts is counted whether it settles or not; one
that a failure interrupts is not counted at all. -/
def decode (t : Tree) (chunkSize : Int) : EStateM Failure Streams Decoded := fun s =>
  match BitReader.ofChunkSize? chunkSize with
  | none => .error .chunkSizeNotPositive s
  | some reader =>
    match t.pump reader {} 0 s.source s.sink with
    | .error f (source, sink) => .error f { s with source, sink }
    | .ok p (source, sink) =>
      let s := { s with source, sink }.count (p.consumed.getD p.received) p.written
      match t.settle p with
      | .ok d => .ok d s
      | .error f => .error f s

/-- The tree after a decoded payload, whose size is known from then on. -/
def withSize (t : Tree) (d : Decoded) : Tree := { t with size := some d.size }

/-- **Decodes with a tree that is kept.** Only a decoded payload changes it. -/
def decodeKept (chunkSize : Int) : EStateM Failure (Tree × Streams) Decoded := fun (t, s) =>
  match t.decode chunkSize s with
  | .ok d s => .ok d (t.withSize d, s)
  | .error f s => .error f (t, s)

end Tree

end PackFormat
