import PackFormat.Sink

/-!
# What decoding works on

A source, a sink, and totals that run over several payloads, if anybody asks for
them.
-/

namespace PackFormat

/-- Running totals that a caller may keep. -/
structure Stats where
  bytesIn : Int := 0
  bytesOut : Int := 0
deriving DecidableEq, Repr

/-- What decoding works on. -/
structure Streams where
  source : Source := {}
  sink : Sink := {}
  /-- The totals, if the caller keeps any. -/
  stats : Option Stats := none

/-- Adds to the totals. -/
def Streams.count (s : Streams) (bytesIn bytesOut : Int) : Streams :=
  { s with stats := s.stats.map fun t => ⟨t.bytesIn + bytesIn, t.bytesOut + bytesOut⟩ }

/-- Reads from the source of some streams. -/
def fromSource {α : Type} (read : EStateM Failure Source α) : EStateM Failure Streams α :=
  fun s =>
    match read s.source with
    | .ok a source => .ok a { s with source }
    | .error f source => .error f { s with source }

end PackFormat
