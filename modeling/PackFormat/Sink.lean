import PackFormat.Source

/-!
# The byte stream that is written

A sink keeps what it was given and may fail: a write that would take the total
past the fault's position raises and leaves nothing behind.
-/

namespace PackFormat

/-- **A byte stream to write to.** -/
structure Sink where
  written : Array UInt8 := #[]
  fault : Option Fault := none
  /-- The sizes of the writes so far, refused ones included. -/
  writes : Array Nat := #[]

namespace Sink

/-- **One write**, all or nothing. -/
def write (bytes : List UInt8) : EStateM StreamError Sink Unit := fun s =>
  let s := { s with writes := s.writes.push bytes.length }
  match s.fault.filter (·.position < s.written.size + bytes.length) with
  | some fault => .error fault.error s
  | none => .ok () { s with written := s.written ++ bytes }

/-- Writes decoded bytes, unless there are none. -/
def flush (bytes : Array UInt8) : EStateM Failure Sink Unit := fun s =>
  if bytes.isEmpty then .ok () s
  else
    match s.write bytes.toList with
    | .ok () s => .ok () s
    | .error e s => .error (.ofWrite e) s

/-- The fault is gone. -/
def clearFault (s : Sink) : Sink := { s with fault := none }

end Sink

end PackFormat
