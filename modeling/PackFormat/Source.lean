import PackFormat.Failure

/-!
# The byte stream that is read

A source holds its bytes, the position of the next one, and whatever can get in
the way of a read: a bound on what one read gives, a position from which one read
gives nothing, and a position from which every read fails.

* `Source.read`: one read, which may give fewer bytes than asked for, and gives
  none at the end.
* `Source.remaining_read_lt`: a read that gives bytes brings the end nearer, so
  reading until nothing comes terminates.
-/

namespace PackFormat

/-- An error that a stream raises from a position on. -/
structure Fault where
  position : Nat
  error : StreamError
deriving DecidableEq, Repr

/-- **A byte stream to read from.** -/
structure Source where
  data : Array UInt8 := #[]
  pos : Nat := 0
  /-- The most that one read gives. -/
  maxRead : Option Nat := none
  /-- One read from here on gives nothing. -/
  silentAt : Option Nat := none
  /-- Every read from here on fails. -/
  fault : Option Fault := none
  /-- The sizes asked for so far. -/
  requests : Array Nat := #[]

namespace Source

/-- The bytes from the position to the end. -/
def remaining (s : Source) : Nat := s.data.size - s.pos

/-- Where a read of `n` bytes stops, the end of the data apart. -/
def stop (s : Source) (n : Nat) : Nat :=
  [s.maxRead.map (s.pos + ·), s.silentAt, s.fault.map (·.position)].foldl
    (fun stop limit => min stop (limit.getD stop)) (s.pos + n)

/-- **One read of at most `n` bytes.** -/
def read (n : Nat) : EStateM StreamError Source (List UInt8) := fun s =>
  let s := { s with requests := s.requests.push n }
  if s.silentAt.any (· ≤ s.pos) then .ok [] { s with silentAt := none }
  else
    match s.fault.filter (·.position ≤ s.pos) with
    | some fault => .error fault.error s
    | none =>
      let bytes := (s.data.extract s.pos (s.stop n)).toList
      .ok bytes { s with pos := s.pos + bytes.length }

/-- Moves to a position. -/
def seek (s : Source) (pos : Nat) : Source := { s with pos }

/-- More data at the end. -/
def feed (s : Source) (bytes : Array UInt8) : Source := { s with data := s.data ++ bytes }

/-- The fault is gone. -/
def clearFault (s : Source) : Source := { s with fault := none }

/-- **Reading brings the end nearer**: what a read gives, the rest no longer holds. -/
theorem remaining_read {n : Nat} {s s' : Source} {bytes : List UInt8}
    (h : s.read n = .ok bytes s') : s'.remaining + bytes.length = s.remaining := by
  unfold read at h
  dsimp only at h
  split at h
  · obtain ⟨rfl, rfl⟩ := h
    rfl
  · split at h
    · cases h
    · injection h with hb hs
      subst hs
      rw [hb]
      have : bytes.length ≤ s.data.size - s.pos := by
        subst hb
        simp only [Array.length_toList, Array.size_extract]
        omega
      simp only [remaining]
      omega

/-- A read that gives something leaves less. -/
theorem remaining_read_lt {n : Nat} {s s' : Source} {b : UInt8} {bytes : List UInt8}
    (h : s.read n = .ok (b :: bytes) s') : s'.remaining < s.remaining := by
  have := remaining_read h
  rw [List.length_cons] at this
  omega

end Source

end PackFormat
