import PackFormat.Proofs.Unpack

/-!
# A bit reader in use

Chunks are asked for one at a time, and between two of them the source may get more data,
its fault may go, and the chunks may be begun anew. A reader counts what it hands out and
nothing else, so whatever happens to it, the chunks it has given are the bits between the
place where it started and the source's position.

* `BitReader.next_of_some`, `BitReader.next_of_none`, `BitReader.next_of_error`: what
  asking for a chunk can do.
* `BitReader.drain_eq_upcoming`: all chunks of a source that does not fail.
* `Reading.Faithful`: what each step keeps.
* `reading_faithful`: **nothing is lost and nothing repeated**, in any order of steps.
-/

namespace PackFormat

namespace BitReader

variable {r r' : BitReader} {s s' : Source}

/-- **A chunk is what one read gave.** -/
theorem next_of_some {bits : List Bool} (h : r.next s = .ok (some bits) (r', s')) :
    ∃ bytes, bytes ≠ [] ∧ bits = bitsOf bytes ∧ r' = r.past bytes.length ∧
      s.read r.chunkSize = .ok bytes s' := by
  unfold next at h
  split at h
  · cases h
  split at h
  · cases h
  · cases h
  · rename_i b bytes s₁ hread
    cases h
    exact ⟨b :: bytes, List.cons_ne_nil _ _, rfl, rfl, hread⟩

/-- **No chunk is a read that gave nothing**; once there was one, there are no reads. -/
theorem next_of_none (h : r.next s = .ok none (r', s')) :
    (r.ended = true ∧ r' = r ∧ s' = s) ∨
      (r.ended = false ∧ r' = { r with ended := true } ∧ s.read r.chunkSize = .ok [] s') := by
  unfold next at h
  split at h
  · rename_i hended
    cases h
    exact Or.inl ⟨hended, rfl, rfl⟩
  rename_i hended
  split at h
  · cases h
  · rename_i s₁ hread
    cases h
    exact Or.inr ⟨(Bool.not_eq_true _).mp hended, rfl, hread⟩
  · cases h

/-- **A failure is that of a read.** -/
theorem next_of_error {f : Failure} (h : r.next s = .error f (r', s')) :
    r' = { r with ended := true } ∧
      ∃ e, f = .ofRead "packed payload" e ∧ s.read r.chunkSize = .error e s' := by
  unfold next at h
  split at h
  · cases h
  split at h
  · rename_i e s₁ hread
    cases h
    exact ⟨rfl, e, rfl, hread⟩
  · cases h
  · cases h

/-- A reader that has ended reads no more. -/
theorem next_of_ended (h : r.ended = true) (s : Source) : r.next s = .ok none (r, s) := if_pos h

/-- **An end or a failure moves nothing.** -/
theorem still_of_next (h : ∀ bits, outcome (r.next s) ≠ .ok (some bits)) :
    (final (r.next s)).2.pos = s.pos ∧ (final (r.next s)).1 = { r with ended := true } := by
  rcases hnext : r.next s with ⟨_ | bits, r₁, s₁⟩ | ⟨f, r₁, s₁⟩
  · rcases next_of_none hnext with ⟨hended, rfl, rfl⟩ | ⟨-, rfl, hread⟩
    · refine ⟨rfl, ?_⟩
      rw [← hended]
      rfl
    · exact ⟨(Source.gave_of_read hread).pos, rfl⟩
  · rw [hnext] at h
    exact absurd rfl (h bits)
  · obtain ⟨rfl, e, -, hread⟩ := next_of_error hnext
    obtain ⟨-, rfl⟩ := Source.read_of_error hread
    exact ⟨rfl, rfl⟩

theorem drain_eq (r : BitReader) (s : Source) :
    r.drain s =
      match r.next s with
      | .error f (r, s) => ⟨[], some f, r, s⟩
      | .ok none (r, s) => ⟨[], none, r, s⟩
      | .ok (some bits) (r, s) => { r.drain s with chunks := bits :: (r.drain s).chunks } := by
  rw [drain]
  split
  · rename_i hnext; rw [hnext]
  · rename_i hnext; rw [hnext]
  · rename_i hnext; rw [hnext]

/-- **All chunks together are the bits to come**, from a source that does not fail. -/
theorem drain_eq_upcoming (hr : r.ended = false) (hs : s.Clean) :
    (r.drain s).chunks.flatten = bitsOf s.upcoming ∧ (r.drain s).failure = none ∧
      (r.drain s).reader.bytesRead = r.bytesRead + s.upcoming.length := by
  -- each chunk shortens what is to come by what a read grants
  induction hn : s.upcoming.length using Nat.strong_induction_on generalizing r s with
  | h n ih =>
    rw [← hn]
    by_cases ha : s.upcoming = []
    · obtain ⟨s₁, hnext⟩ := next_of_used_up hr ha
      rw [hs.haltError] at hnext
      rw [drain_eq, hnext, ha]
      exact ⟨rfl, rfl, rfl⟩
    have hg := Source.grant_pos hs.maxRead r.chunkSize_pos
    have hpos := List.length_pos_iff.2 ha
    obtain ⟨s₁, hnext, hp⟩ := next_of_upcoming hr ha hs.maxRead
    have hrest := hp.upcoming_take
    have hlen : s₁.upcoming.length = s.upcoming.length - s.grant r.chunkSize := by
      rw [hrest, List.length_drop]
    have htake : (s.upcoming.take (s.grant r.chunkSize)).length =
        min (s.grant r.chunkSize) s.upcoming.length := List.length_take
    obtain ⟨hchunks, hfailure, hread⟩ := ih s₁.upcoming.length (by omega)
      (r := r.past (s.upcoming.take (s.grant r.chunkSize)).length) hr (hp.clean hs) rfl
    rw [drain_eq, hnext]
    refine ⟨?_, hfailure, ?_⟩
    · rw [List.flatten_cons, hchunks, hrest, ← bitsOf_append, List.take_append_drop]
    · simp only at hread ⊢
      rw [hread, hlen, past]
      simp only
      omega

end BitReader

/-- What may happen while a reader is in use. -/
inductive Move
  /-- A chunk is asked for. -/
  | next
  /-- The chunks are begun anew. -/
  | restart
  /-- The source gets more data. -/
  | feed (bytes : Array UInt8)
  /-- The source fails no longer. -/
  | clearFault
deriving DecidableEq, Repr

/-- A reader in use. -/
structure Reading where
  reader : BitReader
  source : Source
  /-- The chunks given so far. -/
  chunks : List (List Bool) := []

namespace Reading

/-- One step. -/
def move (x : Reading) : Move → Reading
  | .next =>
    match x.reader.next x.source with
    | .ok (some bits) (reader, source) => ⟨reader, source, x.chunks ++ [bits]⟩
    | .ok none (reader, source) => ⟨reader, source, x.chunks⟩
    | .error _ (reader, source) => ⟨reader, source, x.chunks⟩
  | .restart => { x with reader := x.reader.restart }
  | .feed bytes => { x with source := x.source.feed bytes }
  | .clearFault => { x with source := x.source.clearFault }

/-- Some steps, one after the other. -/
def run (x : Reading) (moves : List Move) : Reading := moves.foldl move x

/-- **The chunks given are the bits of `bytes`**, which stand in the source from where the reader
started up to the source's position. -/
structure Faithful (x : Reading) (size start : ℕ) (bytes : List UInt8) : Prop where
  chunkSize : x.reader.chunkSize = size
  front : bytes <+: x.source.data.toList.drop start
  pos : x.source.pos = start + bytes.length
  count : x.reader.bytesRead = bytes.length
  bits : x.chunks.flatten = bitsOf bytes
  lengths : ∀ chunk ∈ x.chunks, ∃ n, 1 ≤ n ∧ n ≤ size ∧ chunk.length = 8 * n

variable {x : Reading} {size start : ℕ} {bytes : List UInt8}

/-- A chunk that is asked for brings what the read gives, or nothing. -/
theorem Faithful.next (h : x.Faithful size start bytes) :
    ∃ more, (x.move .next).Faithful size start (bytes ++ more) := by
  unfold move
  simp only
  rcases hnext : x.reader.next x.source with ⟨_ | bits, r₁, s₁⟩ | ⟨f, r₁, s₁⟩
  · refine ⟨[], ?_⟩
    rw [List.append_nil]
    rcases BitReader.next_of_none hnext with ⟨-, rfl, rfl⟩ | ⟨-, rfl, hread⟩
    · exact h
    · have hgave := Source.gave_of_read hread
      exact ⟨h.chunkSize, hgave.data ▸ h.front, hgave.pos.trans h.pos, h.count, h.bits, h.lengths⟩
  · obtain ⟨more, hne, rfl, rfl, hread⟩ := BitReader.next_of_some hnext
    have hle := (Source.read_of_ok hread).1
    have hgave := Source.gave_of_read hread
    rw [h.chunkSize] at hle
    refine ⟨more, h.chunkSize, ?_, ?_, ?_, ?_, ?_⟩
    · -- the read went on behind the bytes of the chunks before
      obtain ⟨rest, hrest⟩ := h.front
      have hbehind := hgave.front
      rw [h.pos, ← List.drop_drop, ← hrest, List.drop_left] at hbehind
      rw [hgave.data, ← hrest]
      exact (List.prefix_append_right_inj bytes).2 hbehind
    · rw [hgave.pos, h.pos, List.length_append, Nat.add_assoc]
    · rw [BitReader.past, h.count, List.length_append]
    · rw [List.flatten_append, h.bits, List.flatten_singleton, bitsOf_append]
    · intro chunk hchunk
      rcases List.mem_append.1 hchunk with hchunk | hchunk
      · exact h.lengths chunk hchunk
      · rw [List.mem_singleton.1 hchunk]
        exact ⟨more.length, List.length_pos_iff.2 hne, hle, length_bitsOf more⟩
  · refine ⟨[], ?_⟩
    rw [List.append_nil]
    obtain ⟨rfl, e, -, hread⟩ := BitReader.next_of_error hnext
    obtain ⟨-, rfl⟩ := Source.read_of_error hread
    exact ⟨h.chunkSize, h.front, h.pos, h.count, h.bits, h.lengths⟩

/-- **Each step keeps faith.** -/
theorem Faithful.move (h : x.Faithful size start bytes) (m : Move) :
    ∃ more, (x.move m).Faithful size start (bytes ++ more) := by
  cases m with
  | next => exact h.next
  | restart =>
    refine ⟨[], ?_⟩
    rw [List.append_nil]
    exact ⟨h.chunkSize, h.front, h.pos, h.count, h.bits, h.lengths⟩
  | feed data =>
    refine ⟨[], h.chunkSize, ?_, ?_, ?_, ?_, h.lengths⟩
    · rw [List.append_nil]
      refine h.front.trans ?_
      change _ <+: (x.source.data ++ data).toList.drop start
      rw [Array.toList_append, List.drop_append]
      exact List.prefix_append _ _
    · rw [List.append_nil]; exact h.pos
    · rw [List.append_nil]; exact h.count
    · rw [List.append_nil]; exact h.bits
  | clearFault =>
    refine ⟨[], ?_⟩
    rw [List.append_nil]
    exact ⟨h.chunkSize, h.front, h.pos, h.count, h.bits, h.lengths⟩

/-- **So do any steps.** -/
theorem Faithful.run (h : x.Faithful size start bytes) (moves : List Move) :
    ∃ more, (x.run moves).Faithful size start (bytes ++ more) := by
  induction moves generalizing x bytes with
  | nil => exact ⟨[], by rw [List.append_nil]; exact h⟩
  | cons m moves ih =>
    obtain ⟨first, hfirst⟩ := h.move m
    obtain ⟨rest, hrest⟩ := ih hfirst
    exact ⟨first ++ rest, by rw [← List.append_assoc]; exact hrest⟩

/-- A reader that starts has given nothing. -/
theorem faithful_start {reader : BitReader} (hsize : reader.chunkSize = size)
    (hzero : reader.bytesRead = 0) (source : Source) :
    Faithful ⟨reader, source, []⟩ size source.pos [] :=
  ⟨hsize, List.nil_prefix, rfl, hzero, rfl, fun _ hchunk => absurd hchunk List.not_mem_nil⟩

/-- **Once the chunks have come to an end**, there are no reads and no chunks until they are begun
anew. -/
theorem run_of_ended (h : x.reader.ended = true) {moves : List Move} (hmoves : .restart ∉ moves) :
    (x.run moves).reader = x.reader ∧ (x.run moves).chunks = x.chunks ∧
      (x.run moves).source.requests = x.source.requests := by
  induction moves generalizing x with
  | nil => exact ⟨rfl, rfl, rfl⟩
  | cons m moves ih =>
    obtain ⟨hm, hmoves⟩ := not_or.1 (mt List.mem_cons.2 hmoves)
    have hstill : (x.move m).reader = x.reader ∧ (x.move m).chunks = x.chunks ∧
        (x.move m).source.requests = x.source.requests := by
      cases m with
      | next =>
        unfold move
        simp only
        rw [BitReader.next_of_ended h]
        exact ⟨rfl, rfl, rfl⟩
      | restart => exact absurd rfl hm
      | feed data => exact ⟨rfl, rfl, rfl⟩
      | clearFault => exact ⟨rfl, rfl, rfl⟩
    obtain ⟨hreader, hchunks, hrequests⟩ := ih (x := x.move m) (hstill.1 ▸ h) hmoves
    exact ⟨hreader.trans hstill.1, hchunks.trans hstill.2.1, hrequests.trans hstill.2.2⟩

/-- What a step without a chunk leaves. -/
theorem move_next_of_no_chunk (h : ∀ bits, outcome (x.reader.next x.source) ≠ .ok (some bits)) :
    x.move .next = ⟨(final (x.reader.next x.source)).1, (final (x.reader.next x.source)).2, x.chunks⟩ := by
  unfold move
  simp only
  rcases hnext : x.reader.next x.source with ⟨_ | bits, r₁, s₁⟩ | ⟨f, r₁, s₁⟩
  · rfl
  · rw [hnext] at h
    exact absurd rfl (h bits)
  · rfl

end Reading

/-- **Nothing is lost and nothing repeated.** After any steps, the chunks that a reader has given are the
bits of the data between its start and the source's position, its count is the distance, and each
chunk has some bytes, as many as were asked for at most. A step that gives no chunk, because the bytes
end or the source fails, moves neither; and from then on nothing is read until the chunks are begun
anew. -/
theorem reading_faithful {k : ℤ} (hk : 1 ≤ k) (source : Source) (moves : List Move) :
    ∃ reader, BitReader.ofChunkSize? k = some reader ∧
      let x := Reading.run ⟨reader, source, []⟩ moves
      x.chunks.flatten = bitsOf (x.source.data.extract source.pos x.source.pos).toList ∧
        x.source.pos = source.pos + x.reader.bytesRead ∧
        (∀ chunk ∈ x.chunks, 0 < chunk.length ∧ 8 ∣ chunk.length ∧ (chunk.length : ℤ) ≤ 8 * k) ∧
        ((∀ bits, outcome (x.reader.next x.source) ≠ .ok (some bits)) →
          let y := x.move .next
          y.source.pos = x.source.pos ∧ y.reader.bytesRead = x.reader.bytesRead ∧
            ∀ later, .restart ∉ later →
              (y.run later).source.requests = y.source.requests ∧ (y.run later).chunks = y.chunks ∧
                outcome ((y.run later).reader.next (y.run later).source) = .ok none) := by
  obtain ⟨reader, hreader, hsize, hzero, -⟩ := Tree.ofChunkSize?_of_pos hk
  refine ⟨reader, hreader, ?_⟩
  intro x
  obtain ⟨bytes, hx⟩ := (Reading.faithful_start hsize hzero source).run moves
  rw [List.nil_append] at hx
  have hbytes := List.prefix_iff_eq_take.1 hx.front
  have hextract : (x.source.data.extract source.pos x.source.pos).toList = bytes := by
    rw [Array.toList_extract, List.extract_eq_take_drop, hx.pos, Nat.add_sub_cancel_left, ← hbytes]
  refine ⟨by rw [hextract]; exact hx.bits, by rw [hx.count]; exact hx.pos, ?_, ?_⟩
  · intro chunk hchunk
    obtain ⟨n, hpos, hle, hlen⟩ := hx.lengths chunk hchunk
    exact ⟨by omega, ⟨n, hlen⟩, by omega⟩
  · intro hnone y
    obtain ⟨hpos, hreader⟩ := BitReader.still_of_next hnone
    have hy : y = ⟨_, _, x.chunks⟩ := Reading.move_next_of_no_chunk hnone
    have hended : y.reader.ended = true := by rw [hy]; simp only; rw [hreader]
    refine ⟨by rw [hy]; exact hpos, by rw [hy]; simp only; rw [hreader], ?_⟩
    intro later hlater
    obtain ⟨hkept, hchunks, hrequests⟩ := Reading.run_of_ended hended hlater
    refine ⟨hrequests, hchunks, ?_⟩
    rw [BitReader.next_of_ended (hkept ▸ hended)]
    rfl

/-- A byte, a failure, a call in vain, and two bytes of which one came later. -/
theorem reading_faithful_after_failure :
    let source : Source := { data := #[0x00, 0xa5, 0x0f], pos := 1,
                             fault := some ⟨2, .system ⟨some 5, "gone"⟩⟩ }
    let moves := [Move.next, .next, .clearFault, .next, .restart, .feed #[0x3c], .next]
    (1 : ℤ) ≤ 2 ∧ ∃ reader, BitReader.ofChunkSize? 2 = some reader ∧
      (Reading.run ⟨reader, source, []⟩ moves).chunks.flatten = bitsOf [0xa5, 0x0f, 0x3c] ∧
      (Reading.run ⟨reader, source, []⟩ moves).source.pos = 4 ∧
      (Reading.run ⟨reader, source, []⟩ moves).reader.bytesRead = 3 := by
  intro source moves
  have hk : (1 : ℤ) ≤ 2 := by decide
  obtain ⟨reader, hreader, hbits, hpos, -⟩ := reading_faithful hk source moves
  have hend : (Reading.run ⟨reader, source, []⟩ moves).source.pos = 4 := by
    cases hreader
    decide
  have hdata : (Reading.run ⟨reader, source, []⟩ moves).source.data = #[0x00, 0xa5, 0x0f, 0x3c] := by
    cases hreader
    decide
  rw [hend, hdata] at hbits
  rw [hend] at hpos
  exact ⟨hk, reader, hreader, hbits, hend, (Nat.add_left_cancel hpos).symm⟩

end PackFormat
