import PackFormat.Proofs.Accounting

/-!
# A sink that runs out of room

A sink may have room for some number of bytes and refuse every write past them. As long
as all goes in, nothing tells it from a sink that does not fail. Once it refuses, the pass
is over: whole chunks have been written, as many as there was room for, and the pass is
not counted.

* `Tree.Stalls`: what a pass that is refused has written.
* `Tree.pump_room`: **a pass into limited room**, beside the same pass into a sink that does
  not fail.
* `unpack_room`: **unpacking into limited room.**
-/

namespace PackFormat

/-- The same sink, with room for `q` bytes in all. -/
def Sink.room (k : Sink) (q : ℕ) (e : StreamError) : Sink := { k with fault := some ⟨q, e⟩ }

/-- The same streams, with room for `q` bytes in all. -/
def Streams.room (s : Streams) (q : ℕ) (e : StreamError) : Streams :=
  { s with sink := s.sink.room q e }

namespace Sink

variable {k k₁ : Sink} {q : ℕ} {e : StreamError} {bytes : Array UInt8}

/-- What there is room for is written. -/
theorem flush_room_of_le (hk : k.fault = none) (h : k.flush bytes = .ok () k₁)
    (hle : k₁.written.size ≤ q) : (k.room q e).flush bytes = .ok () (k₁.room q e) := by
  rw [flush_written h, Array.size_append] at hle
  have hfits : (k.room q e).fault.filter (·.position < k.written.size + bytes.toList.length) =
      none := by
    simp [room, Option.filter, hle]
  unfold flush write at h ⊢
  simp only [hk, Option.filter_none] at h
  simp only
  rw [show (k.room q e).written = k.written from rfl, hfits]
  split at h
  · rename_i hempty
    rw [if_pos hempty]
    cases h
    rfl
  · rename_i hsome
    rw [if_neg hsome]
    cases h
    rfl

/-- What there is no room for leaves nothing behind. -/
theorem flush_room_of_lt (hq : k.written.size ≤ q) (hlt : q < k.written.size + bytes.size) :
    ∃ k₁, (k.room q e).flush bytes = .error (.ofWrite e) k₁ ∧ k₁.written = k.written := by
  have hsome : ¬bytes.isEmpty = true := by
    intro hempty
    rw [Array.isEmpty_iff.1 hempty, Array.size_empty] at hlt
    omega
  have hfault : (k.room q e).fault.filter (·.position < k.written.size + bytes.toList.length) =
      some ⟨q, e⟩ := by
    simp [room, Option.filter, hlt]
  unfold flush write
  rw [if_neg hsome]
  simp only
  rw [show (k.room q e).written = k.written from rfl, hfault]
  exact ⟨_, rfl, rfl⟩

end Sink

namespace Tree

/-- **What a pass that stalls has written**: what the walk over its first chunks of `g` bytes gives.
There is room for that, but not for what the next chunk gives. -/
structure Stalls (t : Tree) (c : Cursor) (g q : ℕ) (payload : List UInt8) (sink sink' : Sink) :
    Prop where
  size_le : sink'.written.size ≤ q
  chunks : ∃ j,
    sink'.written =
        sink.written ++ (t.scan c #[] 0 (bitsOf (payload.take (j * g)))).symbols ∧
      q < sink.written.size + (t.scan c #[] 0 (bitsOf (payload.take ((j + 1) * g)))).symbols.size

variable {t : Tree} {reader reader₁ : BitReader} {c c₁ : Cursor} {written used g q : ℕ}
  {source source₁ : Source} {sink sink₁ sink' : Sink} {symbols : Array UInt8}
  {payload : List UInt8} {e : StreamError} {f : Failure}

/-- A pass that stalls in its first chunk. -/
theorem stalls_of_lt (hq : sink.written.size ≤ q)
    (hlt : q < sink.written.size + (t.scan c #[] 0 (bitsOf (payload.take g))).symbols.size)
    (h : sink'.written = sink.written) : t.Stalls c g q payload sink sink' := by
  refine ⟨by rw [h]; exact hq, 0, ?_, ?_⟩
  · rw [h, Nat.zero_mul, List.take_zero]
    exact (Array.append_empty).symm
  · rwa [Nat.zero_add, Nat.one_mul]

/-- The walk over one chunk and some more, when it comes through the one. -/
theorem symbols_scan_chunks
    (hscan : t.scan c #[] 0 (bitsOf (payload.take g)) = ⟨symbols, used, .more c₁⟩) (j : ℕ) :
    (t.scan c #[] 0 (bitsOf (payload.take ((j + 1) * g)))).symbols =
      symbols ++ (t.scan c₁ #[] 0 (bitsOf ((payload.drop g).take (j * g)))).symbols := by
  rw [Nat.succ_mul, Nat.add_comm, List.take_add, bitsOf_append, scan_append, hscan]
  simp only
  rw [scan_eq]

/-- **A pass that stalls behind a chunk** that the walk comes through. -/
theorem Stalls.cons (hscan : t.scan c #[] 0 (bitsOf (payload.take g)) = ⟨symbols, used, .more c₁⟩)
    (hsink : sink₁.written = sink.written ++ symbols)
    (h : t.Stalls c₁ g q (payload.drop g) sink₁ sink') : t.Stalls c g q payload sink sink' := by
  obtain ⟨j, hwritten, hlt⟩ := h.chunks
  refine ⟨h.size_le, j + 1, ?_, ?_⟩
  · rw [hwritten, hsink, symbols_scan_chunks hscan, Array.append_assoc]
  · rw [symbols_scan_chunks hscan, Array.size_append]
    rw [hsink, Array.size_append] at hlt
    omega

/-- **The same end**, but for the room in the sink. -/
def SameEnd (q : ℕ) (e : StreamError) (r r' : EStateM.Result Failure (Source × Sink) Pass) : Prop :=
  outcome r' = outcome r ∧ final r' = ((final r).1, (final r).2.room q e)

/-- A pass into a sink that does not fail only adds to what is written. -/
theorem written_of_pump (hr : reader.ended = false) (hm : source.maxRead ≠ some 0)
    (hk : sink.fault = none) (c : Cursor) (written : ℕ) :
    sink.written.toList <+: (final (t.pump reader c written source sink)).2.written.toList := by
  obtain ⟨source', sink', hpump⟩ := t.pumped hr hm hk c written
  suffices (final (t.pump reader c written source sink)).2 = sink' ∧
      ∃ bytes, sink'.written.toList = sink.written.toList ++ bytes by
    obtain ⟨hfinal, bytes, hwritten⟩ := this
    rw [hfinal, hwritten]
    exact List.prefix_append _ _
  split at hpump
  · obtain ⟨hpump, hwritten⟩ := hpump
    rw [hpump, hwritten, Array.toList_append]
    refine ⟨?_, _, rfl⟩
    cases source.haltError <;> rfl
  · obtain ⟨⟨received, hpump⟩, hwritten⟩ := hpump
    rw [hpump, hwritten, Array.toList_append]
    exact ⟨rfl, _, rfl⟩
  · obtain ⟨hpump, hwritten⟩ := hpump
    rw [hpump, hwritten, Array.toList_appendList]
    exact ⟨rfl, _, rfl⟩

/-- **How a pass into limited room ends**: as it does without the limit, if all goes in; otherwise
it stalls, and what it has written is a first part of what it writes without the limit. -/
structure Confined (t : Tree) (reader : BitReader) (c : Cursor) (written : ℕ) (source : Source)
    (sink : Sink) (q : ℕ) (e : StreamError) : Prop where
  same : (final (t.pump reader c written source sink)).2.written.size ≤ q →
    SameEnd q e (t.pump reader c written source sink)
      (t.pump reader c written source (sink.room q e))
  stalls : q < (final (t.pump reader c written source sink)).2.written.size →
    ∃ source' sink',
      t.pump reader c written source (sink.room q e) = .error (.ofWrite e) (source', sink') ∧
        sink'.written.toList <+: (final (t.pump reader c written source sink)).2.written.toList ∧
        t.Stalls c (source.grant reader.chunkSize) q source.upcoming sink sink'

/-- A pass that ends without another write is not confined. -/
theorem confined_of_sameEnd (hq : sink.written.size ≤ q)
    (hsink : (final (t.pump reader c written source sink)).2.written = sink.written)
    (h : SameEnd q e (t.pump reader c written source sink)
      (t.pump reader c written source (sink.room q e))) :
    t.Confined reader c written source sink q e := by
  refine ⟨fun _ => h, fun hlt => ?_⟩
  rw [hsink] at hlt
  omega

section Chunk

/-- Nothing is written once the bytes are used up. -/
theorem confined_of_used_up (hr : reader.ended = false) (ha : source.upcoming = [])
    (hq : sink.written.size ≤ q) : t.Confined reader c written source sink q e := by
  obtain ⟨source', hnext⟩ := BitReader.next_of_used_up hr ha
  cases hhalt : source.haltError with
  | none =>
    rw [hhalt] at hnext
    have hpump : ∀ sink : Sink, t.pump reader c written source sink = .ok _ (source', sink) :=
      fun _ => pump_of_next_none hnext
    apply confined_of_sameEnd hq
    · rw [hpump]; rfl
    · rw [hpump, hpump]; exact ⟨rfl, rfl⟩
  | some f =>
    rw [hhalt] at hnext
    have hpump : ∀ sink : Sink, t.pump reader c written source sink = .error _ (source', sink) :=
      fun _ => pump_of_next_error hnext
    apply confined_of_sameEnd hq
    · rw [hpump]; rfl
    · rw [hpump, hpump]; exact ⟨rfl, rfl⟩

variable (hg : g = source.grant reader.chunkSize)
  (hnext : reader.next source = .ok (some (bitsOf (source.upcoming.take g))) (reader₁, source₁))

include hnext

/-- Nor is the chunk that the walk fails in. -/
theorem confined_of_failed (hq : sink.written.size ≤ q)
    (hscan : t.scan c #[] 0 (bitsOf (source.upcoming.take g)) = ⟨symbols, used, .failed f⟩) :
    t.Confined reader c written source sink q e := by
  have hpump : ∀ sink : Sink, t.pump reader c written source sink = .error f (source₁, sink) :=
    fun _ => pump_of_failed hnext hscan
  apply confined_of_sameEnd hq
  · rw [hpump]; rfl
  · rw [hpump, hpump]; exact ⟨rfl, rfl⟩

/-- The chunk with the stop code, when there is room for it. -/
theorem confined_of_stopped (hk : sink.fault = none)
    (hscan : t.scan c #[] 0 (bitsOf (source.upcoming.take g)) = ⟨symbols, used, .stopped⟩)
    (hflush : sink.flush symbols = .ok () sink₁) (hle : sink₁.written.size ≤ q) :
    t.Confined reader c written source sink q e := by
  have hflush' : (sink.room q e).flush symbols = .ok () (sink₁.room q e) :=
    Sink.flush_room_of_le hk hflush hle
  refine ⟨?_, ?_⟩
  · rw [pump_of_stopped hnext hscan hflush, pump_of_stopped hnext hscan hflush']
    exact fun _ => ⟨rfl, rfl⟩
  · rw [pump_of_stopped hnext hscan hflush]
    exact fun hlt => absurd hle (not_le.2 hlt)

include hg

/-- **A chunk that there is no room for** stalls the pass, and is not written. -/
theorem confined_of_full
    (hscan : ∀ f, (t.scan c #[] 0 (bitsOf (source.upcoming.take g))).ending ≠ .failed f)
    (hq : sink.written.size ≤ q)
    (hlt : q < sink.written.size +
      (t.scan c #[] 0 (bitsOf (source.upcoming.take g))).symbols.size)
    (hgood : (sink.written ++
        (t.scan c #[] 0 (bitsOf (source.upcoming.take g))).symbols).toList <+:
      (final (t.pump reader c written source sink)).2.written.toList) :
    t.Confined reader c written source sink q e := by
  obtain ⟨sink', hflush, hwritten⟩ := Sink.flush_room_of_lt (e := e) hq hlt
  have hsize := hgood.length_le
  rw [Array.length_toList, Array.length_toList, Array.size_append] at hsize
  have hstalls := stalls_of_lt hq hlt hwritten
  rw [hg] at hstalls
  refine ⟨fun hle => by omega, fun _ => ?_⟩
  refine ⟨source₁, sink', pump_of_flush_error hnext hscan hflush, ?_, hstalls⟩
  rw [Array.toList_append] at hgood
  rw [hwritten]
  exact (List.prefix_append _ _).trans hgood

/-- **Behind a chunk that there is room for**, the pass goes on as if from the start. -/
theorem confined_of_more (hk : sink.fault = none)
    (hp : source.Past (source.upcoming.take g).length source₁)
    (hsize : reader₁.chunkSize = reader.chunkSize)
    (hscan : t.scan c #[] 0 (bitsOf (source.upcoming.take g)) = ⟨symbols, used, .more c₁⟩)
    (hflush : sink.flush symbols = .ok () sink₁) (hle : sink₁.written.size ≤ q)
    (hrest : t.Confined reader₁ c₁ (written + symbols.size) source₁ sink₁ q e) :
    t.Confined reader c written source sink q e := by
  have hflush' : (sink.room q e).flush symbols = .ok () (sink₁.room q e) :=
    Sink.flush_room_of_le hk hflush hle
  have hgrant : source₁.grant reader₁.chunkSize = g := by
    rw [hsize, hp.grant, hg]
  refine ⟨?_, ?_⟩
  · rw [pump_of_more hnext hscan hflush, pump_of_more hnext hscan hflush']
    exact hrest.same
  · rw [pump_of_more hnext hscan hflush, pump_of_more hnext hscan hflush']
    intro hlt
    obtain ⟨source', sink', hrun, hfront, hstalls⟩ := hrest.stalls hlt
    rw [hgrant, hp.upcoming_take] at hstalls
    have hwhole := hstalls.cons hscan (Sink.flush_written hflush)
    rw [hg] at hwhole
    exact ⟨source', sink', hrun, hfront, hwhole⟩

end Chunk

/-- **Any pass into limited room** ends so. -/
theorem pump_room (t : Tree) (hr : reader.ended = false) (hm : source.maxRead ≠ some 0)
    (hk : sink.fault = none) (hq : sink.written.size ≤ q) (c : Cursor) (written : ℕ)
    (e : StreamError) : t.Confined reader c written source sink q e := by
  -- each chunk shortens what is to come by what a read grants
  induction hn : source.upcoming.length using Nat.strong_induction_on
    generalizing reader source sink c written with
  | h n ih =>
    by_cases ha : source.upcoming = []
    · exact confined_of_used_up hr ha hq
    have hpos := List.length_pos_iff.2 ha
    have hg := Source.grant_pos hm reader.chunkSize_pos
    obtain ⟨source₁, hnext, hp⟩ := BitReader.next_of_upcoming hr ha hm
    have hr₁ : ∀ n, (reader.past n).ended = false := fun _ => hr
    have hshorter : source₁.upcoming.length < n := by
      rw [hp.upcoming_take, List.length_drop]; omega
    generalize hgrant : source.grant reader.chunkSize = g at *
    rcases hscan : t.scan c #[] 0 (bitsOf (source.upcoming.take g)) with
      ⟨symbols, used, c₁ | _ | f⟩
    · obtain ⟨sink₁, hflush, hk₁, hwritten⟩ := Sink.flush_ok hk symbols
      rcases Nat.lt_or_ge q sink₁.written.size with hlt | hle
      · apply confined_of_full hgrant.symm hnext (by rw [hscan]; simp) hq
        · rw [hscan, ← Array.size_append, ← hwritten]
          exact hlt
        · rw [hscan, pump_of_more hnext hscan hflush, ← hwritten]
          exact written_of_pump (hr₁ _) (hp.maxRead ▸ hm) hk₁ _ _
      · refine confined_of_more hgrant.symm hnext hk hp rfl hscan hflush hle ?_
        exact ih _ hshorter (hr₁ _) (hp.maxRead ▸ hm) hk₁ hle c₁ _ rfl
    · obtain ⟨sink₁, hflush, -, hwritten⟩ := Sink.flush_ok hk symbols
      rcases Nat.lt_or_ge q sink₁.written.size with hlt | hle
      · apply confined_of_full hgrant.symm hnext (by rw [hscan]; simp) hq
        · rw [hscan, ← Array.size_append, ← hwritten]
          exact hlt
        · rw [hscan, pump_of_stopped hnext hscan hflush, ← hwritten]
          exact List.prefix_rfl
      · exact confined_of_stopped hnext hk hscan hflush hle
    · exact confined_of_failed hnext hq hscan

section Decode

variable {s : Streams} {k : ℤ}

/-- Passes that end the same are worth the same. -/
theorem decode_of_sameEnd (hr : BitReader.ofChunkSize? k = some reader)
    (h : SameEnd q e (t.pump reader {} 0 s.source s.sink)
      (t.pump reader {} 0 s.source (s.sink.room q e))) :
    outcome (t.decode k (s.room q e)) = outcome (t.decode k s) ∧
      final (t.decode k (s.room q e)) = (final (t.decode k s)).room q e := by
  obtain ⟨hout, hfinal⟩ := h
  rcases hgood : t.pump reader {} 0 s.source s.sink with ⟨p, source', sink'⟩ | ⟨f, source', sink'⟩
  · rw [hgood] at hout hfinal
    have htight := eq_ok_of_outcome hout
    rw [hfinal] at htight
    obtain ⟨ho, hf⟩ := decode_of_pump_ok hr hgood
    obtain ⟨ho', hf'⟩ := decode_of_pump_ok (s := s.room q e) hr htight
    rw [ho, hf, ho', hf']
    exact ⟨rfl, rfl⟩
  · rw [hgood] at hout hfinal
    have htight := eq_error_of_outcome hout
    rw [hfinal] at htight
    rw [decode_of_pump_error hr hgood, decode_of_pump_error (s := s.room q e) hr htight]
    exact ⟨rfl, rfl⟩

/-- **Decoding into limited room.** -/
theorem decode_room (t : Tree) (hm : s.source.maxRead ≠ some 0) (hk : s.sink.fault = none)
    (hq : s.sink.written.size ≤ q) (h1 : 1 ≤ k) (e : StreamError) :
    ((final (t.decode k s)).sink.written.size ≤ q →
        outcome (t.decode k (s.room q e)) = outcome (t.decode k s) ∧
          final (t.decode k (s.room q e)) = (final (t.decode k s)).room q e) ∧
      (q < (final (t.decode k s)).sink.written.size →
        ∃ s', t.decode k (s.room q e) = .error (.ofWrite e) s' ∧ s'.stats = s.stats ∧
          s'.sink.written.toList <+: (final (t.decode k s)).sink.written.toList ∧
          t.Stalls {} (s.source.grant k.toNat) q s.source.upcoming s.sink s'.sink) := by
  obtain ⟨reader, hr, hchunk, -, hended⟩ := ofChunkSize?_of_pos h1
  have hpump := t.pump_room hended hm hk hq {} 0 e
  rw [(streams_of_decode hr).2]
  refine ⟨fun hle => decode_of_sameEnd hr (hpump.same hle), fun hlt => ?_⟩
  obtain ⟨source', sink', hrun, hfront, hstalls⟩ := hpump.stalls hlt
  rw [hchunk] at hstalls
  exact ⟨_, decode_of_pump_error (s := s.room q e) hr hrun, rfl, hfront, hstalls⟩

/-- No transport fails between streams that do not fail. -/
theorem kind_of_decode (hsource : s.source.fault = none) (hk : s.sink.fault = none) (h1 : 1 ≤ k)
    (hf : outcome (t.decode k s) = .error f) : f.kind ≠ .transport := by
  rcases failure_of_decode hf with ⟨hlt, -⟩ | hinterruption | ⟨p, hsettle⟩
  · omega
  · cases hinterruption with
    | reading hfail => rw [hsource] at hfail; cases hfail
    | writing hfail => rw [hk] at hfail; cases hfail
    | walk hwalk => rcases kind_of_scan_failed hwalk with hkind | hkind <;> simp [hkind]
  · rcases eq_of_settle_error hsettle with rfl | ⟨expected, rfl⟩ <;> simp [Failure.kind]

end Decode

end Tree

section Unpack

variable {s : Streams} {q : ℕ} {ahead : List UInt8} {size : Option ℤ} {t : Tree} {source' : Source}
  {k : ℤ}

/-- **Unpacking into limited room**, of a payload behind a good header that its source gives without
failing. Writing fails if and only if the same run into a sink that does not fail writes more than
there is room for; otherwise the two runs end the same. A run that is refused has written whole
chunks, a first part of what the other run writes, has counted the header alone, and leaves a tree
that is kept as it was. -/
theorem unpack_room (hs : s.source.Clean) (hk : s.sink.fault = none) (hq : s.sink.written.size ≤ q)
    (h : Tree.read ahead size s.source = .ok t source') (h1 : 1 ≤ k) (e : SystemError) :
    let good := unpack ahead size k s
    let tight := unpack ahead size k (s.room q (.system e))
    ((∃ f, outcome tight = .error f ∧ f.kind = .transport) ↔
        q < (final good).sink.written.size) ∧
      ((final good).sink.written.size ≤ q →
        outcome tight = outcome good ∧ final tight = (final good).room q (.system e)) ∧
      (∀ f, outcome good = .error f → f.kind = .corruptCode →
        outcome tight = .error f ∨ outcome tight = .error (.writing e)) ∧
      (q < (final good).sink.written.size →
        outcome tight = .error (.writing e) ∧
          (Failure.writing e).message = "Error writing unpacked data: " ++ e.message ∧
          t.Stalls {} (chunkBytes k s.source.maxRead) q source'.upcoming s.sink (final tight).sink ∧
          (final tight).sink.written.toList <+: (final good).sink.written.toList ∧
          s.Added (final tight) (1 + t.levels + t.symbols.length) 0 ∧
          ∃ behind, openTree ahead size (s.room q (.system e)) = .ok t behind ∧
            outcome (Tree.decodeKept k (t, behind)) = .error (.writing e) ∧
            (final (Tree.decodeKept k (t, behind))).1 = t) := by
  intro good tight
  obtain ⟨-, -, -, -, hkin⟩ := Tree.good_of_read h
  have hs' := hkin.clean hs
  obtain ⟨ho, hf⟩ := unpack_of_ok h k
  obtain ⟨ho', hf'⟩ := unpack_of_ok (s := s.room q (.system e)) h k
  obtain ⟨hsame, hstalls⟩ :=
    t.decode_room (s := ({ s with source := source' }).count t.headerLength 0) hs'.maxRead hk hq h1
      (.system e)
  rw [← hf] at hsame hstalls
  have hfits : (final good).sink.written.size ≤ q →
      outcome tight = outcome good ∧ final tight = (final good).room q (.system e) := by
    intro hle
    obtain ⟨hout, hfinal⟩ := hsame hle
    exact ⟨(ho'.trans (congrArg _ hout)).trans ho.symm, hf'.trans hfinal⟩
  have hrefused : q < (final good).sink.written.size → outcome tight = .error (.writing e) := by
    intro hlt
    obtain ⟨s', hrun, -⟩ := hstalls hlt
    exact ho'.trans (congrArg (fun r => (outcome r).map Decoded.size) hrun)
  refine ⟨⟨?_, fun hlt => ⟨_, hrefused hlt, rfl⟩⟩, hfits, ?_, ?_⟩
  · rintro ⟨f, hout, hkind⟩
    by_contra hle
    rw [(hfits (not_lt.1 hle)).1, ho] at hout
    have hdecode := eq_error_of_map hout
    exact Tree.kind_of_decode (s := ({ s with source := source' }).count t.headerLength 0)
      hs'.fault hk h1 hdecode hkind
  · intro f hout _
    rcases Nat.lt_or_ge q (final good).sink.written.size with hlt | hle
    · exact Or.inr (hrefused hlt)
    · exact Or.inl ((hfits hle).1.trans hout)
  · intro hlt
    obtain ⟨s', hrun, hstats, hfront, hchunks⟩ := hstalls hlt
    have hfinal : final tight = s' := hf'.trans (congrArg final hrun)
    obtain ⟨hko, -, hkt⟩ := t.decodeKept_eq k
      (({ s.room q (.system e) with source := source' }).count t.headerLength 0)
    have hgrant : source'.grant k.toNat = chunkBytes k s.source.maxRead := by
      rw [← hkin.maxRead]
      rfl
    rw [hfinal, ← hgrant]
    refine ⟨hrefused hlt, rfl, hchunks, hfront, hstats, _, openTree_of_ok h, ?_, ?_⟩
    · exact hko.trans (congrArg outcome hrun)
    · have hout := congrArg (fun r => (outcome r).map Decoded.size) hrun
      rw [hkt]
      simp only
      split
      · rename_i n hok
        cases hout.symm.trans hok
      · rfl

/-- Eight bytes and seven, a chunk each, into room for ten. -/
theorem unpack_room_between_chunks :
    let e : SystemError := ⟨some 28, "No space left on device"⟩
    let s : Streams := { source := { data := #[1, 0, 65, 0x00, 0x01] }, stats := some {} }
    let tight := unpack [] none 1 (s.room 10 (.system e))
    (s.source.Clean ∧ s.sink.fault = none ∧ s.sink.written.size ≤ 10 ∧ (1 : ℤ) ≤ 1) ∧
      (final (unpack [] none 1 s)).sink.written.size = 15 ∧
      outcome tight = .error (.writing e) ∧ (final tight).sink.written.size ≤ 10 ∧
      (final tight).stats = some ⟨3, 0⟩ := by
  have hsize : (final (unpack [] none 1
      { source := { data := #[1, 0, 65, 0x00, 0x01] }, stats := some {} })).sink.written.size =
        15 := by
    decide +kernel
  intro e s tight
  have hs : s.source.Clean := ⟨rfl, by decide⟩
  have hroom : s.sink.written.size ≤ 10 := by decide
  have hparse : Header.parse ([] ++ s.source.upcoming) = .ok ([0], [65], [0x00, 0x01]) := by decide
  have hnone : ([] : List UInt8).length ≤ 1 := by decide
  obtain ⟨source', hread, -⟩ := Tree.read_of_parse_ok hs.maxRead hnone none hparse
  obtain ⟨-, -, -, hfull⟩ := unpack_room hs rfl hroom hread le_rfl e
  obtain ⟨hout, -, hstalls, -, hadded, -⟩ := hfull (by rw [hsize]; decide)
  exact ⟨⟨hs, rfl, hroom, le_rfl⟩, hsize, hout, hstalls.size_le, hadded.of_zero rfl⟩

end Unpack

end PackFormat
