import PackFormat.Proofs.Reader

/-!
# No stream brings unpacking down

Streams may be cut short, corrupt, silent for a while, or fail with an error of the
system at any position. Unpacking then fails with one of the decoder's own failures
and never runs past a table: a header, however odd, gives tables that fit together,
and a walk that starts at the root stays on their levels.

* `Failure.Foreseen`: what may go wrong, and the kind of failure that it is.
* `Tree.interruption_of_pump`: what interrupts a pass over a payload, from any source
  into any sink.
* `Tree.Consistent.inRange_of_scan`: where a walk in a consistent tree can stand.
* `Tree.Consistent.decode_foreseen`: decoding, from any source into any sink.
* `unpack_safe`: **unpacking any stream.**
-/

namespace PackFormat

/-- A stream whose failures, if it has any, are the system's. -/
def SystemOnly (fault : Option Fault) : Prop := ∀ f ∈ fault, ∃ e, f.error = .system e

theorem systemOnly_none : SystemOnly none := by
  intro f hf
  cases hf

/-- **What files and streams may bring about**, and the kind of failure it is: of a source and a sink that
fail as given, if they do. An error of the system comes out wrapped, with what was being read or written,
and neither by itself nor as anything else. -/
inductive Failure.Foreseen (source sink : Option Fault) : Failure → Failure.Kind → Prop
  | insaneLevels (levels : ℕ) : Foreseen source sink (.insaneLevels levels) .invalidDepth
  | tableOverflow (capacity : ℕ) : Foreseen source sink (.tableOverflow capacity) .tableOverflow
  | truncated (part : String) : Foreseen source sink (.truncated part) .truncatedHeader
  | leafOutOfRange (index level : ℕ) : Foreseen source sink (.leafOutOfRange index level) .corruptCode
  | noStop (written : ℕ) : Foreseen source sink (.noStop written) .prematureEnd
  | sizeMismatch (written : ℕ) (expected : ℤ) :
    Foreseen source sink (.sizeMismatch written expected) .prematureEnd
  | reading (part : String) {fail : Fault} {e : SystemError} (h : fail ∈ source)
    (he : fail.error = .system e) : Foreseen source sink (.reading part e) .transport
  | writing {fail : Fault} {e : SystemError} (h : fail ∈ sink) (he : fail.error = .system e) :
    Foreseen source sink (.writing e) .transport

/-- A run that comes to a result or to a foreseen failure, of the kind that it is. -/
def Foreseen {σ α : Type} (source sink : Option Fault) (r : EStateM.Result Failure σ α) : Prop :=
  ∀ f, outcome r = .error f → f.Foreseen source sink f.kind

theorem eq_error_of_map {ε α β : Type} {x : Except ε α} {g : α → β} {e : ε}
    (h : x.map g = .error e) : x = .error e := by
  cases x with
  | ok a => cases h
  | error e' => cases h; rfl

section Faults

variable {s : Source} {k k' : Sink} {source sink : Option Fault} {f : Failure}

/-- Nothing foreseen is the caller's mistake. -/
theorem Failure.Foreseen.isDecodeFailure {kind : Failure.Kind} (h : f.Foreseen source sink kind) :
    kind.isDecodeFailure = true := by
  cases h <;> rfl

theorem foreseen_ofRead (h : SystemOnly source) {fail : Fault} (hf : fail ∈ source) (part : String) :
    (Failure.ofRead part fail.error).Foreseen source sink (Failure.ofRead part fail.error).kind := by
  obtain ⟨e, he⟩ := h fail hf
  rw [he]
  exact .reading part hf he

theorem foreseen_ofWrite (h : SystemOnly sink) {fail : Fault} (hf : fail ∈ sink) :
    (Failure.ofWrite fail.error).Foreseen source sink (Failure.ofWrite fail.error).kind := by
  obtain ⟨e, he⟩ := h fail hf
  rw [he]
  exact .writing hf he

/-- The failures that streams bring about, of the system or of their own. -/
theorem kind_ofRead (part : String) (e : StreamError) :
    (Failure.ofRead part e).kind = .transport ∨ (Failure.ofRead part e).kind = .badValue := by
  cases e with
  | system e => exact Or.inl rfl
  | objection text => exact Or.inr rfl

theorem kind_ofWrite (e : StreamError) :
    (Failure.ofWrite e).kind = .transport ∨ (Failure.ofWrite e).kind = .badValue := by
  cases e with
  | system e => exact Or.inl rfl
  | objection text => exact Or.inr rfl

theorem Header.Refusal.foreseen (h : Header.Refusal source f) (hsource : SystemOnly source) :
    f.Foreseen source sink f.kind := by
  cases h with
  | depth levels => exact .insaneLevels levels
  | overflow capacity => exact .tableOverflow capacity
  | truncated part => exact .truncated part
  | fault part hf => exact foreseen_ofRead hsource hf part

/-- Bytes that are not written are the sink's failure. -/
theorem Sink.flush_of_error {bytes : Array UInt8} (h : k.flush bytes = .error f k') :
    ∃ fail ∈ k.fault, f = .ofWrite fail.error := by
  unfold flush at h
  split at h
  · cases h
  split at h
  · cases h
  · rename_i e k₁ hwrite
    cases h
    unfold write at hwrite
    dsimp only at hwrite
    split at hwrite
    · rename_i fail hfail
      cases hwrite
      exact ⟨fail, (Option.filter_eq_some_iff.1 hfail).1, rfl⟩
    · cases hwrite

theorem Sink.flush_fault {bytes : Array UInt8} (h : k.flush bytes = .ok () k') :
    k'.fault = k.fault := by
  unfold flush at h
  split at h
  · cases h; rfl
  split at h
  · rename_i k₁ hwrite
    cases h
    unfold write at hwrite
    dsimp only at hwrite
    split at hwrite
    · cases hwrite
    · cases hwrite; rfl
  · cases h

end Faults

namespace Tree

/-- **A cursor from which no bit leads past a table**: its level is in each list, and each of its
leaves has a symbol, or is the stop code's and on the last level. -/
structure InRange (t : Tree) (c : Cursor) : Prop where
  interior : c.level < t.interior.length
  leaves : c.level < t.leaves.length
  offsets : c.level < t.offsets.length
  symbols : ∀ i : ℕ, (i : ℤ) < t.leavesAt c.level →
    t.place ⟨c.level, i⟩ < t.symbols.length ∨
      (t.place ⟨c.level, i⟩ = t.stopIndex ∧ (c.level : ℤ) = t.maxLevel)

/-- **What interrupts a pass over a payload**: a failing read, a failing write, or the walk over the
bits of its chunks. -/
inductive Interruption (t : Tree) (c : Cursor) (source sink : Option Fault) : Failure → Prop
  | reading {fail : Fault} (h : fail ∈ source) :
    Interruption t c source sink (.ofRead "packed payload" fail.error)
  | writing {fail : Fault} (h : fail ∈ sink) : Interruption t c source sink (.ofWrite fail.error)
  | walk {bits : List Bool} {f : Failure} (h : (t.scan c #[] 0 bits).ending = .failed f) :
    Interruption t c source sink f

variable {t : Tree}

/-- **Nothing else interrupts a pass**, whatever the streams do. -/
theorem interruption_of_pump {reader : BitReader} {c : Cursor} {written : ℕ} {source : Source}
    {sink : Sink} {f : Failure} (hf : outcome (t.pump reader c written source sink) = .error f) :
    t.Interruption c source.fault sink.fault f := by
  -- each chunk leaves less of the source, and its bits stand before those of the chunks to come
  induction hn : source.remaining using Nat.strong_induction_on
    generalizing reader c written source sink with
  | h n ih =>
    rcases hnext : reader.next source with ⟨chunk, reader₁, source₁⟩ | ⟨f₁, reader₁, source₁⟩
    swap
    · rw [pump_of_next_error hnext] at hf
      obtain ⟨-, e, rfl, hread⟩ := BitReader.next_of_error hnext
      obtain ⟨⟨fail, hfail, rfl⟩, -⟩ := Source.read_of_error hread
      cases hf
      exact .reading hfail
    rcases chunk with _ | bits
    · rw [pump_of_next_none hnext] at hf; cases hf
    obtain ⟨first, -, rfl, rfl, hread⟩ := BitReader.next_of_some hnext
    obtain ⟨-, hkin⟩ := Source.read_of_ok hread
    rcases hscan : t.scan c #[] 0 (bitsOf first) with ⟨symbols, used, c₁ | _ | f₁⟩
    · rcases hflush : sink.flush symbols with ⟨⟨⟩, sink₁⟩ | ⟨f₁, sink₁⟩
      · rw [pump_of_more hnext hscan hflush] at hf
        cases ih _ (hn ▸ BitReader.remaining_lt_of_next hnext) hf rfl with
        | reading hfail => exact .reading (hkin.fault ▸ hfail)
        | writing hfail => exact .writing (Sink.flush_fault hflush ▸ hfail)
        | @walk rest _ hrest =>
          have hwhole : (t.scan c #[] 0 (bitsOf first ++ rest)).ending = .failed f := by
            rw [scan_append, hscan]
            simp only
            rw [scan_eq]
            exact hrest
          exact .walk hwhole
      · rw [pump_of_flush_error hnext (by rw [hscan]; simp) (by rw [hscan]; exact hflush)] at hf
        obtain ⟨fail, hfail, rfl⟩ := Sink.flush_of_error hflush
        cases hf
        exact .writing hfail
    · rcases hflush : sink.flush symbols with ⟨⟨⟩, sink₁⟩ | ⟨f₁, sink₁⟩
      · rw [pump_of_stopped hnext hscan hflush] at hf; cases hf
      · rw [pump_of_flush_error hnext (by rw [hscan]; simp) (by rw [hscan]; exact hflush)] at hf
        obtain ⟨fail, hfail, rfl⟩ := Sink.flush_of_error hflush
        cases hf
        exact .writing hfail
    · rw [pump_of_failed hnext hscan] at hf
      cases hf
      exact .walk (by rw [hscan])

/-- **Why a payload is not decoded**: there are no chunks to read, the pass is interrupted, or it is
worth nothing. -/
theorem failure_of_decode {s : Streams} {k : ℤ} {f : Failure} (hf : outcome (t.decode k s) = .error f) :
    (k < 1 ∧ f = .chunkSizeNotPositive) ∨ t.Interruption {} s.source.fault s.sink.fault f ∨
      ∃ p, t.settle p = .error f := by
  rcases lt_or_ge k 1 with hk | hk
  · rw [decode_of_lt hk] at hf
    cases hf
    exact Or.inl ⟨hk, rfl⟩
  obtain ⟨reader, hr, -⟩ := ofChunkSize?_of_pos hk
  rcases hrun : t.pump reader {} 0 s.source s.sink with ⟨p, source, sink⟩ | ⟨f', source, sink⟩
  · rw [(decode_of_pump_ok hr hrun).1] at hf
    exact Or.inr (Or.inr ⟨p, hf⟩)
  · rw [decode_of_pump_error hr hrun] at hf
    cases hf
    exact Or.inr (Or.inl (interruption_of_pump (by rw [hrun]; rfl)))

namespace Consistent

theorem inRange (h : t.Consistent) {c : Cursor} (hc : c.level < t.interior.length) : t.InRange c := by
  refine ⟨hc, by rw [h.length_leaves]; exact hc, by rw [h.length_offsets]; exact hc, ?_⟩
  intro i hi
  rcases h.place_lt_or_eq (x := ⟨c.level, i⟩) hc hi with ⟨-, hlt⟩ | ⟨hx, heq⟩
  · exact Or.inl hlt
  · right
    have hlevel : c.level = t.interior.length - 1 := congrArg Slot.level hx
    have hpos := h.levels_pos
    refine ⟨heq, ?_⟩
    rw [maxLevel, h.levels]
    omega

/-- **A walk from the root never stands where a bit leads past a table.** -/
theorem inRange_of_scan (h : t.Consistent) {c : Cursor} {bits : List Bool}
    (hmore : (t.scan {} #[] 0 bits).ending = .more c) : t.InRange c :=
  h.inRange (h.scan_level h.levels_pos hmore)

/-- **A pass is interrupted only in foreseen ways.** -/
theorem foreseen_of_interruption (h : t.Consistent) {source sink : Option Fault}
    (hsource : SystemOnly source) (hsink : SystemOnly sink) {f : Failure}
    (hf : t.Interruption {} source sink f) : f.Foreseen source sink f.kind := by
  cases hf with
  | reading hfail => exact foreseen_ofRead hsource hfail _
  | writing hfail => exact foreseen_ofWrite hsink hfail
  | walk hwalk =>
    obtain ⟨i, l, rfl⟩ := h.scan_failed h.levels_pos hwalk
    exact .leafOutOfRange i l

/-- **Decoding fails only in foreseen ways**, whatever the streams do. -/
theorem decode_foreseen (h : t.Consistent) {s : Streams} (hsource : SystemOnly s.source.fault)
    (hsink : SystemOnly s.sink.fault) {k : ℤ} (hk : 1 ≤ k) :
    Foreseen s.source.fault s.sink.fault (t.decode k s) := by
  intro f hf
  rcases failure_of_decode hf with ⟨hlt, -⟩ | hinterruption | ⟨p, hsettle⟩
  · omega
  · exact h.foreseen_of_interruption hsource hsink hinterruption
  · rcases eq_of_settle_error hsettle with rfl | ⟨expected, rfl⟩
    · exact .noStop p.written
    · exact .sizeMismatch p.written expected

end Consistent

end Tree

section Unpack

variable {s : Streams} {ahead : List UInt8} {k : ℤ}

/-- So does unpacking, whatever header it finds. -/
theorem unpack_foreseen (hsource : SystemOnly s.source.fault) (hsink : SystemOnly s.sink.fault)
    (ha : ahead.length ≤ 1) (size : Option ℤ) (hk : 1 ≤ k) :
    Foreseen s.source.fault s.sink.fault (unpack ahead size k s) := by
  intro f hf
  rcases hread : Tree.read ahead size s.source with ⟨t, source'⟩ | ⟨f', source'⟩
  · obtain ⟨counts, symbols, hg, rfl, hkin⟩ := Tree.good_of_read hread
    have ht := Tree.consistent_ofCounts hg size
    obtain ⟨hout, -⟩ := unpack_of_ok hread k
    rw [hout] at hf
    have hsource' : SystemOnly source'.fault := hkin.fault ▸ hsource
    have hdecode := ht.decode_foreseen
      (s := ({ s with source := source' }).count (Tree.ofCounts counts symbols size).headerLength 0)
      hsource' hsink hk f (eq_error_of_map hf)
    rwa [← hkin.fault]
  · rw [unpack_of_error hread] at hf
    cases hf
    exact (Tree.refusal_of_read ha hread).foreseen hsource

/-- **Unpacking any stream** gives a result or a foreseen failure, whatever stands in it and wherever
it ends, falls silent or fails; and no bit of any payload behind its header leads past a table. -/
theorem unpack_safe (hsource : SystemOnly s.source.fault) (hsink : SystemOnly s.sink.fault)
    (ha : ahead.length ≤ 1) (size : Option ℤ) (hk : 1 ≤ k) :
    ((∃ n s', unpack ahead size k s = .ok n s') ∨
        ∃ f s', unpack ahead size k s = .error f s' ∧
          f.Foreseen s.source.fault s.sink.fault f.kind) ∧
      ∀ t source', Tree.read ahead size s.source = .ok t source' →
        ∀ bits c, (t.scan {} #[] 0 bits).ending = .more c → t.InRange c := by
  constructor
  · have hforeseen := unpack_foreseen hsource hsink ha size hk
    rcases hrun : unpack ahead size k s with ⟨n, s'⟩ | ⟨f, s'⟩
    · exact Or.inl ⟨n, s', rfl⟩
    · rw [hrun] at hforeseen
      exact Or.inr ⟨f, s', rfl, hforeseen f rfl⟩
  · intro t source' hread bits c hmore
    obtain ⟨counts, symbols, hg, rfl, -⟩ := Tree.good_of_read hread
    exact (Tree.consistent_ofCounts hg size).inRange_of_scan hmore

/-- A header whose counts no tree has, and a source that fails behind it: with a sink that is full, and
with one that is not. -/
theorem unpack_safe_inconsistent :
    let source : Source := { data := #[2, 3, 0, 65, 66, 67, 68, 0xff], maxRead := some 3,
                             fault := some ⟨8, .system ⟨some 5, "gone"⟩⟩ }
    let full : Streams := { source, sink := { fault := some ⟨0, .system ⟨none, "full"⟩⟩ } }
    let s : Streams := { source }
    (SystemOnly source.fault ∧ SystemOnly full.sink.fault ∧ SystemOnly s.sink.fault ∧
        ([] : List UInt8).length ≤ 1 ∧ (1 : ℤ) ≤ 4) ∧
      (outcome (unpack [] (some 2) 4 full) = .error (.writing ⟨none, "full"⟩) ∧
        (Failure.writing ⟨none, "full"⟩).Foreseen source.fault full.sink.fault .transport) ∧
      (outcome (unpack [] (some 2) 4 s) = .error (.reading "packed payload" ⟨some 5, "gone"⟩) ∧
        (Failure.reading "packed payload" ⟨some 5, "gone"⟩).Foreseen source.fault none .transport) ∧
      ∃ t source', Tree.read [] (some 2) source = .ok t source' ∧ t.InRange {} := by
  intro source full s
  have hsource : SystemOnly source.fault := by
    intro f hf
    cases hf
    exact ⟨_, rfl⟩
  have hsink : SystemOnly full.sink.fault := by
    intro f hf
    cases hf
    exact ⟨_, rfl⟩
  have ha : ([] : List UInt8).length ≤ 1 := by decide
  have hk : (1 : ℤ) ≤ 4 := by decide
  -- what fails has a failure that is foreseen
  have hforeseen : ∀ {s : Streams} {f : Failure}, s.source = source → SystemOnly s.sink.fault →
      outcome (unpack [] (some 2) 4 s) = .error f → f.Foreseen source.fault s.sink.fault f.kind := by
    rintro s f hs hsink hout
    rcases (unpack_safe (hs ▸ hsource) hsink ha (some 2) hk).1 with ⟨n, s', hrun⟩ | ⟨f', s', hrun, hf⟩
    · rw [hrun] at hout
      cases hout
    · rw [hrun] at hout
      cases hout
      exact hs ▸ hf
  have hfull : outcome (unpack [] (some 2) 4 full) = .error (.writing ⟨none, "full"⟩) := by
    decide +kernel
  have hgone : outcome (unpack [] (some 2) 4 s) =
      .error (.reading "packed payload" ⟨some 5, "gone"⟩) := by decide +kernel
  have hparse : Header.parse ([] ++ source.upcoming) = .ok ([3, 0], [65, 66, 67, 68], [0xff]) := by
    decide
  obtain ⟨source', hread, -⟩ := Tree.read_of_parse_ok (s := source) (by decide) ha (some 2) hparse
  obtain ⟨-, hrange⟩ := unpack_safe (s := s) hsource systemOnly_none ha (some 2) hk
  exact ⟨⟨hsource, hsink, systemOnly_none, ha, hk⟩, ⟨hfull, hforeseen rfl hsink hfull⟩,
    ⟨hgone, hforeseen rfl systemOnly_none hgone⟩, _, source', hread, hrange _ _ hread [] {} rfl⟩

end Unpack

end PackFormat
