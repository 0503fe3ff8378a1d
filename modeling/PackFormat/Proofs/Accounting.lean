import PackFormat.Proofs.Grammar
import PackFormat.Proofs.Safety

/-!
# What the totals say after a run

Each way to end leaves the totals in a state of its own. A header counts once it is
good. A payload counts only when its pass comes to an end by itself: by the bytes up
to the stop code's last bit, or by all that the reader got where that is missing.

* `Tree.tally_of_pump`: what a pass that nothing interrupts has read, written and
  counted, from any source into any sink.
* `Tree.verdict_of_pump`: what such a pass comes to.
* `Tree.DecodesTo`: what a payload that is decoded has read, written and counted.
* `Tree.Consistent.counted_decode`: decoding, however it ends.
* `unpack_counts`: **the totals after any run.**
-/

namespace PackFormat

/-- What a sink takes stands behind what it had. -/
theorem Sink.flush_written {k k' : Sink} {bytes : Array UInt8} (h : k.flush bytes = .ok () k') :
    k'.written = k.written ++ bytes := by
  unfold flush at h
  split at h
  · rename_i hempty
    cases h
    rw [Array.isEmpty_iff.1 hempty, Array.append_empty]
  split at h
  · rename_i k₁ hwrite
    cases h
    unfold write at hwrite
    dsimp only at hwrite
    split at hwrite
    · cases hwrite
    · cases hwrite
      exact Array.toList_inj.1 (by simp)
  · cases h

namespace Tree

/-- **The tally of a pass** over `bytes` that nothing interrupts: what the walk over their bits gives
is written, and the bytes that count are those up to the stop code's last bit. -/
structure Tally (t : Tree) (reader : BitReader) (c : Cursor) (written : ℕ) (sink : Sink)
    (bytes : List UInt8) (p : Pass) (sink' : Sink) : Prop where
  received : p.received = reader.bytesRead + bytes.length
  size : p.written = written + (t.scan c #[] 0 (bitsOf bytes)).symbols.size
  written : sink'.written = sink.written ++ (t.scan c #[] 0 (bitsOf bytes)).symbols
  consumed : match (t.scan c #[] 0 (bitsOf bytes)).ending with
    | .more _ => p.consumed = none
    | .stopped =>
      p.consumed = some (reader.bytesRead + ((t.scan c #[] 0 (bitsOf bytes)).used + 7) / 8)
    | .failed _ => False

section Pass

variable {t : Tree} {reader : BitReader} {c c₁ : Cursor} {written used : ℕ} {sink sink₁ sink' : Sink}
  {symbols : Array UInt8} {first bytes : List UInt8} {p : Pass}

/-- A chunk that the walk comes through stands in front of the tally of the others. -/
theorem Tally.cons (hscan : t.scan c #[] 0 (bitsOf first) = ⟨symbols, used, .more c₁⟩)
    (hsink : sink₁.written = sink.written ++ symbols)
    (h : t.Tally (reader.past first.length) c₁ (written + symbols.size) sink₁ bytes p sink') :
    t.Tally reader c written sink (first ++ bytes) p sink' := by
  have hused : used = 8 * first.length := by
    have hmore : (t.scan c #[] 0 (bitsOf first)).ending = .more c₁ := by rw [hscan]
    have := scan_used_of_more hmore
    rwa [hscan, length_bitsOf, Nat.zero_add] at this
  have hwhole : t.scan c #[] 0 (bitsOf (first ++ bytes)) =
      ⟨symbols ++ (t.scan c₁ #[] 0 (bitsOf bytes)).symbols,
        used + (t.scan c₁ #[] 0 (bitsOf bytes)).used, (t.scan c₁ #[] 0 (bitsOf bytes)).ending⟩ := by
    rw [bitsOf_append, scan_append, hscan]
    exact scan_eq ..
  have hreceived := h.received
  have hsize := h.size
  have hconsumed := h.consumed
  simp only [BitReader.past] at hreceived hconsumed
  refine ⟨?_, ?_, ?_, ?_⟩
  · rw [hreceived, List.length_append, Nat.add_assoc]
  · rw [hsize, hwhole, Array.size_append, Nat.add_assoc]
  · rw [h.written, hsink, hwhole, Array.append_assoc]
  · rw [hwhole]
    cases hend : (t.scan c₁ #[] 0 (bitsOf bytes)).ending with
    | more c₂ =>
      rw [hend] at hconsumed
      exact hconsumed
    | stopped =>
      rw [hend] at hconsumed
      simp only at hconsumed ⊢
      rw [hconsumed, Option.some.injEq, hused]
      omega
    | failed f =>
      rw [hend] at hconsumed
      exact hconsumed

/-- **Any pass that nothing interrupts has a tally**, whatever the streams are. -/
theorem tally_of_pump {source source' : Source}
    (h : t.pump reader c written source sink = .ok p (source', sink')) :
    ∃ bytes, source.Gave bytes source' ∧ t.Tally reader c written sink bytes p sink' := by
  -- each chunk leaves less of the source
  induction hn : source.remaining using Nat.strong_induction_on
    generalizing reader c written source sink with
  | h n ih =>
    rcases hnext : reader.next source with ⟨chunk, reader₁, source₁⟩ | ⟨f, reader₁, source₁⟩
    swap
    · rw [pump_of_next_error hnext] at h
      cases h
    rcases chunk with _ | bits
    · rw [pump_of_next_none hnext] at h
      cases h
      rcases BitReader.next_of_none hnext with ⟨-, rfl, rfl⟩ | ⟨-, rfl, hread⟩
      · -- once a read gave nothing, there are no more
        exact ⟨[], Source.Gave.refl _, rfl, rfl, Array.append_empty.symm, rfl⟩
      · exact ⟨[], Source.gave_of_read hread, rfl, rfl, Array.append_empty.symm, rfl⟩
    obtain ⟨first, -, rfl, rfl, hread⟩ := BitReader.next_of_some hnext
    have hgave := Source.gave_of_read hread
    rcases hscan : t.scan c #[] 0 (bitsOf first) with ⟨symbols, used, c₁ | _ | f⟩
    · rcases hflush : sink.flush symbols with ⟨⟨⟩, sink₁⟩ | ⟨f, sink₁⟩
      · rw [pump_of_more hnext hscan hflush] at h
        have hless := BitReader.remaining_lt_of_next hnext
        obtain ⟨bytes, hrest, htally⟩ := ih _ (hn ▸ hless) h rfl
        exact ⟨first ++ bytes, hgave.trans hrest, htally.cons hscan (Sink.flush_written hflush)⟩
      · rw [pump_of_flush_error hnext (by rw [hscan]; simp) (by rw [hscan]; exact hflush)] at h
        cases h
    · rcases hflush : sink.flush symbols with ⟨⟨⟩, sink₁⟩ | ⟨f, sink₁⟩
      · rw [pump_of_stopped hnext hscan hflush] at h
        cases h
        have hwritten := Sink.flush_written hflush
        refine ⟨first, hgave, rfl, ?_, ?_, ?_⟩
        · rw [hscan]
        · rw [hscan]; exact hwritten
        · -- what the reader had before this chunk, and the bytes of the chunk that were used
          rw [hscan]
          simp only [BitReader.past, length_bitsOf, Option.some.injEq]
          omega
      · rw [pump_of_flush_error hnext (by rw [hscan]; simp) (by rw [hscan]; exact hflush)] at h
        cases h
    · rw [pump_of_failed hnext hscan] at h
      cases h

/-- **What interrupts a pass is no premature end** of its payload. -/
theorem Interruption.kind_ne {source sink : Option Fault} {f : Failure}
    (h : t.Interruption c source sink f) : f.kind ≠ .prematureEnd := by
  cases h with
  | @reading fail hfail =>
    rcases kind_ofRead "packed payload" fail.error with hkind | hkind
    · rw [hkind]; decide
    · rw [hkind]; decide
  | @writing fail hfail =>
    rcases kind_ofWrite fail.error with hkind | hkind
    · rw [hkind]; decide
    · rw [hkind]; decide
  | walk hwalk =>
    rcases kind_of_scan_failed hwalk with hkind | hkind
    · rw [hkind]; decide
    · rw [hkind]; decide

end Pass

/-- **A pass that nothing interrupts comes to what the bytes say that it got**, whatever the streams
are. -/
theorem verdict_of_pump {t : Tree} {s : Streams} {k : ℤ} {reader : BitReader} {p : Pass}
    {source : Source} {sink : Sink} (hr : BitReader.ofChunkSize? k = some reader)
    (hzero : reader.bytesRead = 0)
    (hpump : t.pump reader {} 0 s.source s.sink = .ok p (source, sink)) :
    ∃ bytes, s.source.Gave bytes source ∧
      (∀ f, (t.scan {} #[] 0 (bitsOf bytes)).ending ≠ .failed f) ∧
      (outcome (t.decode k s)).map Decoded.size = (t.verdict bytes).outcome ∧
      s.Added (final (t.decode k s)) (t.verdict bytes).bytesIn (t.verdict bytes).bytesOut ∧
      (final (t.decode k s)).sink.written =
        s.sink.written ++ (t.scan {} #[] 0 (bitsOf bytes)).symbols := by
  obtain ⟨bytes, hgave, htally⟩ := tally_of_pump hpump
  obtain ⟨hout, hfinal⟩ := decode_of_pump_ok hr hpump
  have hreceived := htally.received
  have hsize := htally.size
  have hwritten := htally.written
  have hconsumed := htally.consumed
  rw [hzero, Nat.zero_add] at hreceived
  rw [hzero] at hconsumed
  rw [Nat.zero_add] at hsize
  refine ⟨bytes, hgave, fun f hf => by rw [hf] at hconsumed; exact hconsumed, ?_⟩
  rw [hout, hfinal]
  rcases hscan : t.scan {} #[] 0 (bitsOf bytes) with ⟨symbols, used, c | _ | f⟩
  · rw [hscan] at hsize hconsumed hwritten
    simp only at hsize hconsumed
    have hsettle : t.settle p = .error (.noStop symbols.size) := by
      rw [settle, hconsumed, Option.isNone_none, if_pos rfl, hsize]
    rw [verdict_of_more hscan, hsettle, hconsumed, Option.getD_none, hreceived, hsize]
    exact ⟨rfl, rfl, hwritten⟩
  · rw [hscan] at hsize hconsumed hwritten
    simp only [Nat.zero_add] at hsize hconsumed
    have hsettle : (t.settle p).map Decoded.size = t.settled symbols.size := by
      rw [← hsize, ← t.settle_of_some p.written p.received ((used + 7) / 8), ← hconsumed]
    rw [verdict_of_stopped hscan, hsettle, hconsumed, Option.getD_some, hsize]
    exact ⟨rfl, rfl, hwritten⟩
  · rw [hscan] at hconsumed
    exact hconsumed.elim

/-- **A payload that is decoded**: `bytes` came from the source, and the walk over them gave `out` and
stopped. That is written, and the bytes count up to the stop code's last bit. -/
structure DecodesTo (t : Tree) (s : Streams) (bytes : List UInt8) (out : Array UInt8) (used : ℕ)
    (s' : Streams) : Prop where
  gave : s.source.Gave bytes s'.source
  scan : t.scan {} #[] 0 (bitsOf bytes) = ⟨out, used, .stopped⟩
  settled : t.settled out.size = .ok out.size
  written : s'.sink.written = s.sink.written ++ out
  added : s.Added s' ((used + 7) / 8 : ℕ) out.size

/-- **What decoding a payload takes**, from any streams. -/
theorem decodesTo_of_decode {t : Tree} {s : Streams} {k : ℤ} {d : Decoded}
    (h : outcome (t.decode k s) = .ok d) :
    1 ≤ k ∧ ∃ bytes out used, d.size = out.size ∧
      t.DecodesTo s bytes out used (final (t.decode k s)) := by
  rcases lt_or_ge k 1 with hk | hk
  · rw [decode_of_lt hk] at h
    cases h
  refine ⟨hk, ?_⟩
  obtain ⟨reader, hreader, -, hzero, -⟩ := ofChunkSize?_of_pos hk
  rcases hpump : t.pump reader {} 0 s.source s.sink with ⟨p, source, sink⟩ | ⟨f, source, sink⟩
  swap
  · rw [decode_of_pump_error hreader hpump] at h
    cases h
  obtain ⟨bytes, hgave, hgood, hout, hadded, hwritten⟩ := verdict_of_pump hreader hzero hpump
  obtain ⟨-, hfinal⟩ := decode_of_pump_ok hreader hpump
  rw [h] at hout
  rcases hscan : t.scan {} #[] 0 (bitsOf bytes) with ⟨out, used, c | _ | f⟩
  · -- without the stop code, nothing is decoded
    rw [verdict_of_more hscan] at hout
    cases hout
  · rw [verdict_of_stopped hscan] at hout hadded
    rw [hscan] at hwritten
    have hsettled : t.settled out.size = .ok d.size := hout.symm
    have heq := eq_of_settled hsettled
    have hgave' : s.source.Gave bytes (final (t.decode k s)).source := by
      rw [hfinal]
      exact hgave
    exact ⟨bytes, out, used, heq, hgave', hscan, by rw [hsettled, heq], hwritten, hadded⟩
  · exact absurd (by rw [hscan]) (hgood f)

end Tree

/-- **The totals grow** by so many bytes read, and by as many bytes written as the sink got. -/
def Streams.Grown (s s' : Streams) (bytesIn : ℤ) : Prop :=
  ∃ out, s'.sink.written = s.sink.written ++ out ∧
    s'.stats = s.stats.map fun totals => ⟨totals.bytesIn + bytesIn, totals.bytesOut + out.size⟩

/-- **How a payload is counted** behind a header, when the reader got the bytes `got` of it. Up to the
byte with the stop code's last bit if that was found, whether the size is right or not; all of them
if it was not; and not at all if something else went wrong. -/
def Counted (t : Tree) (header : ℤ) (got : List UInt8) (s s' : Streams) : Except Failure ℕ → Prop
  | .ok _ | .error (.sizeMismatch _ _) =>
    ∃ slots rest, t.Factors (bitsOf got) slots rest ∧
      s.Grown s' (header + ((t.payloadLength slots + 7) / 8 : ℕ))
  | .error (.noStop _) => s.Grown s' (header + got.length)
  | .error _ => s'.stats = s.stats.map fun totals => ⟨totals.bytesIn + header, totals.bytesOut⟩

section Counting

variable {s s' : Streams} {t : Tree} {k header : ℤ} {got : List UInt8}

theorem counted_of_kind_ne {f : Failure} (hf : f.kind ≠ .prematureEnd)
    (hstats : s'.stats = s.stats.map fun totals => ⟨totals.bytesIn + header, totals.bytesOut⟩) :
    Counted t header got s s' (.error f) := by
  cases f with
  | noStop n => exact absurd rfl hf
  | sizeMismatch n expected => exact absurd rfl hf
  | _ => exact hstats

/-- Whatever its symbols are worth, a payload is counted up to its stop code. -/
theorem counted_of_factors {slots : List Slot} {rest : List Bool}
    (hf : t.Factors (bitsOf got) slots rest)
    (hgrown : s.Grown s' (header + ((t.payloadLength slots + 7) / 8 : ℕ))) (n : ℕ) :
    Counted t header got s s' (t.settled n) := by
  cases hsettled : t.settled n with
  | ok m => exact ⟨slots, rest, hf, hgrown⟩
  | error f =>
    obtain ⟨expected, rfl⟩ := Tree.eq_sizeMismatch_of_settled hsettled
    exact ⟨slots, rest, hf, hgrown⟩

/-- **Decoding is counted**, behind a header that was, however it ends. -/
theorem Tree.Consistent.counted_decode (h : t.Consistent) (s : Streams) (k header : ℤ) :
    let r := t.decode k (s.count header 0)
    Counted t header (s.source.data.extract s.source.pos (final r).source.pos).toList s (final r)
      ((outcome r).map Decoded.size) := by
  intro r
  have huncounted : (s.count header 0).stats =
      s.stats.map fun totals => ⟨totals.bytesIn + header, totals.bytesOut⟩ := by
    simp [Streams.count]
  rcases lt_or_ge k 1 with hk | hk
  · have hr : r = .error .chunkSizeNotPositive (s.count header 0) := decode_of_lt hk
    rw [hr]
    exact counted_of_kind_ne (by decide) huncounted
  obtain ⟨reader, hreader, -, hzero, -⟩ := ofChunkSize?_of_pos hk
  rcases hpump : t.pump reader {} 0 s.source s.sink with ⟨p, source, sink⟩ | ⟨f, source, sink⟩
  swap
  · have hr : r = .error f { s.count header 0 with source, sink } :=
      decode_of_pump_error hreader hpump
    have hinterruption : t.Interruption {} s.source.fault s.sink.fault f :=
      interruption_of_pump (by rw [hpump]; rfl)
    rw [hr]
    exact counted_of_kind_ne hinterruption.kind_ne huncounted
  obtain ⟨bytes, hgave, hgood, hout, hadded, hwritten⟩ :=
    verdict_of_pump (s := s.count header 0) hreader hzero hpump
  obtain ⟨-, hfinal⟩ := decode_of_pump_ok (s := s.count header 0) hreader hpump
  have hgot : (s.source.data.extract s.source.pos (final r).source.pos).toList = bytes := by
    rw [show final r = _ from hfinal]
    exact congrArg Array.toList hgave.extract
  have hgrown : ∀ n : ℕ, (s.count header 0).Added (final r) n
      (t.scan {} #[] 0 (bitsOf bytes)).symbols.size → s.Grown (final r) (header + n) :=
    fun n hn => ⟨_, hwritten, hn.behind⟩
  rw [hgot, hout]
  rcases hscan : t.scan {} #[] 0 (bitsOf bytes) with ⟨symbols, used, c | _ | f⟩
  · rw [hscan] at hgrown
    rw [verdict_of_more hscan] at hadded ⊢
    exact hgrown _ hadded
  · have hstop : (t.scan {} #[] 0 (bitsOf bytes)).ending = .stopped := by rw [hscan]
    obtain ⟨slots, rest, hf⟩ := h.factors_of_scan hstop
    have hused : used = t.payloadLength slots := by
      have := congrArg Scan.used (hscan.symm.trans (h.scan_of_factors hf #[] 0))
      rwa [Nat.zero_add] at this
    rw [hscan] at hgrown
    rw [verdict_of_stopped hscan, hused] at hadded
    rw [verdict_of_stopped hscan]
    exact counted_of_factors hf (hgrown _ hadded) _
  · exact absurd (by rw [hscan]) (hgood f)

/-- Whether anybody keeps totals is nothing that decoding notices. -/
theorem Tree.blind_decode_untold (t : Tree) (k : ℤ) :
    Blind (fun s : Streams => { s with stats := none }) (t.decode k) := by
  intro s
  unfold decode
  cases BitReader.ofChunkSize? k with
  | none => rfl
  | some reader =>
    dsimp only
    rcases t.pump reader {} 0 s.source s.sink with ⟨p, source, sink⟩ | ⟨f, source, sink⟩
    · dsimp only
      cases t.settle p <;> rfl
    · rfl

/-- Nor unpacking. -/
theorem unpack_untold (ahead : List UInt8) (size : Option ℤ) (k : ℤ) (s : Streams) :
    outcome (unpack ahead size k { s with stats := none }) = outcome (unpack ahead size k s) ∧
      final (unpack ahead size k { s with stats := none }) =
        { final (unpack ahead size k s) with stats := none } := by
  have hread : Blind (fun s : Streams => { s with stats := none }) (fromSource (Tree.read ahead size)) := by
    intro s
    unfold fromSource
    cases Tree.read ahead size s.source <;> rfl
  have hopen : Blind (fun s : Streams => { s with stats := none }) (openTree ahead size) :=
    hread.bind fun t => Blind.bind (fun _ => rfl) fun _ => blind_pure _
  have hunpack : Blind (fun s : Streams => { s with stats := none }) (unpack ahead size k) :=
    hopen.bind fun t => (t.blind_decode_untold k).bind fun d => blind_pure _
  rw [hunpack s, outcome_mapState, final_mapState]
  exact ⟨rfl, rfl⟩

/-- **The totals after any run**, whatever the streams do. A header that is refused leaves them as they
are. A good one is counted by its bytes, those that were read ahead among them, and then the payload
by how decoding it ends (`Counted`). Nothing else depends on whether anybody keeps totals. -/
theorem unpack_counts (ahead : List UInt8) (size : Option ℤ) (k : ℤ) (s : Streams) :
    let r := unpack ahead size k s
    (match Tree.read ahead size s.source with
      | .error f source => r = .error f { s with source }
      | .ok t source =>
        let header : ℤ := 1 + t.levels + t.symbols.length
        header = ahead.length + (source.pos - s.source.pos : ℤ) ∧
          Counted t header (source.data.extract source.pos (final r).source.pos).toList s (final r)
            (outcome r)) ∧
      let untold := unpack ahead size k { s with stats := none }
      outcome untold = outcome r ∧ final untold = { final r with stats := none } := by
  intro r
  refine ⟨?_, unpack_untold ahead size k s⟩
  cases hread : Tree.read ahead size s.source with
  | error f source => exact unpack_of_error hread k
  | ok t source =>
    obtain ⟨counts, symbols, bytes, hgood, rfl, htakes, hbytes⟩ := Tree.takes_of_read hread
    obtain ⟨hout, hfinal⟩ := unpack_of_ok hread k
    have hlength := congrArg List.length hbytes
    rw [List.length_append] at hlength
    have hheader := Tree.headerLength_ofCounts counts symbols size
    have hpos := htakes.gave.pos
    refine ⟨?_, ?_⟩
    · rw [show (1 + _ + _ : ℤ) = _ from hheader, ← hlength, hpos]
      push_cast
      ring
    · simp only [r]
      rw [hout, hfinal]
      exact (Tree.consistent_ofCounts hgood size).counted_decode { s with source } k _

end Counting

end PackFormat
