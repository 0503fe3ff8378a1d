import PackFormat.Proofs.Unpack

/-!
# The byte that was read ahead

A source that has other bytes in front of its data, and stands as much further on, gives
the same bytes at each read. Whatever is read from it comes to the same, up to the source
that is left. So once the header byte is there, it does not matter whether it was read or
handed over.

* `Source.behind`: a source with bytes in front.
* `Source.blind_read`: a read does not notice them (`Blind`), and so does nothing that is
  made of reads, decoding a payload for one (`Tree.blind_decode`).
* `unpack_sniffed`: **unpacking with the header byte handed over.**
-/

namespace PackFormat

namespace Source

/-- **A source with bytes in front** of its data, and with reads in front of its log. -/
def behind (front : Array UInt8) (log : Array ℕ) (s : Source) : Source :=
  { s with
    data := front ++ s.data
    pos := front.size + s.pos
    silentAt := s.silentAt.map (front.size + ·)
    fault := s.fault.map fun fault => { fault with position := front.size + fault.position }
    requests := log ++ s.requests }

variable {front : Array UInt8} {log : Array ℕ}

/-- A read stops behind the bytes in front as it does without them. -/
theorem stop_behind (s : Source) (n : ℕ) : (s.behind front log).stop n = front.size + s.stop n := by
  unfold stop behind
  cases s.maxRead <;> cases s.silentAt <;> cases s.fault <;>
    simp only [List.foldl_cons, List.foldl_nil, Option.map_none, Option.map_some, Option.getD_none,
      Option.getD_some] <;> omega

/-- **A read gives the same** with bytes in front. -/
theorem blind_read (front : Array UInt8) (log : Array ℕ) (n : ℕ) :
    Blind (behind front log) (read n) := by
  intro s
  have hsilent : (s.behind front log).silentAt.any (· ≤ (s.behind front log).pos) =
      s.silentAt.any (· ≤ s.pos) := by
    cases h : s.silentAt <;> simp [behind, h]
  have hfault : (s.behind front log).fault.filter (·.position ≤ (s.behind front log).pos) =
      (s.fault.filter (·.position ≤ s.pos)).map
        fun fault => { fault with position := front.size + fault.position } := by
    cases h : s.fault with
    | none => simp [behind, h]
    | some fault => by_cases hle : fault.position ≤ s.pos <;> simp [behind, h, Option.filter, hle]
  have hbytes : (s.behind front log).data.extract (s.behind front log).pos
      ((s.behind front log).stop n) = s.data.extract s.pos (s.stop n) := by
    rw [stop_behind]
    simp [behind, Array.extract_append]
  have hlog : (s.behind front log).requests.push n = log ++ s.requests.push n :=
    Array.append_push.symm
  by_cases hs : s.silentAt.any (· ≤ s.pos) = true
  · rw [← hsilent] at hs
    simp only [read, hs, hsilent ▸ hs, if_true, hlog]
    rfl
  cases hf : s.fault.filter (·.position ≤ s.pos) with
  | some fault =>
    rw [hf] at hfault
    simp only [read, hsilent, hs, hf, hfault, hlog, Bool.false_eq_true, if_false, Option.map_some]
    rfl
  | none =>
    rw [hf] at hfault
    rw [Bool.not_eq_true] at hs
    rw [read_of_open hs hf, read_of_open (hsilent.trans hs) hfault, hbytes, hlog]
    simp only [mapState, behind, Nat.add_assoc]

end Source

section Lifting

variable {φ : Source → Source} (hφ : ∀ n, Blind φ (Source.read n))

include hφ

/-- So is reading a number of bytes. -/
theorem blind_readExact (n : ℤ) (part : String) : Blind φ (readExact n part) := by
  intro s
  -- by what is missing: a read that gives something leaves less of it
  induction hm : n.toNat using Nat.strong_induction_on generalizing n s with
  | h m ih =>
    rw [readExact, readExact]
    split
    · rw [hφ]
      rcases hread : s.read n.toNat with ⟨_ | ⟨b, bytes⟩, s₁⟩ | ⟨e, s₁⟩
      · rfl
      · simp only [mapState]
        rw [ih _ (by omega) _ s₁ rfl]
        cases readExact (n - (bytes.length + 1)) part s₁ <;> rfl
      · rfl
    · rfl

theorem blind_readLevelCounts (levels : ℤ) : Blind φ (Header.readLevelCounts levels) := by
  refine (blind_readExact hφ _ _).bind fun bytes => ?_
  dsimp only
  split
  · exact blind_throw _
  · exact blind_pure _

/-- So is the next chunk of a reader. -/
theorem next_blind (r : BitReader) (s : Source) :
    r.next (φ s) = mapState (Prod.map id φ) (r.next s) := by
  unfold BitReader.next
  split
  · rfl
  rw [hφ]
  rcases s.read r.chunkSize with ⟨_ | ⟨b, bytes⟩, s₁⟩ | ⟨e, s₁⟩ <;> rfl

namespace Tree

/-- So is a pass over a payload, chunk after chunk. -/
theorem pump_blind (t : Tree) (reader : BitReader) (c : Cursor) (written : ℕ) (source : Source)
    (sink : Sink) :
    t.pump reader c written (φ source) sink =
      mapState (Prod.map φ id) (t.pump reader c written source sink) := by
  -- each chunk leaves less of the source
  induction hn : source.remaining using Nat.strong_induction_on
    generalizing reader c written source sink with
  | h n ih =>
    have hφnext := next_blind hφ reader source
    rcases hnext : reader.next source with ⟨_ | bits, reader₁, source₁⟩ | ⟨f, reader₁, source₁⟩
    all_goals rw [hnext] at hφnext
    · rw [pump_of_next_none hφnext, pump_of_next_none hnext]
      rfl
    · rcases hscan : t.scan c #[] 0 bits with ⟨symbols, used, c₁ | _ | f⟩
      · rcases hflush : sink.flush symbols with ⟨⟨⟩, sink₁⟩ | ⟨f, sink₁⟩
        · rw [pump_of_more hφnext hscan hflush, pump_of_more hnext hscan hflush]
          exact ih _ (hn ▸ BitReader.remaining_lt_of_next hnext) _ _ _ source₁ sink₁ rfl
        · rw [pump_of_flush_error hφnext (by simp [hscan]) (by rw [hscan]; exact hflush),
            pump_of_flush_error hnext (by simp [hscan]) (by rw [hscan]; exact hflush)]
          rfl
      · rcases hflush : sink.flush symbols with ⟨⟨⟩, sink₁⟩ | ⟨f, sink₁⟩
        · rw [pump_of_stopped hφnext hscan hflush, pump_of_stopped hnext hscan hflush]
          rfl
        · rw [pump_of_flush_error hφnext (by simp [hscan]) (by rw [hscan]; exact hflush),
            pump_of_flush_error hnext (by simp [hscan]) (by rw [hscan]; exact hflush)]
          rfl
      · rw [pump_of_failed hφnext hscan, pump_of_failed hnext hscan]
        rfl
    · rw [pump_of_next_error hφnext, pump_of_next_error hnext]
      rfl

end Tree

end Lifting

/-- Streams with another source. -/
def Streams.mapSource (φ : Source → Source) (s : Streams) : Streams := { s with source := φ s.source }

section Streams

variable {φ : Source → Source} {α : Type}

/-- What reading the sources of two streams comes to differs as the sources do. -/
theorem fromSource_mapState {x y : EStateM Failure Source α} {s s' : Streams} (source : Source)
    (hs : s' = { s with source }) (h : x source = mapState φ (y s.source)) :
    fromSource x s' = mapState (Streams.mapSource φ) (fromSource y s) := by
  subst hs
  simp only [fromSource, h]
  cases y s.source <;> rfl

/-- So is decoding a payload. -/
theorem Tree.blind_decode (hφ : ∀ n, Blind φ (Source.read n)) (t : Tree) (k : ℤ) :
    Blind (Streams.mapSource φ) (t.decode k) := by
  intro s
  unfold decode
  cases BitReader.ofChunkSize? k with
  | none => rfl
  | some reader =>
    simp only [Streams.mapSource, pump_blind hφ]
    rcases t.pump reader {} 0 s.source s.sink with ⟨p, source, sink⟩ | ⟨f, source, sink⟩
    · simp only [mapState, Prod.map, id]
      cases t.settle p <;> rfl
    · rfl

end Streams

namespace Header

/-- The depth in a byte that was read ahead. Nothing is read. -/
theorem readDepth_singleton (b : UInt8) (s : Source) :
    readDepth [b] s =
      if 1 ≤ b.toNat ∧ b.toNat ≤ maxDepth then .ok b.toNat s
      else .error (.insaneLevels b.toNat) s := by
  have hnone : readExact (1 - [b].length) "pack header" s = .ok [] s := by
    rw [readExact]
    rfl
  rw [readDepth, if_neg (by simp), bind_of_ok hnone, List.append_nil, List.headD_cons]
  split <;> rfl

end Header

namespace Source

/-- **A source without its first byte**: the same data, limits and faults, all of them one byte nearer. -/
def tail (s : Source) : Source :=
  { s with
    data := s.data.extract 1
    pos := 0
    silentAt := s.silentAt.map (· - 1)
    fault := s.fault.map fun fault => { fault with position := fault.position - 1 }
    requests := #[] }

variable {s : Source} {b : UInt8} {bytes : List UInt8}

/-- A source that stands behind its first byte is its tail with that byte in front. -/
theorem behind_tail {s' : Source} (hdata : s.data.toList = b :: bytes) (hpos : s.pos = 0)
    (hsilent : ∀ p ∈ s.silentAt, 1 ≤ p) (hfault : ∀ f ∈ s.fault, 1 ≤ f.position) (h : s.Past 1 s') :
    s' = s.tail.behind #[b] s'.requests := by
  have hbytes : s.data = #[b] ++ s.data.extract 1 := by
    apply Array.toList_inj.1
    rw [Array.toList_append, Array.toList_extract, hdata]
    simp [List.extract_eq_take_drop, ← Array.length_toList, hdata]
  have hsilent' : s.silentAt = (s.silentAt.map (· - 1)).map (1 + ·) := by
    cases hs : s.silentAt with
    | none => rfl
    | some p => simp [Nat.add_sub_cancel' (hsilent p hs)]
  have hfault' : s.fault =
      (s.fault.map fun fault => { fault with position := fault.position - 1 }).map
        fun fault => { fault with position := 1 + fault.position } := by
    cases hf : s.fault with
    | none => rfl
    | some f => simp [Nat.add_sub_cancel' (hfault f hf)]
  rw [h]
  unfold tail behind
  simp only [Array.append_empty, ← hbytes, hpos, List.size_toArray, List.length_singleton, ← hsilent',
    ← hfault', Nat.zero_add, Nat.add_zero]

end Source

section ReadAhead

section Header

variable {s : Source} {b : UInt8} {bytes : List UInt8} (hdata : s.data.toList = b :: bytes)
  (hpos : s.pos = 0) (hm : s.maxRead ≠ some 0) (hsilent : ∀ p ∈ s.silentAt, 1 ≤ p)
  (hfault : ∀ f ∈ s.fault, 1 ≤ f.position)

include hdata hpos hm hsilent hfault

/-- **The header byte may be read or handed over**: it says the same, and the source stands behind it
then. -/
theorem readDepth_sniffed :
    ∃ log, Header.readDepth [] s =
      mapState (Source.behind #[b] log) (Header.readDepth [b] s.tail) := by
  -- nothing stops the first read short of the first byte
  have hhalt : 0 < s.halt := by
    have hsize : 0 < s.data.size := by rw [← Array.length_toList, hdata]; exact Nat.succ_pos _
    unfold Source.halt
    refine lt_min hsize (lt_min ?_ ?_)
    · cases hs : s.silentAt with
      | none => exact hsize
      | some p => exact hsilent p hs
    · cases hf : s.fault with
      | none => exact hsize
      | some f => exact hfault f hf
  obtain ⟨upcoming, hupcoming⟩ : ∃ upcoming, s.upcoming = b :: upcoming := by
    obtain ⟨n, hn⟩ := Nat.exists_eq_succ_of_ne_zero hhalt.ne'
    exact ⟨bytes.take n, by rw [Source.upcoming, hpos, hdata, hn]; rfl⟩
  have ha : ([] : List UInt8).length ≤ 1 := Nat.zero_le 1
  obtain ⟨s', hpast, -, hread⟩ := Header.readDepth_of_cons hm ha hupcoming
  refine ⟨s'.requests, ?_⟩
  rw [hread, Header.readDepth_singleton, Source.behind_tail hdata hpos hsilent hfault hpast]
  split <;> rfl

/-- So is the tree. -/
theorem Tree.read_sniffed (size : Option ℤ) :
    ∃ log, Tree.read [] size s = mapState (Source.behind #[b] log) (Tree.read [b] size s.tail) := by
  obtain ⟨log, hdepth⟩ := readDepth_sniffed hdata hpos hm hsilent hfault
  have hφ := Source.blind_read #[b] log
  exact ⟨log, bind_mapState hdepth fun depth =>
    (blind_readLevelCounts hφ depth).bind fun counts =>
      (blind_readExact hφ _ _).bind fun symbols => blind_pure _⟩

end Header

/-- **Whoever sniffed the format may hand over the byte that it took.** Unpacking a source from its
start, and unpacking its tail with its first byte read ahead, end alike: with the same number or the same
failure, the same bytes written and the same totals, and one place apart. It makes no difference how long
the reads are, what stops them behind the first byte, and whether the sink fails. More than one byte
cannot be handed over: then nothing is touched. -/
theorem unpack_sniffed {s : Streams} (hdata : s.source.data ≠ #[]) (hpos : s.source.pos = 0)
    (hm : s.source.maxRead ≠ some 0) (hsilent : ∀ p ∈ s.source.silentAt, 1 ≤ p)
    (hfault : ∀ f ∈ s.source.fault, 1 ≤ f.position) (size : Option ℤ) (k : ℤ) :
    let whole := unpack [] size k s
    let sniffed := unpack (s.source.data.toList.take 1) size k (s.mapSource Source.tail)
    (outcome whole = outcome sniffed ∧
        (final whole).sink = (final sniffed).sink ∧ (final whole).stats = (final sniffed).stats ∧
        (final whole).source.pos = (final sniffed).source.pos + 1) ∧
      ∀ (ahead : List UInt8) (s : Streams), 1 < ahead.length →
        unpack ahead size k s = .error .readAheadTooLong s ∧
          Failure.readAheadTooLong.kind = .badValue := by
  intro whole sniffed
  refine ⟨?_, fun ahead s hlong =>
    ⟨unpack_of_error (Tree.read_of_long hlong size s.source) k, rfl⟩⟩
  obtain ⟨b, bytes, hbytes⟩ : ∃ b bytes, s.source.data.toList = b :: bytes :=
    List.exists_cons_of_ne_nil fun h => hdata (Array.toList_inj.1 h)
  obtain ⟨log, hread⟩ := Tree.read_sniffed hbytes hpos hm hsilent hfault size
  have hφ := Source.blind_read #[b] log
  have hopen : openTree [] size s =
      mapState (Streams.mapSource (Source.behind #[b] log)) (openTree [b] size (s.mapSource Source.tail)) :=
    bind_mapState (fromSource_mapState s.source rfl hread) fun t =>
      Blind.bind (fun _ => rfl) fun _ => blind_pure _
  have hwhole : whole = mapState (Streams.mapSource (Source.behind #[b] log)) sniffed := by
    simp only [whole, sniffed, hbytes]
    exact bind_mapState hopen fun t => (t.blind_decode hφ k).bind fun d => blind_pure _
  rw [hwhole, outcome_mapState, final_mapState]
  exact ⟨rfl, rfl, rfl, Nat.add_comm _ _⟩

/-- The source fails in the middle of the payload, and in the same place of its tail. -/
theorem unpack_sniffed_failing :
    let e : SystemError := ⟨some 5, "Input/output error"⟩
    let s : Streams :=
      { source :=
          { data := #[2, 1, 0, 65, 66, 0x02, 0x80], maxRead := some 1, fault := some ⟨6, .system e⟩ }
        stats := some {} }
    (s.source.data ≠ #[] ∧ s.source.pos = 0 ∧ s.source.maxRead ≠ some 0 ∧
        (∀ p ∈ s.source.silentAt, 1 ≤ p) ∧ ∀ f ∈ s.source.fault, 1 ≤ f.position) ∧
      let sniffed := unpack [2] none 4
        { source := { data := #[1, 0, 65, 66, 0x02, 0x80], maxRead := some 1, fault := some ⟨5, .system e⟩ }
          stats := some {} }
      outcome sniffed = .error (.reading "packed payload" e) ∧
        (final sniffed).sink.written = #[66, 66, 66, 65] ∧ (final sniffed).source.pos + 1 = 6 := by
  intro e s
  have hdata : s.source.data ≠ #[] := by decide
  have hm : s.source.maxRead ≠ some 0 := by decide
  have hsilent : ∀ p ∈ s.source.silentAt, 1 ≤ p := by simp [s]
  have hfault : ∀ f ∈ s.source.fault, 1 ≤ f.position := by simp [s]
  obtain ⟨⟨hout, hsink, -, hpos⟩, -⟩ := unpack_sniffed hdata rfl hm hsilent hfault none 4
  have hwhole : outcome (unpack [] none 4 s) = .error (.reading "packed payload" e) ∧
      (final (unpack [] none 4 s)).sink.written = #[66, 66, 66, 65] ∧
      (final (unpack [] none 4 s)).source.pos = 6 := by decide +kernel
  refine ⟨⟨hdata, rfl, hm, hsilent, hfault⟩, hout.symm.trans hwhole.1, ?_, hpos.symm.trans hwhole.2.2⟩
  exact (congrArg Sink.written hsink).symm.trans hwhole.2.1

end ReadAhead

end PackFormat
