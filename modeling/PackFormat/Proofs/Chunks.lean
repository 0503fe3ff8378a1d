import PackFormat.Decode
import PackFormat.Proofs.Walk

/-!
# Chunk after chunk is all at once

Pumping chunks through a tree comes to what one walk over all bits comes to, however
the source cuts them. Only a walk that fails leaves a trace of the chunks: the
symbols of the chunk that it fails in are not written (`Tree.flushed`).

* `Tree.emissions`: the symbols of a walk, each with the place of its last bit.
* `Tree.Pumped`: how pumping ends.
* `Tree.pumped`: pumping from any source, into a sink that does not fail, ends so.
-/

namespace PackFormat

namespace BitReader

variable {r : BitReader} {s : Source}

/-- A reader that has got `n` more bytes. -/
def past (r : BitReader) (n : ℕ) : BitReader := { r with bytesRead := r.bytesRead + n }

/-- A reader's next chunk, while there are bytes. -/
theorem next_of_upcoming (hr : r.ended = false) (ha : s.upcoming ≠ []) (hm : s.maxRead ≠ some 0) :
    ∃ s', r.next s = .ok (some (bitsOf (s.upcoming.take (s.grant r.chunkSize))))
        (r.past (s.upcoming.take (s.grant r.chunkSize)).length, s') ∧
      s.Past (s.upcoming.take (s.grant r.chunkSize)).length s' := by
  obtain ⟨s', hread, hp⟩ := Source.read_eq ha r.chunkSize
  refine ⟨s', ?_, hp⟩
  simp only [next, past, hr, Bool.false_eq_true, if_false, hread]
  cases hb : s.upcoming.take (s.grant r.chunkSize) with
  | nil =>
    have hg := Source.grant_pos hm r.chunkSize_pos
    rw [List.take_eq_nil_iff] at hb
    exact absurd hb (by rintro (h | h); omega; exact ha h)
  | cons b bytes => rfl

/-- No chunk comes once the bytes are used up. -/
theorem next_of_used_up (hr : r.ended = false) (ha : s.upcoming = []) :
    ∃ s', r.next s =
      match s.haltError with
      | none => .ok none ({ r with ended := true }, s')
      | some e => .error (.ofRead "packed payload" e) ({ r with ended := true }, s') := by
  obtain ⟨s', hread⟩ := Source.read_end ha r.chunkSize
  refine ⟨s', ?_⟩
  simp only [next, hr, Bool.false_eq_true, if_false, hread]
  cases s.haltError with
  | none => rfl
  | some e => rfl

end BitReader

/-- A sink that does not fail takes all that it is given. -/
theorem Sink.flush_ok {k : Sink} (hk : k.fault = none) (bytes : Array UInt8) :
    ∃ k', k.flush bytes = .ok () k' ∧ k'.fault = none ∧ k'.written = k.written ++ bytes := by
  unfold flush
  by_cases hb : bytes.isEmpty = true
  · rw [if_pos hb]
    rw [Array.isEmpty_iff] at hb
    exact ⟨k, rfl, hk, by rw [hb, Array.append_empty]⟩
  · rw [if_neg hb]
    simp only [write, hk, Option.filter_none]
    exact ⟨_, rfl, rfl, Array.toList_inj.1 (by simp)⟩

/-- What a pass comes to that runs into the halt of its source. -/
def Pass.atHalt (p : Pass) (o : Option StreamError) (streams : Source × Sink) :
    EStateM.Result Failure (Source × Sink) Pass :=
  match o with
  | none => .ok p streams
  | some e => .error (.ofRead "packed payload" e) streams

namespace Tree

/-- **The symbols of a walk**, each with the place of its last bit. -/
def emissions (t : Tree) (c : Cursor) (used : ℕ) : List Bool → List (ℕ × UInt8)
  | [] => []
  | bit :: bits =>
    match t.step c bit with
    | .descend c => t.emissions c (used + 1) bits
    | .symbol b => (used, b) :: t.emissions {} (used + 1) bits
    | .stop => []
    | .fail _ => []

/-- The chunk of the bit that ended a walk, when each chunk has `size` bytes. -/
def lastChunk (t : Tree) (c : Cursor) (size : ℕ) (bits : List Bool) : ℕ :=
  ((t.scan c #[] 0 bits).used - 1) / (8 * size)

/-- **The symbols that are written before a walk fails**: those whose last bit lies in a chunk
before the chunk of the bit it fails at. -/
def flushed (t : Tree) (c : Cursor) (size : ℕ) (bits : List Bool) : List UInt8 :=
  ((t.emissions c 0 bits).filter fun e => e.1 / (8 * size) < t.lastChunk c size bits).map (·.2)

variable {t : Tree} {c c' : Cursor} {xs ys bits : List Bool}

/-- The symbols of a walk are those it gives. -/
theorem symbols_scan (t : Tree) (c : Cursor) (symbols : Array UInt8) (used : ℕ) (bits : List Bool) :
    (t.scan c symbols used bits).symbols =
      symbols ++ ((t.emissions c used bits).map (·.2)).toArray := by
  induction bits generalizing c symbols used with
  | nil => simp [scan, emissions]
  | cons bit bits ih =>
    simp only [scan, emissions]
    cases t.step c bit with
    | descend c => simp only; rw [ih]
    | symbol b => simp only; rw [ih]; simp
    | stop => simp
    | fail f => simp

/-- Counting from elsewhere moves all places. -/
theorem emissions_shift (t : Tree) (c : Cursor) (n used : ℕ) (bits : List Bool) :
    t.emissions c (n + used) bits = (t.emissions c used bits).map fun e => (n + e.1, e.2) := by
  induction bits generalizing c used with
  | nil => rfl
  | cons bit bits ih =>
    simp only [emissions]
    cases t.step c bit with
    | descend c => exact ih c (used + 1)
    | symbol b => simp only [List.map_cons]; rw [← ih {} (used + 1)]; rfl
    | stop => rfl
    | fail f => rfl

/-- Symbols come within the bits of a walk. -/
theorem emissions_mem {used : ℕ} {e : ℕ × UInt8} (he : e ∈ t.emissions c used bits) :
    used ≤ e.1 ∧ e.1 < used + bits.length := by
  induction bits generalizing c used with
  | nil => cases he
  | cons bit bits ih =>
    rw [List.length_cons]
    simp only [emissions] at he
    cases hs : t.step c bit with
    | descend c => rw [hs] at he; have := ih he; omega
    | symbol b =>
      rw [hs] at he
      rcases List.mem_cons.1 he with rfl | he
      · simp only; omega
      · have := ih he; omega
    | stop => rw [hs] at he; cases he
    | fail f => rw [hs] at he; cases he

/-- Symbols come in the order of their places. -/
theorem emissions_sorted (t : Tree) (c : Cursor) (used : ℕ) (bits : List Bool) :
    (t.emissions c used bits).Pairwise (·.1 ≤ ·.1) := by
  induction bits generalizing c used with
  | nil => exact List.Pairwise.nil
  | cons bit bits ih =>
    simp only [emissions]
    cases t.step c bit with
    | descend c => exact ih c (used + 1)
    | symbol b =>
      refine List.pairwise_cons.2 ⟨?_, ih {} (used + 1)⟩
      intro e he
      have := (emissions_mem he).1
      simp only; omega
    | stop => exact List.Pairwise.nil
    | fail f => exact List.Pairwise.nil

/-- The symbols of a walk that goes on behind `xs` are those of both parts. -/
theorem emissions_append {symbols : Array UInt8} {used n : ℕ}
    (h : (t.scan c symbols n xs).ending = .more c') :
    t.emissions c used (xs ++ ys) =
      t.emissions c used xs ++ t.emissions c' (used + xs.length) ys := by
  induction xs generalizing c symbols used n with
  | nil => cases h; rfl
  | cons bit xs ih =>
    simp only [scan] at h
    simp only [List.cons_append, emissions, List.length_cons]
    cases hs : t.step c bit with
    | descend c =>
      rw [hs] at h
      simp only; rw [ih h, Nat.add_assoc, Nat.add_comm 1]
    | symbol b =>
      rw [hs] at h
      simp only; rw [ih h, Nat.add_assoc, Nat.add_comm 1]; rfl
    | stop => rw [hs] at h; cases h
    | fail f => rw [hs] at h; cases h

/-- What is written before a walk fails is a first part of what it gives. -/
theorem flushed_prefix (t : Tree) (c : Cursor) (size : ℕ) (bits : List Bool) :
    t.flushed c size bits <+: (t.emissions c 0 bits).map (·.2) := by
  rw [flushed]
  refine List.IsPrefix.map _ ?_
  have hsorted := t.emissions_sorted c 0 bits
  generalize t.emissions c 0 bits = es at hsorted ⊢
  induction es with
  | nil => exact List.nil_prefix
  | cons e rest ih =>
    obtain ⟨hhead, htail⟩ := List.pairwise_cons.1 hsorted
    by_cases he : e.1 / (8 * size) < t.lastChunk c size bits
    · rw [List.filter_cons_of_pos (by simpa using he)]
      exact List.cons_prefix_cons.2 ⟨rfl, ih htail⟩
    · -- later symbols come in no earlier chunk
      rw [List.filter_eq_nil_iff.2 fun e' he' => ?_]
      · exact List.nil_prefix
      rw [decide_eq_true_iff]
      rcases List.mem_cons.1 he' with rfl | he'
      · exact he
      · have := Nat.div_le_div_right (c := 8 * size) (hhead e' he')
        omega

/-- Nothing is written before a walk that fails in its first chunk. -/
theorem flushed_of_used_le {size : ℕ} (h : (t.scan c #[] 0 bits).used ≤ 8 * size) :
    t.flushed c size bits = [] := by
  have hchunk : t.lastChunk c size bits = 0 := by
    unfold lastChunk
    rcases Nat.eq_zero_or_pos (8 * size) with h0 | hpos
    · rw [h0, Nat.div_zero]
    · exact Nat.div_eq_of_lt (by omega)
  rw [flushed, hchunk]
  simp

/-- **A full chunk that the walk comes through is written**, whatever happens behind it. -/
theorem flushed_append {size : ℕ} (hsize : 0 < size) (hlen : xs.length = 8 * size)
    (h : (t.scan c #[] 0 xs).ending = .more c')
    (hys : ∀ c'', (t.scan c' #[] 0 ys).ending ≠ .more c'') :
    t.flushed c size (xs ++ ys) =
      (t.scan c #[] 0 xs).symbols.toList ++ t.flushed c' size ys := by
  have hused := scan_used_of_more h
  -- seen from before this chunk, the walk ends one chunk later
  have hlast : t.lastChunk c size (xs ++ ys) = t.lastChunk c' size ys + 1 := by
    have hpos := (t.scan_used_le c' #[] 0 ys).2 hys
    have hscan := t.scan_append c #[] 0 xs ys
    rw [show t.scan c #[] 0 xs = ⟨_, _, _⟩ from rfl, h] at hscan
    simp only at hscan
    rw [lastChunk, lastChunk, hscan, scan_eq, hused]
    simp only
    rw [show 0 + xs.length + (t.scan c' #[] 0 ys).used - 1 =
      (t.scan c' #[] 0 ys).used - 1 + 8 * size by omega, Nat.add_div_right _ (by omega)]
  -- so all symbols of this chunk lie before it
  have hfirst : (t.emissions c 0 xs).filter
      (fun e => e.1 / (8 * size) < t.lastChunk c size (xs ++ ys)) = t.emissions c 0 xs := by
    rw [List.filter_eq_self]
    intro e he
    have := (emissions_mem he).2
    rw [hlast, decide_eq_true_iff, Nat.div_eq_of_lt (by omega)]
    omega
  have hrest : t.emissions c' (0 + xs.length) ys =
      (t.emissions c' 0 ys).map fun e => (8 * size + e.1, e.2) := by
    rw [← emissions_shift, hlen]; congr 1; omega
  rw [flushed, emissions_append h, List.filter_append, hfirst, hrest, List.filter_map, List.map_append,
    List.map_map, symbols_scan, flushed]
  congr 1
  · simp
  · congr 1
    refine List.filter_congr fun e _ => ?_
    rw [Function.comp_apply, hlast, decide_eq_decide]
    simp only
    rw [Nat.add_div_left _ (by omega)]
    omega

theorem pump_eq (t : Tree) (reader : BitReader) (c : Cursor) (written : ℕ) (source : Source)
    (sink : Sink) :
    t.pump reader c written source sink =
      match reader.next source with
      | .error f (_, source) => .error f (source, sink)
      | .ok none (reader, source) => .ok ⟨written, reader.bytesRead, none⟩ (source, sink)
      | .ok (some bits) (reader, source) =>
        match t.scan c #[] 0 bits with
        | ⟨_, _, .failed f⟩ => .error f (source, sink)
        | ⟨symbols, used, .stopped⟩ =>
          match sink.flush symbols with
          | .error f sink => .error f (source, sink)
          | .ok () sink =>
            .ok ⟨written + symbols.size, reader.bytesRead,
              some (reader.bytesRead - bits.length / 8 + (used + 7) / 8)⟩ (source, sink)
        | ⟨symbols, _, .more c⟩ =>
          match sink.flush symbols with
          | .error f sink => .error f (source, sink)
          | .ok () sink => t.pump reader c (written + symbols.size) source sink := by
  rw [pump]
  split
  · rename_i hnext; rw [hnext]
  · rename_i hnext; rw [hnext]
  · rename_i hnext; exact hnext ▸ rfl

section Steps

variable {reader reader' : BitReader} {written used : ℕ} {source source' : Source}
  {sink sink' : Sink} {symbols : Array UInt8} {f : Failure}

theorem pump_of_next_error (h : reader.next source = .error f (reader', source')) :
    t.pump reader c written source sink = .error f (source', sink) := by
  rw [pump_eq]; simp only [h]

theorem pump_of_next_none (h : reader.next source = .ok none (reader', source')) :
    t.pump reader c written source sink =
      .ok ⟨written, reader'.bytesRead, none⟩ (source', sink) := by
  rw [pump_eq]; simp only [h]

theorem pump_of_failed (h : reader.next source = .ok (some bits) (reader', source'))
    (hscan : t.scan c #[] 0 bits = ⟨symbols, used, .failed f⟩) :
    t.pump reader c written source sink = .error f (source', sink) := by
  rw [pump_eq]; simp only [h, hscan]

theorem pump_of_stopped (h : reader.next source = .ok (some bits) (reader', source'))
    (hscan : t.scan c #[] 0 bits = ⟨symbols, used, .stopped⟩)
    (hflush : sink.flush symbols = .ok () sink') :
    t.pump reader c written source sink =
      .ok ⟨written + symbols.size, reader'.bytesRead,
        some (reader'.bytesRead - bits.length / 8 + (used + 7) / 8)⟩ (source', sink') := by
  rw [pump_eq]; simp only [h, hscan, hflush]

theorem pump_of_more (h : reader.next source = .ok (some bits) (reader', source'))
    (hscan : t.scan c #[] 0 bits = ⟨symbols, used, .more c'⟩)
    (hflush : sink.flush symbols = .ok () sink') :
    t.pump reader c written source sink =
      t.pump reader' c' (written + symbols.size) source' sink' := by
  rw [pump_eq]; simp only [h, hscan, hflush]

theorem pump_of_flush_error (h : reader.next source = .ok (some bits) (reader', source'))
    (hscan : ∀ f, (t.scan c #[] 0 bits).ending ≠ .failed f)
    (hflush : sink.flush (t.scan c #[] 0 bits).symbols = .error f sink') :
    t.pump reader c written source sink = .error f (source', sink') := by
  rw [pump_eq]
  rcases hs : t.scan c #[] 0 bits with ⟨symbols, used, c₁ | _ | f'⟩
  · rw [hs] at hflush; simp only [h, hs, hflush]
  · rw [hs] at hflush; simp only [h, hs, hflush]
  · rw [hs] at hscan; exact absurd rfl (hscan f')

end Steps

/-- **What pumping comes to**: what one walk over all bits comes to, unless that goes on and the
source raises an error. What the walk gives is written, but a failing walk's last chunk is not. -/
def Pumped (t : Tree) (reader : BitReader) (c : Cursor) (written : ℕ) (source : Source)
    (sink : Sink) : Prop :=
  ∃ source' sink',
    match t.scan c #[] 0 (bitsOf source.upcoming) with
    | ⟨symbols, _, .more _⟩ =>
      t.pump reader c written source sink =
          Pass.atHalt ⟨written + symbols.size, reader.bytesRead + source.upcoming.length, none⟩
            source.haltError (source', sink') ∧
        sink'.written = sink.written ++ symbols
    | ⟨symbols, used, .stopped⟩ =>
      (∃ received, t.pump reader c written source sink =
          .ok ⟨written + symbols.size, received, some (reader.bytesRead + (used + 7) / 8)⟩
            (source', sink')) ∧
        sink'.written = sink.written ++ symbols
    | ⟨_, _, .failed f⟩ =>
      t.pump reader c written source sink = .error f (source', sink') ∧
        sink'.written = sink.written ++
          t.flushed c (source.grant reader.chunkSize) (bitsOf source.upcoming)

section Chunk

variable {reader : BitReader} {source source₁ : Source} {sink sink₁ : Sink} {written g used : ℕ}
  {symbols : Array UInt8} {c₁ : Cursor} {f : Failure}

theorem bitsOf_take_drop (g : ℕ) (bytes : List UInt8) :
    bitsOf bytes = bitsOf (bytes.take g) ++ bitsOf (bytes.drop g) := by
  rw [← bitsOf_append, List.take_append_drop]

/-- **Behind a chunk that the walk comes through**, pumping goes on as if from the start. -/
theorem pumped_of_more (hg : g = source.grant reader.chunkSize) (hpos : 0 < g)
    (hnext : reader.next source = .ok (some (bitsOf (source.upcoming.take g)))
      (reader.past (source.upcoming.take g).length, source₁))
    (hp : source.Past (source.upcoming.take g).length source₁)
    (hscan : t.scan c #[] 0 (bitsOf (source.upcoming.take g)) = ⟨symbols, used, .more c₁⟩)
    (hflush : sink.flush symbols = .ok () sink₁) (hwritten : sink₁.written = sink.written ++ symbols)
    (hrest : t.Pumped (reader.past (source.upcoming.take g).length) c₁ (written + symbols.size)
      source₁ sink₁) :
    t.Pumped reader c written source sink := by
  have hmore : (t.scan c #[] 0 (bitsOf (source.upcoming.take g))).ending = .more c₁ := by rw [hscan]
  have hused : used = 8 * (source.upcoming.take g).length := by
    have := scan_used_of_more hmore
    rwa [hscan, length_bitsOf, Nat.zero_add] at this
  have hlen : (source.upcoming.take g).length = min g source.upcoming.length := List.length_take
  have hgrant : source₁.grant (reader.past (source.upcoming.take g).length).chunkSize = g :=
    (hp.grant _).trans hg.symm
  have hhalt : source₁.haltError = source.haltError := hp.haltError (by omega)
  obtain ⟨source', sink', hrest⟩ := hrest
  refine ⟨source', sink', ?_⟩
  rw [pump_of_more hnext hscan hflush, bitsOf_take_drop g source.upcoming, scan_append, hscan]
  simp only
  rw [scan_eq]
  rw [hgrant, hhalt, hp.upcoming_take] at hrest
  rcases hscan₁ : t.scan c₁ #[] 0 (bitsOf (source.upcoming.drop g)) with ⟨symbols₁, used₁, c₂ | _ | f⟩
  all_goals simp only [hscan₁] at hrest ⊢
  · obtain ⟨hpump, hwritten₁⟩ := hrest
    refine ⟨hpump.trans ?_, by rw [hwritten₁, hwritten, Array.append_assoc]⟩
    congr 1
    rw [Array.size_append, Pass.mk.injEq, List.length_drop, BitReader.past]
    exact ⟨by omega, by simp only; omega, rfl⟩
  · obtain ⟨⟨received, hpump⟩, hwritten₁⟩ := hrest
    refine ⟨⟨received, hpump.trans ?_⟩, by rw [hwritten₁, hwritten, Array.append_assoc]⟩
    congr 1
    rw [Array.size_append, Pass.mk.injEq, Option.some.injEq, BitReader.past]
    exact ⟨by omega, rfl, by simp only; omega⟩
  · obtain ⟨hpump, hwritten₁⟩ := hrest
    -- a walk that fails behind this chunk fails behind a full one
    have hfull : g ≤ source.upcoming.length := by
      by_contra hshort
      rw [List.drop_of_length_le (by omega)] at hscan₁
      cases hscan₁
    have hlast : ∀ c₂, (t.scan c₁ #[] 0 (bitsOf (source.upcoming.drop g))).ending ≠ .more c₂ := by
      rw [hscan₁]; simp
    have hflushed := flushed_append hpos (by rw [length_bitsOf]; omega) hmore hlast
    rw [hscan] at hflushed
    refine ⟨hpump, ?_⟩
    rw [hwritten₁, hwritten, ← hg, hflushed]
    exact Array.toList_inj.1 (by simp)

/-- **The chunk with the stop code is the last.** -/
theorem pumped_of_stopped
    (hnext : reader.next source = .ok (some (bitsOf (source.upcoming.take g)))
      (reader.past (source.upcoming.take g).length, source₁))
    (hscan : t.scan c #[] 0 (bitsOf (source.upcoming.take g)) = ⟨symbols, used, .stopped⟩)
    (hflush : sink.flush symbols = .ok () sink₁) (hwritten : sink₁.written = sink.written ++ symbols) :
    t.Pumped reader c written source sink := by
  have hconsumed : (reader.past (source.upcoming.take g).length).bytesRead -
      (bitsOf (source.upcoming.take g)).length / 8 = reader.bytesRead := by
    rw [length_bitsOf, Nat.mul_div_cancel_left _ (by omega)]
    exact Nat.add_sub_cancel _ _
  refine ⟨source₁, sink₁, ?_⟩
  rw [bitsOf_take_drop g source.upcoming, scan_append, hscan]
  simp only
  rw [pump_of_stopped hnext hscan hflush, hconsumed]
  exact ⟨⟨_, rfl⟩, hwritten⟩

/-- **So is the chunk that the walk fails in**, and it is not written. -/
theorem pumped_of_failed (hg : g = source.grant reader.chunkSize)
    (hnext : reader.next source = .ok (some (bitsOf (source.upcoming.take g)))
      (reader.past (source.upcoming.take g).length, source₁))
    (hscan : t.scan c #[] 0 (bitsOf (source.upcoming.take g)) = ⟨symbols, used, .failed f⟩) :
    t.Pumped reader c written source sink := by
  have hfirst : (t.scan c #[] 0 (bitsOf source.upcoming)).used ≤ 8 * g := by
    have hle := (t.scan_used_le c #[] 0 (bitsOf (source.upcoming.take g))).1
    have htake : (source.upcoming.take g).length ≤ g := List.length_take_le ..
    rw [hscan, length_bitsOf] at hle
    rw [bitsOf_take_drop g source.upcoming, scan_append, hscan]
    simp only at hle ⊢
    omega
  have hflushed := flushed_of_used_le hfirst
  rw [bitsOf_take_drop g source.upcoming] at hflushed
  refine ⟨source₁, sink, ?_⟩
  rw [bitsOf_take_drop g source.upcoming, scan_append, hscan, ← hg, hflushed]
  exact ⟨pump_of_failed hnext hscan, Array.toList_inj.1 (by simp)⟩

end Chunk

/-- **Pumping is one walk over all bits**, into a sink that does not fail. -/
theorem pumped (t : Tree) {reader : BitReader} (hr : reader.ended = false) {source : Source}
    (hm : source.maxRead ≠ some 0) {sink : Sink} (hk : sink.fault = none) (c : Cursor)
    (written : ℕ) : t.Pumped reader c written source sink := by
  -- each chunk shortens what is to come by what a read grants
  induction hn : source.upcoming.length using Nat.strong_induction_on
    generalizing reader source sink c written with
  | h n ih =>
    by_cases ha : source.upcoming = []
    · obtain ⟨source', hnext⟩ := BitReader.next_of_used_up hr ha
      refine ⟨source', sink, ?_⟩
      rw [ha]
      cases hhalt : source.haltError with
      | none =>
        rw [hhalt] at hnext
        rw [pump_of_next_none hnext]
        exact ⟨rfl, (Array.append_empty).symm⟩
      | some e =>
        rw [hhalt] at hnext
        rw [pump_of_next_error hnext]
        exact ⟨rfl, (Array.append_empty).symm⟩
    have hpos := List.length_pos_iff.2 ha
    have hg := Source.grant_pos hm reader.chunkSize_pos
    obtain ⟨source₁, hnext, hp⟩ := BitReader.next_of_upcoming hr ha hm
    rcases hscan : t.scan c #[] 0 (bitsOf (source.upcoming.take (source.grant reader.chunkSize))) with
      ⟨symbols, used, c₁ | _ | f⟩
    · obtain ⟨sink₁, hflush, hk₁, hwritten⟩ := Sink.flush_ok hk symbols
      have hr₁ : ∀ n, (reader.past n).ended = false := fun _ => hr
      have hshorter : source₁.upcoming.length < n := by
        rw [hp.upcoming_take, List.length_drop]; omega
      refine pumped_of_more rfl hg hnext hp hscan hflush hwritten ?_
      exact ih _ hshorter (hr₁ _) (hp.maxRead ▸ hm) hk₁ c₁ (written + symbols.size) rfl
    · obtain ⟨sink₁, hflush, -, hwritten⟩ := Sink.flush_ok hk symbols
      exact pumped_of_stopped hnext hscan hflush hwritten
    · exact pumped_of_failed rfl hnext hscan

end Tree

end PackFormat
