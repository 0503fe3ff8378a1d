import PackFormat.Proofs.Chunks
import PackFormat.Unpack

/-!
# Whole runs

What decoding a payload comes to is settled by the payload: the outcome, what is
added to the totals and, unless a chunk is cut short by a failure, the bytes
(`Tree.verdict`, `Tree.output`).

* `Streams.Added`: what a run adds to the totals.
* `Tree.decode_verdict`, `unpack_verdict`: decoding and unpacking into a sink that does
  not fail come to just that, but for an error at the halt of the source
  (`Verdict.atHalt`).
* `Tree.decode_clean`, `unpack_clean`: between streams that do not fail.
* `Blind`: a program that does not notice a change of what it works on.
* `chunking_invisible`: **no two ways to cut a stream into chunks can be told
  apart**, but for the bytes of a payload that is corrupt.
-/

namespace PackFormat

section Runs

variable {ε σ α : Type}

/-- What a run comes to, its state apart. -/
def outcome : EStateM.Result ε σ α → Except ε α
  | .ok a _ => .ok a
  | .error e _ => .error e

/-- The state in which a run ends. -/
def final : EStateM.Result ε σ α → σ
  | .ok _ s => s
  | .error _ s => s

theorem eq_ok_of_outcome {r : EStateM.Result ε σ α} {a : α} (h : outcome r = .ok a) :
    r = .ok a (final r) := by
  cases r with
  | ok a' s => cases h; rfl
  | error e s => cases h

theorem eq_error_of_outcome {r : EStateM.Result ε σ α} {e : ε} (h : outcome r = .error e) :
    r = .error e (final r) := by
  cases r with
  | ok a s => cases h
  | error e' s => cases h; rfl

end Runs

section Blind

variable {ε σ τ α β : Type}

/-- A result with another state. -/
def mapState (φ : σ → τ) : EStateM.Result ε σ α → EStateM.Result ε τ α
  | .ok a s => .ok a (φ s)
  | .error e s => .error e (φ s)

theorem outcome_mapState (φ : σ → τ) (r : EStateM.Result ε σ α) :
    outcome (mapState φ r) = outcome r := by
  cases r <;> rfl

theorem final_mapState (φ : σ → τ) (r : EStateM.Result ε σ α) :
    final (mapState φ r) = φ (final r) := by
  cases r <;> rfl

/-- **A program that does not notice** a change of the state: it does the same, and the change is there
afterwards. -/
def Blind (φ : σ → σ) (x : EStateM ε σ α) : Prop := ∀ s, x (φ s) = mapState φ (x s)

variable {φ : σ → σ} {x y : EStateM ε σ α} {f : α → EStateM ε σ β} {s s' : σ}

/-- From two runs that differ by a change on, a program that does not notice it keeps it. -/
theorem bind_mapState (h : x s' = mapState φ (y s)) (hf : ∀ a, Blind φ (f a)) :
    (x >>= f) s' = mapState φ ((y >>= f) s) := by
  cases hy : y s with
  | ok a s₁ =>
    rw [hy] at h
    rw [bind_of_ok h, bind_of_ok hy]
    exact hf a s₁
  | error e s₁ =>
    rw [hy] at h
    rw [bind_of_error h, bind_of_error hy]
    rfl

theorem Blind.bind (hx : Blind φ x) (hf : ∀ a, Blind φ (f a)) : Blind φ (x >>= f) :=
  fun s => bind_mapState (hx s) hf

theorem blind_pure (a : α) : Blind φ (pure a : EStateM ε σ α) := fun _ => rfl

theorem blind_throw (e : ε) : Blind φ (throw e : EStateM ε σ α) := fun _ => rfl

end Blind

section Totals

variable {s s' s'' : Streams} {a a' b b' : ℤ}

/-- **The totals have grown**, if there are any, by so many bytes read and so many written. -/
def Streams.Added (s s' : Streams) (bytesIn bytesOut : ℤ) : Prop :=
  s'.stats = s.stats.map fun totals => ⟨totals.bytesIn + bytesIn, totals.bytesOut + bytesOut⟩

/-- Totals that are the same have grown by nothing. -/
theorem Streams.Added.of_eq (h : s'.stats = s.stats) : s.Added s' 0 0 := by
  rw [Added, h]
  simp

theorem Streams.Added.trans (h : s.Added s' a b) (h' : s'.Added s'' a' b') :
    s.Added s'' (a + a') (b + b') := by
  rw [Added, h', h, Option.map_map]
  congr 1
  funext totals
  simp [add_assoc]

/-- What is added behind a header that was counted. -/
theorem Streams.Added.behind {header : ℤ} (h : (s.count header 0).Added s' a b) :
    s.Added s' (header + a) b := by
  have hadded := Streams.Added.trans (rfl : s.Added (s.count header 0) header 0) h
  rwa [zero_add] at hadded

/-- One amount leads to the same totals. -/
theorem Streams.Added.unique (h : s.Added s' a b) (h' : s.Added s'' a b) : s'.stats = s''.stats :=
  Eq.trans h h'.symm

/-- Totals that start at nothing are what was added. -/
theorem Streams.Added.of_zero (h : s.Added s' a b) (hs : s.stats = some {}) : s'.stats = some ⟨a, b⟩ := by
  rw [h, hs]
  simp

end Totals

/-- What decoding a payload comes to. -/
structure Verdict where
  /-- The number of bytes, or what went wrong. -/
  outcome : Except Failure ℕ
  /-- What the total of bytes read grows by. -/
  bytesIn : ℕ
  /-- What the total of bytes written grows by. -/
  bytesOut : ℕ

/-- What decoding comes to where the bytes do not just end, but the source raises an error: a pass that
is interrupted is not counted. -/
def Verdict.atHalt (v : Verdict) (o : Option StreamError) : Verdict :=
  match o, v.outcome with
  | some e, .error f => if f.isShort then ⟨.error (f.atHalt (some e)), 0, 0⟩ else v
  | _, _ => v

@[simp] theorem Verdict.atHalt_none (v : Verdict) : v.atHalt none = v := rfl

theorem Verdict.atHalt_of_not_short {v : Verdict} (o : Option StreamError)
    (h : ∀ f, v.outcome = .error f → f.isShort = false) : v.atHalt o = v := by
  unfold atHalt
  split
  · rename_i f hf
    rw [h f hf]
    rfl
  · rfl

/-- An interrupted pass. -/
theorem Verdict.atHalt_of_short {v : Verdict} {f : Failure} (e : StreamError)
    (h : v.outcome = .error f) (hf : f.isShort = true) :
    v.atHalt (some e) = ⟨.error (f.atHalt (some e)), 0, 0⟩ := by
  simp only [atHalt, h, hf, if_true]

/-- Where nothing is counted, only the failure changes. -/
theorem Verdict.atHalt_error (f : Failure) (o : Option StreamError) :
    (⟨.error f, 0, 0⟩ : Verdict).atHalt o = ⟨.error (f.atHalt o), 0, 0⟩ := by
  cases o with
  | none => rw [Failure.atHalt_none]; rfl
  | some e =>
    by_cases hf : f.isShort = true
    · exact atHalt_of_short e rfl hf
    · rw [Bool.not_eq_true] at hf
      rw [Failure.atHalt_of_not_short hf]
      exact atHalt_of_not_short _ fun f' hf' => by cases hf'; exact hf

/-- Failures that cut a chunk short. -/
def Failure.IsCut (f : Failure) : Prop := f.kind = .corruptCode ∨ f.kind = .outOfRange

theorem Failure.IsCut.not_short {f : Failure} (h : f.IsCut) : f.isShort = false := by
  cases f with
  | truncated part => rcases h with h | h <;> cases h
  | noStop n => rcases h with h | h <;> cases h
  | _ => rfl

namespace Tree

/-- What `n` symbols are worth: the size of the tree has to be theirs, if it has one. -/
def settled (t : Tree) (n : ℕ) : Except Failure ℕ :=
  match t.size with
  | none => .ok n
  | some expected => if expected = n then .ok n else .error (.sizeMismatch n expected)

/-- **What decoding a payload comes to**, by one walk over its bits. -/
def verdict (t : Tree) (payload : List UInt8) : Verdict :=
  match t.scan {} #[] 0 (bitsOf payload) with
  | ⟨symbols, _, .more _⟩ => ⟨.error (.noStop symbols.size), payload.length, symbols.size⟩
  | ⟨symbols, used, .stopped⟩ => ⟨t.settled symbols.size, (used + 7) / 8, symbols.size⟩
  | ⟨_, _, .failed f⟩ => ⟨.error f, 0, 0⟩

/-- **What decoding a payload writes**, when each chunk has `size` bytes. -/
def output (t : Tree) (size : ℕ) (payload : List UInt8) : List UInt8 :=
  match (t.scan {} #[] 0 (bitsOf payload)).ending with
  | .failed _ => t.flushed {} size (bitsOf payload)
  | _ => (t.emissions {} 0 (bitsOf payload)).map (·.2)

variable {t : Tree} {s : Streams}

section Verdict

variable {payload : List UInt8} {symbols : Array UInt8} {used : ℕ} {c : Cursor}

theorem verdict_of_more (h : t.scan {} #[] 0 (bitsOf payload) = ⟨symbols, used, .more c⟩) :
    t.verdict payload = ⟨.error (.noStop symbols.size), payload.length, symbols.size⟩ := by
  rw [verdict, h]

theorem verdict_of_stopped (h : t.scan {} #[] 0 (bitsOf payload) = ⟨symbols, used, .stopped⟩) :
    t.verdict payload = ⟨t.settled symbols.size, (used + 7) / 8, symbols.size⟩ := by
  rw [verdict, h]

end Verdict

theorem settled_of_none (hsize : t.size = none) (n : ℕ) : t.settled n = .ok n := by
  rw [settled, hsize]

/-- Symbols are worth their number, if anything. -/
theorem eq_of_settled {m n : ℕ} (h : t.settled n = .ok m) : m = n := by
  unfold settled at h
  split at h
  · cases h; rfl
  split at h
  · cases h; rfl
  · cases h

/-- A size that a payload was decoded to is the tree's, if that has one. -/
theorem size_of_settled {n : ℕ} (h : t.settled n = .ok n) : t.size = none ∨ t.size = some (n : ℤ) := by
  unfold settled at h
  cases hsize : t.size with
  | none => exact Or.inl rfl
  | some expected =>
    rw [hsize] at h
    simp only at h
    split at h
    · rename_i heq
      rw [heq]
      exact Or.inr rfl
    · cases h

/-- A tree with a size finds payloads of that size good. -/
theorem settled_of_size {n : ℕ} (h : t.size = some (n : ℤ)) : t.settled n = .ok n := by
  unfold settled
  rw [h]
  exact if_pos rfl

/-- A pass that came to the stop code is worth what its symbols are. -/
theorem settle_of_some (t : Tree) (written received consumed : ℕ) :
    (t.settle ⟨written, received, some consumed⟩).map Decoded.size = t.settled written := by
  unfold settle settled
  rw [if_neg (by simp)]
  cases t.size with
  | none => rfl
  | some expected => by_cases h : expected = (written : ℤ) <;> simp [h, Except.map]

/-- Symbols that are worth nothing are not as many as were announced. -/
theorem eq_sizeMismatch_of_settled {n : ℕ} {f : Failure} (h : t.settled n = .error f) :
    ∃ expected, f = .sizeMismatch n expected := by
  unfold settled at h
  split at h
  · cases h
  split at h
  · cases h
  · cases h; exact ⟨_, rfl⟩

/-- That is no failure for want of bytes. -/
theorem not_short_of_settled {n : ℕ} {f : Failure} (h : t.settled n = .error f) :
    f.isShort = false := by
  obtain ⟨expected, rfl⟩ := eq_sizeMismatch_of_settled h
  rfl

/-- Nor is it one that cuts a chunk short. -/
theorem not_isCut_of_settled {n : ℕ} {f : Failure} (h : t.settled n = .error f) : ¬f.IsCut := by
  obtain ⟨expected, rfl⟩ := eq_sizeMismatch_of_settled h
  rintro (hf | hf) <;> cases hf

section Decode

variable {k : ℤ} {reader : BitReader} {p : Pass} {source : Source} {sink : Sink} {f : Failure}

/-- A reader in chunks of some bytes, before it reads. -/
theorem ofChunkSize?_of_pos (h1 : 1 ≤ k) :
    ∃ reader, BitReader.ofChunkSize? k = some reader ∧ reader.chunkSize = k.toNat ∧
      reader.bytesRead = 0 ∧ reader.ended = false :=
  ⟨⟨k.toNat, by omega, 0, false⟩, dif_pos (by omega), rfl, rfl, rfl⟩

/-- In chunks of no bytes, nothing is decoded. -/
theorem decode_of_lt (h1 : k < 1) : t.decode k s = .error .chunkSizeNotPositive s := by
  have hreader : BitReader.ofChunkSize? k = none := dif_neg (by omega)
  simp only [decode, hreader]

/-- A pass that is interrupted is not counted. -/
theorem decode_of_pump_error (hr : BitReader.ofChunkSize? k = some reader)
    (hp : t.pump reader {} 0 s.source s.sink = .error f (source, sink)) :
    t.decode k s = .error f { s with source, sink } := by
  simp only [decode, hr, hp]

/-- Any other is counted, whatever it is worth. -/
theorem decode_of_pump_ok (hr : BitReader.ofChunkSize? k = some reader)
    (hp : t.pump reader {} 0 s.source s.sink = .ok p (source, sink)) :
    outcome (t.decode k s) = t.settle p ∧
      final (t.decode k s) =
        { s with source, sink }.count (p.consumed.getD p.received) p.written := by
  simp only [decode, hr, hp]
  cases t.settle p with
  | ok d => exact ⟨rfl, rfl⟩
  | error f => exact ⟨rfl, rfl⟩

/-- Decoding leaves the streams where the pass does. -/
theorem streams_of_decode (hr : BitReader.ofChunkSize? k = some reader) :
    (final (t.decode k s)).source = (final (t.pump reader {} 0 s.source s.sink)).1 ∧
      (final (t.decode k s)).sink = (final (t.pump reader {} 0 s.source s.sink)).2 := by
  rcases hpump : t.pump reader {} 0 s.source s.sink with ⟨p, source, sink⟩ | ⟨f, source, sink⟩
  · rw [(decode_of_pump_ok hr hpump).2]
    exact ⟨rfl, rfl⟩
  · rw [decode_of_pump_error hr hpump]
    exact ⟨rfl, rfl⟩

/-- **Why a pass is worth nothing**: it misses the stop code, or comes to another size. -/
theorem eq_of_settle_error (h : t.settle p = .error f) :
    f = .noStop p.written ∨ ∃ expected, f = .sizeMismatch p.written expected := by
  unfold settle at h
  split at h
  · cases h; exact Or.inl rfl
  split at h
  · cases h
  split at h
  · cases h
  · cases h; exact Or.inr ⟨_, rfl⟩

end Decode

/-- **Decoding into a sink that does not fail** comes to what the payload says. -/
theorem decode_verdict (t : Tree) (hm : s.source.maxRead ≠ some 0) (hk : s.sink.fault = none) {k : ℤ}
    (h1 : 1 ≤ k) :
    let v := (t.verdict s.source.upcoming).atHalt s.source.haltError
    (outcome (t.decode k s)).map Decoded.size = v.outcome ∧
      s.Added (final (t.decode k s)) v.bytesIn v.bytesOut ∧
      (final (t.decode k s)).sink.written =
        s.sink.written ++ t.output (s.source.grant k.toNat) s.source.upcoming := by
  obtain ⟨reader, hr, hchunk, hzero, hended⟩ := ofChunkSize?_of_pos h1
  obtain ⟨source', sink', hpump⟩ := t.pumped hended hm hk {} 0
  have hbytes : s.sink.written ++ (t.scan {} #[] 0 (bitsOf s.source.upcoming)).symbols =
      s.sink.written ++ (t.emissions {} 0 (bitsOf s.source.upcoming)).map (·.2) := by
    rw [symbols_scan]
    exact Array.toList_inj.1 (by simp)
  simp only [verdict, output]
  -- the walk runs out of bits, stops, or fails
  rcases hscan : t.scan {} #[] 0 (bitsOf s.source.upcoming) with ⟨symbols, used, c | _ | f⟩
  all_goals
    rw [hscan] at hpump hbytes
    simp only [hchunk, hzero, Nat.zero_add] at hpump hbytes
  · obtain ⟨hrun, hwritten⟩ := hpump
    cases hhalt : s.source.haltError with
    | none =>
      rw [hhalt] at hrun
      obtain ⟨hout, hfinal⟩ := decode_of_pump_ok hr hrun
      rw [hout, hfinal]
      exact ⟨rfl, rfl, hwritten.trans hbytes⟩
    | some e =>
      -- the read behind the last chunk fails, so that what was pumped is not counted
      rw [hhalt] at hrun
      rw [decode_of_pump_error hr hrun]
      exact ⟨rfl, .of_eq rfl, hwritten.trans hbytes⟩
  · obtain ⟨⟨received, hrun⟩, hwritten⟩ := hpump
    have hverdict : (⟨t.settled symbols.size, (used + 7) / 8, symbols.size⟩ : Verdict).atHalt
        s.source.haltError = ⟨t.settled symbols.size, (used + 7) / 8, symbols.size⟩ :=
      Verdict.atHalt_of_not_short _ fun f hf => not_short_of_settled hf
    obtain ⟨hout, hfinal⟩ := decode_of_pump_ok hr hrun
    rw [hverdict, hout, hfinal]
    exact ⟨t.settle_of_some _ _ _, rfl, hwritten.trans hbytes⟩
  · obtain ⟨hrun, hwritten⟩ := hpump
    have hcut : f.IsCut := kind_of_scan_failed (by rw [hscan])
    rw [Verdict.atHalt_error, Failure.atHalt_of_not_short hcut.not_short, decode_of_pump_error hr hrun]
    exact ⟨rfl, .of_eq rfl, hwritten⟩

/-- **Decoding between streams that do not fail.** -/
theorem decode_clean (t : Tree) (hs : s.source.Clean) (hk : s.sink.fault = none) {k : ℤ}
    (h1 : 1 ≤ k) :
    (outcome (t.decode k s)).map Decoded.size = (t.verdict s.source.upcoming).outcome ∧
      s.Added (final (t.decode k s)) (t.verdict s.source.upcoming).bytesIn
        (t.verdict s.source.upcoming).bytesOut ∧
      (final (t.decode k s)).sink.written =
        s.sink.written ++ t.output (s.source.grant k.toNat) s.source.upcoming := by
  have h := t.decode_verdict hs.maxRead hk h1
  rwa [hs.haltError] at h

end Tree

/-- The same streams, with a bound on what one read gives, or none. -/
def Streams.limit (s : Streams) (maxRead : Option ℕ) : Streams :=
  { s with source := { s.source with maxRead } }

section Header

variable {s : Streams} {ahead : List UInt8} {size : Option ℤ} {source' : Source}

theorem openTree_of_ok {t : Tree} (h : Tree.read ahead size s.source = .ok t source') :
    openTree ahead size s = .ok t (({ s with source := source' }).count t.headerLength 0) := by
  have hread : fromSource (Tree.read ahead size) s = .ok t { s with source := source' } := by
    simp only [fromSource, h]
  rw [openTree, bind_of_ok hread]
  rfl

theorem openTree_of_error {f : Failure} (h : Tree.read ahead size s.source = .error f source') :
    openTree ahead size s = .error f { s with source := source' } := by
  have hread : fromSource (Tree.read ahead size) s = .error f { s with source := source' } := by
    simp only [fromSource, h]
  rw [openTree, bind_of_error hread]

theorem unpack_of_error {f : Failure} (h : Tree.read ahead size s.source = .error f source') (k : ℤ) :
    unpack ahead size k s = .error f { s with source := source' } := by
  rw [unpack, bind_of_error (openTree_of_error h)]

/-- **Unpacking is decoding behind the header**, which is counted. -/
theorem unpack_of_ok {t : Tree} (h : Tree.read ahead size s.source = .ok t source') (k : ℤ) :
    outcome (unpack ahead size k s) =
        (outcome (t.decode k (({ s with source := source' }).count t.headerLength 0))).map Decoded.size ∧
      final (unpack ahead size k s) =
        final (t.decode k (({ s with source := source' }).count t.headerLength 0)) := by
  rw [unpack, bind_of_ok (openTree_of_ok h)]
  cases hd : t.decode k (({ s with source := source' }).count t.headerLength 0) with
  | ok d s' => rw [bind_of_ok hd]; exact ⟨rfl, rfl⟩
  | error f s' => rw [bind_of_error hd]; exact ⟨rfl, rfl⟩

/-- **Unpacking into a sink that does not fail**, of a payload behind a good header. -/
theorem unpack_verdict (hk : s.sink.fault = none) {k : ℤ} (h1 : 1 ≤ k) {t : Tree}
    (h : Tree.read ahead size s.source = .ok t source') (hm : source'.maxRead ≠ some 0) :
    let v := (t.verdict source'.upcoming).atHalt source'.haltError
    outcome (unpack ahead size k s) = v.outcome ∧
      s.Added (final (unpack ahead size k s)) (t.headerLength + v.bytesIn) v.bytesOut ∧
      (final (unpack ahead size k s)).sink.written =
        s.sink.written ++ t.output (source'.grant k.toNat) source'.upcoming := by
  intro v
  obtain ⟨hout, hadded, hwritten⟩ :=
    t.decode_verdict (s := ({ s with source := source' }).count t.headerLength 0) hm hk h1
  obtain ⟨ho, hf⟩ := unpack_of_ok h k
  rw [ho, hf]
  exact ⟨hout, hadded.behind, hwritten⟩

/-- **Unpacking between streams that do not fail.** -/
theorem unpack_clean (hk : s.sink.fault = none) {k : ℤ} (h1 : 1 ≤ k) {t : Tree}
    (h : Tree.read ahead size s.source = .ok t source') (hs' : source'.Clean) :
    outcome (unpack ahead size k s) = (t.verdict source'.upcoming).outcome ∧
      s.Added (final (unpack ahead size k s)) (t.headerLength + (t.verdict source'.upcoming).bytesIn)
        (t.verdict source'.upcoming).bytesOut ∧
      (final (unpack ahead size k s)).sink.written =
        s.sink.written ++ t.output (source'.grant k.toNat) source'.upcoming := by
  have hrun := unpack_verdict hk h1 h hs'.maxRead
  rwa [hs'.haltError] at hrun

end Header

/-- The most bytes that a chunk has. -/
def chunkBytes (chunkSize : ℤ) (maxRead : Option ℕ) : ℕ :=
  min chunkSize.toNat (maxRead.getD chunkSize.toNat)

/-- **Reading a tree does not depend on how much reads give**: it fails in one way, or gives one tree
and one payload behind it. -/
theorem Tree.read_limit (ahead : List UInt8) (size : Option ℤ) {s : Streams}
    (hs : s.source.fault = none) :
    (∃ f, ∀ m ≠ some 0, ∃ source', Tree.read ahead size (s.limit m).source = .error f source') ∨
      ∃ t payload, ∀ m ≠ some 0, ∃ source',
        Tree.read ahead size (s.limit m).source = .ok t source' ∧ source'.Clean ∧
          source'.upcoming = payload ∧ ∀ k : ℤ, source'.grant k.toNat = chunkBytes k m := by
  have hclean : ∀ m ≠ some 0, (s.limit m).source.Clean := fun m hm => ⟨hs, hm⟩
  have hupcoming : ∀ m, (s.limit m).source.upcoming = s.source.upcoming := fun _ => rfl
  rcases Nat.lt_or_ge 1 ahead.length with hlong | ha
  · exact Or.inl ⟨.readAheadTooLong, fun m _ => ⟨_, read_of_long hlong size (s.limit m).source⟩⟩
  cases hparse : Header.parse (ahead ++ s.source.upcoming) with
  | error f =>
    refine Or.inl ⟨f, ?_⟩
    intro m hm
    rw [← hupcoming m] at hparse
    obtain ⟨source', hread⟩ := Tree.read_of_parse_error hm ha size hparse
    rw [(hclean m hm).haltError] at hread
    exact ⟨source', hread⟩
  | ok header =>
    obtain ⟨counts, symbols, rest⟩ := header
    refine Or.inr ⟨Tree.ofCounts counts symbols size, rest, ?_⟩
    intro m hm
    obtain ⟨source', hread, hp, hrest⟩ :=
      Tree.read_of_parse_ok (s := (s.limit m).source) hm ha size (by rw [hupcoming]; exact hparse)
    exact ⟨source', hread, hp.clean (hclean m hm), hrest, fun k => hp.grant _⟩

/-- **Two runs alike**: outcome and totals are the same, and so are the bytes unless a failure cut a
chunk short. -/
structure SameRun {α : Type} (o o' : Except Failure α) (s s' : Streams) : Prop where
  outcome : o = o'
  stats : s.stats = s'.stats
  written : (∀ f, o = .error f → ¬f.IsCut) → s.sink.written = s'.sink.written

/-- **What a run that was cut short has written**: the symbols whose last bit lies in a chunk before
the one it failed in, which are a first part of all that the walk gives. -/
def CutShort {α : Type} (t : Tree) (payload : List UInt8) (size : ℕ) (o : Except Failure α)
    (s s' : Streams) : Prop :=
  ∀ f, o = .error f → f.IsCut →
    s'.sink.written = s.sink.written ++ t.flushed {} size (bitsOf payload) ∧
      t.flushed {} size (bitsOf payload) <+: (t.emissions {} 0 (bitsOf payload)).map (·.2)

namespace Tree

variable {t : Tree}

/-- What is written depends on the chunks only if the walk fails. -/
theorem output_eq_of_not_cut {payload : List UInt8}
    (h : ∀ f, (t.verdict payload).outcome = .error f → ¬f.IsCut) (size size' : ℕ) :
    t.output size payload = t.output size' payload := by
  unfold output
  rcases hscan : t.scan {} #[] 0 (bitsOf payload) with ⟨symbols, used, c | _ | f⟩
  · rfl
  · rfl
  · have hfailed : (t.scan {} #[] 0 (bitsOf payload)).ending = .failed f := by rw [hscan]
    exact absurd (kind_of_scan_failed hfailed) (h f (by simp only [verdict, hscan]))

/-- A verdict that cuts a chunk short is a walk's failure. -/
theorem output_eq_of_cut {payload : List UInt8} {f : Failure}
    (h : (t.verdict payload).outcome = .error f) (hf : f.IsCut) (size : ℕ) :
    t.output size payload = t.flushed {} size (bitsOf payload) := by
  unfold output
  rcases hscan : t.scan {} #[] 0 (bitsOf payload) with ⟨symbols, used, c | _ | f⟩
  · simp only [verdict, hscan, Except.error.injEq] at h
    subst h
    rcases hf with hf | hf <;> cases hf
  · simp only [verdict, hscan] at h
    exact absurd hf (not_isCut_of_settled h)
  · rfl

/-- Runs that come to one verdict are alike. -/
theorem sameRun_of_verdict {payload : List UInt8} {o o' : Except Failure ℕ} {s s₁ s₁' : Streams}
    {size size' : ℕ} (ho : o = (t.verdict payload).outcome) (ho' : o' = (t.verdict payload).outcome)
    (hstats : s₁.stats = s₁'.stats) (hw : s₁.sink.written = s.sink.written ++ t.output size payload)
    (hw' : s₁'.sink.written = s.sink.written ++ t.output size' payload) : SameRun o o' s₁ s₁' := by
  refine ⟨ho.trans ho'.symm, hstats, ?_⟩
  intro h
  rw [hw, hw', output_eq_of_not_cut (fun f hf => h f (ho.trans hf)) size size']

/-- A run that comes to a verdict has written what the verdict says, also when it was cut short. -/
theorem cutShort_of_verdict {α : Type} {payload : List UInt8} {o : Except Failure α} {g : α → ℕ}
    {s s₁ : Streams} {size : ℕ} (ho : o.map g = (t.verdict payload).outcome)
    (hw : s₁.sink.written = s.sink.written ++ t.output size payload) :
    CutShort t payload size o s s₁ := by
  intro f hf hcut
  rw [hf] at ho
  exact ⟨by rw [hw, output_eq_of_cut ho.symm hcut], flushed_prefix ..⟩

/-- Decoding with a tree that is kept is decoding, and sets the size of a decoded payload. -/
theorem decodeKept_eq (t : Tree) (k : ℤ) (s : Streams) :
    outcome (decodeKept k (t, s)) = outcome (t.decode k s) ∧
      (final (decodeKept k (t, s))).2 = final (t.decode k s) ∧
      (final (decodeKept k (t, s))).1 =
        match (outcome (t.decode k s)).map Decoded.size with
        | .ok n => { t with size := some (n : ℤ) }
        | .error _ => t := by
  simp only [decodeKept]
  cases t.decode k s with
  | ok d s' => exact ⟨rfl, rfl, rfl⟩
  | error f s' => exact ⟨rfl, rfl, rfl⟩

end Tree

section Chunking

variable {s : Streams} {k k' : ℤ} {m m' : Option ℕ}

/-- Decoding with a tree that is kept, however the payload is cut. -/
theorem decodeKept_sameRun (hsource : s.source.fault = none) (hsink : s.sink.fault = none) (t : Tree)
    (hk : 1 ≤ k) (hk' : 1 ≤ k') (hm : m ≠ some 0) (hm' : m' ≠ some 0) :
    let r := Tree.decodeKept k (t, s.limit m)
    let r' := Tree.decodeKept k' (t, s.limit m')
    SameRun ((outcome r).map Decoded.size) ((outcome r').map Decoded.size) (final r).2 (final r').2 ∧
      (final r).1 = (final r').1 ∧
      CutShort t s.source.upcoming (chunkBytes k m) (outcome r) s (final r).2 := by
  intro r r'
  obtain ⟨ho, hst, hw⟩ := t.decode_clean (s := s.limit m) ⟨hsource, hm⟩ hsink hk
  obtain ⟨ho', hst', hw'⟩ := t.decode_clean (s := s.limit m') ⟨hsource, hm'⟩ hsink hk'
  obtain ⟨h1, h2, h3⟩ := t.decodeKept_eq k (s.limit m)
  obtain ⟨h1', h2', h3'⟩ := t.decodeKept_eq k' (s.limit m')
  -- the payload that is left does not depend on the limit
  have hsame := Tree.sameRun_of_verdict (s := s) ho ho' (hst.unique hst') hw hw'
  have hcut := Tree.cutShort_of_verdict (s := s) ho hw
  rw [← h1, ← h2] at hsame hcut
  rw [← h1', ← h2'] at hsame
  have htree : (final r).1 = (final r').1 := by
    rw [h3, h3', ho, ho']
    rfl
  exact ⟨hsame, htree, hcut⟩

/-- Unpacking, however the stream is cut. -/
theorem unpack_sameRun (hsource : s.source.fault = none) (hsink : s.sink.fault = none)
    (ahead : List UInt8) (size : Option ℤ) (hk : 1 ≤ k) (hk' : 1 ≤ k') (hm : m ≠ some 0)
    (hm' : m' ≠ some 0) :
    let r := unpack ahead size k (s.limit m)
    let r' := unpack ahead size k' (s.limit m')
    SameRun (outcome r) (outcome r') (final r) (final r') ∧
      ∀ t₁ source₁, Tree.read ahead size (s.limit m).source = .ok t₁ source₁ →
        CutShort t₁ source₁.upcoming (chunkBytes k m) (outcome r) s (final r) := by
  intro r r'
  rcases Tree.read_limit ahead size hsource with ⟨f, hread⟩ | ⟨t₁, payload, hread⟩
  · -- a bad header is bad in one way, and nothing was written
    obtain ⟨source₁, h1⟩ := hread m hm
    obtain ⟨source₁', h1'⟩ := hread m' hm'
    have hr : r = .error f { s.limit m with source := source₁ } := unpack_of_error h1 k
    have hr' : r' = .error f { s.limit m' with source := source₁' } := unpack_of_error h1' k'
    rw [hr, hr']
    refine ⟨⟨rfl, rfl, fun _ => rfl⟩, ?_⟩
    intro t₁ source₁ h
    rw [h1] at h
    cases h
  · obtain ⟨source₁, h1, hc, hu, hg⟩ := hread m hm
    obtain ⟨source₁', h1', hc', hu', hg'⟩ := hread m' hm'
    obtain ⟨ho, hst, hw⟩ := unpack_clean (s := s.limit m) hsink hk h1 hc
    obtain ⟨ho', hst', hw'⟩ := unpack_clean (s := s.limit m') hsink hk' h1' hc'
    rw [hu] at ho hst hw
    rw [hu'] at ho' hst' hw'
    refine ⟨Tree.sameRun_of_verdict (s := s) ho ho' (hst.unique hst') hw hw', ?_⟩
    intro t₂ source₂ h
    rw [h1] at h
    cases h
    rw [hu]
    have hid : (outcome r).map id = (t₁.verdict payload).outcome := by
      rw [ho]
      cases (t₁.verdict payload).outcome <;> rfl
    exact Tree.cutShort_of_verdict hid (hg k ▸ hw)

/-- **Chunking is invisible.** Neither the chunk size nor what single reads give shows in the outcome,
the totals or the tree, and in the bytes written only if the payload is corrupt or runs past the
tables of a hand-made tree. -/
theorem chunking_invisible (hsource : s.source.fault = none) (hsink : s.sink.fault = none) (t : Tree)
    (ahead : List UInt8) (size : Option ℤ) (hk : 1 ≤ k) (hk' : 1 ≤ k') (hm : m ≠ some 0)
    (hm' : m' ≠ some 0) :
    (let r := Tree.decodeKept k (t, s.limit m)
     let r' := Tree.decodeKept k' (t, s.limit m')
     SameRun ((outcome r).map Decoded.size) ((outcome r').map Decoded.size) (final r).2 (final r').2 ∧
       (final r).1 = (final r').1 ∧
       CutShort t s.source.upcoming (chunkBytes k m) (outcome r) s (final r).2) ∧
    (let r := unpack ahead size k (s.limit m)
     let r' := unpack ahead size k' (s.limit m')
     SameRun (outcome r) (outcome r') (final r) (final r') ∧
       ∀ t₁ source₁, Tree.read ahead size (s.limit m).source = .ok t₁ source₁ →
         CutShort t₁ source₁.upcoming (chunkBytes k m) (outcome r) s (final r)) :=
  ⟨decodeKept_sameRun hsource hsink t hk hk' hm hm',
    unpack_sameRun hsource hsink ahead size hk hk' hm hm'⟩

/-- A corrupt payload in chunks of one byte and of two: one failure, four bytes written or none. -/
theorem chunking_invisible_corrupt :
    let t := Tree.ofCounts [0, 0] [65] none
    let s : Streams := { source := { data := #[0x00, 0x80] } }
    let r := Tree.decodeKept 1 (t, s.limit none)
    let r' := Tree.decodeKept 2 (t, s.limit (some 7))
    (s.source.fault = none ∧ s.sink.fault = none ∧ (1 : ℤ) ≤ 1 ∧ (1 : ℤ) ≤ 2 ∧
        (none : Option ℕ) ≠ some 0 ∧ some 7 ≠ some 0) ∧
      outcome r = .error (.leafOutOfRange 0 0) ∧
      SameRun ((outcome r).map Decoded.size) ((outcome r').map Decoded.size) (final r).2 (final r').2 ∧
      (final r).2.sink.written = #[65, 65, 65, 65] ∧ (final r').2.sink.written = #[] := by
  have hout : outcome (Tree.decodeKept 1 (Tree.ofCounts [0, 0] [65] none,
      ({ source := { data := #[0x00, 0x80] } } : Streams).limit none)) =
        .error (.leafOutOfRange 0 0) := by decide +kernel
  have hout' : outcome (Tree.decodeKept 2 (Tree.ofCounts [0, 0] [65] none,
      ({ source := { data := #[0x00, 0x80] } } : Streams).limit (some 7))) =
        .error (.leafOutOfRange 0 0) := by decide +kernel
  intro t s r r'
  have hk₁ : (1 : ℤ) ≤ 1 := by decide
  have hk₂ : (1 : ℤ) ≤ 2 := by decide
  have hm₁ : (none : Option ℕ) ≠ some 0 := by decide
  have hm₂ : some 7 ≠ some 0 := by decide
  have h := (chunking_invisible (s := s) rfl rfl t [] none hk₁ hk₂ hm₁ hm₂).1
  have h' := (chunking_invisible (s := s) rfl rfl t [] none hk₂ hk₁ hm₂ hm₁).1
  refine ⟨⟨rfl, rfl, hk₁, hk₂, hm₁, hm₂⟩, hout, h.1, ?_, ?_⟩
  · exact (h.2.2 _ hout (Or.inl rfl)).1.trans (by decide)
  · exact (h'.2.2 _ hout' (Or.inl rfl)).1.trans (by decide)

end Chunking

end PackFormat
