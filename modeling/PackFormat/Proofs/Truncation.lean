import PackFormat.Proofs.Acceptance

/-!
# Streams that are cut short or go on

What is unpacked hangs on the bits up to the last one of the stop code, and on each of
them. Padding and whatever stands behind it have no influence; and a stream that
ends before the byte of that bit is refused, with the words before the cut
already written.

* `Tree.Factors.of_take`: a payload is read as long as its words are there.
* `Tree.Consistent.scan_take`: a walk over a payload that is cut short.
* `unpack_of_agree_of_take`: **what unpacks, unpacks by just the bits up to the stop
  code's last.**
-/

namespace PackFormat

theorem byteBits_injective {a b : UInt8} (h : byteBits a = byteBits b) : a = b := by
  have hv := congrArg wordValue h
  unfold byteBits at hv
  rw [wordValue_lowBits a.toNat_lt, wordValue_lowBits b.toNat_lt] at hv
  exact UInt8.toNat_inj.1 hv

/-- Byte strings are told apart by their bits. -/
theorem bitsOf_injective {xs ys : List UInt8} (h : bitsOf xs = bitsOf ys) : xs = ys := by
  induction xs generalizing ys with
  | nil =>
    cases ys with
    | nil => rfl
    | cons y ys =>
      have := congrArg List.length h
      rw [length_bitsOf, length_bitsOf, List.length_nil, List.length_cons] at this
      omega
  | cons x xs ih =>
    cases ys with
    | nil =>
      have := congrArg List.length h
      rw [length_bitsOf, length_bitsOf, List.length_nil, List.length_cons] at this
      omega
    | cons y ys =>
      obtain ⟨hx, hrest⟩ := List.append_inj h (by simp)
      rw [byteBits_injective hx, ih hrest]

theorem bitsOf_take (bytes : List UInt8) (n : ℕ) :
    bitsOf (bytes.take n) = (bitsOf bytes).take (8 * n) := by
  conv_rhs => rw [← List.take_append_drop n bytes, bitsOf_append]
  rcases Nat.le_total n bytes.length with hn | hn
  · rw [List.take_left']
    rw [length_bitsOf, List.length_take, Nat.min_eq_left hn]
  · rw [List.take_of_length_le hn, List.drop_of_length_le hn, bitsOf_nil, List.append_nil,
      List.take_of_length_le (by rw [length_bitsOf]; omega)]

/-- Bits that agree with those of some bytes and more are those of the same bytes first. -/
theorem eq_append_of_bits {bytes xs ys : List UInt8} {n : ℕ}
    (h : (bitsOf bytes).take (8 * xs.length + n) = (bitsOf (xs ++ ys)).take (8 * xs.length + n)) :
    ∃ ys', bytes = xs ++ ys' ∧ (bitsOf ys').take n = (bitsOf ys).take n := by
  have hlen := congrArg List.length h
  rw [List.length_take, List.length_take, length_bitsOf, length_bitsOf, List.length_append] at hlen
  have htake : (bitsOf (bytes.take xs.length)).length = 8 * xs.length := by
    rw [length_bitsOf, List.length_take]; omega
  rw [← List.take_append_drop xs.length bytes, bitsOf_append, bitsOf_append, ← htake,
    List.take_length_add_append, htake, ← length_bitsOf xs, List.take_length_add_append] at h
  obtain ⟨hxs, hys⟩ := List.append_inj h (by rw [htake, length_bitsOf])
  refine ⟨bytes.drop xs.length, ?_, hys⟩
  conv_lhs => rw [← List.take_append_drop xs.length bytes, bitsOf_injective hxs]

namespace Tree

variable {t : Tree} {bits bits' rest : List Bool} {slots : List Slot}

/-- **The words that end within the first `n` bits.** -/
def wordsWithin (t : Tree) (slots : List Slot) (n : ℕ) : ℕ :=
  (List.range slots.length).countP fun i => ((slots.take (i + 1)).flatMap t.word).length ≤ n

theorem wordsWithin_cons (t : Tree) (x : Slot) (slots : List Slot) (n : ℕ) :
    t.wordsWithin (x :: slots) n =
      if x.level + 1 ≤ n then t.wordsWithin slots (n - (x.level + 1)) + 1 else 0 := by
  simp only [wordsWithin, List.length_cons, List.range_succ_eq_map, List.countP_cons,
    List.countP_map, List.take_succ_cons, List.flatMap_cons, List.length_append, length_word,
    List.take_zero, List.flatMap_nil, List.length_nil, Nat.add_zero, Function.comp_def,
    Nat.succ_eq_add_one]
  by_cases hle : x.level + 1 ≤ n
  · simp only [hle, decide_true, if_true]
    congr 1
    refine List.countP_congr fun i _ => ?_
    simp only [decide_eq_true_eq]
    omega
  · simp only [hle, decide_false, if_false, Bool.false_eq_true, Nat.add_zero]
    rw [List.countP_eq_zero]
    intro i _
    simp only [decide_eq_true_eq]
    omega

theorem wordsWithin_le (t : Tree) (slots : List Slot) (n : ℕ) :
    t.wordsWithin slots n ≤ slots.length := by
  have := List.countP_le_length (l := List.range slots.length)
    (p := fun i => decide (((slots.take (i + 1)).flatMap t.word).length ≤ n))
  rwa [List.length_range] at this

theorem payloadLength_cons (t : Tree) (x : Slot) (slots : List Slot) :
    t.payloadLength (x :: slots) = x.level + 1 + t.payloadLength slots := by
  simp [payloadLength, Nat.add_assoc]

/-- **A payload is read as long as its words are there**, whatever is behind them. -/
theorem Factors.of_take (hf : t.Factors bits slots rest)
    (h : bits'.take (t.payloadLength slots) = bits.take (t.payloadLength slots)) :
    t.Factors bits' slots (bits'.drop (t.payloadLength slots)) := by
  refine ⟨hf.words, hf.stop, ?_⟩
  have hwords : bits.take (t.payloadLength slots) = slots.flatMap t.word ++ t.word t.stopSlot := by
    rw [hf.bits_eq, payloadLength, List.take_left]
  rw [← hwords, ← h, List.take_append_drop]

/-- The first part of a way down is one. -/
theorem Inner.take {p : List Bool} (hp : t.Inner p) (n : ℕ) : t.Inner (p.take n) := by
  intro k hk
  rw [List.length_take] at hk
  have := hp k (by omega)
  rwa [List.take_take, Nat.min_eq_left (by omega)]

namespace Consistent

/-- A walk over a word that is cut short gives nothing. -/
theorem scan_take_word (h : t.Consistent) {x : Slot} (hx : t.HasWord x) {n : ℕ} (hn : n ≤ x.level)
    (symbols : Array UInt8) (used : ℕ) :
    ∃ c, t.scan {} symbols used ((t.word x).take n) = ⟨symbols, used + n, .more c⟩ := by
  obtain ⟨p, b, hword, hlen, hp⟩ := h.word_eq_concat hx
  obtain ⟨-, hscan⟩ := h.scan_inner (hp.take n) symbols used []
  rw [List.append_nil] at hscan
  refine ⟨⟨(p.take n).length, wordValue (p.take n)⟩, ?_⟩
  rw [hword, List.take_append_of_le_length (by omega), hscan, List.length_take,
    Nat.min_eq_left (by omega)]
  rfl

/-- **A walk over a payload that is cut short** gives the symbols of the words before the cut, and
goes on. -/
theorem scan_take (h : t.Consistent) (hf : t.Factors bits slots rest) {n : ℕ}
    (hn : n < t.payloadLength slots) (symbols : Array UInt8) (used : ℕ) :
    ∃ c, t.scan {} symbols used (bits.take n) =
      ⟨symbols ++ (slots.take (t.wordsWithin slots n)).map t.symbolAt, used + n, .more c⟩ := by
  induction slots generalizing bits n symbols used with
  | nil =>
    obtain ⟨hstop, rfl⟩ := factors_nil_iff.1 hf
    rw [payloadLength, List.flatMap_nil, List.nil_append, length_word] at hn
    obtain ⟨c, hscan⟩ := h.scan_take_word hstop (Nat.le_of_lt_succ hn) symbols used
    refine ⟨c, ?_⟩
    rw [List.take_append_of_le_length (by rw [length_word]; omega), hscan]
    simp
  | cons x slots ih =>
    obtain ⟨⟨hx, hne⟩, tail, rfl, htail⟩ := factors_cons_iff.1 hf
    rw [payloadLength_cons] at hn
    rw [wordsWithin_cons]
    by_cases hle : x.level + 1 ≤ n
    · -- the first word is before the cut
      obtain ⟨c, hscan⟩ := ih htail (n := n - (x.level + 1)) (by omega)
        (symbols.push (t.symbolAt x)) (used + (t.word x).length)
      refine ⟨c, ?_⟩
      rw [if_pos hle, List.take_append, List.take_of_length_le (by rw [length_word]; omega), length_word,
        h.scan_word hx, if_neg hne, hscan, length_word]
      simp only [List.take_succ_cons, List.map_cons, Scan.mk.injEq, and_true]
      exact ⟨by simp, by omega⟩
    · obtain ⟨c, hscan⟩ := h.scan_take_word hx (n := n) (by omega) symbols used
      refine ⟨c, ?_⟩
      rw [if_neg hle, List.take_append_of_le_length (by rw [length_word]; omega), hscan]
      simp

variable {payload : List UInt8} {i : ℕ}

/-- **A payload that is cut short** has no stop code behind the words before the cut. -/
theorem verdict_take (h : t.Consistent) (hf : t.Factors (bitsOf payload) slots rest)
    (hi : 8 * i < t.payloadLength slots) (size : ℕ) :
    (t.verdict (payload.take i)).outcome = .error (.noStop (t.wordsWithin slots (8 * i))) ∧
      t.output size (payload.take i) = (slots.take (t.wordsWithin slots (8 * i))).map t.symbolAt := by
  obtain ⟨c, hscan⟩ := h.scan_take hf hi #[] 0
  rw [← bitsOf_take] at hscan
  have hsymbols := t.symbols_scan {} #[] 0 (bitsOf (payload.take i))
  rw [hscan] at hsymbols
  have hle := t.wordsWithin_le slots (8 * i)
  constructor
  · rw [verdict, hscan]
    simp [Nat.min_eq_left hle]
  · rw [output, hscan]
    simpa using (congrArg Array.toList hsymbols).symm

end Consistent

section Read

variable {s s' s₁ : Source} {size : Option ℤ} {header : ℕ}

/-- **The bytes that a tree was read from** are those of a good header. -/
theorem encode_of_read (hs : s.Clean) (hread : read [] size s = .ok t s₁)
    (hlen : t.headerLength = header) :
    ∃ counts symbols, Header.Good counts symbols ∧ t = ofCounts counts symbols size ∧
      s.upcoming = Header.encode counts symbols ++ s₁.upcoming ∧
      (Header.encode counts symbols).length = header := by
  obtain ⟨counts, symbols, rfl, hparse⟩ := parse_of_read hs.maxRead hread
  obtain ⟨hg, hbytes⟩ := Header.parse_eq_ok_iff.1 hparse
  rw [headerLength_ofCounts] at hlen
  exact ⟨counts, symbols, hg, rfl, hbytes, by exact_mod_cast hlen⟩

/-- A header is read alike in front of anything. -/
theorem read_of_encode (hs' : s'.Clean) {counts : List ℕ} {symbols rest : List UInt8}
    (hg : Header.Good counts symbols) (h : s'.upcoming = Header.encode counts symbols ++ rest)
    (size : Option ℤ) :
    ∃ s₂, read [] size s' = .ok (ofCounts counts symbols size) s₂ ∧ s₂.Clean ∧
      s₂.upcoming = rest := by
  have hparse : Header.parse ([] ++ s'.upcoming) = .ok (counts, symbols, rest) :=
    Header.parse_eq_ok_iff.2 ⟨hg, h⟩
  obtain ⟨s₂, hread, hp, hrest⟩ := read_of_parse_ok hs'.maxRead (by decide) size hparse
  exact ⟨s₂, hread, hp.clean hs', hrest⟩

/-- **The same tree from the same first bits.** -/
theorem read_of_agree (hs : s.Clean) (hs' : s'.Clean) (hread : read [] size s = .ok t s₁)
    (hlen : t.headerLength = header) {n : ℕ}
    (h : (bitsOf s'.upcoming).take (8 * header + n) = (bitsOf s.upcoming).take (8 * header + n)) :
    ∃ s₂, read [] size s' = .ok t s₂ ∧ s₂.Clean ∧
      (bitsOf s₂.upcoming).take n = (bitsOf s₁.upcoming).take n := by
  obtain ⟨counts, symbols, hg, rfl, hbytes, rfl⟩ := encode_of_read hs hread hlen
  rw [hbytes] at h
  obtain ⟨rest, hrest, hagree⟩ := eq_append_of_bits h
  obtain ⟨s₂, hread₂, hs₂, rfl⟩ := read_of_encode hs' hg hrest size
  exact ⟨s₂, hread₂, hs₂, hagree⟩

/-- **The same tree from a source that is cut short behind its header.** -/
theorem read_of_take (hs : s.Clean) (hs' : s'.Clean) (hread : read [] size s = .ok t s₁)
    (hlen : t.headerLength = header) {j : ℕ} (hj : header ≤ j)
    (h : s'.upcoming = s.upcoming.take j) :
    ∃ s₂, read [] size s' = .ok t s₂ ∧ s₂.Clean ∧ s₂.upcoming = s₁.upcoming.take (j - header) := by
  obtain ⟨counts, symbols, hg, rfl, hbytes, rfl⟩ := encode_of_read hs hread hlen
  rw [hbytes, List.take_append, List.take_of_length_le hj] at h
  exact read_of_encode hs' hg h size

/-- **No tree from a source that is cut short within its header.** -/
theorem read_of_take_lt (hs : s.Clean) (hs' : s'.Clean) (hread : read [] size s = .ok t s₁)
    (hlen : t.headerLength = header) {j : ℕ} (hj : j < header)
    (h : s'.upcoming = s.upcoming.take j) :
    ∃ part s₂, read [] size s' = .error (.truncated part) s₂ := by
  obtain ⟨counts, symbols, hg, rfl, hbytes, rfl⟩ := encode_of_read hs hread hlen
  obtain ⟨part, hparse⟩ := Header.parse_take hg s₁.upcoming hj
  rw [← hbytes, ← h, ← List.nil_append s'.upcoming] at hparse
  obtain ⟨s₂, hread₂⟩ := read_of_parse_error hs'.maxRead (by decide) size hparse
  rw [hs'.haltError] at hread₂
  exact ⟨part, s₂, hread₂⟩

end Read

end Tree

section Unpack

variable {s s₁ : Streams} {size : Option ℤ} {k : ℤ} {n : ℕ}

/-- **What unpacks, unpacks by just the bits up to the stop code's last.** Let `header` and
`consumed` count the bytes of the header and all that the totals count. Any source that gives the
same bits up to there unpacks to the same; and one that gives fewer than `consumed` of the bytes is
refused: within the header with nothing written, and behind it with what the words before the cut
stand for. -/
theorem unpack_of_agree_of_take (hs : s.source.Clean) (hsink : s.sink.fault = none) (hk : 1 ≤ k)
    (hstats : s.stats = some {}) (hrun : unpack [] size k s = .ok n s₁) :
    ∃ (t : Tree) (source₁ : Source) (slots : List Slot) (rest : List Bool) (header consumed : ℕ),
      (Tree.read [] size s.source = .ok t source₁ ∧ 1 + t.levels + t.symbols.length = (header : ℤ) ∧
        t.Factors (bitsOf source₁.upcoming) slots rest) ∧
      (n = slots.length ∧ s₁.sink.written = s.sink.written ++ slots.map t.symbolAt ∧
        s₁.stats = some ⟨consumed, n⟩ ∧ consumed = header + (t.payloadLength slots + 7) / 8) ∧
      (∀ source : Source, source.Clean →
        (bitsOf source.upcoming).take (8 * header + t.payloadLength slots) =
          (bitsOf s.source.upcoming).take (8 * header + t.payloadLength slots) →
        ∃ s₂, unpack [] size k { s with source } = .ok n s₂ ∧
          s₂.sink.written = s₁.sink.written ∧ s₂.stats = s₁.stats) ∧
      ∀ j < consumed, ∀ source : Source, source.Clean →
        source.upcoming = s.source.upcoming.take j →
        if j < header then
          ∃ part s₂, unpack [] size k { s with source } = .error (.truncated part) s₂ ∧
            s₂.sink.written = s.sink.written
        else
          ∃ s₂, unpack [] size k { s with source } =
              .error (.noStop (t.wordsWithin slots (8 * (j - header)))) s₂ ∧
            s₂.sink.written = s.sink.written ++
              (slots.map t.symbolAt).take (t.wordsWithin slots (8 * (j - header))) := by
  obtain ⟨t, source₁, slots, rest, hread, hf⟩ := factors_of_unpack hs hsink hk hrun
  obtain ⟨ht, -, -, -⟩ := Tree.read_clean hs hread
  obtain ⟨header, hlen⟩ : ∃ header : ℕ, 1 + t.levels + t.symbols.length = (header : ℤ) := by
    obtain ⟨counts, symbols, rfl, -⟩ := Tree.parse_of_read hs.maxRead hread
    exact ⟨_, Tree.headerLength_ofCounts counts symbols size⟩
  obtain ⟨hout, hwritten, hadded⟩ := unpack_of_factors hs hsink hk hread hf
  rw [hrun] at hout hwritten hadded
  obtain rfl : n = slots.length := Tree.eq_of_settled hout.symm
  refine ⟨t, source₁, slots, rest, header, header + (t.payloadLength slots + 7) / 8,
    ⟨hread, hlen, hf⟩, ⟨rfl, hwritten, ?_, rfl⟩, ?_, ?_⟩
  · rw [hlen] at hadded
    exact hadded.of_zero hstats
  · -- the same header, and the same words behind it
    intro source hsource hagree
    obtain ⟨source₂, hread₂, -, hagree₂⟩ := Tree.read_of_agree hs hsource hread hlen hagree
    obtain ⟨hout₂, hwritten₂, hadded₂⟩ :=
      unpack_of_factors (s := { s with source }) hsource hsink hk hread₂ (hf.of_take hagree₂)
    exact ⟨_, eq_ok_of_outcome (hout₂.trans hout.symm), hwritten₂.trans hwritten.symm,
      hadded₂.unique hadded⟩
  · intro j hj source hsource htake
    split
    · rename_i hheader
      obtain ⟨part, source₂, hread₂⟩ := Tree.read_of_take_lt hs hsource hread hlen hheader htake
      exact ⟨part, _, unpack_of_error (s := { s with source }) hread₂ k, rfl⟩
    · -- the walk over the words before the cut is still on its way when the bits end
      rename_i hheader
      obtain ⟨source₂, hread₂, hs₂, hu₂⟩ :=
        Tree.read_of_take hs hsource hread hlen (not_lt.1 hheader) htake
      obtain ⟨hout₂, -, hwritten₂⟩ := unpack_clean (s := { s with source }) hsink hk hread₂ hs₂
      obtain ⟨hverdict, houtput⟩ := ht.verdict_take hf (i := j - header) (by omega)
        (source₂.grant k.toNat)
      rw [hu₂, hverdict] at hout₂
      rw [hu₂, houtput] at hwritten₂
      refine ⟨_, eq_error_of_outcome hout₂, hwritten₂.trans ?_⟩
      rw [List.map_take]

/-- `BBBA` and the stop code, which ends with the first bit of the second byte: the bits behind it do
not count, and without that byte all four words are there. -/
theorem unpack_of_agree_of_take_last_bit :
    let s : Streams := { source := { data := #[2, 1, 0, 65, 66, 0x02, 0x80] }, stats := some {} }
    (s.source.Clean ∧ s.sink.fault = none ∧ (1 : ℤ) ≤ 1 ∧ s.stats = some {} ∧
      ∃ s₁, unpack [] none 1 s = .ok 4 s₁) ∧
    (∃ s₂, unpack [] none 1 { s with source := { data := #[2, 1, 0, 65, 66, 0x02, 0xff, 9] } } =
        .ok 4 s₂ ∧ s₂.sink.written = #[66, 66, 66, 65] ∧ s₂.stats = some ⟨7, 4⟩) ∧
    ∃ s₃, unpack [] none 1 { s with source := { data := #[2, 1, 0, 65, 66, 0x02] } } =
        .error (.noStop 4) s₃ ∧ s₃.sink.written = #[66, 66, 66, 65] := by
  intro s
  have hs : s.source.Clean := ⟨rfl, by decide⟩
  have hparse : Header.parse ([] ++ s.source.upcoming) = .ok ([1, 0], [65, 66], [0x02, 0x80]) := by
    decide
  obtain ⟨source₁, hread, -, hrest⟩ := Tree.read_of_parse_ok hs.maxRead (by decide) none hparse
  have hf : (Tree.ofCounts [1, 0] [65, 66] none).Factors (bitsOf source₁.upcoming)
      [⟨1, 0⟩, ⟨1, 0⟩, ⟨1, 0⟩, ⟨0, 0⟩] [false, false, false, false, false, false, false] := by
    have hword : ∀ x ∈ ([⟨1, 0⟩, ⟨0, 0⟩] : List Slot),
        (Tree.ofCounts [1, 0] [65, 66] none).HasWord x ∧
          x ≠ (Tree.ofCounts [1, 0] [65, 66] none).stopSlot := by
      intro x hx
      rcases List.mem_cons.1 hx with rfl | hx
      · exact ⟨⟨by decide, by decide, by decide, by decide⟩, by decide⟩
      · rw [List.mem_singleton.1 hx]
        exact ⟨⟨by decide, by decide, by decide, by decide⟩, by decide⟩
    refine ⟨fun x hx => hword x ?_, ⟨by decide, by decide, by decide, by decide⟩,
      by rw [hrest]; decide⟩
    revert x
    decide
  obtain ⟨hout, -, -⟩ := unpack_of_factors hs rfl (k := 1) (by decide) hread hf
  have hrun := eq_ok_of_outcome (hout.trans (Tree.settled_of_none rfl _))
  obtain ⟨t, source₂, slots, rest, header, consumed, ⟨hread₂, hlen, hf₂⟩,
      ⟨-, hwritten, hstats, hconsumed⟩, hagree, hcut⟩ :=
    unpack_of_agree_of_take hs rfl (k := 1) (by decide) rfl hrun
  -- the tree and its words are the ones above
  rw [hread] at hread₂
  cases hread₂
  obtain ⟨rfl, -⟩ := (Tree.read_clean hs hread).1.factors_unique hf₂ hf
  obtain rfl : header = 5 := by
    have : 1 + (Tree.ofCounts [1, 0] [65, 66] none).levels +
        (Tree.ofCounts [1, 0] [65, 66] none).symbols.length = 5 := by decide
    omega
  obtain rfl : consumed = 7 := hconsumed.trans (by decide)
  refine ⟨⟨hs, rfl, by decide, rfl, _, hrun⟩, ?_, ?_⟩
  · obtain ⟨s₂, hrun₂, hwritten₂, hstats₂⟩ :=
      hagree { data := #[2, 1, 0, 65, 66, 0x02, 0xff, 9] } ⟨rfl, by decide⟩ (by decide)
    exact ⟨s₂, hrun₂, (hwritten₂.trans hwritten).trans (by decide), hstats₂.trans hstats⟩
  · obtain ⟨s₃, hrun₃, hwritten₃⟩ :=
      hcut 6 (by decide) { data := #[2, 1, 0, 65, 66, 0x02] } ⟨rfl, by decide⟩ (by decide)
    exact ⟨s₃, hrun₃, hwritten₃.trans (by decide)⟩

end Unpack

end PackFormat
