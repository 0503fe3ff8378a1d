import PackFormat.Proofs.Accounting
import PackFormat.Proofs.Truncation

/-!
# A payload as it streams by

Decoding goes round by round. Each round is one read and at once one write: of the symbols
whose words end in the chunk that was read, wherever they began; a chunk in which no word
ends is not followed by a write. The round with the stop code's last bit is the last.

* `Tree.symbolsWithin`, `Tree.pieces`: the symbols whose words end in each chunk.
* `Tree.Rounds`: some rounds, and what each of them read and wrote.
* `Tree.Rounds.pieces_eq`: what is written in each round.
* `Tree.rounds_of_pump`: a pass is rounds, and something that ends them.
* `Tree.decode_streamed`: **the reads and the writes of a payload.**
-/

namespace PackFormat

namespace Source

/-- **Reads of `n` bytes each**, all of which gave something. -/
inductive Reads (n : ℕ) : Source → List (List UInt8) → Source → Prop
  | nil (s : Source) : Reads n s [] s
  | cons {s s₁ s' : Source} {chunk : List UInt8} {chunks : List (List UInt8)}
    (hread : s.read n = .ok chunk s₁) (hne : chunk ≠ []) (hrest : Reads n s₁ chunks s') :
    Reads n s (chunk :: chunks) s'

variable {n : ℕ} {s s' : Source} {chunks : List (List UInt8)}

theorem Reads.gave (h : s.Reads n chunks s') : s.Gave chunks.flatten s' := by
  induction h with
  | nil s => exact Gave.refl s
  | cons hread hne hrest ih => exact (gave_of_read hread).trans ih

/-- No other size was asked for. -/
theorem Reads.requests (h : s.Reads n chunks s') :
    s'.requests = s.requests ++ Array.replicate chunks.length n := by
  induction h with
  | nil s => simp
  | cons hread hne hrest ih =>
    rw [ih, requests_of_read hread, List.length_cons]
    apply Array.toList_inj.1
    simp [List.replicate_succ]

/-- With one more read, whatever that came to. -/
theorem Reads.requests_push (h : s.Reads n chunks s') :
    s'.requests.push n = s.requests ++ Array.replicate (chunks.length + 1) n := by
  rw [h.requests, Array.replicate_succ, Array.append_push]

theorem Reads.length_le (h : s.Reads n chunks s') :
    ∀ chunk ∈ chunks, 1 ≤ chunk.length ∧ chunk.length ≤ n := by
  induction h with
  | nil s => exact fun chunk hchunk => absurd hchunk List.not_mem_nil
  | cons hread hne hrest ih =>
    intro chunk hchunk
    rcases List.mem_cons.1 hchunk with rfl | hchunk
    · exact ⟨List.length_pos_iff.2 hne, (read_of_ok hread).1⟩
    · exact ih chunk hchunk

end Source

/-- **One write, or none** if there is nothing to write. -/
theorem Sink.flush_writes {k k' : Sink} {bytes : Array UInt8} (h : k.flush bytes = .ok () k') :
    k'.writes = k.writes ++ ([bytes.toList].filter (· ≠ [])).map List.length := by
  unfold flush at h
  split at h
  · rename_i hempty
    cases h
    rw [Array.isEmpty_iff.1 hempty]
    simp
  rename_i hsome
  have hself : [bytes.toList].filter (· ≠ []) = [bytes.toList] :=
    List.filter_cons_of_pos (by simpa using hsome)
  rw [hself]
  split at h
  · rename_i k₁ hwrite
    cases h
    unfold write at hwrite
    dsimp only at hwrite
    split at hwrite
    · cases hwrite
    · cases hwrite
      apply Array.toList_inj.1
      simp
  · cases h

namespace Tree

/-- **The symbols whose words end** behind the first `a` bits and within the first `b`. -/
def symbolsWithin (t : Tree) (slots : List Slot) (a b : ℕ) : List UInt8 :=
  ((slots.take (t.wordsWithin slots b)).drop (t.wordsWithin slots a)).map t.symbolAt

/-- **The symbols whose words end in each chunk**, when `n` bytes came before the first. -/
def pieces (t : Tree) (slots : List Slot) (n : ℕ) : List (List UInt8) → List (List UInt8)
  | [] => []
  | chunk :: chunks =>
    t.symbolsWithin slots (8 * n) (8 * (n + chunk.length)) ::
      t.pieces slots (n + chunk.length) chunks

/-- **Some rounds**: each reads a chunk and writes the symbols that the walk over it gives. -/
inductive Rounds (t : Tree) (n : ℕ) :
    Ending → Source → Sink → List (List UInt8 × List UInt8) → Ending → Source → Sink → Prop
  | nil (e : Ending) (s : Source) (k : Sink) : Rounds t n e s k [] e s k
  | cons {c : Cursor} {s s₁ s' : Source} {k k₁ k' : Sink} {chunk : List UInt8}
    {symbols : Array UInt8} {used : ℕ} {e e' : Ending} {rounds : List (List UInt8 × List UInt8)}
    (hread : s.read n = .ok chunk s₁) (hne : chunk ≠ [])
    (hscan : t.scan c #[] 0 (bitsOf chunk) = ⟨symbols, used, e⟩)
    (hflush : k.flush symbols = .ok () k₁) (hrest : Rounds t n e s₁ k₁ rounds e' s' k') :
    Rounds t n (.more c) s k ((chunk, symbols.toList) :: rounds) e' s' k'

section Walk

variable {t : Tree} {c : Cursor} {slots : List Slot} {tail : List Bool}

/-- **A longer walk gives more symbols**, behind those of a shorter one. -/
theorem symbols_scan_append (t : Tree) (c : Cursor) (xs ys : List Bool) :
    ∃ more, (t.scan c #[] 0 (xs ++ ys)).symbols = (t.scan c #[] 0 xs).symbols ++ more := by
  rw [scan_append]
  rcases t.scan c #[] 0 xs with ⟨symbols, used, c₁ | _ | f⟩
  · exact ⟨_, by simp only; rw [scan_eq]⟩
  · exact ⟨#[], Array.append_empty.symm⟩
  · exact ⟨#[], Array.append_empty.symm⟩

/-- No more symbols than bits. -/
theorem size_symbols_le (t : Tree) (c : Cursor) (symbols : Array UInt8) (used : ℕ)
    (bits : List Bool) : (t.scan c symbols used bits).symbols.size ≤ symbols.size + bits.length := by
  induction bits generalizing c symbols used with
  | nil => exact le_rfl
  | cons bit bits ih =>
    simp only [scan, List.length_cons]
    cases t.step c bit with
    | descend c =>
      have := ih c symbols (used + 1)
      simp only
      omega
    | symbol b =>
      have := ih {} (symbols.push b) (used + 1)
      rw [Array.size_push] at this
      simp only
      omega
    | stop => simp
    | fail f => simp

namespace Consistent

/-- A way down gives no symbols. -/
theorem symbols_of_inner (h : t.Consistent) (htail : t.Inner tail) :
    (t.scan {} #[] 0 tail).symbols = #[] := by
  obtain ⟨-, hscan⟩ := h.scan_inner htail #[] 0 []
  rw [List.append_nil] at hscan
  rw [hscan]
  rfl

/-- Nor does the stop code, or anything behind it. -/
theorem symbols_of_stop (h : t.Consistent) (hstop : t.HasWord t.stopSlot) (rest : List Bool) :
    (t.scan {} #[] 0 (t.word t.stopSlot ++ rest)).symbols = #[] := by
  rw [h.scan_word hstop, if_pos rfl]

/-- **The symbols of a walk over the first bits** are those of the words that end within them. -/
theorem symbols_scan_take (h : t.Consistent) (hwords : ∀ x ∈ slots, t.HasWord x ∧ x ≠ t.stopSlot)
    (htail : (t.scan {} #[] 0 tail).symbols = #[]) (n : ℕ) :
    (t.scan {} #[] 0 ((slots.flatMap t.word ++ tail).take n)).symbols =
      ((slots.take (t.wordsWithin slots n)).map t.symbolAt).toArray := by
  induction slots generalizing n with
  | nil =>
    obtain ⟨more, hmore⟩ := t.symbols_scan_append {} (tail.take n) (tail.drop n)
    rw [List.take_append_drop, htail] at hmore
    rw [List.flatMap_nil, List.nil_append, List.take_nil, List.map_nil]
    exact (Array.append_eq_empty_iff.1 hmore.symm).1
  | cons x slots ih =>
    obtain ⟨hx, hne⟩ := hwords x List.mem_cons_self
    rw [List.flatMap_cons, List.append_assoc, wordsWithin_cons]
    by_cases hle : x.level + 1 ≤ n
    · -- the first word is among the bits
      rw [if_pos hle, List.take_append, List.take_of_length_le (by rw [length_word]; exact hle),
        h.scan_word hx, if_neg hne, scan_eq]
      simp only
      rw [length_word, ih (fun y hy => hwords y (List.mem_cons_of_mem x hy)), List.take_succ_cons,
        List.map_cons]
      simp
    · obtain ⟨c, hscan⟩ := h.scan_take_word hx (n := n) (by omega) #[] 0
      rw [if_neg hle, List.take_append_of_le_length (by rw [length_word]; omega), hscan,
        List.take_zero, List.map_nil]

/-- **The symbols of a chunk** are those of the words that end in it. -/
theorem symbolsWithin_of_scan (h : t.Consistent)
    (hwords : ∀ x ∈ slots, t.HasWord x ∧ x ≠ t.stopSlot)
    (htail : (t.scan {} #[] 0 tail).symbols = #[]) {before chunk behind : List UInt8}
    (hbits : bitsOf (before ++ (chunk ++ behind)) = slots.flatMap t.word ++ tail)
    (hmore : (t.scan {} #[] 0 (bitsOf before)).ending = .more c) :
    (t.scan c #[] 0 (bitsOf chunk)).symbols.toList =
      t.symbolsWithin slots (8 * before.length) (8 * (before.length + chunk.length)) := by
  have hshort := h.symbols_scan_take hwords htail (8 * before.length)
  have hlong := h.symbols_scan_take hwords htail (8 * (before.length + chunk.length))
  rw [← hbits, ← bitsOf_take, List.take_left] at hshort
  rw [← hbits, ← bitsOf_take, ← List.append_assoc, ← List.length_append, List.take_left,
    bitsOf_append, scan_append] at hlong
  have hcount : (slots.take (t.wordsWithin slots (8 * before.length))).length =
      t.wordsWithin slots (8 * before.length) := List.length_take_of_le (t.wordsWithin_le _ _)
  rcases hscan : t.scan {} #[] 0 (bitsOf before) with ⟨symbols, used, e⟩
  rw [hscan] at hshort hlong hmore
  simp only at hmore
  subst hmore
  simp only at hshort hlong
  rw [scan_eq, hshort] at hlong
  -- what the walk over the chunk adds is what the longer list has behind the shorter one
  have hlist := congrArg (fun a => a.toList.drop (t.wordsWithin slots (8 * before.length))) hlong
  simp only [Array.toList_append] at hlist
  rw [List.drop_left' (by rw [List.length_map, hcount])] at hlist
  rw [symbolsWithin, List.map_drop, ← List.length_append]
  exact hlist

end Consistent

end Walk

section Rounds

variable {t : Tree} {n : ℕ} {e e' : Ending} {s s' : Source} {k k' : Sink}
  {rounds : List (List UInt8 × List UInt8)} {before : List UInt8}

theorem Rounds.reads (h : t.Rounds n e s k rounds e' s' k') :
    s.Reads n (rounds.map Prod.fst) s' := by
  induction h with
  | nil e s k => exact .nil s
  | cons hread hne hscan hflush hrest ih => exact .cons hread hne ih

theorem Rounds.written (h : t.Rounds n e s k rounds e' s' k') :
    k'.written = k.written ++ (rounds.map Prod.snd).flatten := by
  induction h with
  | nil e s k => simp
  | cons hread hne hscan hflush hrest ih =>
    rw [ih, Sink.flush_written hflush]
    apply Array.toList_inj.1
    simp

/-- **At most one write in each round.** -/
theorem Rounds.writes (h : t.Rounds n e s k rounds e' s' k') :
    k'.writes = k.writes ++ ((rounds.map Prod.snd).filter (· ≠ [])).map List.length := by
  induction h with
  | nil e s k => simp
  | @cons c s s₁ s' k k₁ k' chunk symbols used e e' rounds hread hne hscan hflush hrest ih =>
    have hsplit : ((symbols.toList :: rounds.map Prod.snd).filter (· ≠ [])).map List.length =
        ([symbols.toList].filter (· ≠ [])).map List.length ++
          ((rounds.map Prod.snd).filter (· ≠ [])).map List.length := by
      rw [← List.map_append]
      exact congrArg _ (List.filter_append [symbols.toList] _)
    rw [ih, Sink.flush_writes hflush, List.map_cons, hsplit]
    apply Array.toList_inj.1
    simp only [Array.toList_appendList, List.append_assoc]

theorem Rounds.length_le (h : t.Rounds n e s k rounds e' s' k') :
    ∀ x ∈ rounds, x.2.length ≤ 8 * x.1.length := by
  induction h with
  | nil e s k => exact fun x hx => absurd hx List.not_mem_nil
  | @cons c s s₁ s' k k₁ k' chunk symbols used e e' rounds hread hne hscan hflush hrest ih =>
    intro x hx
    rcases List.mem_cons.1 hx with rfl | hx
    · have hsize := t.size_symbols_le c #[] 0 (bitsOf chunk)
      rw [hscan, length_bitsOf] at hsize
      simpa using hsize
    · exact ih x hx

/-- The walk goes on with a chunk. -/
theorem ending_append {c : Cursor} (hbefore : (t.scan {} #[] 0 (bitsOf before)).ending = .more c)
    (chunk : List UInt8) :
    (t.scan {} #[] 0 (bitsOf (before ++ chunk))).ending =
      (t.scan c #[] 0 (bitsOf chunk)).ending := by
  rw [bitsOf_append, scan_append]
  rcases hscan : t.scan {} #[] 0 (bitsOf before) with ⟨symbols, used, e⟩
  rw [hscan] at hbefore
  simp only at hbefore
  subst hbefore
  simp only
  rw [scan_eq]

/-- **The rounds are one walk** over all that was read. -/
theorem Rounds.ending (h : t.Rounds n e s k rounds e' s' k') (before : List UInt8)
    (hbefore : (t.scan {} #[] 0 (bitsOf before)).ending = e) :
    (t.scan {} #[] 0 (bitsOf (before ++ (rounds.map Prod.fst).flatten))).ending = e' := by
  induction h generalizing before with
  | nil e s k =>
    rw [List.map_nil, List.flatten_nil, List.append_nil]
    exact hbefore
  | @cons c s s₁ s' k k₁ k' chunk symbols used e e' rounds hread hne hscan hflush hrest ih =>
    rw [List.map_cons, List.flatten_cons, ← List.append_assoc]
    apply ih
    rw [ending_append hbefore, hscan]

/-- **What is written in each round** are the symbols whose words end in its chunk. -/
theorem Rounds.pieces_eq (ht : t.Consistent) {slots : List Slot} {tail : List Bool}
    (hwords : ∀ x ∈ slots, t.HasWord x ∧ x ≠ t.stopSlot)
    (htail : (t.scan {} #[] 0 tail).symbols = #[]) (h : t.Rounds n e s k rounds e' s' k')
    (before : List UInt8)
    (hbits : bitsOf (before ++ (rounds.map Prod.fst).flatten) = slots.flatMap t.word ++ tail)
    (hbefore : (t.scan {} #[] 0 (bitsOf before)).ending = e) :
    rounds.map Prod.snd = t.pieces slots before.length (rounds.map Prod.fst) := by
  induction h generalizing before with
  | nil e s k => rfl
  | @cons c s s₁ s' k k₁ k' chunk symbols used e e' rounds hread hne hscan hflush hrest ih =>
    rw [List.map_cons, List.flatten_cons] at hbits
    have hpiece := ht.symbolsWithin_of_scan hwords htail hbits hbefore
    have hnext : (t.scan {} #[] 0 (bitsOf (before ++ chunk))).ending = e := by
      rw [ending_append hbefore, hscan]
    rw [← List.append_assoc] at hbits
    have hrest := ih (before ++ chunk) hbits hnext
    rw [hscan] at hpiece
    rw [List.length_append] at hrest
    rw [List.map_cons, List.map_cons, pieces, ← hrest]
    exact congrArg (· :: _) hpiece

/-- **The round that stops is the last**, and the walk goes on up to it. -/
theorem Rounds.exists_last (h : t.Rounds n e s k rounds .stopped s' k') (hgoes : e ≠ .stopped)
    (before : List UInt8) (hbefore : (t.scan {} #[] 0 (bitsOf before)).ending = e) :
    ∃ init last c, rounds.map Prod.fst = init ++ [last] ∧
      (t.scan {} #[] 0 (bitsOf (before ++ init.flatten))).ending = .more c := by
  generalize hstop : Ending.stopped = e' at h
  induction h generalizing before with
  | nil e s k => exact absurd hstop.symm hgoes
  | @cons c s s₁ s' k k₁ k' chunk symbols used e e' rounds hread hne hscan hflush hrest ih =>
    by_cases hlast : e = .stopped
    · -- no round starts where the walk has stopped
      subst hlast
      cases hrest
      refine ⟨[], chunk, c, rfl, ?_⟩
      rw [List.flatten_nil, List.append_nil]
      exact hbefore
    · have hnext : (t.scan {} #[] 0 (bitsOf (before ++ chunk))).ending = e := by
        rw [ending_append hbefore, hscan]
      obtain ⟨init, last, c', hchunks, hmore⟩ := ih hlast (before ++ chunk) hnext hstop
      refine ⟨chunk :: init, last, c', ?_, ?_⟩
      · rw [List.map_cons, hchunks, List.cons_append]
      · rw [List.flatten_cons, ← List.append_assoc]
        exact hmore

/-- **What ends the rounds**: the stop code, a read that gives nothing or fails, or a walk that
fails. -/
inductive PassEnd (t : Tree) (n : ℕ) (c : Cursor) (source : Source) (sink : Sink) :
    Ending → EStateM.Result Failure (Source × Sink) Pass → Prop
  | stopped (p : Pass) : PassEnd t n c source sink .stopped (.ok p (source, sink))
  | silent {c' : Cursor} {source' : Source} (hread : source.read n = .ok [] source') (p : Pass) :
    PassEnd t n c source sink (.more c') (.ok p (source', sink))
  | broken {c' : Cursor} {source' : Source} {error : StreamError}
    (hread : source.read n = .error error source') :
    PassEnd t n c source sink (.more c')
      (.error (.ofRead "packed payload" error) (source', sink))
  | failed {e : Ending} {bits : List Bool} {f : Failure} {streams : Source × Sink}
    (hscan : (t.scan c #[] 0 bits).ending = .failed f) :
    PassEnd t n c source sink e (.error f streams)

/-- **A pass is rounds and what ends them**, from any source into a sink that does not fail. -/
theorem rounds_of_pump (t : Tree) {reader : BitReader} (hended : reader.ended = false)
    {sink : Sink} (hk : sink.fault = none) (c : Cursor) (written : ℕ) (source : Source) :
    ∃ rounds e source₁ sink₁,
      t.Rounds reader.chunkSize (.more c) source sink rounds e source₁ sink₁ ∧
        t.PassEnd reader.chunkSize c source₁ sink₁ e (t.pump reader c written source sink) := by
  -- each chunk leaves less of the source
  induction hn : source.remaining using Nat.strong_induction_on
    generalizing reader c written source sink with
  | h m ih =>
    rcases hnext : reader.next source with ⟨chunk, reader₁, source₁⟩ | ⟨f, reader₁, source₁⟩
    swap
    · obtain ⟨-, error, rfl, hread⟩ := BitReader.next_of_error hnext
      rw [pump_of_next_error hnext]
      exact ⟨[], _, _, _, .nil _ _ _, .broken hread⟩
    rcases chunk with _ | bits
    · rw [pump_of_next_none hnext]
      rcases BitReader.next_of_none hnext with ⟨htrue, -⟩ | ⟨-, -, hread⟩
      · rw [hended] at htrue
        cases htrue
      · exact ⟨[], _, _, _, .nil _ _ _, .silent hread _⟩
    obtain ⟨first, hne, rfl, rfl, hread⟩ := BitReader.next_of_some hnext
    rcases hscan : t.scan c #[] 0 (bitsOf first) with ⟨symbols, used, c₁ | _ | f⟩
    · obtain ⟨sink₁, hflush, hk₁, -⟩ := Sink.flush_ok hk symbols
      have hless := BitReader.remaining_lt_of_next hnext
      obtain ⟨rounds, e, source₂, sink₂, hrounds, hend⟩ :=
        ih _ (hn ▸ hless) (show (reader.past first.length).ended = false from hended) hk₁ c₁
          (written + symbols.size) source₁ rfl
      rw [pump_of_more hnext hscan hflush]
      refine ⟨_, e, source₂, sink₂, .cons hread hne hscan hflush hrounds, ?_⟩
      generalize t.pump (reader.past first.length) c₁ (written + symbols.size) source₁ sink₁ = r
        at hend ⊢
      cases hend with
      | stopped p => exact .stopped p
      | silent hread p => exact .silent hread p
      | broken hread => exact .broken hread
      | @failed _ bits f streams hfail =>
        have hwhole : (t.scan c #[] 0 (bitsOf first ++ bits)).ending = .failed f := by
          rw [scan_append, hscan]
          simp only
          rw [scan_eq]
          exact hfail
        exact .failed hwhole
    · obtain ⟨sink₁, hflush, -, -⟩ := Sink.flush_ok hk symbols
      rw [pump_of_stopped hnext hscan hflush]
      exact ⟨_, .stopped, _, _, .cons hread hne hscan hflush (.nil _ _ _), .stopped _⟩
    · rw [pump_of_failed hnext hscan]
      have hfail : (t.scan c #[] 0 (bitsOf first)).ending = .failed f := by rw [hscan]
      exact ⟨[], _, _, _, .nil _ _ _, .failed hfail⟩

end Rounds

/-- **A payload that goes on**: the words of `slots`, and behind them the way down that one more word
may take. -/
structure Unstopped (t : Tree) (bits : List Bool) (slots : List Slot) (tail : List Bool) : Prop where
  words : ∀ x ∈ slots, t.HasWord x ∧ x ≠ t.stopSlot
  inner : t.Inner tail
  bits_eq : bits = slots.flatMap t.word ++ tail

/-- **What decoding read and wrote**, from `s` to `s'`: reads of `n` bytes gave the chunks, and a write
for each of them brought the symbols whose words end in it, if there are any. -/
structure Streamed (t : Tree) (n : ℕ) (s s' : Streams) (chunks : List (List UInt8))
    (slots : List Slot) (behind : Source) : Prop where
  reads : s.source.Reads n chunks behind
  writes : s'.sink.writes =
    s.sink.writes ++ ((t.pieces slots 0 chunks).filter (· ≠ [])).map List.length
  written : s'.sink.written = s.sink.written ++ (t.pieces slots 0 chunks).flatten
  length_le : ∀ x ∈ chunks.zip (t.pieces slots 0 chunks), x.2.length ≤ 8 * x.1.length

section Decode

variable {t : Tree} {s : Streams} {k : ℤ} {reader : BitReader} {slots : List Slot}
  {tail rest : List Bool} {chunks : List (List UInt8)}

namespace Consistent

/-- **A walk over a payload that goes on** gives its symbols, and stands on the way down. -/
theorem scan_of_unstopped (h : t.Consistent) {bits : List Bool} (hu : t.Unstopped bits slots tail)
    (symbols : Array UInt8) (used : ℕ) :
    t.scan {} symbols used bits =
      ⟨symbols ++ slots.map t.symbolAt, used + bits.length, .more ⟨tail.length, wordValue tail⟩⟩ := by
  obtain ⟨-, hdown⟩ := h.scan_inner hu.inner (symbols ++ slots.map t.symbolAt)
    (used + (slots.flatMap t.word).length) []
  rw [List.append_nil] at hdown
  rw [hu.bits_eq, h.scan_words hu.words, hdown, List.length_append, ← Nat.add_assoc]
  rfl

section Rounds

variable {n : ℕ} {e : Ending} {c : Cursor} {s' : Streams} {source source₁ : Source}
  {sink sink₁ : Sink} {rounds : List (List UInt8 × List UInt8)}

/-- **What rounds write**, once it is known which words they read. -/
theorem streamed_of_rounds (h : t.Consistent)
    (hrounds : t.Rounds n (.more {}) s.source s.sink rounds e source₁ s'.sink)
    (hwords : ∀ x ∈ slots, t.HasWord x ∧ x ≠ t.stopSlot)
    (htail : (t.scan {} #[] 0 tail).symbols = #[])
    (hbits : bitsOf (rounds.map Prod.fst).flatten = slots.flatMap t.word ++ tail) :
    t.Streamed n s s' (rounds.map Prod.fst) slots source₁ := by
  have hpieces : rounds.map Prod.snd = t.pieces slots 0 (rounds.map Prod.fst) :=
    Rounds.pieces_eq h hwords htail hrounds [] hbits rfl
  refine ⟨hrounds.reads, ?_, ?_, ?_⟩
  · rw [← hpieces]
    exact hrounds.writes
  · rw [← hpieces]
    exact hrounds.written
  · intro x hx
    rw [← hpieces, List.zip_map'] at hx
    obtain ⟨y, hy, rfl⟩ := List.mem_map.1 hx
    exact hrounds.length_le y hy

/-- **Rounds that stop** have read a payload of words, and the stop code's last bit with the last
chunk. -/
theorem factors_of_rounds (h : t.Consistent)
    (hrounds : t.Rounds n (.more {}) source sink rounds .stopped source₁ sink₁) :
    ∃ slots rest init last, t.Factors (bitsOf (rounds.map Prod.fst).flatten) slots rest ∧
      rounds.map Prod.fst = init ++ [last] ∧ 8 * init.flatten.length < t.payloadLength slots ∧
      (rounds.map Prod.fst).flatten.length < (t.payloadLength slots + 7) / 8 + n := by
  have hending : (t.scan {} #[] 0 (bitsOf (rounds.map Prod.fst).flatten)).ending = .stopped :=
    hrounds.ending [] rfl
  obtain ⟨slots, rest, hf⟩ := h.factors_of_scan hending
  obtain ⟨init, last, c, hchunks, hmore⟩ :=
    hrounds.exists_last (fun he => by cases he) [] rfl
  have hflatten : (rounds.map Prod.fst).flatten = init.flatten ++ last := by
    rw [hchunks, List.flatten_append, List.flatten_singleton]
  have hinit : 8 * init.flatten.length < t.payloadLength slots := by
    by_contra hle
    -- otherwise the walk would have stopped before the last chunk
    have htake : (bitsOf init.flatten).take (t.payloadLength slots) =
        (bitsOf (rounds.map Prod.fst).flatten).take (t.payloadLength slots) := by
      rw [hflatten, bitsOf_append, List.take_append_of_le_length (by rw [length_bitsOf]; omega)]
    rw [List.nil_append, h.scan_of_factors (hf.of_take htake)] at hmore
    cases hmore
  have hlast : last.length ≤ n := by
    refine (hrounds.reads.length_le last ?_).2
    rw [hchunks]
    exact List.mem_append_right _ (List.mem_singleton_self last)
  refine ⟨slots, rest, init, last, hf, hchunks, hinit, ?_⟩
  rw [hflatten, List.length_append]
  omega

/-- **Rounds that go on** have read words and the beginning of one more. -/
theorem unstopped_of_rounds (h : t.Consistent)
    (hrounds : t.Rounds n (.more {}) source sink rounds (.more c) source₁ sink₁) :
    ∃ slots tail, t.Unstopped (bitsOf (rounds.map Prod.fst).flatten) slots tail := by
  have hending : (t.scan {} #[] 0 (bitsOf (rounds.map Prod.fst).flatten)).ending = .more c :=
    hrounds.ending [] rfl
  obtain ⟨slots, tail, hwords, hbits, htail⟩ :=
    h.words_of_scan (Inner.nil t) #[] 0 (bitsOf (rounds.map Prod.fst).flatten)
  change t.EndsWith tail (t.scan {} #[] 0 _).ending at htail
  rw [hending] at htail
  exact ⟨slots, tail, hwords, htail.1, hbits⟩

end Rounds

/-- **The stop code ends a pass** as the symbols before it say. -/
theorem decode_of_stopped (h : t.Consistent) (hr : BitReader.ofChunkSize? k = some reader)
    (hzero : reader.bytesRead = 0) {p : Pass} {source₁ : Source} {sink₁ : Sink}
    (hpump : t.pump reader {} 0 s.source s.sink = .ok p (source₁, sink₁))
    (hgave : s.source.Gave chunks.flatten source₁)
    (hf : t.Factors (bitsOf chunks.flatten) slots rest) :
    (outcome (t.decode k s)).map Decoded.size = t.settled slots.length ∧
      s.Added (final (t.decode k s)) ((t.payloadLength slots + 7) / 8 : ℕ) slots.length := by
  obtain ⟨bytes, hgave', -, hout, hadded, -⟩ := verdict_of_pump hr hzero hpump
  obtain rfl := hgave'.unique hgave
  rw [h.verdict_of_factors hf] at hout hadded
  exact ⟨hout, hadded⟩

/-- **Without the stop code** the bytes come to nothing. -/
theorem decode_of_unstopped (h : t.Consistent) (hr : BitReader.ofChunkSize? k = some reader)
    (hzero : reader.bytesRead = 0) {p : Pass} {source₁ : Source} {sink₁ : Sink}
    (hpump : t.pump reader {} 0 s.source s.sink = .ok p (source₁, sink₁))
    (hgave : s.source.Gave chunks.flatten source₁)
    (hu : t.Unstopped (bitsOf chunks.flatten) slots tail) :
    outcome (t.decode k s) = .error (.noStop slots.length) := by
  obtain ⟨bytes, hgave', -, hout, -, -⟩ := verdict_of_pump hr hzero hpump
  obtain rfl := hgave'.unique hgave
  rw [verdict_of_more (h.scan_of_unstopped hu #[] 0)] at hout
  rw [eq_error_of_map hout]
  simp

end Consistent

/-- **How a payload streams by**, from any source into a sink that does not fail, unless it is corrupt.
Each read asks for the chunk size, and what a chunk brings to its end is written at once. Either
the stop code comes, and the chunk with its last bit is the last one that is read, so that what was
read beyond the bytes that count is less than a chunk; or it does not, and there is one more read, which
gives nothing or fails. -/
theorem decode_streamed {ahead : List UInt8} {size : Option ℤ} {source source' : Source}
    (hread : read ahead size source = .ok t source') (hk : 1 ≤ k) (hsink : s.sink.fault = none)
    (hcorrupt : ∀ f, outcome (t.decode k s) = .error f → f.kind ≠ .corruptCode) :
    let r := t.decode k s
    let s' := final r
    ∃ chunks slots behind, t.Streamed k.toNat s s' chunks slots behind ∧
      ((∃ init last rest,
          let consumed := (t.payloadLength slots + 7) / 8
          t.Factors (bitsOf chunks.flatten) slots rest ∧
          chunks = init ++ [last] ∧ 8 * init.flatten.length < t.payloadLength slots ∧
          s'.source = behind ∧
          s'.source.requests = s.source.requests ++ Array.replicate chunks.length k.toNat ∧
          (outcome r).map Decoded.size = t.settled slots.length ∧
          s.Added s' consumed slots.length ∧
          s.source.pos + consumed ≤ s'.source.pos ∧
          (s'.source.pos : ℤ) < s.source.pos + consumed + k ∧
          (k = 1 → s'.source.pos = s.source.pos + consumed)) ∨
        ∃ tail, t.Unstopped (bitsOf chunks.flatten) slots tail ∧
          s'.source.requests =
            s.source.requests ++ Array.replicate (chunks.length + 1) k.toNat ∧
          (behind.read k.toNat = .ok [] s'.source ∧ outcome r = .error (.noStop slots.length) ∨
            ∃ e, behind.read k.toNat = .error e s'.source ∧
              outcome r = .error (.ofRead "packed payload" e))) := by
  intro r s'
  have h : t.Consistent := by
    obtain ⟨counts, symbols, hgood, rfl, -⟩ := good_of_read hread
    exact consistent_ofCounts hgood size
  obtain ⟨reader, hr, hsize, hzero, hended⟩ := ofChunkSize?_of_pos hk
  obtain ⟨rounds, e, source₁, sink₁, hrounds, hend⟩ := t.rounds_of_pump hended hsink {} 0 s.source
  obtain ⟨hsource', hsink'⟩ := streams_of_decode (t := t) (s := s) hr
  rw [hsize] at hrounds hend
  have hreads := hrounds.reads
  generalize hpump : t.pump reader {} 0 s.source s.sink = x at hend hsource' hsink'
  change s'.source = _ at hsource'
  change s'.sink = _ at hsink'
  cases hend with
  | stopped p =>
    obtain ⟨slots, rest, init, last, hf, hchunks, hinit, hlt⟩ := h.factors_of_rounds hrounds
    obtain ⟨hout, hadded⟩ := h.decode_of_stopped hr hzero hpump hreads.gave hf
    have hbits := hf.bits_eq
    rw [List.append_assoc] at hbits
    rw [← show s'.sink = sink₁ from hsink'] at hrounds
    have hstreamed :=
      h.streamed_of_rounds hrounds hf.words (h.symbols_of_stop hf.stop rest) hbits
    have hlog := (congrArg Source.requests hsource').trans hreads.requests
    have hpos := (congrArg Source.pos hsource').trans hreads.gave.pos
    -- the chunks reach the end of the payload, and less than one of them goes beyond
    have hle : t.payloadLength slots ≤ 8 * (rounds.map Prod.fst).flatten.length := by
      have := congrArg List.length hf.bits_eq
      rw [List.length_append, length_bitsOf] at this
      exact this ▸ Nat.le_add_right _ _
    exact ⟨_, slots, source₁, hstreamed, Or.inl ⟨init, last, rest, hf, hchunks, hinit, hsource',
      hlog, hout, hadded, by omega, by omega, fun hone => by omega⟩⟩
  | @silent c source₂ hread p =>
    obtain ⟨slots, tail, hu⟩ := h.unstopped_of_rounds hrounds
    have hgave := hreads.gave.trans (Source.gave_of_read hread)
    rw [List.append_nil] at hgave
    have hout := h.decode_of_unstopped hr hzero hpump hgave hu
    rw [← show s'.sink = sink₁ from hsink'] at hrounds
    have hstreamed := h.streamed_of_rounds hrounds hu.words (h.symbols_of_inner hu.inner) hu.bits_eq
    have hlog := Source.requests_of_read hread
    rw [hreads.requests_push] at hlog
    rw [hsource']
    exact ⟨_, slots, source₁, hstreamed, Or.inr ⟨tail, hu, hlog, Or.inl ⟨hread, hout⟩⟩⟩
  | @broken c source₂ error hread =>
    obtain ⟨slots, tail, hu⟩ := h.unstopped_of_rounds hrounds
    have hout := congrArg outcome (decode_of_pump_error hr hpump)
    rw [← show s'.sink = sink₁ from hsink'] at hrounds
    have hstreamed := h.streamed_of_rounds hrounds hu.words (h.symbols_of_inner hu.inner) hu.bits_eq
    have hlog := congrArg Source.requests (Source.read_of_error hread).2
    simp only at hlog
    rw [hreads.requests_push] at hlog
    rw [hsource']
    exact ⟨_, slots, source₁, hstreamed, Or.inr ⟨tail, hu, hlog, Or.inr ⟨error, hread, hout⟩⟩⟩
  | @failed _ bits f streams hscan =>
    -- a walk fails only on a corrupt code
    obtain ⟨i, l, rfl⟩ := h.scan_failed h.levels_pos hscan
    exact absurd rfl (hcorrupt _ (congrArg outcome (decode_of_pump_error hr hpump)))

/-- `BBBA` and a stop code that two chunks share: two reads and one write, two bytes taken for four, and the
third byte left. -/
theorem decode_streamed_split_stop :
    let t := ofCounts [1, 0] [65, 66] none
    let s : Streams := { source := { data := #[0x02, 0x80, 0xff] }, stats := some {} }
    let s' := final (t.decode 1 s)
    ((∃ source', read [] none { data := #[2, 1, 0, 65, 66] } = .ok t source') ∧ (1 : ℤ) ≤ 1 ∧
        s.sink.fault = none ∧
        ∀ f, outcome (t.decode 1 s) = .error f → f.kind ≠ .corruptCode) ∧
      ∃ chunks slots, t.Streamed 1 s s' chunks slots s'.source ∧ chunks.length = 2 ∧
        slots.length = 4 ∧ s'.sink.writes = #[4] ∧ s'.source.pos = 2 ∧
        (t.payloadLength slots + 7) / 8 = 2 ∧ s'.stats = some ⟨2, 4⟩ := by
  have hout : outcome ((ofCounts [1, 0] [65, 66] none).decode 1
      { source := { data := #[0x02, 0x80, 0xff] }, stats := some {} }) = .ok ⟨4, 2⟩ := by
    decide +kernel
  have hstate : let s' := final ((ofCounts [1, 0] [65, 66] none).decode 1
        { source := { data := #[0x02, 0x80, 0xff] }, stats := some {} })
      s'.source.pos = 2 ∧ s'.source.requests = #[1, 1] ∧ s'.sink.writes = #[4] := by
    decide +kernel
  intro t s s'
  have hk : (1 : ℤ) ≤ 1 := by decide
  have hparse : Header.parse ([] ++ ({ data := #[2, 1, 0, 65, 66] } : Source).upcoming) =
      .ok ([1, 0], [65, 66], []) := by decide
  have hcorrupt : ∀ f, outcome (t.decode 1 s) = .error f → f.kind ≠ .corruptCode := by
    intro f hf
    rw [show outcome (t.decode 1 s) = _ from hout] at hf
    cases hf
  obtain ⟨source', hread, -⟩ := read_of_parse_ok (by decide) (by decide) none hparse
  obtain ⟨hpos, hlog, hwrites⟩ := hstate
  obtain ⟨chunks, slots, behind, hstreamed, hend⟩ := decode_streamed hread hk rfl hcorrupt
  refine ⟨⟨⟨source', hread⟩, hk, rfl, hcorrupt⟩, chunks, slots, ?_⟩
  rcases hend with ⟨init, last, rest, -, -, -, hsource, hrequests, hsettled, hadded, -, -, hexact⟩ |
    ⟨tail, -, -, ⟨-, herror⟩ | ⟨e, -, herror⟩⟩
  · have hchunks := congrArg Array.size (hrequests.symm.trans hlog)
    have hslots : slots.length = 4 := by
      rw [settled_of_none rfl, hout] at hsettled
      exact (Except.ok.inj hsettled).symm
    have hconsumed : (t.payloadLength slots + 7) / 8 = 2 := by
      have hsum := hexact rfl
      rw [hpos] at hsum
      simpa [s] using hsum.symm
    have htotals := hadded.of_zero rfl
    rw [hconsumed, hslots] at htotals
    exact ⟨hsource ▸ hstreamed, by simpa [s] using hchunks, hslots, hwrites, hpos, hconsumed, htotals⟩
  · rw [hout] at herror
    cases herror
  · rw [hout] at herror
    cases herror

end Decode

end Tree

end PackFormat
