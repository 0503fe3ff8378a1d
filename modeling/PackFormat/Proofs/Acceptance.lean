import PackFormat.Proofs.Grammar
import PackFormat.Proofs.Unpack

/-!
# What is unpacked

Unpacking succeeds on a good header with a payload behind it that reads as words of
symbols and the stop code's word, and on nothing else.

* `Tree.Consistent.verdict_of_factors`, `Tree.Consistent.output_of_factors`: what a
  payload that reads so comes to.
* `unpack_of_factors`, `factors_of_unpack`: the two directions.
* `unpack_accepts`: **the accepted streams and what they unpack to**, whatever the
  header says.
-/

namespace PackFormat

namespace Tree

variable {t : Tree} {payload : List UInt8} {slots : List Slot} {rest : List Bool}

namespace Consistent

/-- **What a payload of words comes to.** -/
theorem verdict_of_factors (h : t.Consistent) (hf : t.Factors (bitsOf payload) slots rest) :
    t.verdict payload = ⟨t.settled slots.length, (t.payloadLength slots + 7) / 8, slots.length⟩ := by
  have hsize : ((#[] : Array UInt8) ++ slots.map t.symbolAt).size = slots.length := by simp
  rw [verdict, h.scan_of_factors hf, Nat.zero_add]
  simp only [hsize]

/-- **The bytes of a payload of words** are the symbols of its slots. -/
theorem output_of_factors (h : t.Consistent) (hf : t.Factors (bitsOf payload) slots rest) (size : ℕ) :
    t.output size payload = slots.map t.symbolAt := by
  have hsymbols := t.symbols_scan {} #[] 0 (bitsOf payload)
  rw [output, h.scan_of_factors hf]
  rw [h.scan_of_factors hf] at hsymbols
  simpa using (congrArg Array.toList hsymbols).symm

/-- **Only payloads of words are accepted.** -/
theorem factors_of_verdict (h : t.Consistent) {n : ℕ} (hn : (t.verdict payload).outcome = .ok n) :
    ∃ slots rest, t.Factors (bitsOf payload) slots rest := by
  have hstop : (t.scan {} #[] 0 (bitsOf payload)).ending = .stopped := by
    unfold verdict at hn
    rcases hscan : t.scan {} #[] 0 (bitsOf payload) with ⟨symbols, used, c | _ | f⟩
    · rw [hscan] at hn; cases hn
    · rfl
    · rw [hscan] at hn; cases hn
  exact h.factors_of_scan hstop

/-- Symbols of words come from the table. -/
theorem symbol_of_word (h : t.Consistent) {x : Slot} (hx : t.HasWord x) (hne : x ≠ t.stopSlot) :
    t.symbols[t.place x]? = some (t.symbolAt x) := by
  rcases h.place_lt_or_eq (h.level_lt hx) hx.index_lt with ⟨-, hlt⟩ | ⟨heq, -⟩
  · rw [symbolAt, List.getElem?_eq_getElem hlt, List.getD_eq_getElem _ _ hlt]
  · exact absurd heq hne

end Consistent

/-- **What reading a tree takes from a source that does not fail**: a good header, and no more. -/
theorem read_clean {ahead : List UInt8} {size : Option ℤ} {s s' : Source} (hs : s.Clean)
    (h : read ahead size s = .ok t s') :
    t.Consistent ∧ t.size = size ∧ s'.Clean ∧
      1 + t.levels + t.symbols.length + s'.upcoming.length = (ahead ++ s.upcoming).length := by
  obtain ⟨-, -, -, -, hkin⟩ := good_of_read h
  obtain ⟨counts, symbols, rfl, hparse⟩ := parse_of_read hs.maxRead h
  obtain ⟨hg, hbytes⟩ := Header.parse_eq_ok_iff.1 hparse
  refine ⟨consistent_ofCounts hg size, rfl, hkin.clean hs, ?_⟩
  rw [hbytes, ← headerLength, headerLength_ofCounts, List.length_append]
  push_cast
  rfl

end Tree

section Unpack

variable {s : Streams} {ahead : List UInt8} {size : Option ℤ} {k : ℤ} {t : Tree} {source' : Source}

/-- **Unpacking a good header and a payload of words**: the symbols of the words, and the outcome that
their number is worth. -/
theorem unpack_of_factors {slots : List Slot} {rest : List Bool} (hs : s.source.Clean)
    (hsink : s.sink.fault = none) (hk : 1 ≤ k)
    (hread : Tree.read ahead size s.source = .ok t source')
    (hf : t.Factors (bitsOf source'.upcoming) slots rest) :
    outcome (unpack ahead size k s) = t.settled slots.length ∧
      (final (unpack ahead size k s)).sink.written = s.sink.written ++ slots.map t.symbolAt ∧
      s.Added (final (unpack ahead size k s))
        (1 + t.levels + t.symbols.length + ((t.payloadLength slots + 7) / 8 : ℕ)) slots.length := by
  obtain ⟨ht, -, hs', -⟩ := Tree.read_clean hs hread
  obtain ⟨hout, hadded, hwritten⟩ := unpack_clean hsink hk hread hs'
  rw [ht.verdict_of_factors hf] at hout hadded
  rw [ht.output_of_factors hf] at hwritten
  exact ⟨hout, hwritten, hadded⟩

/-- **What unpacks is a good header and a payload of words.** -/
theorem factors_of_unpack {n : ℕ} {s' : Streams} (hs : s.source.Clean) (hsink : s.sink.fault = none)
    (hk : 1 ≤ k) (hrun : unpack ahead size k s = .ok n s') :
    ∃ t source' slots rest, Tree.read ahead size s.source = .ok t source' ∧
      t.Factors (bitsOf source'.upcoming) slots rest := by
  cases hread : Tree.read ahead size s.source with
  | error f source' =>
    rw [unpack_of_error hread] at hrun
    cases hrun
  | ok t source' =>
    obtain ⟨ht, hsize, hs', -⟩ := Tree.read_clean hs hread
    obtain ⟨hout, -, -⟩ := unpack_clean hsink hk hread hs'
    rw [hrun] at hout
    obtain ⟨slots, rest, hf⟩ := ht.factors_of_verdict hout.symm
    exact ⟨t, source', slots, rest, rfl, hf⟩

/-- **Unpacking accepts exactly its grammar**: a header that reads as a tree, and behind it words of
slots that end with the first stop code's. That reading is unique; the slots' symbols are written,
and the header is counted with the bytes that the words touch. -/
theorem unpack_accepts (hs : s.source.Clean) (hsink : s.sink.fault = none) (ahead : List UInt8)
    (hk : 1 ≤ k) :
    ((∃ n s', unpack ahead none k s = .ok n s') ↔
      ∃ t source' slots rest, Tree.read ahead none s.source = .ok t source' ∧
        t.Factors (bitsOf source'.upcoming) slots rest) ∧
    ∀ t source' slots rest, Tree.read ahead none s.source = .ok t source' →
      t.Factors (bitsOf source'.upcoming) slots rest →
        (∀ slots' rest', t.Factors (bitsOf source'.upcoming) slots' rest' →
          slots' = slots ∧ rest' = rest) ∧
        (∀ x ∈ slots, t.symbols[t.place x]? = some (t.symbolAt x)) ∧
        1 + t.levels + t.symbols.length + source'.upcoming.length =
          (ahead ++ s.source.upcoming).length ∧
        ∃ s', unpack ahead none k s = .ok slots.length s' ∧
          s'.sink.written = s.sink.written ++ slots.map t.symbolAt ∧
          s.Added s' (1 + t.levels + t.symbols.length + ((t.payloadLength slots + 7) / 8 : ℕ))
            slots.length := by
  have haccept : ∀ {t source' slots rest}, Tree.read ahead none s.source = .ok t source' →
      t.Factors (bitsOf source'.upcoming) slots rest →
        unpack ahead none k s = .ok slots.length (final (unpack ahead none k s)) := by
    intro t source' slots rest hread hf
    obtain ⟨-, hsize, -, -⟩ := Tree.read_clean hs hread
    obtain ⟨hout, -, -⟩ := unpack_of_factors hs hsink hk hread hf
    rw [Tree.settled_of_none hsize] at hout
    exact eq_ok_of_outcome hout
  refine ⟨⟨?_, ?_⟩, ?_⟩
  · rintro ⟨n, s', hrun⟩
    exact factors_of_unpack hs hsink hk hrun
  · rintro ⟨t, source', slots, rest, hread, hf⟩
    exact ⟨_, _, haccept hread hf⟩
  · intro t source' slots rest hread hf
    obtain ⟨ht, -, -, hlength⟩ := Tree.read_clean hs hread
    obtain ⟨-, hwritten, hadded⟩ := unpack_of_factors hs hsink hk hread hf
    have hunique : ∀ slots' rest', t.Factors (bitsOf source'.upcoming) slots' rest' →
        slots' = slots ∧ rest' = rest := fun slots' rest' hf' => ht.factors_unique hf' hf
    have hsymbols : ∀ x ∈ slots, t.symbols[t.place x]? = some (t.symbolAt x) := by
      intro x hx
      obtain ⟨hword, hne⟩ := hf.words x hx
      exact ht.symbol_of_word hword hne
    exact ⟨hunique, hsymbols, hlength, _, haccept hread hf, hwritten, hadded⟩

/-- `A` in one bit, `B` and the stop code in two, and three bits of anything: five bytes of header and one of
payload are taken for two. -/
theorem unpack_accepts_two_words :
    let source : Source := { data := #[2, 1, 0, 65, 66, 0x8d], maxRead := some 2 }
    let s : Streams := { source, stats := some {} }
    (s.source.Clean ∧ s.sink.fault = none ∧ (1 : ℤ) ≤ 1) ∧
      ∃ t source', Tree.read [] none s.source = .ok t source' ∧
        t.Factors (bitsOf source'.upcoming) [⟨0, 0⟩, ⟨1, 0⟩] [true, false, true] ∧
        ∃ s', unpack [] none 1 s = .ok 2 s' ∧ s'.sink.written = #[65, 66] ∧
          s'.stats = some ⟨6, 2⟩ := by
  intro source s
  have hs : s.source.Clean := ⟨rfl, by decide⟩
  have hparse : Header.parse ([] ++ s.source.upcoming) = .ok ([1, 0], [65, 66], [0x8d]) := by decide
  have ha : ([] : List UInt8).length ≤ 1 := by decide
  obtain ⟨source', hread, -, hrest⟩ := Tree.read_of_parse_ok hs.maxRead ha none hparse
  have hf : (Tree.ofCounts [1, 0] [65, 66] none).Factors (bitsOf source'.upcoming)
      [⟨0, 0⟩, ⟨1, 0⟩] [true, false, true] := by
    refine ⟨?_, ⟨by decide, by decide, by decide, by decide⟩, by rw [hrest]; decide⟩
    intro x hx
    rcases List.mem_cons.1 hx with rfl | hx
    · exact ⟨⟨by decide, by decide, by decide, by decide⟩, by decide⟩
    · rw [List.mem_singleton.1 hx]
      exact ⟨⟨by decide, by decide, by decide, by decide⟩, by decide⟩
  obtain ⟨-, -, -, s', hrun, hwritten, hadded⟩ :=
    (unpack_accepts hs rfl [] (k := 1) (by decide)).2 _ source' _ _ hread hf
  exact ⟨⟨hs, rfl, by decide⟩, _, source', hread, hf, s', hrun, hwritten.trans (by decide),
    (hadded.of_zero rfl).trans (by decide)⟩

end Unpack

end PackFormat
