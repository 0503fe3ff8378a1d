import PackFormat.Proofs.Huffman.Optimal
import PackFormat.Proofs.RoundTrip

/-!
# What packing comes to

A byte string is packed unless it is empty, has as many bytes as there are, or a code
that is too long: the header of any other passes its check, since the last level has a
leaf beside the stop mark, and no other level has as many leaves as a byte can not
count. The tree that the header tells is the one that the code lengths fill, with
nothing lost in halving, and the length of the stream follows from them.

* `writable_codeLengths`: the header of a byte string passes its check.
* `pack_eq`: what packing comes to.
* `length_payload`: how long a payload is.
* `flatten_ordered`: the order of the symbols in the table.
* `exact_packedTree`: the tree that the header tells (`Tree.Exact`).
* `pack_exact`: **packing fails only outside its domain, and writes an exact tree.**
-/

namespace PackFormat

open Finset

/-- The word of a symbol is as long as its length says. -/
theorem FillsTree.length_codeWord {lengths : List (Symbol × ℕ)} {t : CodeTree} {s : Symbol} {l : ℕ}
    (h : FillsTree lengths t) (hs : (s, l + 1) ∈ lengths) :
    (codeWord (codes (levelSymbols lengths)) s).length = l + 1 := by
  obtain ⟨i, -, hword⟩ := h.codeWord_eq hs
  rw [hword, length_lowBits]

variable {data : List UInt8} {s : Symbol} {l : ℕ}

/-- A list with each byte that occurs once is as long as there are such bytes. -/
theorem length_eq_card {bytes : List UInt8} (hnodup : bytes.Nodup)
    (hmem : ∀ b, b ∈ bytes ↔ b ∈ data) : bytes.length = data.toFinset.card := by
  rw [← List.toFinset_card_of_nodup hnodup]
  congr 1
  ext b
  rw [List.mem_toFinset, List.mem_toFinset, hmem]

theorem length_alphabet (data : List UInt8) : (alphabet data).length = data.toFinset.card :=
  length_eq_card (nodup_alphabet data) fun _ => mem_alphabet

/-- Some symbols of a byte string are no more than it has, all different. -/
theorem length_le_of_subset {symbols : List Symbol} (hnodup : symbols.Nodup)
    (hsub : ∀ s ∈ symbols, s ∈ coded data) : symbols.length ≤ data.toFinset.card + 1 := by
  have hle := (List.subperm_of_subset hnodup hsub).length_le
  rwa [coded, List.length_append, List.length_map, List.length_singleton, length_alphabet] at hle

/-- **The stop mark and a byte lie deepest**, below the root. -/
theorem exists_deepest_byte (hne : data ≠ []) : ∃ b d, deepest (codeLengths data) = d + 1 ∧
    (.byte b, d + 1) ∈ codeLengths data := by
  obtain ⟨entries, order, h⟩ := exists_joined data
  obtain ⟨b, d, rest, order', -, rfl, rfl⟩ := h.first_pair hne
  rw [h.codeLengths_eq]
  exact ⟨b, d, h.deepest_eq, h.mem_iff.2 (List.mem_cons_of_mem _ List.mem_cons_self)⟩

/-- The symbols of a level above the last are bytes. -/
theorem length_symbolsAt_le (hl : l + 1 ≠ deepest (codeLengths data)) :
    (symbolsAt (codeLengths data) l).length ≤ data.toFinset.card := by
  have h := fillsTree_codeLengths data
  have hsub : symbolsAt (codeLengths data) l ⊆ (alphabet data).map .byte := by
    intro s hs
    have hmem := mem_symbolsAt.1 hs
    rcases List.mem_append.1 (exists_length_iff.1 ⟨_, hmem⟩) with hbyte | hstop
    · exact hbyte
    · -- the stop mark is on the last level alone
      rw [List.mem_singleton.1 hstop] at hmem
      exact absurd (h.length_unique hmem h.stop_mem) hl
  have hle := (List.subperm_of_subset (h.nodup_symbolsAt l) hsub).length_le
  rwa [List.length_map, length_alphabet] at hle

/-- The last level has the stop mark and a byte. -/
theorem two_le_length_symbolsAt {n : ℕ} (hn : deepest (codeLengths data) = n + 1)
    {b : UInt8} (hb : (.byte b, n + 1) ∈ codeLengths data) :
    2 ≤ (symbolsAt (codeLengths data) n).length := by
  have hstop := (fillsTree_codeLengths data).stop_mem
  rw [hn] at hstop
  have hsub : [.byte b, .stop] ⊆ symbolsAt (codeLengths data) n := by
    intro s hs
    rcases List.mem_cons.1 hs with rfl | hs
    · exact mem_symbolsAt.2 hb
    · rw [List.mem_singleton.1 hs]; exact mem_symbolsAt.2 hstop
  exact (List.subperm_of_subset (by simp) hsub).length_le

/-- **The header of a byte string passes its check**, if the code is not too long for a header. -/
theorem writable_codeLengths (hne : data ≠ []) (hcard : data.toFinset.card ≤ 255)
    (hdepth : deepest (codeLengths data) ≤ 24) :
    Header.Writable (storedCounts (levelSizes (levelSymbols (codeLengths data))))
      (symbolTable (levelSymbols (codeLengths data))) := by
  have h := fillsTree_codeLengths data
  obtain ⟨b, n, hn, hb⟩ := exists_deepest_byte hne
  have hlevels : (levelSizes (levelSymbols (codeLengths data))).length = n + 1 := by simpa using hn
  refine ⟨by simp [hn], by simpa using hdepth, ?_, ?_⟩
  · intro c hc
    obtain ⟨l, hl⟩ := List.getElem?_of_mem hc
    rw [getElem?_storedCounts, hlevels, Option.map_eq_some_iff] at hl
    obtain ⟨size, hsize, rfl⟩ := hl
    have hlt : l < deepest (codeLengths data) := by
      have := (List.getElem?_eq_some_iff.1 hsize).1
      omega
    rw [levelSizes, List.getElem?_map, getElem?_levelSymbols hlt, Option.map_some] at hsize
    obtain rfl := Option.some.inj hsize
    split
    · -- all symbols may lie on the last level, and two of them are left out
      obtain rfl : l = n := by omega
      have hle := length_le_of_subset (h.nodup_symbolsAt l) fun s hs =>
        exists_length_iff.1 ⟨_, mem_symbolsAt.1 hs⟩
      have htwo := two_le_length_symbolsAt hn hb
      omega
    · have hle : (symbolsAt (codeLengths data) l).length ≤ data.toFinset.card :=
        length_symbolsAt_le (by omega)
      omega
  · have hflatten := congrArg List.length (h.flatten_levelSymbols (by omega))
    rw [List.length_append, List.length_map, List.length_singleton] at hflatten
    rw [sum_storedCounts (List.ne_nil_of_length_pos (by omega)), sum_levelSizes, hflatten]
    push_cast
    ring

/-- **What packing comes to.** Nothing is found wrong with a header. -/
theorem pack_eq (data : List UInt8) :
    pack data =
      if data = [] then .error .emptyInput
      else if 255 < data.toFinset.card then .error .tooManySymbols
      else if 24 < deepest (codeLengths data) then .error (.tooDeep (deepest (codeLengths data)))
      else .ok (Header.encode (headerCounts (codeLengths data))
          (symbolTable (levelSymbols (codeLengths data))) ++
        payload (codes (levelSymbols (codeLengths data))) data) := by
  unfold pack Header.maxDepth
  rw [length_alphabet]
  simp only [List.isEmpty_iff]
  split_ifs with hne hcard hdepth
  · rfl
  · rfl
  · rfl
  · have hw := writable_codeLengths hne (not_lt.1 hcard) (not_lt.1 hdepth)
    obtain ⟨k, hrun, hwritten⟩ := Header.write_of_writable hw (k := {}) rfl
    have hheader : k.written.toList = Header.encode (headerCounts (codeLengths data))
        (symbolTable (levelSymbols (codeLengths data))) := by
      rw [hwritten, headerCounts]; simp
    unfold levelSizes symbolTable at hrun
    rw [hrun]
    simp only [hheader]

/-- The word of each symbol is as long as its code length says. -/
theorem length_codeWord_eq (hp : Packable (codeLengths data)) (hs : s ∈ coded data) :
    (codeWord (codes (levelSymbols (codeLengths data))) s).length = codeLength data s := by
  have h := fillsTree_codeLengths data
  obtain ⟨d, hd⟩ := exists_length_iff.2 hs
  have hpos : 0 < d := h.length_pos hp hd
  obtain ⟨l, rfl⟩ : ∃ l, d = l + 1 := ⟨d - 1, by omega⟩
  rw [h.length_codeWord hd, codeLength_of_mem hd]

/-- **How long a payload is**: the bits of all words, up to a whole byte. -/
theorem length_payload (hp : Packable (codeLengths data)) :
    (payload (codes (levelSymbols (codeLengths data))) data).length =
      (∑ b ∈ data.toFinset, data.count b * codeLength data (.byte b) + codeLength data .stop + 7) /
        8 := by
  have hwords : (data.flatMap fun b =>
      codeWord (codes (levelSymbols (codeLengths data))) (.byte b)).length =
      ∑ b ∈ data.toFinset, data.count b * codeLength data (.byte b) := by
    rw [List.length_flatMap, List.map_congr_left fun b hb => length_codeWord_eq hp
      (List.mem_append_left _ (List.mem_map_of_mem (mem_alphabet.2 hb))), sum_list_map_count]
    rfl
  have hstop := length_codeWord_eq hp
    (List.mem_append_right _ (List.mem_singleton_self Symbol.stop))
  -- the zeros are too few for another byte
  obtain ⟨n, hn, hbits⟩ := bitsOf_payload (codes (levelSymbols (codeLengths data))) data
  have hlen := congrArg List.length hbits
  rw [length_bitsOf, List.length_append, List.length_append, hwords, hstop,
    List.length_replicate] at hlen
  omega

theorem eq_of_rank_eq {s s' : Symbol} (h : s.rank = s'.rank) : s = s' := by
  cases s with
  | byte b =>
    cases s' with
    | byte b' => exact congrArg Symbol.byte (UInt8.toNat_inj.1 h)
    | stop => exact absurd h b.toNat_lt.ne
  | stop =>
    cases s' with
    | byte b' => exact absurd h b'.toNat_lt.ne'
    | stop => rfl

/-- Code lengths are told in the order of the symbols. -/
theorem codeLengths_sorted (data : List UInt8) :
    (codeLengths data).Pairwise fun x y => x.1.rank < y.1.rank := by
  obtain ⟨entries, order, h⟩ := exists_joined data
  have hne := List.pairwise_map.1 (fillsTree_codeLengths data).nodup
  rw [h.codeLengths_eq] at hne ⊢
  exact (inOrder_sorted _).imp₂ (fun x y hle hne => lt_of_le_of_ne hle fun heq =>
    hne (eq_of_rank_eq heq)) hne

/-- **The order of the symbols in the table**: by the lengths of their codes, then by rank. -/
theorem flatten_ordered (data : List UInt8) :
    (levelSymbols (codeLengths data)).flatten.Pairwise fun s s' =>
      codeLength data s < codeLength data s' ∨
        codeLength data s = codeLength data s' ∧ s.rank < s'.rank := by
  refine List.pairwise_flatten.2 ⟨?_, List.pairwise_map.2 ?_⟩
  · -- on one level all codes are of one length
    intro symbols hsymbols
    obtain ⟨l, -, rfl⟩ := List.mem_map.1 hsymbols
    have hsorted : (symbolsAt (codeLengths data) l).Pairwise fun s s' => s.rank < s'.rank :=
      List.pairwise_map.2 ((codeLengths_sorted data).filter _)
    refine hsorted.imp_of_mem fun hs hs' hlt => Or.inr ⟨?_, hlt⟩
    rw [codeLength_of_mem (mem_symbolsAt.1 hs), codeLength_of_mem (mem_symbolsAt.1 hs')]
  · refine List.pairwise_lt_range.imp fun hlt s hs s' hs' => Or.inl ?_
    rw [codeLength_of_mem (mem_symbolsAt.1 hs), codeLength_of_mem (mem_symbolsAt.1 hs')]
    omega

/-- The bytes of the table are those that occur. -/
theorem mem_symbolTable (hp : Packable (codeLengths data)) {b : UInt8} :
    b ∈ symbolTable (levelSymbols (codeLengths data)) ↔ b ∈ data := by
  have h := fillsTree_codeLengths data
  have hflatten := mem_flatten_levelSymbols (s := .byte b) fun x hx => h.length_pos hp hx
  rw [h.flatten_levelSymbols (FillsTree.deepest_pos hp), exists_length_iff, mem_coded] at hflatten
  simpa using hflatten

theorem length_symbolTable (hp : Packable (codeLengths data)) :
    (symbolTable (levelSymbols (codeLengths data))).length = data.toFinset.card :=
  length_eq_card ((fillsTree_codeLengths data).nodup_symbolTable (FillsTree.deepest_pos hp))
    fun _ => mem_symbolTable hp

theorem symbolTable_ordered (data : List UInt8) :
    (symbolTable (levelSymbols (codeLengths data))).Pairwise fun b b' =>
      codeLength data (.byte b) < codeLength data (.byte b') ∨
        codeLength data (.byte b) = codeLength data (.byte b') ∧ b < b' := by
  refine List.pairwise_filterMap.2 ((flatten_ordered data).imp ?_)
  rintro (b | _) (b' | _) h c hc c' hc'
  · cases hc
    cases hc'
    exact h.imp_right fun h => ⟨h.1, UInt8.lt_iff_toNat_lt.2 h.2⟩
  · cases hc'
  · cases hc
  · cases hc

/-- **The tree of a byte string**, without a node too many or too few. -/
structure Tree.Exact (t : Tree) (data : List UInt8) : Prop where
  levels : t.levels = deepest (codeLengths data)
  length_leaves : t.leaves.length = deepest (codeLengths data)
  length_interior : t.interior.length = deepest (codeLengths data)
  /-- A level has a leaf for each code of its length, also for the stop mark's. -/
  leavesAt_eq : ∀ l, t.leavesAt l = (codeLengths data).countP fun x => x.2 = l + 1
  /-- Two nodes hang from the root. -/
  root : t.innerAt 0 + t.leavesAt 0 = 2
  /-- And two from each interior node, with none left over. -/
  children : ∀ l, 2 * t.innerAt l = t.innerAt (l + 1) + t.leavesAt (l + 1)
  innerAt_last : t.innerAt (deepest (codeLengths data) - 1) = 0
  nodup : t.symbols.Nodup
  mem_symbols : ∀ b, b ∈ t.symbols ↔ b ∈ data
  /-- The shorter code comes first in the table, and of two as long, the smaller byte's. -/
  ordered : t.symbols.Pairwise fun b b' =>
    codeLength data (.byte b) < codeLength data (.byte b') ∨
      codeLength data (.byte b) = codeLength data (.byte b') ∧ b < b'

/-- **A packed header tells the tree of its byte string.** -/
theorem exact_packedTree (hp : Packable (codeLengths data)) (size : Option ℤ) :
    (packedTree (codeLengths data) size).Exact data := by
  have h := fillsTree_codeLengths data
  have hc := h.consistent hp size
  have hlen : (packedTree (codeLengths data) size).interior.length =
      deepest (codeLengths data) := by
    simp [packedTree, Tree.ofCounts, headerCounts]
  have hinner := h.innerAt_eq hp size
  have hleaves := h.leavesAt_eq hp size
  -- the nodes of a level hang in pairs from the interior ones above
  have hnodes : ∀ d, (codeTree data).innerAt (d + 1) + (codeTree data).leavesAt (d + 1) =
      2 * (codeTree data).innerAt d := fun d => by
    rw [← CodeTree.nodesAt_succ, CodeTree.nodesAt_eq]
  -- the root is no leaf, since no symbol lies there
  have hroot : (codeTree data).leavesAt 0 = 0 := by
    rw [CodeTree.leavesAt, ← h.depths.count_eq, List.count_eq_zero]
    intro hmem
    obtain ⟨x, hx, hzero⟩ := List.mem_map.1 hmem
    have := h.length_pos hp hx
    omega
  refine ⟨by rw [hc.levels, hlen], by rw [hc.length_leaves, hlen], hlen, ?_, ?_, ?_, ?_,
    h.nodup_symbolTable (FillsTree.deepest_pos hp), fun b => mem_symbolTable hp,
    symbolTable_ordered data⟩
  · intro l
    rw [hleaves, ← h.length_symbolsAt, symbolsAt, List.length_map, List.countP_eq_length_filter]
  · have hone : (codeTree data).nodesAt 0 = 1 := by cases codeTree data <;> rfl
    rw [CodeTree.nodesAt_eq, hroot, add_zero] at hone
    have htwo := hnodes 0
    rw [hone] at htwo
    rw [hinner, hleaves]
    exact_mod_cast htwo
  · intro l
    rw [hinner, hinner, hleaves]
    exact_mod_cast (hnodes (l + 1)).symm
  · rw [← hlen]
    exact hc.innerAt_last

/-- **Packing fails only outside its domain, and writes an exact tree.** It refuses no data but the
empty one, data where too many bytes occur, and data with a code that is too long, and never for a
header that fails its check. What it writes is as long as the header and the words together, and
the tree that is read from it is the one of the code lengths. -/
theorem pack_exact (data : List UInt8) :
    ((∃ e, pack data = .error e) ↔
      data = [] ∨ 255 < data.toFinset.card ∨ ∃ x ∈ codeLengths data, 24 < x.2) ∧
    (∀ e, pack data ≠ .error (.header e)) ∧
    ∀ packed, pack data = .ok packed →
      packed.length = 1 + deepest (codeLengths data) + data.toFinset.card +
        (∑ b ∈ data.toFinset, data.count b * codeLength data (.byte b) +
          codeLength data .stop + 7) / 8 ∧
      ∀ (ahead : List UInt8) (s : Source) (extra : List UInt8) (size : Option ℤ),
        ahead.length ≤ 1 → s.maxRead ≠ some 0 → ahead ++ s.upcoming = packed ++ extra →
          ∃ t s', Tree.read ahead size s = .ok t s' ∧ t.Exact data := by
  have hdeep : (∃ x ∈ codeLengths data, 24 < x.2) ↔ 24 < deepest (codeLengths data) := by
    rw [← not_iff_not, not_lt, deepest_le_iff]
    push Not
    rfl
  refine ⟨?_, ?_, ?_⟩
  · rw [hdeep, pack_eq]
    split_ifs with hne hcard hdepth <;> simp [*]
  · intro e
    rw [pack_eq]
    split_ifs <;> simp
  · intro packed hpacked
    obtain ⟨hp, rfl⟩ := pack_eq_ok hpacked
    have hcounts : (headerCounts (codeLengths data)).length = deepest (codeLengths data) := by
      simp [headerCounts]
    refine ⟨?_, ?_⟩
    · rw [List.length_append, Header.length_encode, hcounts, length_symbolTable hp,
        length_payload hp]
    · intro ahead s extra size ha hm hbytes
      obtain ⟨hgood, -⟩ := (fillsTree_codeLengths data).good hp
      rw [List.append_assoc] at hbytes
      have hparse := Header.parse_eq_ok_iff.2 ⟨hgood, hbytes⟩
      obtain ⟨s', hread, -, -⟩ := Tree.read_of_parse_ok hm ha size hparse
      exact ⟨_, s', hread, exact_packedTree hp size⟩

/-- Three bytes: two words of one bit, two of two, and a tree of two levels. -/
theorem pack_exact_three_bytes :
    let data : List UInt8 := [65, 65, 66]
    let packed : List UInt8 := [2, 1, 0, 65, 66, 0xc4]
    let s : Source := { data := #[2, 1, 0, 65, 66, 0xc4, 0xff], maxRead := some 1 }
    pack data = .ok packed ∧ packed.length = 1 + 2 + 2 + (2 * 1 + 1 * 2 + 2 + 7) / 8 ∧
      s.maxRead ≠ some 0 ∧ [] ++ s.upcoming = packed ++ [0xff] ∧
      ∃ t s', Tree.read [] none s = .ok t s' ∧ t.Exact data := by
  have hpack : pack [65, 65, 66] = .ok [2, 1, 0, 65, 66, 0xc4] := by decide +kernel
  intro data packed s
  have hm : s.maxRead ≠ some 0 := by decide
  have hupcoming : [] ++ s.upcoming = packed ++ [0xff] := Source.upcoming_whole _ _
  obtain ⟨hlength, htree⟩ := (pack_exact data).2.2 packed hpack
  have hvalue : 1 + deepest (codeLengths data) + data.toFinset.card +
      (∑ b ∈ data.toFinset, data.count b * codeLength data (.byte b) +
        codeLength data .stop + 7) / 8 = 1 + 2 + 2 + (2 * 1 + 1 * 2 + 2 + 7) / 8 := by
    decide +kernel
  have hnone : ([] : List UInt8).length ≤ 1 := by decide
  exact ⟨hpack, hlength.trans hvalue, hm, hupcoming, htree [] s [0xff] none hnone hm hupcoming⟩

end PackFormat
