import PackFormat.Proofs.Acceptance
import PackFormat.Proofs.PackedTree

/-!
# Packing and unpacking

What is packed is unpacked, in chunks of any size, from reads that give little at a
time, and with anything at all behind it.

* `FillsTree.factors_payload`: a packed payload reads as the words of its data.
* `pack_eq_ok`: a packed stream is a header and a payload.
* `unpack_pack`: **unpacking gives back what was packed.**
-/

namespace PackFormat

namespace Tree

variable {t : Tree} {x : Slot}

theorem symbol_of_slotStep {b : UInt8} (h : t.slotStep x = .symbol b) :
    x ≠ t.stopSlot ∧ t.symbolAt x = b := by
  unfold slotStep at h
  split at h
  · cases h
  · rename_i hne
    exact ⟨hne, Step.symbol.inj h⟩

theorem stop_of_slotStep (h : t.slotStep x = .stop) : x = t.stopSlot := by
  unfold slotStep at h
  split at h
  · assumption
  · cases h

end Tree

namespace FillsTree

variable {lengths : List (Symbol × ℕ)} {t : CodeTree} {data : List UInt8}

/-- The slots of some data: their words are its codes, and it is their symbols. -/
theorem slots_of_data (h : FillsTree lengths t) (hp : Packable lengths) (size : Option ℤ)
    (hdata : ∀ b ∈ data, ∃ d, (.byte b, d) ∈ lengths) :
    ∃ slots : List Slot,
      (∀ x ∈ slots, (packedTree lengths size).HasWord x ∧ x ≠ (packedTree lengths size).stopSlot) ∧
      slots.flatMap (packedTree lengths size).word =
        data.flatMap (fun b => codeWord (codes (levelSymbols lengths)) (.byte b)) ∧
      slots.map (packedTree lengths size).symbolAt = data := by
  induction data with
  | nil => exact ⟨[], fun _ hx => absurd hx List.not_mem_nil, rfl, rfl⟩
  | cons b data ih =>
    obtain ⟨slots, hwords, hbits, hsymbols⟩ := ih fun b' hb' => hdata b' (List.mem_cons_of_mem _ hb')
    obtain ⟨d, hd⟩ := hdata b List.mem_cons_self
    obtain ⟨x, hx, hword, hstep⟩ := h.slot_of_symbol hp size hd
    obtain ⟨hne, hsymbol⟩ := Tree.symbol_of_slotStep hstep
    refine ⟨x :: slots, ?_, ?_, ?_⟩
    · intro y hy
      rcases List.mem_cons.1 hy with rfl | hy
      · exact ⟨hx, hne⟩
      · exact hwords y hy
    · rw [List.flatMap_cons, List.flatMap_cons, hbits, hword]
    · rw [List.map_cons, hsymbols, hsymbol]

/-- **A packed payload reads as its data and the stop code**, and the stop code ends in its last byte,
whatever is behind it. -/
theorem factors_payload (h : FillsTree lengths t) (hp : Packable lengths) (size : Option ℤ)
    (hdata : ∀ b ∈ data, ∃ d, (.byte b, d) ∈ lengths) (extra : List UInt8) :
    ∃ slots rest,
      (packedTree lengths size).Factors
        (bitsOf (payload (codes (levelSymbols lengths)) data ++ extra)) slots rest ∧
      slots.map (packedTree lengths size).symbolAt = data ∧
      ((packedTree lengths size).payloadLength slots + 7) / 8 =
        (payload (codes (levelSymbols lengths)) data).length := by
  obtain ⟨slots, hwords, hbits, hsymbols⟩ := h.slots_of_data hp size hdata
  obtain ⟨x, hx, hword, hstep⟩ := h.slot_of_symbol hp size h.stop_mem
  obtain rfl := Tree.stop_of_slotStep hstep
  obtain ⟨n, hn, hpayload⟩ := bitsOf_payload (codes (levelSymbols lengths)) data
  rw [← hbits, ← hword] at hpayload
  refine ⟨slots, .replicate n false ++ bitsOf extra, ⟨hwords, hx, ?_⟩, hsymbols, ?_⟩
  · rw [bitsOf_append, hpayload, List.append_assoc]
  · -- the zeros are too few for another byte
    have hlen := congrArg List.length hpayload
    rw [length_bitsOf, List.length_append, List.length_replicate] at hlen
    unfold Tree.payloadLength
    omega

/-- **Unpacking a packed header and payload**, with anything behind them, gives the data, and the
outcome that its size is worth. -/
theorem unpack_packed (h : FillsTree lengths t) (hp : Packable lengths) (size : Option ℤ)
    (hdata : ∀ b ∈ data, ∃ d, (.byte b, d) ∈ lengths) {packed extra : List UInt8}
    (hpacked : packed = Header.encode (headerCounts lengths) (symbolTable (levelSymbols lengths)) ++
      payload (codes (levelSymbols lengths)) data)
    {s : Streams} (hs : s.source.Clean) (hsink : s.sink.fault = none)
    (hupcoming : s.source.upcoming = packed ++ extra) {k : ℤ} (hk : 1 ≤ k) :
    outcome (unpack [] size k s) = (packedTree lengths size).settled data.length ∧
      (final (unpack [] size k s)).sink.written = s.sink.written ++ data ∧
      s.Added (final (unpack [] size k s)) packed.length data.length := by
  obtain ⟨hgood, -⟩ := h.good hp
  obtain ⟨slots, rest, hf, hsymbols, hlen⟩ := h.factors_payload hp size hdata extra
  have hslots : slots.length = data.length := by rw [← hsymbols, List.length_map]
  rw [hpacked, List.append_assoc] at hupcoming
  have hparse : Header.parse ([] ++ s.source.upcoming) = .ok (_, _, _) :=
    Header.parse_eq_ok_iff.2 ⟨hgood, hupcoming⟩
  have ha : ([] : List UInt8).length ≤ 1 := by decide
  obtain ⟨source', hread, -, hrest⟩ := Tree.read_of_parse_ok hs.maxRead ha size hparse
  change Tree.read [] size s.source = .ok (packedTree lengths size) source' at hread
  rw [← hrest] at hf
  obtain ⟨hout, hwritten, hadded⟩ := unpack_of_factors hs hsink hk hread hf
  rw [hslots] at hout hadded
  rw [hsymbols] at hwritten
  have hbytes : 1 + (packedTree lengths size).levels + (packedTree lengths size).symbols.length +
      (((packedTree lengths size).payloadLength slots + 7) / 8 : ℕ) = packed.length := by
    rw [hlen, hpacked, List.length_append, Header.length_encode]
    simp [packedTree, Tree.ofCounts]
  rw [hbytes] at hadded
  exact ⟨hout, hwritten, hadded⟩

end FillsTree

/-- **A packed stream is a good header and a payload.** -/
theorem pack_eq_ok {data packed : List UInt8} (h : pack data = .ok packed) :
    Packable (codeLengths data) ∧
      packed = Header.encode (headerCounts (codeLengths data))
          (symbolTable (levelSymbols (codeLengths data))) ++
        payload (codes (levelSymbols (codeLengths data))) data := by
  unfold pack at h
  split at h
  · cases h
  split at h
  · cases h
  dsimp only at h
  split at h
  · cases h
  split at h
  · cases h
  · rename_i k hwrite
    cases h
    obtain ⟨hcheck, hwritten⟩ := Header.write_eq_ok hwrite
    exact ⟨hcheck, by rw [hwritten]; rfl⟩

/-- Every byte that occurs has a code length. -/
theorem exists_codeLength {data : List UInt8} {b : UInt8} (hb : b ∈ data) :
    ∃ d, (.byte b, d) ∈ codeLengths data :=
  exists_length_iff.2 (List.mem_append_left _ (List.mem_map_of_mem (mem_alphabet.2 hb)))

/-- **Unpacking gives back what was packed**, from any source that gives the packed stream, with
anything behind it; another size than the data's is refused once all is written and counted. -/
theorem unpack_pack {data packed : List UInt8} (h : pack data = .ok packed) {s : Streams}
    (hs : s.source.Clean) (hsink : s.sink.fault = none) {extra : List UInt8}
    (hpacked : s.source.upcoming = packed ++ extra) {k : ℤ} (hk : 1 ≤ k) :
    (∀ size, size = none ∨ size = some (data.length : ℤ) →
      ∃ s', unpack [] size k s = .ok data.length s' ∧ s'.sink.written = s.sink.written ++ data ∧
        s.Added s' packed.length data.length) ∧
    ∀ m : ℤ, m ≠ data.length →
      ∃ s', unpack [] (some m) k s = .error (.sizeMismatch data.length m) s' ∧
        s'.sink.written = s.sink.written ++ data ∧ s.Added s' packed.length data.length := by
  obtain ⟨hp, hencoded⟩ := pack_eq_ok h
  have hrun := fun size => (fillsTree_codeLengths data).unpack_packed hp size
    (fun b => exists_codeLength) hencoded hs hsink hpacked hk
  constructor
  · intro size hsize
    obtain ⟨hout, hwritten, hadded⟩ := hrun size
    have hsettled : (packedTree (codeLengths data) size).settled data.length = .ok data.length := by
      rcases hsize with rfl | rfl
      · rfl
      · exact if_pos rfl
    exact ⟨_, eq_ok_of_outcome (hout.trans hsettled), hwritten, hadded⟩
  · intro m hm
    obtain ⟨hout, hwritten, hadded⟩ := hrun (some m)
    have hsettled : (packedTree (codeLengths data) (some m)).settled data.length =
        .error (.sizeMismatch data.length m) := if_neg hm
    exact ⟨_, eq_error_of_outcome (hout.trans hsettled), hwritten, hadded⟩

/-- Three bytes, packed, with another one behind them, read one at a time. -/
theorem unpack_pack_three_bytes :
    let packed : List UInt8 := [2, 1, 0, 65, 66, 0xc4]
    let s : Streams := { source := { data := #[2, 1, 0, 65, 66, 0xc4, 0xff], maxRead := some 1 },
                         stats := some {} }
    (pack [65, 65, 66] = .ok packed ∧ s.source.Clean ∧ s.sink.fault = none ∧
        s.source.upcoming = packed ++ [0xff] ∧ (1 : ℤ) ≤ 2) ∧
      (∃ s', unpack [] (some 3) 2 s = .ok 3 s' ∧ s'.sink.written = #[65, 65, 66] ∧
        s'.stats = some ⟨6, 3⟩) ∧
      ∃ s', unpack [] (some 4) 2 s = .error (.sizeMismatch 3 4) s' ∧
        s'.sink.written = #[65, 65, 66] ∧ s'.stats = some ⟨6, 3⟩ := by
  have hpack : pack [65, 65, 66] = .ok [2, 1, 0, 65, 66, 0xc4] := by decide +kernel
  intro packed s
  have hs : s.source.Clean := ⟨rfl, by decide⟩
  have hupcoming : s.source.upcoming = packed ++ [0xff] := Source.upcoming_whole _ _
  have hk : (1 : ℤ) ≤ 2 := by decide
  obtain ⟨hgood, hother⟩ := unpack_pack hpack hs rfl hupcoming hk
  obtain ⟨s₁, hrun₁, hwritten₁, hadded₁⟩ := hgood (some 3) (Or.inr rfl)
  obtain ⟨s₂, hrun₂, hwritten₂, hadded₂⟩ := hother 4 (by decide)
  exact ⟨⟨hpack, hs, rfl, hupcoming, hk⟩,
    ⟨s₁, hrun₁, hwritten₁.trans (by decide), hadded₁.of_zero rfl⟩,
    ⟨s₂, hrun₂, hwritten₂.trans (by decide), hadded₂.of_zero rfl⟩⟩

end PackFormat
