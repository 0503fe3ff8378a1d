import PackFormat.Header.Write
import PackFormat.Pack
import PackFormat.Proofs.Levels

/-!
# Headers that are written

A header is written as it is encoded, once it has passed the check; what fails the
check is not even begun. Readers are stricter in one point: counts that fit a byte
each may still add up to too many symbols.

* `Header.check_eq_none_iff`: what the check lets through (`Header.Writable`).
* `Header.write_of_writable`: what is written.
* `storedCounts_addToLast`, `addToLast_storedCounts`: the two leaves that a written
  count leaves out are those that a tree puts back.
* `Header.write_read`: **writing and reading are inverse**, up to that point.
-/

namespace PackFormat

theorem getElem?_storedCounts (cs : List ℤ) (l : ℕ) :
    (storedCounts cs)[l]? = cs[l]?.map (· - if l + 1 = cs.length then 2 else 0) := by
  induction cs generalizing l with
  | nil => rfl
  | cons c cs ih =>
    cases cs with
    | nil => cases l <;> rfl
    | cons c' cs =>
      cases l with
      | zero => simp [storedCounts]
      | succ l => simpa [storedCounts] using ih l

@[simp] theorem length_storedCounts (cs : List ℤ) : (storedCounts cs).length = cs.length := by
  refine le_antisymm ?_ ?_
  · have := getElem?_storedCounts cs cs.length
    rw [List.getElem?_eq_none le_rfl, Option.map_none, List.getElem?_eq_none_iff] at this
    exact this
  · have := getElem?_storedCounts cs (storedCounts cs).length
    rw [List.getElem?_eq_none le_rfl, eq_comm, Option.map_eq_none_iff,
      List.getElem?_eq_none_iff] at this
    exact this

theorem sum_storedCounts {cs : List ℤ} (h : cs ≠ []) : (storedCounts cs).sum = cs.sum - 2 := by
  induction cs with
  | nil => exact absurd rfl h
  | cons c cs ih =>
    cases cs with
    | nil => simp [storedCounts]
    | cons c' cs =>
      have ih := ih (List.cons_ne_nil c' cs)
      rw [storedCounts, List.sum_cons, ih, List.sum_cons (a := c)]
      ring

/-- **What is taken from the last count is put back**, if it was there to be taken. -/
theorem addToLast_storedCounts {cs : List ℤ} (h : ∀ c ∈ storedCounts cs, 0 ≤ c) :
    (addToLast 2 ((storedCounts cs).map Int.toNat)).map Int.ofNat = cs := by
  refine List.ext_getElem? fun l => ?_
  rw [List.getElem?_map, getElem?_addToLast, List.getElem?_map, List.length_map, length_storedCounts]
  have hstored := getElem?_storedCounts cs l
  cases hc : cs[l]? with
  | none => rw [hstored, hc]; rfl
  | some c =>
    rw [hc, Option.map_some] at hstored
    have hnonneg := h _ (List.mem_of_getElem? hstored)
    rw [hstored]
    simp only [Option.map_some, Option.some.injEq]
    split at hnonneg <;> rename_i hl
    · simp only [if_pos hl] at hnonneg ⊢
      simp only [Int.ofNat_eq_natCast]; omega
    · simp only [if_neg hl] at hnonneg ⊢
      simp only [Int.ofNat_eq_natCast]; omega

/-- What is put to the last count is taken away. -/
theorem storedCounts_addToLast (counts : List ℕ) :
    storedCounts ((addToLast 2 counts).map Int.ofNat) = counts.map Int.ofNat := by
  refine List.ext_getElem? fun l => ?_
  rw [getElem?_storedCounts, List.getElem?_map, getElem?_addToLast, List.length_map,
    length_addToLast, List.getElem?_map]
  cases counts[l]? with
  | none => rfl
  | some c =>
    simp only [Option.map_some, Option.some.injEq, Int.ofNat_eq_natCast]
    split <;> omega

namespace Header

/-- **What writers accept**: a depth in range, counts of a byte each, and a table as long as they
ask for. -/
structure Writable (counts : List ℤ) (symbols : List UInt8) : Prop where
  depth_pos : 1 ≤ counts.length
  depth_le : counts.length ≤ 24
  counts_le : ∀ c ∈ counts, 0 ≤ c ∧ c ≤ 255
  symbols_length : (symbols.length : ℤ) = counts.sum + 1

variable {counts : List ℤ} {symbols : List UInt8} {k : Sink}

/-- Counts that are natural add up as naturals. -/
theorem total_map_toNat (h : ∀ c ∈ counts, 0 ≤ c) :
    (total (counts.map Int.toNat) : ℤ) = counts.sum := by
  induction counts with
  | nil => rfl
  | cons c counts ih =>
    have hc := h c List.mem_cons_self
    have hrest := ih fun c' hc' => h c' (List.mem_cons_of_mem c hc')
    unfold total at hrest ⊢
    rw [List.map_cons, List.foldr_cons, List.sum_cons, Nat.cast_add, hrest, Int.toNat_of_nonneg hc]

/-- **The check lets just the writable headers through.** -/
theorem check_eq_none_iff : check counts symbols = none ↔ Writable counts symbols := by
  have hcounts : (counts.any fun c => c < 0 || 255 < c) = false ↔ ∀ c ∈ counts, 0 ≤ c ∧ c ≤ 255 := by
    simp [List.any_eq_false]
  unfold check maxDepth
  dsimp only
  constructor
  · intro h
    split at h
    · cases h
    rename_i hdepth
    split at h
    · cases h
    rename_i hany
    split at h
    · cases h
    rename_i hlength
    rw [Bool.not_eq_true, hcounts] at hany
    rw [not_not] at hdepth hlength
    have htotal := total_map_toNat fun c hc => (hany c hc).1
    exact ⟨hdepth.1, hdepth.2, hany, by omega⟩
  · intro h
    have htotal := total_map_toNat fun c hc => (h.counts_le c hc).1
    have hlength := h.symbols_length
    rw [if_neg (not_not.2 ⟨h.depth_pos, h.depth_le⟩), hcounts.2 h.counts_le, if_neg Bool.false_ne_true,
      if_neg (by omega)]

/-- A check that fails finds one of three things. -/
theorem eq_of_check {e : HeaderError} (h : check counts symbols = some e) :
    e = .depthOutOfRange counts.length ∨ e = .countOutOfRange ∨ e = .symbolsMismatch := by
  unfold check at h
  dsimp only at h
  split at h
  · exact Or.inl (Option.some.inj h).symm
  split at h
  · exact Or.inr (Or.inl (Option.some.inj h).symm)
  split at h
  · exact Or.inr (Or.inr (Option.some.inj h).symm)
  · cases h

/-- Nothing is written of a header that fails the check. -/
theorem write_of_check {e : HeaderError} (h : check counts symbols = some e) (k : Sink) :
    write counts symbols k = .error e k := by
  unfold write
  rw [h]
  rfl

theorem put_ok (bytes : List UInt8) (hk : k.fault = none) :
    ∃ k', put bytes k = .ok () k' ∧ k'.fault = none ∧ k'.written = k.written ++ bytes := by
  unfold put
  simp only [Sink.write, hk, Option.filter_none]
  exact ⟨_, rfl, rfl, rfl⟩

/-- **A writable header is written as it is encoded.** -/
theorem write_of_writable (h : Writable counts symbols) (hk : k.fault = none) :
    ∃ k', write counts symbols k = .ok () k' ∧
      k'.written = k.written ++ encode (counts.map Int.toNat) symbols := by
  obtain ⟨k₁, h₁, hf₁, hw₁⟩ := put_ok [UInt8.ofNat counts.length] hk
  obtain ⟨k₂, h₂, hf₂, hw₂⟩ := put_ok (counts.map fun c => UInt8.ofNat c.toNat) hf₁
  obtain ⟨k₃, h₃, -, hw₃⟩ := put_ok symbols hf₂
  refine ⟨k₃, ?_, ?_⟩
  · unfold write
    rw [check_eq_none_iff.2 h]
    simp only
    rw [bind_of_ok h₁, bind_of_ok h₂, h₃]
  · rw [hw₃, hw₂, hw₁, encode, List.length_map, List.map_map]
    exact Array.toList_inj.1 (by simp [Function.comp_def])

/-- Only writable headers are written. -/
theorem writable_of_write {k' : Sink} (h : write counts symbols k = .ok () k') :
    Writable counts symbols := by
  cases hcheck : check counts symbols with
  | none => exact check_eq_none_iff.1 hcheck
  | some e => rw [write_of_check hcheck] at h; cases h

/-- Writable headers with no more symbols than there are can be read. -/
theorem Writable.good (h : Writable counts symbols) (hsum : counts.sum ≤ 255) :
    Good (counts.map Int.toNat) symbols := by
  have htotal := total_map_toNat fun c hc => (h.counts_le c hc).1
  have hlength := h.symbols_length
  refine ⟨?_, ?_, ?_, by omega⟩
  · rw [List.length_map]; exact h.depth_pos
  · rw [List.length_map]; exact h.depth_le
  · unfold maxSymbols; omega

theorem map_ofNat_map_toNat (counts : List ℕ) : (counts.map Int.ofNat).map Int.toNat = counts := by
  rw [List.map_map]
  exact List.map_id _

/-- Headers that can be read are writable. -/
theorem Good.writable {counts : List ℕ} (h : Good counts symbols) :
    Writable (counts.map Int.ofNat) symbols := by
  have hnonneg : ∀ c ∈ counts.map Int.ofNat, 0 ≤ c := by
    intro c hc
    obtain ⟨n, -, rfl⟩ := List.mem_map.1 hc
    exact Int.natCast_nonneg n
  have htotal := total_map_toNat hnonneg
  rw [map_ofNat_map_toNat] at htotal
  refine ⟨?_, ?_, ?_, ?_⟩
  · rw [List.length_map]; exact h.depth_pos
  · rw [List.length_map]; exact h.depth_le
  · intro c hc
    refine ⟨hnonneg c hc, ?_⟩
    obtain ⟨n, hn, rfl⟩ := List.mem_map.1 hc
    have := h.lt_of_mem n hn
    simp only [Int.ofNat_eq_natCast]; omega
  · rw [← htotal, h.symbols_length]; rfl

/-- **Reading a written header**: its counts, two more on the last level, and its symbols, or the
refusal of too many of them right behind the counts. -/
theorem Writable.read_encode (h : Writable counts symbols) {s : Source} (hm : s.maxRead ≠ some 0)
    {ahead rest : List UInt8} (ha : ahead.length ≤ 1) (size : Option ℤ)
    (hbytes : ahead ++ s.upcoming = encode (counts.map Int.toNat) symbols ++ rest) :
    (counts.sum ≤ 255 → ∃ s',
      Tree.read ahead size s = .ok (Tree.ofCounts (counts.map Int.toNat) symbols size) s' ∧
        s.Past ((encode (counts.map Int.toNat) symbols).length - ahead.length) s') ∧
    (255 < counts.sum → ∃ s',
      Tree.read ahead size s = .error (.tableOverflow (1 + counts.sum.toNat)) s' ∧
        s.Past (1 + counts.length - ahead.length) s') := by
  constructor
  · intro hsum
    have hparse := parse_eq_ok_iff.2 ⟨h.good hsum, hbytes⟩
    obtain ⟨s', hread, hp, -⟩ := Tree.read_of_parse_ok hm ha size hparse
    exact ⟨s', hread, hp⟩
  · intro hsum
    have htotal := total_map_toNat fun c hc => (h.counts_le c hc).1
    have hbyte : ∀ c ∈ counts.map Int.toNat, c < 256 := by
      intro c hc
      obtain ⟨n, hn, rfl⟩ := List.mem_map.1 hc
      have := h.counts_le n hn
      omega
    rw [encode, List.cons_append, List.append_assoc] at hbytes
    have hlen : (counts.map Int.toNat).length = counts.length := List.length_map _
    have hover : maxSymbols ≤ total (counts.map Int.toNat) := by unfold maxSymbols; omega
    obtain ⟨s', hread, hp⟩ := Tree.read_of_overflow hm ha size (hlen ▸ h.depth_pos)
      (hlen ▸ h.depth_le) hbyte hover hbytes
    rw [hlen] at hp
    refine ⟨s', ?_, hp⟩
    rw [hread, show total (counts.map Int.toNat) = counts.sum.toNat by omega]

/-- **Writing what a tree was read from** gives the bytes back that were read. -/
theorem write_of_read (hk : k.fault = none) {s s' : Source} {ahead : List UInt8} {size : Option ℤ}
    {t : Tree} (h : Tree.read ahead size s = .ok t s') :
    ∃ k', write (storedCounts t.leaves) t.symbols k = .ok () k' ∧
      k'.written = k.written ++ (ahead.toArray ++ s.data.extract s.pos s'.pos) := by
  obtain ⟨counts, symbols, bytes, hg, rfl, htakes, hbytes⟩ := Tree.takes_of_read h
  obtain ⟨k', hrun, hwritten⟩ := write_of_writable hg.writable hk
  refine ⟨k', ?_, ?_⟩
  · rw [Tree.ofCounts, storedCounts_addToLast]
    exact hrun
  · rw [hwritten, map_ofNat_map_toNat, ← hbytes, htakes.gave.extract]
    exact Array.toList_inj.1 (by simp)

/-- **Writing and reading a header are inverse.** What is not writable is refused before anything is
written. What was written is read back, with anything behind it, and no byte more; only if the counts
add up to more symbols than there are, it is refused right behind them. And whatever a tree was read
from is what is written for its counts and symbols. -/
theorem write_read (hk : k.fault = none) (counts : List ℤ) (symbols : List UInt8) :
    ((∃ k', write counts symbols k = .ok () k') ↔ Writable counts symbols) ∧
    (¬Writable counts symbols → ∃ e, write counts symbols k = .error e k ∧
      (e = .depthOutOfRange counts.length ∨ e = .countOutOfRange ∨ e = .symbolsMismatch)) ∧
    (∀ k', write counts symbols k = .ok () k' → ∃ header : List UInt8,
      k'.written = k.written ++ header ∧
        ∀ (s : Source) (ahead rest : List UInt8) (size : Option ℤ), s.maxRead ≠ some 0 →
          ahead.length ≤ 1 → ahead ++ s.upcoming = header ++ rest →
            (counts.sum ≤ 255 → ∃ t s', Tree.read ahead size s = .ok t s' ∧
              s.Past (header.length - ahead.length) s' ∧ t.symbols = symbols ∧
              ∀ l : ℕ, t.leaves[l]? =
                counts[l]?.map (· + if l + 1 = counts.length then 2 else 0)) ∧
            (255 < counts.sum → ∃ s',
              Tree.read ahead size s = .error (.tableOverflow (1 + counts.sum.toNat)) s' ∧
              s.Past (1 + counts.length - ahead.length) s')) ∧
    ∀ (s s' : Source) (ahead : List UInt8) (size : Option ℤ) (t : Tree),
      Tree.read ahead size s = .ok t s' → ∃ k', write (storedCounts t.leaves) t.symbols k = .ok () k' ∧
        k'.written = k.written ++ (ahead.toArray ++ s.data.extract s.pos s'.pos) := by
  refine ⟨⟨?_, ?_⟩, ?_, ?_, fun s s' ahead size t hread => write_of_read hk hread⟩
  · rintro ⟨k', hrun⟩
    exact writable_of_write hrun
  · intro hw
    obtain ⟨k', hrun, -⟩ := write_of_writable hw hk
    exact ⟨k', hrun⟩
  · intro hw
    cases hcheck : check counts symbols with
    | none => exact absurd (check_eq_none_iff.1 hcheck) hw
    | some e => exact ⟨e, write_of_check hcheck k, eq_of_check hcheck⟩
  · intro k' hrun
    have hw := writable_of_write hrun
    obtain ⟨k₁, hrun₁, hwritten⟩ := write_of_writable hw hk
    rw [hrun] at hrun₁
    cases hrun₁
    refine ⟨_, hwritten, ?_⟩
    intro s ahead rest size hm ha hbytes
    obtain ⟨hgood, hover⟩ := hw.read_encode hm ha size hbytes
    refine ⟨?_, hover⟩
    intro hsum
    obtain ⟨s', hread, hp⟩ := hgood hsum
    refine ⟨_, s', hread, hp, rfl, ?_⟩
    intro l
    rw [Tree.ofCounts, List.getElem?_map, getElem?_addToLast, List.getElem?_map, List.length_map]
    cases hc : counts[l]? with
    | none => rfl
    | some c =>
      have := (hw.counts_le c (List.mem_of_getElem? hc)).1
      simp only [Option.map_some, Option.some.injEq, Int.ofNat_eq_natCast]
      split <;> omega

/-- As many symbols as there are, read back nine bytes at a time, and one symbol more. -/
theorem write_read_boundary :
    let full : List UInt8 := List.replicate 256 7
    let more : List UInt8 := List.replicate 257 7
    (({} : Sink).fault = none ∧ Writable [255, 0] full ∧ Writable [255, 1] more) ∧
      (∃ k', write [255, 0] full {} = .ok () k' ∧
        ∃ t s', Tree.read [] none { data := k'.written ++ #[0x80], maxRead := some 9 } = .ok t s' ∧
          s'.pos = k'.written.size ∧ t.symbols = full ∧ t.leaves[1]? = some 2 ∧
          ∃ k'', write (storedCounts t.leaves) t.symbols {} = .ok () k'') ∧
      ∃ k', write [255, 1] more {} = .ok () k' ∧
        ∃ s', Tree.read [] none { data := k'.written } = .error (.tableOverflow 257) s' ∧
          s'.pos = 3 := by
  intro full more
  have hfull : Writable [255, 0] full := by
    refine ⟨by decide, by decide, by decide, ?_⟩
    rw [show full.length = 256 from List.length_replicate]
    decide
  have hmore : Writable [255, 1] more := by
    refine ⟨by decide, by decide, by decide, ?_⟩
    rw [show more.length = 257 from List.length_replicate]
    decide
  have ha : ([] : List UInt8).length ≤ 1 := by decide
  refine ⟨⟨rfl, hfull, hmore⟩, ?_, ?_⟩
  · obtain ⟨hwrite, -, hread, hback⟩ := write_read (k := {}) rfl [255, 0] full
    obtain ⟨k', hrun⟩ := hwrite.2 hfull
    obtain ⟨header, hwritten, hread⟩ := hread k' hrun
    have hsize : k'.written.size = header.length := by rw [hwritten]; simp
    have hbytes : [] ++ ({ data := k'.written ++ #[0x80], maxRead := some 9 } : Source).upcoming =
        header ++ [0x80] := by
      rw [Source.upcoming_whole, hwritten]; simp
    obtain ⟨t, s', hok, hp, hsymbols, hleaves⟩ :=
      (hread _ [] [0x80] none (by simp) ha hbytes).1 (by decide)
    obtain ⟨k'', hrun', -⟩ := hback _ s' [] none t hok
    refine ⟨k', hrun, t, s', hok, ?_, hsymbols, hleaves 1, k'', hrun'⟩
    rw [hp, hsize]; simp
  · obtain ⟨hwrite, -, hread, -⟩ := write_read (k := {}) rfl [255, 1] more
    obtain ⟨k', hrun⟩ := hwrite.2 hmore
    obtain ⟨header, hwritten, hread⟩ := hread k' hrun
    have hbytes : [] ++ ({ data := k'.written } : Source).upcoming = header ++ [] := by
      rw [Source.upcoming_whole, hwritten]; simp
    obtain ⟨s', herror, hp⟩ := (hread _ [] [] none (by simp) ha hbytes).2 (by decide)
    refine ⟨k', hrun, s', herror, ?_⟩
    rw [hp]; rfl

end Header

end PackFormat
