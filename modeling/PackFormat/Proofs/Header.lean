import PackFormat.Proofs.Gathering
import PackFormat.Tree

/-!
# Headers as byte strings

A header is a depth, that many counts, and a table of symbols one longer than the
counts add up to. `Header.parse` takes it off the front of a byte string.

* `Header.parse_eq_ok_iff`: parsing accepts exactly what a good header is written
  as (`Header.encode`).
* `Header.parse_take`: a header that is cut short.
* `Tree.read_of_parse_ok`, `Tree.read_of_parse_error`: reading a tree from a source
  is parsing what the source gives, whatever it gives at a time; where that is too
  short, the source has the last word.
* `Tree.takes_of_read`, `Tree.refusal_of_read`: what comes of reading a tree from any
  source.
-/

namespace PackFormat

section EState

variable {ε σ α β : Type} {x : EStateM ε σ α} {f : α → EStateM ε σ β} {s s' : σ}

theorem bind_of_ok {a : α} (h : x s = .ok a s') : (x >>= f) s = f a s' := by
  change EStateM.bind x f s = _
  unfold EStateM.bind
  rw [h]

theorem bind_of_error {e : ε} (h : x s = .error e s') : (x >>= f) s = .error e s' := by
  change EStateM.bind x f s = _
  unfold EStateM.bind
  rw [h]

theorem bind_eq_ok {b : β} (h : (x >>= f) s = .ok b s') :
    ∃ a s₁, x s = .ok a s₁ ∧ f a s₁ = .ok b s' := by
  cases hx : x s with
  | ok a s₁ => exact ⟨a, s₁, rfl, (bind_of_ok hx).symm.trans h⟩
  | error e s₁ => rw [bind_of_error hx] at h; cases h

theorem bind_eq_error {e : ε} (h : (x >>= f) s = .error e s') :
    x s = .error e s' ∨ ∃ a s₁, x s = .ok a s₁ ∧ f a s₁ = .error e s' := by
  cases hx : x s with
  | ok a s₁ => exact Or.inr ⟨a, s₁, rfl, (bind_of_ok hx).symm.trans h⟩
  | error e₁ s₁ => rw [bind_of_error hx] at h; cases h; exact Or.inl rfl

end EState

namespace Header

/-- **What readers accept**: a depth in range, not too many symbols, and a table as long as the
counts ask for. -/
structure Good (counts : List ℕ) (symbols : List UInt8) : Prop where
  depth_pos : 0 < counts.length
  depth_le : counts.length ≤ maxDepth
  total_lt : total counts < maxSymbols
  symbols_length : symbols.length = total counts + 1

/-- The bytes of a header. -/
def encode (counts : List ℕ) (symbols : List UInt8) : List UInt8 :=
  UInt8.ofNat counts.length :: (counts.map UInt8.ofNat ++ symbols)

/-- **Takes a header off a byte string**: the counts, the symbols and what follows them. -/
def parse : List UInt8 → Except Failure (List ℕ × List UInt8 × List UInt8)
  | [] => .error (.truncated "pack header")
  | depth :: bytes =>
    if ¬(1 ≤ depth.toNat ∧ depth.toNat ≤ maxDepth) then .error (.insaneLevels depth.toNat)
    else if bytes.length < depth.toNat then .error (.truncated "symbol count table")
    else
      let counts := (bytes.take depth.toNat).map UInt8.toNat
      let table := bytes.drop depth.toNat
      if maxSymbols < 1 + total counts then .error (.tableOverflow (1 + total counts))
      else if table.length < total counts + 1 then .error (.truncated "symbol table")
      else .ok (counts, table.take (total counts + 1), table.drop (total counts + 1))

@[simp] theorem length_encode (counts : List ℕ) (symbols : List UInt8) :
    (encode counts symbols).length = 1 + counts.length + symbols.length := by
  simp only [encode, List.length_cons, List.length_append, List.length_map]; omega

theorem le_total {counts : List ℕ} {c : ℕ} (hc : c ∈ counts) : c ≤ total counts := by
  induction counts with
  | nil => cases hc
  | cons d counts ih =>
    simp only [total, List.foldr_cons]
    rcases List.mem_cons.1 hc with rfl | hc
    · omega
    · have := ih hc; unfold total at this; omega

/-- Counts that fit a byte each go through bytes unchanged. -/
theorem map_ofNat_toNat {counts : List ℕ} (h : ∀ c ∈ counts, c < 256) :
    (counts.map UInt8.ofNat).map UInt8.toNat = counts := by
  rw [List.map_map]
  refine (List.map_congr_left fun c hc => ?_).trans (List.map_id _)
  rw [Function.comp_apply, UInt8.toNat_ofNat', Nat.mod_eq_of_lt (h c hc), id]

/-- Counts that add up to no more symbols than there are fit a byte each. -/
theorem Good.lt_of_mem {counts : List ℕ} {symbols : List UInt8} (h : Good counts symbols) :
    ∀ c ∈ counts, c < 256 := by
  intro c hc
  exact lt_of_le_of_lt (le_total hc) h.total_lt

/-- Depths that readers accept fit a byte. -/
theorem toNat_depth {n : ℕ} (h : n ≤ maxDepth) : (UInt8.ofNat n).toNat = n := by
  unfold maxDepth at h
  rw [UInt8.toNat_ofNat', Nat.mod_eq_of_lt (by omega)]

/-- What is encoded is parsed, up to what follows it. -/
theorem parse_encode {counts : List ℕ} {symbols : List UInt8} (h : Good counts symbols)
    (rest : List UInt8) : parse (encode counts symbols ++ rest) = .ok (counts, symbols, rest) := by
  have hdepth := toNat_depth h.depth_le
  have h1 := h.depth_pos
  have h2 := h.depth_le
  have h3 := h.total_lt
  have h4 := h.symbols_length
  simp only [encode, List.cons_append, parse, hdepth, List.append_assoc, List.length_append,
    List.length_map]
  rw [if_neg (by omega), if_neg (by omega), List.take_left' (by simp), List.drop_left' (by simp),
    map_ofNat_toNat h.lt_of_mem, if_neg (by omega), List.length_append, if_neg (by omega), ← h4,
    List.take_left, List.drop_left]

/-- Counts that come from bytes go back to the same ones. -/
theorem map_toNat_ofNat (bytes : List UInt8) : (bytes.map UInt8.toNat).map UInt8.ofNat = bytes := by
  rw [List.map_map]
  exact (List.map_congr_left fun b _ => UInt8.ofNat_toNat).trans (List.map_id _)

/-- What is parsed is a good header and what follows it. -/
theorem good_of_parse {bytes rest symbols : List UInt8} {counts : List ℕ}
    (h : parse bytes = .ok (counts, symbols, rest)) :
    Good counts symbols ∧ bytes = encode counts symbols ++ rest := by
  rcases bytes with _ | ⟨depth, bytes⟩
  · cases h
  simp only [parse] at h
  split at h
  · cases h
  rename_i hdepth
  split at h
  · cases h
  rename_i hlen
  split at h
  · cases h
  rename_i htotal
  split at h
  · cases h
  rename_i htable
  simp only [Except.ok.injEq, Prod.mk.injEq] at h
  obtain ⟨rfl, rfl, rfl⟩ := h
  rw [List.length_drop] at htable
  have hcounts : ((bytes.take depth.toNat).map UInt8.toNat).length = depth.toNat := by
    rw [List.length_map, List.length_take]; omega
  refine ⟨⟨by omega, by omega, by omega, ?_⟩, ?_⟩
  · rw [List.length_take, List.length_drop]; omega
  · rw [encode, hcounts, map_toNat_ofNat, UInt8.ofNat_toNat, List.cons_append, List.append_assoc,
      List.take_append_drop, List.take_append_drop]

/-- **Parsing accepts good headers and nothing else.** -/
theorem parse_eq_ok_iff {bytes rest symbols : List UInt8} {counts : List ℕ} :
    parse bytes = .ok (counts, symbols, rest) ↔
      Good counts symbols ∧ bytes = encode counts symbols ++ rest := by
  refine ⟨good_of_parse, ?_⟩
  rintro ⟨h, rfl⟩
  exact parse_encode h rest

/-- **A header that is cut short** is refused as such, wherever it is cut. -/
theorem parse_take {counts : List ℕ} {symbols : List UInt8} (h : Good counts symbols)
    (rest : List UInt8) {j : ℕ} (hj : j < (encode counts symbols).length) :
    ∃ part, parse ((encode counts symbols ++ rest).take j) = .error (.truncated part) := by
  have hdepth := toNat_depth h.depth_le
  have h1 := h.depth_pos
  have h2 := h.depth_le
  have h3 := h.total_lt
  have h4 := h.symbols_length
  rw [length_encode] at hj
  rw [List.take_append_of_le_length (by rw [length_encode]; omega)]
  cases j with
  | zero => exact ⟨_, rfl⟩
  | succ j =>
    have hlen : ((counts.map UInt8.ofNat ++ symbols).take j).length = j := by
      rw [List.length_take, List.length_append, List.length_map]; omega
    simp only [encode, List.take_succ_cons, parse, hdepth]
    rw [if_neg (by omega)]
    by_cases hcounts : j < counts.length
    · rw [if_pos (by omega)]
      exact ⟨_, rfl⟩
    · have htake : ((counts.map UInt8.ofNat ++ symbols).take j).take counts.length =
          counts.map UInt8.ofNat := by
        rw [List.take_take, Nat.min_eq_left (by omega), List.take_left' (List.length_map ..)]
      rw [if_neg (by omega), htake, map_ofNat_toNat h.lt_of_mem, if_neg (by omega), if_pos]
      · exact ⟨_, rfl⟩
      · rw [List.length_drop, hlen]; omega

variable {s : Source}

/-- The header byte, from what was read ahead or from the source. -/
theorem readDepth_of_cons (hm : s.maxRead ≠ some 0) {ahead bytes : List UInt8} {depth : UInt8}
    (ha : ahead.length ≤ 1) (h : ahead ++ s.upcoming = depth :: bytes) :
    ∃ s', s.Past (1 - ahead.length) s' ∧ s'.upcoming = bytes ∧
      readDepth ahead s =
        if 1 ≤ depth.toNat ∧ depth.toNat ≤ maxDepth then .ok depth.toNat s'
        else .error (.insaneLevels depth.toNat) s' := by
  have hlen := congrArg List.length h
  rw [List.length_append, List.length_cons] at hlen
  obtain ⟨s', hr, hp⟩ := readExact_of_le "pack header" (1 - ahead.length) hm (by omega)
  have hheader : ahead ++ s.upcoming.take (1 - ahead.length) = [depth] := by
    have := congrArg (List.take 1) h
    rwa [List.take_append, List.take_of_length_le ha] at this
  have hbytes : s'.upcoming = bytes := by
    have := congrArg (List.drop 1) h
    rw [List.drop_append, List.drop_of_length_le ha] at this
    rw [hp.upcoming]; exact this
  refine ⟨s', hp, hbytes, ?_⟩
  rw [Nat.cast_sub ha, Nat.cast_one] at hr
  rw [readDepth, if_neg (by omega), bind_of_ok hr, hheader, List.headD_cons]
  split <;> rfl

/-- The counts of the levels, once there are enough bytes for them. -/
theorem readLevelCounts_of_le (hm : s.maxRead ≠ some 0) {n : ℕ} (hn : n ≤ s.upcoming.length) :
    ∃ s', s.Past n s' ∧
      readLevelCounts n s =
        if maxSymbols < 1 + total ((s.upcoming.take n).map UInt8.toNat) then
          .error (.tableOverflow (1 + total ((s.upcoming.take n).map UInt8.toNat))) s'
        else .ok ((s.upcoming.take n).map UInt8.toNat) s' := by
  obtain ⟨s', hr, hp⟩ := readExact_of_le "symbol count table" n hm hn
  refine ⟨s', hp, ?_⟩
  rw [readLevelCounts, bind_of_ok hr]
  split <;> rfl

variable {s' : Source} {f : Failure}

/-- **Why a header is not read**: it is bad or cut short, or the source fails. -/
inductive Refusal (fault : Option Fault) : Failure → Prop
  | depth (levels : ℕ) : Refusal fault (.insaneLevels levels)
  | overflow (capacity : ℕ) : Refusal fault (.tableOverflow capacity)
  | truncated (part : String) : Refusal fault (.truncated part)
  | fault (part : String) {fail : Fault} (h : fail ∈ fault) : Refusal fault (.ofRead part fail.error)

theorem refusal_of_readExact {n : ℤ} {part : String} (h : readExact n part s = .error f s') :
    Refusal s.fault f := by
  rcases readExact_of_error h with rfl | ⟨fault, hfault, rfl⟩
  · exact .truncated part
  · exact .fault part hfault

theorem depth_of_readDepth {ahead : List UInt8} {depth : ℕ}
    (h : readDepth ahead s = .ok depth s') :
    1 ≤ depth ∧ depth ≤ maxDepth ∧
      ∃ bytes, s.Takes bytes s' ∧ ahead ++ bytes = [UInt8.ofNat depth] := by
  unfold readDepth at h
  split at h
  · cases h
  obtain ⟨bytes, s₁, hr, h⟩ := bind_eq_ok h
  obtain ⟨hlen, htakes⟩ := readExact_of_ok hr
  dsimp only at h
  split at h
  · rename_i hahead hdepth
    cases h
    -- one byte in all, read ahead or not
    have hone : (ahead ++ bytes).length = 1 := by rw [List.length_append, hlen]; omega
    obtain ⟨header, hheader⟩ := List.length_eq_one_iff.1 hone
    refine ⟨hdepth.1, hdepth.2, bytes, htakes, ?_⟩
    rw [hheader, List.headD_cons, UInt8.ofNat_toNat]
  · cases h

theorem refusal_of_readDepth {ahead : List UInt8} (ha : ahead.length ≤ 1)
    (h : readDepth ahead s = .error f s') : Refusal s.fault f := by
  rw [readDepth, if_neg (by omega)] at h
  rcases bind_eq_error h with hr | ⟨bytes, s₁, -, h⟩
  · exact refusal_of_readExact hr
  · dsimp only at h
    split at h
    · cases h
    · cases h; exact .depth _

theorem counts_of_readLevelCounts {levels : ℤ} {counts : List ℕ}
    (h : readLevelCounts levels s = .ok counts s') :
    counts.length = levels.toNat ∧ total counts < maxSymbols ∧
      s.Takes (counts.map UInt8.ofNat) s' := by
  obtain ⟨bytes, s₁, hr, h⟩ := bind_eq_ok h
  obtain ⟨hlen, htakes⟩ := readExact_of_ok hr
  dsimp only at h
  split at h
  · cases h
  · rename_i htotal
    cases h
    exact ⟨by rw [List.length_map, hlen], by omega, by rwa [map_toNat_ofNat]⟩

theorem refusal_of_readLevelCounts {levels : ℤ} (h : readLevelCounts levels s = .error f s') :
    Refusal s.fault f := by
  rcases bind_eq_error h with hr | ⟨bytes, s₁, -, h⟩
  · exact refusal_of_readExact hr
  · dsimp only at h
    split at h
    · cases h; exact .overflow _
    · cases h

end Header

namespace Tree

open Header

variable {s s' : Source}

/-- **Any tree that is read comes of a good header**, whose bytes are taken from the source but for
those that were read ahead. -/
theorem takes_of_read {ahead : List UInt8} {size : Option ℤ} {t : Tree}
    (h : read ahead size s = .ok t s') :
    ∃ counts symbols bytes, Good counts symbols ∧ t = ofCounts counts symbols size ∧
      s.Takes bytes s' ∧ ahead ++ bytes = encode counts symbols := by
  obtain ⟨depth, s₁, hr₁, h⟩ := bind_eq_ok h
  obtain ⟨counts, s₂, hr₂, h⟩ := bind_eq_ok h
  obtain ⟨symbols, s₃, hr₃, h⟩ := bind_eq_ok h
  cases h
  obtain ⟨hpos, hle, bytes, htakes₁, hdepth⟩ := depth_of_readDepth hr₁
  obtain ⟨hlen, htotal, htakes₂⟩ := counts_of_readLevelCounts hr₂
  obtain ⟨hsymbols, htakes₃⟩ := readExact_of_ok hr₃
  rw [Int.toNat_natCast] at hlen
  refine ⟨counts, symbols, _, ⟨by omega, by omega, htotal, by omega⟩, rfl,
    (htakes₁.trans htakes₂).trans htakes₃, ?_⟩
  rw [encode, hlen, ← List.append_assoc, ← List.append_assoc, hdepth, List.singleton_append,
    List.cons_append]

/-- Reading a tree leaves the source what it is. -/
theorem good_of_read {ahead : List UInt8} {size : Option ℤ} {t : Tree}
    (h : read ahead size s = .ok t s') :
    ∃ counts symbols, Good counts symbols ∧ t = ofCounts counts symbols size ∧ s.Kin s' := by
  obtain ⟨counts, symbols, bytes, hg, ht, htakes, -⟩ := takes_of_read h
  exact ⟨counts, symbols, hg, ht, htakes.kin⟩

/-- **No other reason not to read a tree.** -/
theorem refusal_of_read {ahead : List UInt8} {size : Option ℤ} {f : Failure}
    (ha : ahead.length ≤ 1) (h : read ahead size s = .error f s') : Refusal s.fault f := by
  rcases bind_eq_error h with hr | ⟨depth, s₁, hr₁, h⟩
  · exact refusal_of_readDepth ha hr
  obtain ⟨-, -, _, htakes₁, -⟩ := depth_of_readDepth hr₁
  rcases bind_eq_error h with hr | ⟨counts, s₂, hr₂, h⟩
  · exact htakes₁.kin.fault ▸ refusal_of_readLevelCounts hr
  obtain ⟨-, -, htakes₂⟩ := counts_of_readLevelCounts hr₂
  rcases bind_eq_error h with hr | ⟨symbols, s₃, -, h⟩
  · exact (htakes₁.kin.trans htakes₂.kin).fault ▸ refusal_of_readExact hr
  · cases h

/-- **The depth and the counts**, from a source that gives them. Too many symbols are refused right
behind the counts. -/
theorem read_counts (hm : s.maxRead ≠ some 0) {ahead table : List UInt8} {counts : List ℕ}
    (ha : ahead.length ≤ 1) (hpos : 0 < counts.length) (hle : counts.length ≤ maxDepth)
    (hcounts : ∀ c ∈ counts, c < 256) (h : ahead ++ s.upcoming = encode counts table) :
    ∃ s₁ s₂, readDepth ahead s = .ok counts.length s₁ ∧
      s.Past (1 + counts.length - ahead.length) s₂ ∧ s₂.upcoming = table ∧
      readLevelCounts counts.length s₁ =
        if maxSymbols < 1 + total counts then .error (.tableOverflow (1 + total counts)) s₂
        else .ok counts s₂ := by
  obtain ⟨s₁, hp₁, hu₁, hr₁⟩ := readDepth_of_cons hm ha h
  rw [toNat_depth hle, if_pos ⟨hpos, hle⟩] at hr₁
  have henough : counts.length ≤ s₁.upcoming.length := by
    rw [hu₁, List.length_append, List.length_map]; omega
  obtain ⟨s₂, hp₂, hr₂⟩ := readLevelCounts_of_le (hp₁.maxRead ▸ hm) henough
  rw [hu₁, List.take_left' (List.length_map ..), map_ofNat_toNat hcounts] at hr₂
  refine ⟨s₁, s₂, hr₁, ?_, ?_, hr₂⟩
  · have := hp₁.trans hp₂
    convert this using 1
    omega
  · rw [hp₂.upcoming, hu₁, List.drop_left' (List.length_map ..)]

/-- **A tree from a good header**, and the source right behind it. -/
theorem read_of_parse_ok (hm : s.maxRead ≠ some 0) {ahead symbols rest : List UInt8}
    {counts : List ℕ} (ha : ahead.length ≤ 1) (size : Option ℤ)
    (h : parse (ahead ++ s.upcoming) = .ok (counts, symbols, rest)) :
    ∃ s', read ahead size s = .ok (ofCounts counts symbols size) s' ∧
      s.Past ((encode counts symbols).length - ahead.length) s' ∧ s'.upcoming = rest := by
  obtain ⟨hg, hbytes⟩ := parse_eq_ok_iff.1 h
  rw [encode, List.cons_append, List.append_assoc] at hbytes
  obtain ⟨s₁, s₂, hr₁, hp₂, hu₂, hr₂⟩ :=
    read_counts hm ha hg.depth_pos hg.depth_le hg.lt_of_mem hbytes
  rw [if_neg (by have := hg.total_lt; omega)] at hr₂
  have htable : total counts + 1 ≤ s₂.upcoming.length := by
    rw [hu₂, List.length_append, hg.symbols_length]; omega
  obtain ⟨s₃, hr₃, hp₃⟩ := readExact_of_le "symbol table" (total counts + 1)
    (hp₂.maxRead ▸ hm) htable
  rw [hu₂, List.take_left' hg.symbols_length] at hr₃
  refine ⟨s₃, ?_, ?_, ?_⟩
  · rw [read, bind_of_ok hr₁, bind_of_ok hr₂]
    exact bind_of_ok hr₃
  · have := hp₂.trans hp₃
    rw [length_encode, hg.symbols_length]
    convert this using 1
    omega
  · rw [hp₃.upcoming, hu₂, List.drop_left' hg.symbols_length]

section Parts

variable {s₁ s₂ : Source} {ahead : List UInt8} {size : Option ℤ} {depth : ℕ} {counts : List ℕ}
  {f : Failure}

/-- Nothing is read once too much was read ahead. -/
theorem read_of_long (h : 1 < ahead.length) (size : Option ℤ) (s : Source) :
    read ahead size s = .error .readAheadTooLong s := by
  have hdepth : readDepth ahead s = .error .readAheadTooLong s := by
    rw [readDepth, if_pos h]
    rfl
  rw [read, bind_of_error hdepth]

theorem read_of_readDepth_error (h : readDepth ahead s = .error f s') :
    read ahead size s = .error f s' := by
  rw [read, bind_of_error h]

theorem read_of_readLevelCounts_error (h₁ : readDepth ahead s = .ok depth s₁)
    (h₂ : readLevelCounts depth s₁ = .error f s') : read ahead size s = .error f s' := by
  rw [read, bind_of_ok h₁, bind_of_error h₂]

theorem read_of_readSymbols_error (h₁ : readDepth ahead s = .ok depth s₁)
    (h₂ : readLevelCounts depth s₁ = .ok counts s₂)
    (h₃ : readSymbols (total counts + 1) s₂ = .error f s') : read ahead size s = .error f s' := by
  rw [read, bind_of_ok h₁, bind_of_ok h₂, bind_of_error h₃]

/-- **No tree from a header with too many symbols**: nothing behind its counts is read. -/
theorem read_of_overflow (hm : s.maxRead ≠ some 0) {table : List UInt8} (ha : ahead.length ≤ 1)
    (size : Option ℤ) (hpos : 0 < counts.length) (hle : counts.length ≤ maxDepth)
    (hcounts : ∀ c ∈ counts, c < 256) (htotal : maxSymbols ≤ total counts)
    (h : ahead ++ s.upcoming = encode counts table) :
    ∃ s', read ahead size s = .error (.tableOverflow (1 + total counts)) s' ∧
      s.Past (1 + counts.length - ahead.length) s' := by
  obtain ⟨s₁, s₂, hr₁, hp₂, -, hr₂⟩ := read_counts hm ha hpos hle hcounts h
  rw [if_pos (by omega)] at hr₂
  exact ⟨s₂, read_of_readLevelCounts_error hr₁ hr₂, hp₂⟩

end Parts

/-- **No tree from a bad header**: reading fails as parsing does, or with the error at the halt where
the header is cut short. -/
theorem read_of_parse_error (hm : s.maxRead ≠ some 0) {ahead : List UInt8} {f : Failure}
    (ha : ahead.length ≤ 1) (size : Option ℤ) (h : parse (ahead ++ s.upcoming) = .error f) :
    ∃ s', read ahead size s = .error (f.atHalt s.haltError) s' := by
  rcases hbytes : ahead ++ s.upcoming with _ | ⟨depth, bytes⟩
  · rw [hbytes] at h
    obtain ⟨rfl, hu⟩ := List.append_eq_nil_iff.1 hbytes
    have hshort : s.upcoming.length < 1 := by rw [hu]; exact Nat.one_pos
    obtain ⟨s', hr⟩ := readExact_of_lt "pack header" 1 hm hshort
    cases h
    exact ⟨s', read_of_readDepth_error (bind_of_error hr)⟩
  have hlength := congrArg List.length hbytes
  rw [List.length_append, List.length_cons] at hlength
  rw [hbytes] at h
  obtain ⟨s₁, hp₁, hu₁, hr₁⟩ := readDepth_of_cons hm ha hbytes
  have hm₁ : s₁.maxRead ≠ some 0 := hp₁.maxRead ▸ hm
  have hhalt₁ := hp₁.haltError (by omega)
  -- as parsing does: a depth out of range, counts missing, too many symbols, symbols missing
  simp only [parse] at h
  split at h
  · rename_i hdepth
    cases h
    rw [if_neg hdepth] at hr₁
    rw [Failure.atHalt_of_not_short rfl]
    exact ⟨s₁, read_of_readDepth_error hr₁⟩
  rename_i hdepth
  rw [if_pos (not_not.1 hdepth)] at hr₁
  split at h
  · rename_i hlen
    cases h
    rw [← hu₁] at hlen
    obtain ⟨s₂, hr₂⟩ := readExact_of_lt "symbol count table" depth.toNat hm₁ hlen
    rw [hhalt₁] at hr₂
    exact ⟨s₂, read_of_readLevelCounts_error hr₁ (bind_of_error hr₂)⟩
  rename_i hlen
  rw [← hu₁, not_lt] at hlen
  obtain ⟨s₂, hp₂, hr₂⟩ := readLevelCounts_of_le hm₁ hlen
  rw [hu₁] at hr₂
  split at h
  · rename_i htotal
    cases h
    rw [if_pos htotal] at hr₂
    rw [Failure.atHalt_of_not_short rfl]
    exact ⟨s₂, read_of_readLevelCounts_error hr₁ hr₂⟩
  rename_i htotal
  rw [if_neg htotal] at hr₂
  split at h
  · rename_i htable
    cases h
    have hu₂ : s₂.upcoming = bytes.drop depth.toNat := by rw [hp₂.upcoming, hu₁]
    rw [← hu₂] at htable
    obtain ⟨s₃, hr₃⟩ := readExact_of_lt "symbol table" _ (hp₂.maxRead ▸ hm₁) htable
    rw [hp₂.haltError hlen, hhalt₁] at hr₃
    exact ⟨s₃, read_of_readSymbols_error hr₁ hr₂ hr₃⟩
  · cases h

/-- **What is read is parsed**: a good header, and no byte behind it. -/
theorem parse_of_read (hm : s.maxRead ≠ some 0) {ahead : List UInt8} {size : Option ℤ} {t : Tree}
    (h : read ahead size s = .ok t s') :
    ∃ counts symbols, t = ofCounts counts symbols size ∧
      parse (ahead ++ s.upcoming) = .ok (counts, symbols, s'.upcoming) := by
  have ha : ahead.length ≤ 1 := by
    by_contra hlong
    rw [read_of_long (not_le.1 hlong)] at h
    cases h
  cases hparse : parse (ahead ++ s.upcoming) with
  | error f =>
    obtain ⟨s₁, hread⟩ := read_of_parse_error hm ha size hparse
    rw [hread] at h; cases h
  | ok header =>
    obtain ⟨counts, symbols, rest⟩ := header
    obtain ⟨s₁, hread, -, rfl⟩ := read_of_parse_ok hm ha size hparse
    rw [hread] at h
    cases h
    exact ⟨counts, symbols, rfl, rfl⟩

theorem headerLength_ofCounts (counts : List ℕ) (symbols : List UInt8) (size : Option ℤ) :
    (ofCounts counts symbols size).headerLength = (encode counts symbols).length := by
  rw [length_encode]
  simp [headerLength, ofCounts]

end Tree

end PackFormat
