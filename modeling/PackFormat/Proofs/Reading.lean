import Mathlib.Tactic
import PackFormat.Header.Read

/-!
# What a source gives

Whatever a source puts in the way of single reads, the bytes it still gives are
determined: all up to the end of its data, or to where it falls silent or fails
(`Source.upcoming`).

* `Source.read_eq`: a read gives as many of them as it may.
* `Source.read_end`: once they are used up, a read gives nothing or raises an error,
  and which of the two is determined as well (`Source.haltError`).
* `Source.read_trichotomy`: all that one read can do, with the source that it leaves.
* `Source.Gave`, `Source.Takes`: what some reads gave, which stands in the data.
-/

namespace PackFormat

namespace Failure

/-- Failures for want of bytes. -/
def isShort : Failure → Bool
  | truncated _ | noStop _ => true
  | _ => false

/-- **What a failure for want of bytes becomes** where the bytes do not just end, but the source raises
an error. -/
def atHalt (f : Failure) (o : Option StreamError) : Failure :=
  match o, f with
  | some e, truncated part => ofRead part e
  | some e, noStop _ => ofRead "packed payload" e
  | _, f => f

@[simp] theorem atHalt_none (f : Failure) : f.atHalt none = f := by
  cases f <;> rfl

/-- Other failures are what they are. -/
theorem atHalt_of_not_short {f : Failure} (h : f.isShort = false) (o : Option StreamError) :
    f.atHalt o = f := by
  cases o with
  | none => exact atHalt_none f
  | some e =>
    cases f with
    | truncated part => cases h
    | noStop n => cases h
    | _ => rfl

end Failure

namespace Source

/-- Where reads come to a halt. -/
def halt (s : Source) : ℕ :=
  min s.data.size (min (s.silentAt.getD s.data.size)
    ((s.fault.map (·.position)).getD s.data.size))

/-- **The bytes that reads still give.** -/
def upcoming (s : Source) : List UInt8 := (s.data.toList.drop s.pos).take (s.halt - s.pos)

/-- **The error that a read behind the upcoming bytes raises**, unless it gives nothing. -/
def haltError (s : Source) : Option StreamError :=
  if s.silentAt.any (· ≤ s.pos + s.upcoming.length) then none
  else (s.fault.filter (·.position ≤ s.pos + s.upcoming.length)).map (·.error)

/-- A source that nothing stops gives all its data behind the position. -/
theorem upcoming_of_open {s : Source} (hfault : s.fault = none) (hsilent : s.silentAt = none) :
    s.upcoming = s.data.toList.drop s.pos := by
  have hhalt : s.halt = s.data.size := by simp [halt, hfault, hsilent]
  rw [upcoming, hhalt]
  exact List.take_of_length_le (by rw [List.length_drop, Array.length_toList])

/-- From the start, it gives all its data. -/
theorem upcoming_whole (data : Array UInt8) (maxRead : Option ℕ) :
    ({ data, maxRead } : Source).upcoming = data.toList := upcoming_of_open rfl rfl

/-- The most that a read of `n` bytes gives. -/
def grant (s : Source) (n : ℕ) : ℕ := min n (s.maxRead.getD n)

/-- **A source that does not fail**, and whose reads give something while there is anything. -/
structure Clean (s : Source) : Prop where
  fault : s.fault = none
  maxRead : s.maxRead ≠ some 0

/-- `s'` is `s` after reads that took `k` bytes. -/
def Past (s : Source) (k : ℕ) (s' : Source) : Prop :=
  s' = { s with pos := s.pos + k, requests := s'.requests }

variable {s s' s'' : Source}

theorem Past.refl (s : Source) : s.Past 0 s := rfl

theorem Past.trans {j k : ℕ} (h : s.Past j s') (h' : s'.Past k s'') : s.Past (j + k) s'' := by
  unfold Past at *
  rw [h', h]
  simp [Nat.add_assoc]

theorem Past.upcoming {k : ℕ} (h : s.Past k s') : s'.upcoming = s.upcoming.drop k := by
  rw [h]
  simp only [Source.upcoming, halt, List.drop_take, List.drop_drop, Nat.sub_sub]

/-- What a read took off the front is missing afterwards. -/
theorem Past.upcoming_take {g : ℕ} (h : s.Past (s.upcoming.take g).length s') :
    s'.upcoming = s.upcoming.drop g := by
  rw [h.upcoming, List.length_take]
  rcases le_total g s.upcoming.length with hg | hg
  · rw [Nat.min_eq_left hg]
  · rw [Nat.min_eq_right hg, List.drop_length, List.drop_of_length_le hg]

theorem Past.grant {k : ℕ} (h : s.Past k s') (n : ℕ) : s'.grant n = s.grant n := by
  rw [h]; rfl

theorem Past.maxRead {k : ℕ} (h : s.Past k s') : s'.maxRead = s.maxRead := by rw [h]

theorem Past.clean {k : ℕ} (h : s.Past k s') (hs : s.Clean) : s'.Clean := by
  rw [h]; exact ⟨hs.fault, hs.maxRead⟩

/-- What a source raises at its halt does not change on the way there. -/
theorem Past.haltError {k : ℕ} (h : s.Past k s') (hk : k ≤ s.upcoming.length) :
    s'.haltError = s.haltError := by
  have hplace : s'.pos + s'.upcoming.length = s.pos + s.upcoming.length := by
    have hpos : s'.pos = s.pos + k := by rw [h]
    rw [hpos, h.upcoming, List.length_drop]
    omega
  have hsilent : s'.silentAt = s.silentAt := by rw [h]
  have hfault : s'.fault = s.fault := by rw [h]
  rw [Source.haltError, hplace, hsilent, hfault, Source.haltError]

theorem Clean.haltError (hs : s.Clean) : s.haltError = none := by
  rw [Source.haltError, hs.fault]
  exact ite_self _

theorem grant_pos (hm : s.maxRead ≠ some 0) {n : ℕ} (hn : 0 < n) : 0 < s.grant n := by
  unfold grant
  cases h : s.maxRead with
  | none => simpa using hn
  | some m =>
    have : m ≠ 0 := by rintro rfl; exact hm h
    simp only [Option.getD_some]; omega

/-- The position of a source that still gives something is before its halt. -/
theorem pos_lt_halt (ha : s.upcoming ≠ []) : s.pos < s.halt := by
  by_contra h
  apply ha
  rw [upcoming, Nat.sub_eq_zero_of_le (not_lt.1 h), List.take_zero]

/-- A read before any silence and any fault gives what it finds up to its stop. -/
theorem read_of_open (hsilent : s.silentAt.any (· ≤ s.pos) = false)
    (hfault : s.fault.filter (·.position ≤ s.pos) = none) (n : ℕ) :
    s.read n = .ok (s.data.extract s.pos (s.stop n)).toList
      { s with pos := s.pos + (s.data.extract s.pos (s.stop n)).toList.length,
               requests := s.requests.push n } := by
  simp only [read, hsilent, hfault, Bool.false_eq_true, if_false]
  rfl

/-- **A read gives as many of the upcoming bytes as it may.** -/
theorem read_eq (ha : s.upcoming ≠ []) (n : ℕ) :
    ∃ s', s.read n = .ok (s.upcoming.take (s.grant n)) s' ∧
      s.Past (s.upcoming.take (s.grant n)).length s' := by
  have hlt := pos_lt_halt ha
  have hsilent : s.silentAt.any (· ≤ s.pos) = false := by
    unfold halt at hlt
    cases h : s.silentAt with
    | none => rfl
    | some p => rw [h] at hlt; simp only [Option.getD_some] at hlt; simp; omega
  have hfault : s.fault.filter (·.position ≤ s.pos) = none := by
    unfold halt at hlt
    cases h : s.fault with
    | none => rfl
    | some f =>
      rw [h] at hlt; simp only [Option.map_some, Option.getD_some] at hlt
      simp [Option.filter]; omega
  -- past the end of the data, the two limits cut at the same place
  have hbytes : (s.data.extract s.pos (s.stop n)).toList = s.upcoming.take (s.grant n) := by
    rw [Array.toList_extract, List.extract_eq_take_drop, upcoming, List.take_take,
      List.take_eq_take_iff, List.length_drop, Array.length_toList]
    refine eq_of_forall_lt_iff fun k => ?_
    unfold stop grant halt
    cases s.maxRead <;> cases s.silentAt <;> cases s.fault <;>
      simp only [List.foldl_cons, List.foldl_nil, Option.map_none, Option.map_some,
        Option.getD_none, Option.getD_some, lt_min_iff, Nat.lt_sub_iff_add_lt] <;> omega
  rw [read_of_open hsilent hfault, hbytes]
  exact ⟨_, rfl, rfl⟩

/-- **Once the upcoming bytes are used up**, a read gives nothing, or raises the error at the halt. -/
theorem read_end (ha : s.upcoming = []) (n : ℕ) :
    ∃ s', s.read n =
      match s.haltError with
      | none => .ok [] s'
      | some e => .error e s' := by
  unfold haltError
  rw [ha, List.length_nil, Nat.add_zero]
  by_cases hsilent : s.silentAt.any (· ≤ s.pos) = true
  · simp only [read, hsilent, if_true]; exact ⟨_, rfl⟩
  cases hfault : s.fault.filter (·.position ≤ s.pos) with
  | some f =>
    simp only [read, hsilent, hfault, Option.map_some]; exact ⟨_, rfl⟩
  | none =>
    -- neither silent nor failing: the data must be at its end
    have hend : s.data.size ≤ s.pos := by
      rw [upcoming, List.take_eq_nil_iff, List.drop_eq_nil_iff, Array.length_toList] at ha
      refine ha.elim (fun hhalt => ?_) id
      unfold halt at hhalt
      cases h : s.silentAt <;> cases h' : s.fault <;> rw [h] at hhalt hsilent <;>
        rw [h'] at hhalt hfault <;> simp [Option.filter] at hhalt hsilent hfault <;> omega
    have hnil : (s.data.extract s.pos (s.stop n)).toList = [] := by
      rw [Array.toList_extract, List.extract_eq_take_drop, List.take_eq_nil_iff, List.drop_eq_nil_iff]
      exact Or.inr hend
    rw [read_of_open ((Bool.not_eq_true _).mp hsilent) hfault, hnil, if_neg hsilent]
    exact ⟨_, rfl⟩

/-- What a source stays as while it is read. -/
structure Kin (s s' : Source) : Prop where
  fault : s'.fault = s.fault
  maxRead : s'.maxRead = s.maxRead

theorem Kin.refl (s : Source) : s.Kin s := ⟨rfl, rfl⟩

theorem Kin.trans (h : s.Kin s') (h' : s'.Kin s'') : s.Kin s'' :=
  ⟨h'.fault.trans h.fault, h'.maxRead.trans h.maxRead⟩

theorem Kin.clean (h : s.Kin s') (hs : s.Clean) : s'.Clean :=
  ⟨h.fault.trans hs.fault, by rw [h.maxRead]; exact hs.maxRead⟩

theorem stop_le (s : Source) (n : ℕ) : s.stop n ≤ s.pos + n := by
  unfold stop
  simp only [List.foldl_cons, List.foldl_nil]
  exact (Nat.min_le_left _ _).trans ((Nat.min_le_left _ _).trans (Nat.min_le_left _ _))

/-- **What one read can do**: give nothing where the source falls silent, fail, or give what stands in
the data from the position on. It is logged in any case. -/
theorem read_trichotomy (s : Source) (n : ℕ) :
    s.read n = .ok [] { s with silentAt := none, requests := s.requests.push n } ∨
      (∃ fault ∈ s.fault, s.read n = .error fault.error { s with requests := s.requests.push n }) ∨
      ∃ bytes, s.read n = .ok bytes
          { s with pos := s.pos + bytes.length, requests := s.requests.push n } ∧
        bytes.length ≤ n ∧ bytes <+: s.data.toList.drop s.pos := by
  by_cases hsilent : s.silentAt.any (· ≤ s.pos) = true
  · left
    simp only [read, hsilent, if_true]
  cases hfault : s.fault.filter (·.position ≤ s.pos) with
  | some fault =>
    refine Or.inr (Or.inl ⟨fault, (Option.filter_eq_some_iff.1 hfault).1, ?_⟩)
    simp only [read, hsilent, hfault, Bool.false_eq_true, if_false]
  | none =>
    have hstop := s.stop_le n
    refine Or.inr (Or.inr ⟨_, read_of_open ((Bool.not_eq_true _).mp hsilent) hfault n, ?_, ?_⟩)
    · rw [Array.length_toList, Array.size_extract]
      omega
    · rw [Array.toList_extract, List.extract_eq_take_drop]
      exact List.take_prefix _ _

/-- No read gives more than was asked for. -/
theorem read_of_ok {n : ℕ} {bytes : List UInt8} (h : s.read n = .ok bytes s') :
    bytes.length ≤ n ∧ s.Kin s' := by
  rcases s.read_trichotomy n with hr | ⟨fault, -, hr⟩ | ⟨bytes', hr, hle, -⟩
  · cases hr.symm.trans h; exact ⟨Nat.zero_le n, rfl, rfl⟩
  · cases hr.symm.trans h
  · cases hr.symm.trans h; exact ⟨hle, rfl, rfl⟩

/-- A read is logged by what it asks for. -/
theorem requests_of_read {n : ℕ} {bytes : List UInt8} (h : s.read n = .ok bytes s') :
    s'.requests = s.requests.push n := by
  rcases s.read_trichotomy n with hr | ⟨fault, -, hr⟩ | ⟨bytes', hr, -, -⟩
  · cases hr.symm.trans h; rfl
  · cases hr.symm.trans h
  · cases hr.symm.trans h; rfl

/-- **Reads that gave `bytes`** lead from `s` to `s'`, and perhaps others that gave nothing. -/
structure Gave (s : Source) (bytes : List UInt8) (s' : Source) : Prop where
  data : s'.data = s.data
  pos : s'.pos = s.pos + bytes.length
  front : bytes <+: s.data.toList.drop s.pos

theorem Gave.refl (s : Source) : s.Gave [] s := ⟨rfl, rfl, List.nil_prefix⟩

theorem Gave.trans {xs ys : List UInt8} (h : s.Gave xs s') (h' : s'.Gave ys s'') :
    s.Gave (xs ++ ys) s'' := by
  have hpos : s''.pos = s.pos + (xs ++ ys).length := by
    rw [h'.pos, h.pos, List.length_append, Nat.add_assoc]
  obtain ⟨rest, hrest⟩ := h.front
  obtain ⟨rest', hrest'⟩ := h'.front
  refine ⟨h'.data.trans h.data, hpos, rest', ?_⟩
  rw [h.data, h.pos, ← List.drop_drop, ← hrest, List.drop_left] at hrest'
  rw [← hrest, ← hrest', List.append_assoc]

/-- What reads gave stands between the two positions. -/
theorem Gave.extract {bytes : List UInt8} (h : s.Gave bytes s') :
    s.data.extract s.pos s'.pos = bytes.toArray := by
  have hfront := List.prefix_iff_eq_take.1 h.front
  apply Array.toList_inj.1
  rw [Array.toList_extract, List.extract_eq_take_drop, h.pos, Nat.add_sub_cancel_left, ← hfront]

/-- Nothing else can have been given between them. -/
theorem Gave.unique {xs ys : List UInt8} (h : s.Gave xs s') (h' : s.Gave ys s') : xs = ys :=
  List.toArray_inj (h.extract.symm.trans h'.extract)

/-- **`s'` is `s` after reads that gave `bytes`**, which stand in its data from its position on. -/
structure Takes (s : Source) (bytes : List UInt8) (s' : Source) : Prop where
  past : s.Past bytes.length s'
  front : bytes <+: s.data.toList.drop s.pos

theorem Takes.refl (s : Source) : s.Takes [] s := ⟨Past.refl s, List.nil_prefix⟩

theorem Takes.gave {bytes : List UInt8} (h : s.Takes bytes s') : s.Gave bytes s' := by
  have hdata : s'.data = s.data := by rw [h.past]
  have hpos : s'.pos = s.pos + bytes.length := by rw [h.past]
  exact ⟨hdata, hpos, h.front⟩

theorem Takes.trans {xs ys : List UInt8} (h : s.Takes xs s') (h' : s'.Takes ys s'') :
    s.Takes (xs ++ ys) s'' := by
  have hpast : s.Past (xs ++ ys).length s'' := by
    rw [List.length_append]
    exact h.past.trans h'.past
  exact ⟨hpast, (h.gave.trans h'.gave).front⟩

theorem Takes.kin {bytes : List UInt8} (h : s.Takes bytes s') : s.Kin s' := by
  rw [h.past]; exact ⟨rfl, rfl⟩

/-- **What a read gives** stands in the data. -/
theorem gave_of_read {n : ℕ} {bytes : List UInt8} (h : s.read n = .ok bytes s') :
    s.Gave bytes s' := by
  rcases s.read_trichotomy n with hr | ⟨fault, -, hr⟩ | ⟨bytes', hr, -, hfront⟩
  · cases hr.symm.trans h; exact ⟨rfl, rfl, List.nil_prefix⟩
  · cases hr.symm.trans h
  · cases hr.symm.trans h; exact ⟨rfl, rfl, hfront⟩

/-- A read that gives something takes it from the data. -/
theorem takes_of_read {n : ℕ} {b : UInt8} {bytes : List UInt8}
    (h : s.read n = .ok (b :: bytes) s') : s.Takes (b :: bytes) s' := by
  rcases s.read_trichotomy n with hr | ⟨fault, -, hr⟩ | ⟨bytes', hr, -, hfront⟩
  · cases hr.symm.trans h
  · cases hr.symm.trans h
  · cases hr.symm.trans h; exact ⟨rfl, hfront⟩

/-- A read fails only with the fault's error, and leaves all but the log as it is. -/
theorem read_of_error {n : ℕ} {e : StreamError} (h : s.read n = .error e s') :
    (∃ fault ∈ s.fault, e = fault.error) ∧ s' = { s with requests := s.requests.push n } := by
  rcases s.read_trichotomy n with hr | ⟨fault, hfault, hr⟩ | ⟨bytes', hr, -, -⟩
  · cases hr.symm.trans h
  · cases hr.symm.trans h; exact ⟨⟨fault, hfault, rfl⟩, rfl⟩
  · cases hr.symm.trans h

end Source

end PackFormat
