import PackFormat.Proofs.Unpack

/-!
# Reads that fail

What unpacking comes to depends on a source by the bytes that it gives, and by the
error that it raises behind them, if it raises one. So silence is the end of the
data, and an error shows only where a byte is missing.

* `unpacked`: what a byte string unpacks to.
* `unpack_eq_unpacked`: unpacking from any source, into a sink that does not fail.
* `unpack_alike`, `unpack_of_halt`: sources that give the same bytes, and end the
  same or not.
* `unpack_fault`: **silence and errors, wherever they come.**
-/

namespace PackFormat

namespace Source

variable (data : Array UInt8) (m : Option ℕ) (p : ℕ) (e : StreamError)

theorem upcoming_extract :
    ({ data := data.extract 0 p, maxRead := m } : Source).upcoming = data.toList.take p := by
  rw [upcoming_whole, Array.toList_extract, List.extract_eq_take_drop, List.drop_zero, Nat.sub_zero]

/-- A source gives its data up to where it falls silent. -/
theorem upcoming_silent :
    ({ data, maxRead := m, silentAt := some p } : Source).upcoming = data.toList.take p := by
  simp [upcoming, halt, List.take_eq_take_iff]

/-- So does a source that fails. -/
theorem upcoming_fault :
    ({ data, maxRead := m, fault := some ⟨p, e⟩ } : Source).upcoming = data.toList.take p := by
  simp [upcoming, halt, List.take_eq_take_iff, Nat.min_comm]

/-- A fault behind the end of the data raises nothing. -/
theorem haltError_fault :
    ({ data, maxRead := m, fault := some ⟨p, e⟩ } : Source).haltError =
      if p ≤ data.size then some e else none := by
  rw [haltError, upcoming_fault]
  by_cases hp : p ≤ data.size
  · simp [hp, Option.filter]
  · simp [hp, Option.filter]

end Source

/-- No part of a header is missing from a payload. -/
theorem Tree.verdict_ne_truncated (t : Tree) (payload : List UInt8) (part : String) :
    (t.verdict payload).outcome ≠ .error (.truncated part) := by
  intro h
  unfold verdict at h
  rcases hscan : t.scan {} #[] 0 (bitsOf payload) with ⟨symbols, used, c | _ | f⟩
  · rw [hscan] at h
    cases h
  · rw [hscan] at h
    have hshort := not_short_of_settled h
    cases hshort
  · have hfailed : (t.scan {} #[] 0 (bitsOf payload)).ending = .failed f := by rw [hscan]
    have hcut : f.IsCut := kind_of_scan_failed hfailed
    rw [hscan] at h
    cases h
    cases hcut.not_short

/-- No stop code is missing from a header. -/
theorem Header.parse_ne_noStop (bytes : List UInt8) (n : ℕ) : parse bytes ≠ .error (.noStop n) := by
  intro h
  rcases bytes with _ | ⟨depth, bytes⟩
  · cases h
  simp only [parse] at h
  repeat' split at h
  all_goals cases h

/-- **What a byte string unpacks to**: what its header counts, the verdict on it, and the bytes that
come of it. -/
structure Unpacked where
  header : ℤ
  verdict : Verdict
  output : List UInt8

/-- What a byte string unpacks to when each chunk has `chunk` bytes. A bad header counts for nothing,
and nothing behind it matters. -/
def unpacked (bytes : List UInt8) (size : Option ℤ) (chunk : ℕ) : Unpacked :=
  match Header.parse bytes with
  | .error f => ⟨0, ⟨.error f, 0, 0⟩, []⟩
  | .ok (counts, symbols, payload) =>
    let t := Tree.ofCounts counts symbols size
    ⟨t.headerLength, t.verdict payload, t.output chunk payload⟩

section Unpacked

variable {bytes : List UInt8} {size : Option ℤ} {chunk : ℕ}

/-- Where a part of the header is missing, nothing is counted. -/
theorem unpacked_of_truncated {part : String}
    (h : (unpacked bytes size chunk).verdict.outcome = .error (.truncated part)) :
    (unpacked bytes size chunk).verdict = ⟨.error (.truncated part), 0, 0⟩ := by
  unfold unpacked at h ⊢
  cases hparse : Header.parse bytes with
  | error f => rw [hparse] at h; cases h; rfl
  | ok header => rw [hparse] at h; exact (Tree.verdict_ne_truncated _ _ part h).elim

/-- Where the stop code is missing, there is a good header. -/
theorem unpacked_of_noStop {n : ℕ}
    (h : (unpacked bytes size chunk).verdict.outcome = .error (.noStop n)) :
    ∃ counts symbols payload, Header.parse bytes = .ok (counts, symbols, payload) ∧
      (unpacked bytes size chunk).header = (Tree.ofCounts counts symbols size).headerLength := by
  unfold unpacked at h ⊢
  cases hparse : Header.parse bytes with
  | error f => rw [hparse] at h; cases h; exact (Header.parse_ne_noStop _ n hparse).elim
  | ok header => exact ⟨_, _, _, rfl, rfl⟩

end Unpacked

section Unpack

variable {s : Streams} {ahead : List UInt8} {size : Option ℤ} {k : ℤ}

/-- **Unpacking is a matter of the bytes** that the source gives, and of the error at its halt. -/
theorem unpack_eq_unpacked (hm : s.source.maxRead ≠ some 0) (hsink : s.sink.fault = none)
    (ha : ahead.length ≤ 1) (size : Option ℤ) (hk : 1 ≤ k) :
    let u := unpacked (ahead ++ s.source.upcoming) size (chunkBytes k s.source.maxRead)
    let v := u.verdict.atHalt s.source.haltError
    outcome (unpack ahead size k s) = v.outcome ∧
      s.Added (final (unpack ahead size k s)) (u.header + v.bytesIn) v.bytesOut ∧
      (final (unpack ahead size k s)).sink.written = s.sink.written ++ u.output := by
  unfold unpacked
  cases hparse : Header.parse (ahead ++ s.source.upcoming) with
  | error f =>
    obtain ⟨source', hread⟩ := Tree.read_of_parse_error hm ha size hparse
    rw [unpack_of_error hread]
    simp only [Verdict.atHalt_error]
    exact ⟨rfl, .of_eq rfl, (Array.append_empty).symm⟩
  | ok header =>
    obtain ⟨counts, symbols, payload⟩ := header
    obtain ⟨source', hread, hp, rfl⟩ := Tree.read_of_parse_ok hm ha size hparse
    have hlen := congrArg List.length (Header.parse_eq_ok_iff.1 hparse).2
    rw [List.length_append, List.length_append] at hlen
    have hrun := unpack_verdict hsink hk hread (hp.maxRead ▸ hm)
    have hgrant : source'.grant k.toNat = chunkBytes k s.source.maxRead := hp.grant _
    rwa [hp.haltError (by omega), hgrant] at hrun

/-- **Two runs that cannot be told apart**, but for the reads and writes they took. -/
structure Alike {α : Type} (r r' : EStateM.Result Failure Streams α) : Prop where
  outcome : outcome r = PackFormat.outcome r'
  stats : (final r).stats = (final r').stats
  written : (final r).sink.written = (final r').sink.written

variable {source source' : Source}

/-- **Sources that give the same bytes and end the same** cannot be told apart. -/
theorem unpack_alike (hm : source.maxRead ≠ some 0) (hsink : s.sink.fault = none)
    (ha : ahead.length ≤ 1) (size : Option ℤ) (hk : 1 ≤ k) (hmax : source'.maxRead = source.maxRead)
    (hupcoming : source'.upcoming = source.upcoming) (hhalt : source'.haltError = source.haltError) :
    Alike (unpack ahead size k { s with source := source' })
      (unpack ahead size k { s with source }) := by
  obtain ⟨ho, hst, hw⟩ := unpack_eq_unpacked (s := { s with source }) hm hsink ha size hk
  obtain ⟨ho', hst', hw'⟩ :=
    unpack_eq_unpacked (s := { s with source := source' }) (hmax ▸ hm) hsink ha size hk
  simp only [hmax, hupcoming, hhalt] at ho' hst' hw'
  exact ⟨ho'.trans ho.symm, hst'.unique hst, hw'.trans hw.symm⟩

/-- **A source that raises an error where another one ends**: the error takes the place of a failure
for want of bytes, and then a payload is not counted; anything else stays. -/
theorem unpack_of_halt {e : SystemError} (hm : source.maxRead ≠ some 0) (hsink : s.sink.fault = none)
    (ha : ahead.length ≤ 1) (size : Option ℤ) (hk : 1 ≤ k) (hmax : source'.maxRead = source.maxRead)
    (hupcoming : source'.upcoming = source.upcoming) (hend : source.haltError = none)
    (herror : source'.haltError = some (.system e)) :
    let cut := unpack ahead size k { s with source }
    let failing := unpack ahead size k { s with source := source' }
    (final failing).sink.written = (final cut).sink.written ∧
      match outcome cut with
      | .error (.truncated part) =>
        outcome failing = .error (.reading part e) ∧ (final failing).stats = (final cut).stats
      | .error (.noStop _) =>
        outcome failing = .error (.reading "packed payload" e) ∧
          ∃ t source₁, Tree.read ahead size source = .ok t source₁ ∧
            s.Added (final failing) (1 + t.levels + t.symbols.length) 0
      | o => outcome failing = o ∧ (final failing).stats = (final cut).stats := by
  intro cut failing
  obtain ⟨ho, hst, hw⟩ := unpack_eq_unpacked (s := { s with source }) hm hsink ha size hk
  obtain ⟨ho', hst', hw'⟩ :=
    unpack_eq_unpacked (s := { s with source := source' }) (hmax ▸ hm) hsink ha size hk
  simp only [hend, Verdict.atHalt_none] at ho hst hw
  simp only [hmax, hupcoming, herror] at ho' hst' hw'
  refine ⟨hw'.trans hw.symm, ?_⟩
  rw [show outcome cut = _ from ho]
  split
  · rename_i part houtcome
    rw [unpacked_of_truncated houtcome] at hst ho' hst'
    exact ⟨ho', hst'.unique hst⟩
  · -- the header was counted before the payload was read
    rename_i n houtcome
    rw [Verdict.atHalt_of_short _ houtcome rfl] at ho' hst'
    obtain ⟨counts, symbols, payload, hparse, hheader⟩ := unpacked_of_noStop houtcome
    obtain ⟨source₁, hread, -⟩ := Tree.read_of_parse_ok hm ha size hparse
    simp only [hheader, Nat.cast_zero, add_zero] at hst'
    exact ⟨ho', _, source₁, hread, hst'⟩
  · -- no byte was missing, so the halt was not reached
    rename_i htruncated hnoStop
    have hshort : ∀ f, (unpacked (ahead ++ source.upcoming) size
        (chunkBytes k source.maxRead)).verdict.outcome = .error f → f.isShort = false := by
      intro f hf
      cases f with
      | truncated part => exact (htruncated part hf).elim
      | noStop n => exact (hnoStop n hf).elim
      | _ => rfl
    rw [Verdict.atHalt_of_not_short _ hshort] at ho' hst'
    exact ⟨ho', hst'.unique hst⟩

/-- **Silence and errors, wherever they come.** Let a source be silent, or fail with a system's error,
from position `p` on. Silence is just the end of the data there. An error within the data takes the
place of a failure for want of bytes, and its wording says what was being read; a payload that it
interrupts is not counted, but the bytes written are the same. Anything else stays what it is, and so
does everything when the error lies behind the data. -/
theorem unpack_fault {m : Option ℕ} (hm : m ≠ some 0) (hsink : s.sink.fault = none)
    (ha : ahead.length ≤ 1) (size : Option ℤ) (hk : 1 ≤ k) (data : Array UInt8) (p : ℕ)
    (e : SystemError) :
    let start : Source := { data := data.extract 0 p, maxRead := m }
    let cut := unpack ahead size k { s with source := start }
    let silent := unpack ahead size k
      { s with source := { data, maxRead := m, silentAt := some p } }
    let failing := unpack ahead size k
      { s with source := { data, maxRead := m, fault := some ⟨p, .system e⟩ } }
    Alike silent cut ∧ (data.size < p → Alike failing cut) ∧
      (p ≤ data.size →
        (final failing).sink.written = (final cut).sink.written ∧
          match outcome cut with
          | .error (.truncated part) =>
            outcome failing = .error (.reading part e) ∧ (final failing).stats = (final cut).stats
          | .error (.noStop _) =>
            outcome failing = .error (.reading "packed payload" e) ∧
              ∃ t source₁, Tree.read ahead size start = .ok t source₁ ∧
                s.Added (final failing) (1 + t.levels + t.symbols.length) 0
          | o => outcome failing = o ∧ (final failing).stats = (final cut).stats) ∧
      ∀ part, (Failure.truncated part).message = "Malformed stream: " ++ part ++ " truncated" ∧
        (Failure.reading part e).message = "Error reading " ++ part ++ ": " ++ e.message := by
  intro start cut silent failing
  have hstart : start.Clean := ⟨rfl, hm⟩
  have hsilent : ({ data, maxRead := m, silentAt := some p } : Source).Clean := ⟨rfl, hm⟩
  have hupcoming := Source.upcoming_extract data m p
  have hfault := Source.haltError_fault data m p (.system e)
  refine ⟨?_, ?_, ?_, fun part => ⟨rfl, rfl⟩⟩
  · exact unpack_alike hm hsink ha size hk rfl ((Source.upcoming_silent data m p).trans hupcoming.symm)
      (hsilent.haltError.trans hstart.haltError.symm)
  · intro hp
    rw [if_neg (by omega)] at hfault
    exact unpack_alike hm hsink ha size hk rfl
      ((Source.upcoming_fault data m p _).trans hupcoming.symm)
      (hfault.trans hstart.haltError.symm)
  · intro hp
    rw [if_pos hp] at hfault
    exact unpack_of_halt hm hsink ha size hk rfl
      ((Source.upcoming_fault data m p _).trans hupcoming.symm) hstart.haltError hfault

/-- An error right before the byte in which the stop code ends: the words before it are written, and
only the header is counted. -/
theorem unpack_fault_last_byte :
    let data : Array UInt8 := #[2, 1, 0, 65, 66, 0x02, 0x80]
    let e : SystemError := ⟨some 5, "Input/output error"⟩
    let s : Streams := { stats := some {} }
    (some 1 ≠ some 0 ∧ s.sink.fault = none ∧ ([] : List UInt8).length ≤ 1 ∧ (1 : ℤ) ≤ 4 ∧
        6 ≤ data.size ∧ data.size < 8) ∧
      (let failing := unpack [] (some 4) 4
        { s with source := { data, maxRead := some 1, fault := some ⟨6, .system e⟩ } }
      outcome failing = .error (.reading "packed payload" e) ∧
        (Failure.reading "packed payload" e).message =
          "Error reading packed payload: [Errno 5] Input/output error" ∧
        (final failing).sink.written = #[66, 66, 66, 65] ∧ (final failing).stats = some ⟨5, 0⟩) ∧
      outcome (unpack [] (some 4) 4
        { s with source := { data, maxRead := some 1, fault := some ⟨8, .system e⟩ } }) = .ok 4 := by
  intro data e s
  have hm : some 1 ≠ some 0 := by decide
  have ha : ([] : List UInt8).length ≤ 1 := by decide
  have hcut : outcome (unpack [] (some 4) 4
      { s with source := { data := data.extract 0 6, maxRead := some 1 } }) = .error (.noStop 4) ∧
      (final (unpack [] (some 4) 4
        { s with source := { data := data.extract 0 6, maxRead := some 1 } })).sink.written =
          #[66, 66, 66, 65] := by decide +kernel
  have hwhole : outcome (unpack [] (some 4) 4
      { s with source := { data := data.extract 0 8, maxRead := some 1 } }) = .ok 4 := by
    decide +kernel
  obtain ⟨-, -, hwithin, hmessage⟩ :=
    unpack_fault (s := s) hm rfl ha (some 4) (k := 4) (by decide) data 6 e
  obtain ⟨-, hbehind, -, -⟩ := unpack_fault (s := s) hm rfl ha (some 4) (k := 4) (by decide) data 8 e
  obtain ⟨hwritten, hfailing⟩ := hwithin (by decide)
  rw [hcut.1] at hfailing
  obtain ⟨hout, t, source₁, hread, hadded⟩ := hfailing
  refine ⟨⟨hm, rfl, ha, by decide, by decide, by decide⟩,
    ⟨hout, (hmessage _).2.trans (by decide +kernel), hwritten.trans hcut.2, (hadded.of_zero rfl).trans ?_⟩,
    (hbehind (by decide)).outcome.trans hwhole⟩
  obtain ⟨counts, symbols, rfl, hparse⟩ := Tree.parse_of_read hm hread
  have hheader : Header.parse ([] ++ ({ data := data.extract 0 6, maxRead := some 1 } : Source).upcoming) =
      .ok ([1, 0], [65, 66], [0x02]) := by decide
  rw [hheader, Except.ok.injEq, Prod.mk.injEq, Prod.mk.injEq] at hparse
  obtain ⟨rfl, rfl, -⟩ := hparse
  rfl

end Unpack

end PackFormat
