import PackFormat.Proofs.Accounting

/-!
# Many payloads with one tree

A tree that is kept decodes one payload after the other, from any streams. Its size is all
that can change, and only once: the first payload that is decoded sets it, unless it was
known, and from then on no payload of another size is decoded.

* `Tree.after`: the tree after some calls.
* `Tree.after_of_size`: a tree whose size is known stays as it is.
* `Tree.run_again`: a payload that was decoded is decoded the same again.
* `Tree.decodeKept_session`: **any calls on one tree.**
-/

namespace PackFormat

/-- The sink was given `n` bytes. -/
def Streams.Wrote (s s' : Streams) (n : ℤ) : Prop :=
  ∃ out, s'.sink.written = s.sink.written ++ out ∧ (out.size : ℤ) = n

namespace Tree

variable {t : Tree} {s : Streams} {k : ℤ} {d : Decoded}

/-- A walk does not look at the size. -/
theorem scan_size (t : Tree) (size : Option ℤ) (c : Cursor) (symbols : Array UInt8) (used : ℕ)
    (bits : List Bool) :
    ({ t with size } : Tree).scan c symbols used bits = t.scan c symbols used bits := by
  induction bits generalizing c symbols used with
  | nil => rfl
  | cons b bits ih =>
    simp only [scan]
    rw [show ({ t with size } : Tree).step c b = t.step c b from rfl]
    cases t.step c b with
    | descend c => exact ih ..
    | symbol b => exact ih ..
    | stop => rfl
    | fail f => rfl

/-- **A payload that was decoded is decoded again** by a tree with its size, from any clean source that
begins with it. -/
theorem decode_again {bytes : List UInt8} {out : Array UInt8} {used : ℕ} {rest : List UInt8}
    (hscan : t.scan {} #[] 0 (bitsOf bytes) = ⟨out, used, .stopped⟩)
    (hsettled : t.settled out.size = .ok out.size) (hs : s.source.Clean) (hsink : s.sink.fault = none)
    (hk : 1 ≤ k) (hupcoming : s.source.upcoming = bytes ++ rest) :
    (outcome (t.decode k s)).map Decoded.size = .ok out.size ∧
      (final (t.decode k s)).sink.written = s.sink.written ++ out ∧
      s.Added (final (t.decode k s)) ((used + 7) / 8 : ℕ) out.size := by
  have hwhole : t.scan {} #[] 0 (bitsOf s.source.upcoming) = ⟨out, used, .stopped⟩ := by
    rw [hupcoming, bitsOf_append, scan_append, hscan]
  have hverdict : t.verdict s.source.upcoming = ⟨.ok out.size, (used + 7) / 8, out.size⟩ := by
    rw [verdict_of_stopped hwhole, hsettled]
  have houtput : ∀ size, t.output size s.source.upcoming = out.toList := by
    intro size
    have hsymbols := t.symbols_scan {} #[] 0 (bitsOf s.source.upcoming)
    rw [hwhole] at hsymbols
    rw [output, hwhole]
    simpa using (congrArg Array.toList hsymbols).symm
  obtain ⟨hout, hadded, hwritten⟩ := t.decode_clean hs hsink hk
  rw [hverdict] at hout hadded
  rw [houtput] at hwritten
  exact ⟨hout, hwritten.trans (Array.toList_inj.1 (by simp)), hadded⟩

/-- A call on a tree that is kept. -/
structure Call where
  streams : Streams
  chunkSize : ℤ

/-- What a call comes to. -/
def Call.run (x : Call) (t : Tree) : EStateM.Result Failure (Tree × Streams) Decoded :=
  decodeKept x.chunkSize (t, x.streams)

/-- **The tree after some calls**, one after the other. -/
def after (t : Tree) (calls : List Call) : Tree := calls.foldl (fun t x => (final (x.run t)).1) t

/-- **A call that another one repeats**: the same data from the same position, between streams that do
not fail. -/
structure Call.Repeats (y x : Call) : Prop where
  data : y.streams.source.data = x.streams.source.data
  pos : y.streams.source.pos = x.streams.source.pos
  clean : y.streams.source.Clean
  silentAt : y.streams.source.silentAt = none
  sink : y.streams.sink.fault = none
  chunkSize : 1 ≤ y.chunkSize

variable {x y : Call} {calls : List Call} {f : Failure} {m : ℤ}

/-- **A call that fails leaves the tree as it is.** -/
theorem tree_of_run_error (h : outcome (x.run t) = .error f) : (final (x.run t)).1 = t := by
  obtain ⟨hout, -, htree⟩ := t.decodeKept_eq x.chunkSize x.streams
  have hdecode : outcome (t.decode x.chunkSize x.streams) = .error f := hout ▸ h
  rw [hdecode] at htree
  exact htree

/-- **A call that decodes sets the size**, if that was not known, and it was no other. -/
theorem tree_of_run_ok (h : outcome (x.run t) = .ok d) :
    (final (x.run t)).1 = { t with size := some (d.size : ℤ) } ∧
      (t.size = none ∨ t.size = some (d.size : ℤ)) ∧ 1 ≤ x.chunkSize ∧
      ∃ bytes out used, d.size = out.size ∧
        t.DecodesTo x.streams bytes out used (final (x.run t)).2 := by
  obtain ⟨hout, hstreams, htree⟩ := t.decodeKept_eq x.chunkSize x.streams
  have hdecode : outcome (t.decode x.chunkSize x.streams) = .ok d := hout ▸ h
  obtain ⟨hk, bytes, out, used, hsize, hdecodes⟩ := decodesTo_of_decode hdecode
  rw [hdecode] at htree
  rw [← hstreams] at hdecodes
  refine ⟨htree, ?_, hk, bytes, out, used, hsize, hdecodes⟩
  rw [hsize]
  exact size_of_settled hdecodes.settled

/-- **A tree whose size is known stays as it is**, through any calls. -/
theorem after_of_size (h : t.size = some m) (calls : List Call) : t.after calls = t := by
  induction calls with
  | nil => rfl
  | cons x calls ih =>
    have hsame : (final (x.run t)).1 = t := by
      cases hrun : outcome (x.run t) with
      | error f => exact tree_of_run_error hrun
      | ok d =>
        obtain ⟨htree, hsize, -⟩ := tree_of_run_ok hrun
        rw [h] at hsize
        rcases hsize with hsize | hsize
        · cases hsize
        · rw [htree, ← hsize, ← h]
    change (final (x.run t)).1.after calls = t
    rw [hsame]
    exact ih

/-- **A tree after calls** differs in its size at most, which was not known before. -/
theorem after_cases (t : Tree) (calls : List Call) :
    t.after calls = t ∨ ∃ n : ℕ, t.size = none ∧ t.after calls = { t with size := some (n : ℤ) } := by
  induction calls with
  | nil => exact Or.inl rfl
  | cons x calls ih =>
    change (final (x.run t)).1.after calls = t ∨
      ∃ n : ℕ, t.size = none ∧ (final (x.run t)).1.after calls = { t with size := some (n : ℤ) }
    cases hrun : outcome (x.run t) with
    | error f =>
      rw [tree_of_run_error hrun]
      exact ih
    | ok d =>
      obtain ⟨htree, hsize, -⟩ := tree_of_run_ok hrun
      rw [htree, after_of_size rfl]
      rcases hsize with hsize | hsize
      · exact Or.inr ⟨d.size, hsize, rfl⟩
      · left
        rw [← hsize]

/-- **What was decoded is decoded the same again**, after any calls. -/
theorem run_again (h : outcome (x.run t) = .ok d) (hy : y.Repeats x) (calls : List Call) :
    ∃ d' out, ∃ bytesIn : ℕ,
      outcome (y.run ((final (x.run t)).1.after calls)) = .ok d' ∧ d'.size = d.size ∧
        (final (x.run t)).2.sink.written = x.streams.sink.written ++ out ∧
        (final (y.run ((final (x.run t)).1.after calls))).2.sink.written =
          y.streams.sink.written ++ out ∧
        x.streams.Added (final (x.run t)).2 bytesIn d.size ∧
        y.streams.Added (final (y.run ((final (x.run t)).1.after calls))).2 bytesIn d.size := by
  obtain ⟨htree, -, -, bytes, out, used, hsize, hdecodes⟩ := tree_of_run_ok h
  -- the tree is the same but for its size, which is known
  have hafter : (final (x.run t)).1.after calls = { t with size := some (d.size : ℤ) } := by
    rw [htree, after_of_size rfl]
  rw [hafter]
  have hscan : ({ t with size := some (d.size : ℤ) } : Tree).scan {} #[] 0 (bitsOf bytes) =
      ⟨out, used, .stopped⟩ := (t.scan_size _ _ _ _ _).trans hdecodes.scan
  have hsettled : ({ t with size := some (d.size : ℤ) } : Tree).settled out.size = .ok out.size :=
    settled_of_size (by rw [hsize])
  -- and what the first call read is what the second one begins with
  obtain ⟨rest, hrest⟩ := hdecodes.gave.front
  have hupcoming : y.streams.source.upcoming = bytes ++ rest := by
    rw [Source.upcoming_of_open hy.clean.fault hy.silentAt, hy.data, hy.pos, hrest]
  obtain ⟨hout, hwritten, hadded⟩ :=
    decode_again hscan hsettled hy.clean hy.sink hy.chunkSize hupcoming
  obtain ⟨hout', hstreams', -⟩ :=
    ({ t with size := some (d.size : ℤ) } : Tree).decodeKept_eq y.chunkSize y.streams
  rw [← hout'] at hout
  rw [← hstreams'] at hwritten hadded
  have haddedx := hdecodes.added
  rw [← hsize] at hout hadded haddedx
  cases hrun : outcome (decodeKept y.chunkSize ({ t with size := some (d.size : ℤ) }, y.streams)) with
  | error f =>
    rw [hrun] at hout
    cases hout
  | ok d' =>
    rw [hrun] at hout
    have hsame : d'.size = d.size := Except.ok.inj hout
    exact ⟨d', out, (used + 7) / 8, hrun, hsame, hdecodes.written, hwritten, haddedx, hadded⟩

/-- **Any calls on one tree**, from any streams. The tree keeps all but its size, and gets that once at
most. A call that fails changes nothing; one that decodes sets the size to the number of bytes that it
wrote, unless it was that already. Once the size is known the tree stays as it is, and later calls
fail, or decode and write just so many bytes. And a payload that was decoded is decoded again, to the
same bytes and with the same added to the totals. -/
theorem decodeKept_session (t : Tree) (before : List Call) (x : Call) :
    let t₁ := t.after before
    let r := x.run t₁
    (t₁ = t ∨ ∃ n : ℕ, t.size = none ∧ t₁ = { t with size := some (n : ℤ) }) ∧
      (∀ f, outcome r = .error f → (final r).1 = t₁) ∧
      (∀ d, outcome r = .ok d →
        (t₁.size = none ∨ t₁.size = some (d.size : ℤ)) ∧
          (final r).1 = { t₁ with size := some (d.size : ℤ) } ∧
          x.streams.Wrote (final r).2 d.size) ∧
      (∀ m, t₁.size = some m → ∀ later, t₁.after later = t₁ ∧
        ∀ (y : Call) d, outcome (y.run (t₁.after later)) = .ok d →
          (d.size : ℤ) = m ∧ y.streams.Wrote (final (y.run (t₁.after later))).2 m) ∧
      (∀ d, outcome r = .ok d → ∀ between (y : Call), y.Repeats x →
        let again := y.run ((final r).1.after between)
        ∃ d' out, ∃ bytesIn : ℕ, outcome again = .ok d' ∧ d'.size = d.size ∧
          (final r).2.sink.written = x.streams.sink.written ++ out ∧
          (final again).2.sink.written = y.streams.sink.written ++ out ∧
          x.streams.Added (final r).2 bytesIn d.size ∧
          y.streams.Added (final again).2 bytesIn d.size) := by
  intro t₁ r
  have hwrote : ∀ {y : Call} {t : Tree} {d : Decoded}, outcome (y.run t) = .ok d →
      y.streams.Wrote (final (y.run t)).2 d.size := by
    intro y t d hrun
    obtain ⟨-, -, -, bytes, out, used, hsize, hdecodes⟩ := tree_of_run_ok hrun
    exact ⟨out, hdecodes.written, by rw [hsize]⟩
  refine ⟨t.after_cases before, fun f hf => tree_of_run_error hf, ?_, ?_, ?_⟩
  · intro d hrun
    obtain ⟨htree, hsize, -⟩ := tree_of_run_ok hrun
    exact ⟨hsize, htree, hwrote hrun⟩
  · intro m hm later
    have hlater := after_of_size hm later
    refine ⟨hlater, ?_⟩
    intro y d hrun
    obtain ⟨-, hsize, -⟩ := tree_of_run_ok hrun
    rw [hlater, hm] at hsize
    rcases hsize with hsize | hsize
    · cases hsize
    · cases hsize
      exact ⟨rfl, hwrote hrun⟩
  · intro d hrun between y hy
    exact run_again hrun hy between

/-- A payload that ends too early, `AA`, a shorter payload, and `AA` again, byte by byte: both times one byte
is taken for two. -/
theorem decodeKept_session_again :
    let t := ofCounts [0] [65] none
    let short : Call := ⟨{}, 4⟩
    let x : Call := ⟨{ source := { data := #[0x20] }, stats := some {} }, 4⟩
    let other : Call := ⟨{ source := { data := #[0x40] } }, 4⟩
    let y : Call := ⟨{ source := { data := #[0x20], maxRead := some 1 }, stats := some ⟨10, 20⟩ }, 1⟩
    let again := y.run (t.after [short, x, other])
    y.Repeats x ∧ t.after [short] = t ∧
      (outcome (x.run (t.after [short])) = .ok ⟨2, 1⟩ ∧
        (final (x.run (t.after [short]))).2.stats = some ⟨1, 2⟩) ∧
      t.after [short, x, other] = { t with size := some 2 } ∧
      outcome (other.run (t.after [short, x])) = .error (.sizeMismatch 1 2) ∧
      (∃ d, outcome again = .ok d ∧ d.size = 2) ∧ (final again).2.stats = some ⟨11, 22⟩ := by
  have hshort : outcome (Call.run ⟨{}, 4⟩ (ofCounts [0] [65] none)) = .error (.noStop 0) := by
    decide +kernel
  have hx : outcome (Call.run ⟨{ source := { data := #[0x20] }, stats := some {} }, 4⟩
        (ofCounts [0] [65] none)) = .ok ⟨2, 1⟩ ∧
      (final (Call.run ⟨{ source := { data := #[0x20] }, stats := some {} }, 4⟩
        (ofCounts [0] [65] none))).2.stats = some ⟨1, 2⟩ := by decide +kernel
  have hother : outcome (Call.run ⟨{ source := { data := #[0x40] } }, 4⟩
      (ofCounts [0] [65] (some 2))) = .error (.sizeMismatch 1 2) := by decide +kernel
  intro t short x other y again
  have hy : y.Repeats x := ⟨rfl, rfl, ⟨rfl, by decide⟩, rfl, rfl, by decide⟩
  -- a call that fails changes nothing
  have hsame : t.after [short] = t := (decodeKept_session t [] short).2.1 _ hshort
  have hrun : outcome (x.run (t.after [short])) = .ok ⟨2, 1⟩ ∧
      (final (x.run (t.after [short]))).2.stats = some ⟨1, 2⟩ := by
    rw [hsame]
    exact hx
  obtain ⟨-, -, hdecoded, -, hagain⟩ := decodeKept_session t [short] x
  have hknown : t.after [short, x] = { t with size := some 2 } := by
    refine (hdecoded _ hrun.1).2.1.trans ?_
    rw [hsame]
    rfl
  have hrefused : outcome (other.run (t.after [short, x])) = .error (.sizeMismatch 1 2) := by
    rw [hknown]
    exact hother
  have hkept : t.after [short, x, other] = { t with size := some 2 } :=
    ((decodeKept_session t [short, x] other).2.1 _ hrefused).trans hknown
  -- what the first call added, the second one adds
  obtain ⟨d, out, bytesIn, hd, hsize, -, -, haddedx, hadded⟩ := hagain _ hrun.1 [other] y hy
  have hbytesIn : (bytesIn : ℤ) = 1 := by
    have htotals := (haddedx.of_zero rfl).symm.trans hrun.2
    simpa using htotals
  rw [hbytesIn] at hadded
  exact ⟨hy, hsame, hrun, hkept, hrefused, ⟨d, hd, hsize⟩, hadded⟩

end Tree

end PackFormat
