import PackFormat.CommandLine.Run
import PackFormat.Proofs.Acceptance
import PackFormat.Proofs.CommandLine.Arguments
import PackFormat.Proofs.CommandLine.System
import PackFormat.Proofs.Safety

/-!
# Unpacking one file into another

A run on two plain names opens the input, empties the output, and then unpacks what is left
of the one into the other. So a missing input is left alone, and an input that is its own
output is lost.

* `attempt_eq`: an attempt is `unpack` and says what that comes to.
* `run_missing`, `run_opened`: a run whose input is missing, and one that opens both files.
* `run_unpacks`: **the status, what is printed, and what is in the files afterwards.**
-/

namespace PackFormat.CommandLine

/-- **A report of a failure**: a line on what went wrong, and nothing else printed. -/
structure Report.Failed (r : Report) : Prop where
  exit : r.exit = .ok 1
  stdout : r.stdout = ""
  stderr : r.stderr ≠ ""

/-- A file to read, an empty one to write, and totals. -/
def fileStreams (bytes : List UInt8) : Streams :=
  { source := { data := bytes.toArray }, stats := some {} }

/-- **Unpacking the bytes of a file.** -/
def unpackFile (bytes : List UInt8) (k : ℤ) : EStateM.Result Failure Streams ℕ :=
  unpack [] none k (fileStreams bytes)

/-- **What is printed about a file unpacked in chunks of some bytes.** What is taken for it are its header
and the bytes up to the last bit of the stop code. -/
structure Report.Tells (report : Report) (output : String) (bytes : List UInt8) (k : ℤ) : Prop where
  exit_ok : report.exit = .ok 0 ↔ ∃ n, outcome (unpackFile bytes k) = .ok n ∧ 0 < n
  told : ∀ n, outcome (unpackFile bytes k) = .ok n → 0 < n →
    report.stderr = "" ∧ ∃ t source' slots rest,
      Tree.read [] none { data := bytes.toArray } = .ok t source' ∧
        t.Factors (bitsOf source'.upcoming) slots rest ∧ slots.length = n ∧
        (final (unpackFile bytes k)).sink.written.toList = slots.map t.symbolAt ∧
        report.stdout = "[unpack] wrote " ++ output ++ " size=" ++ toString n ++ " (" ++
          toString (n / 1024) ++ "KB) read=" ++
          toString (1 + t.levels + t.symbols.length + ((t.payloadLength slots + 7) / 8 : ℕ)) ++ "B\n"
  failed : report.exit ≠ .ok 0 → report.Failed
  empty : outcome (unpackFile bytes k) = .ok 0 → (final (unpackFile bytes k)).sink.written = #[]

/-- **What becomes of a file to be unpacked in chunks of no bytes.** A good header brings the program
down. -/
structure Report.Refuses (report : Report) (bytes : List UInt8) (k : ℤ) : Prop where
  empty : (final (unpackFile bytes k)).sink.written = #[]
  badValue : (∃ f, report.exit = .error f ∧ f.kind = .badValue) ↔
    ∃ t source', Tree.read [] none { data := bytes.toArray } = .ok t source'
  failed : (¬ ∃ t source', Tree.read [] none { data := bytes.toArray } = .ok t source') → report.Failed

section Attempt

variable {k : ℤ} {f : Failure}

theorem failed_reported (notes cause : String) : (reported notes cause).Failed :=
  ⟨rfl, rfl, by simp [reported]⟩

/-- Failures of the format and of the system are reported. -/
theorem failed_ofFailure (notes : String) (h : f.kind.isDecodeFailure = true) :
    (ofFailure notes f).Failed := by
  rw [ofFailure, if_pos h]
  exact failed_reported notes f.message

/-- Chunks that are not too large can be read from a file, where there is room for them. -/
theorem refusal_of_le (hk : k ≤ 2 ^ 30) {room : Option ℤ} (hroom : ∀ m ∈ room, k + byteStringHead ≤ m) :
    (Medium.file room).refusal k = none := by
  have hindex : ¬ maxIndex < k := by unfold maxIndex; omega
  have hstring : ¬ maxIndex < k + byteStringHead := by unfold maxIndex byteStringHead; omega
  have hmemory : room.any (· < k + byteStringHead) = false := by
    cases room with
    | none => rfl
    | some m =>
      have hm := hroom m rfl
      exact decide_eq_false (by omega)
  simp [Medium.refusal, hindex, hstring, hmemory]

/-- **What is printed about an unpacked file**, with the name that the output goes by. How many bytes
were received is not. -/
def reportOn (output : String) : EStateM.Result Failure Streams ℕ → Report
  | .error f _ => ofFailure "" f
  | .ok n s => ofDecoded "" output ⟨n, 0⟩ ((s.stats.map (·.bytesIn)).getD 0)

/-- **An attempt is unpacking**, as far as its report and its output go. -/
theorem attempt_eq (input output : String) (hk : k ≤ 2 ^ 30) {room : Option ℤ}
    (hroom : ∀ m ∈ room, k + byteStringHead ≤ m) (bytes : List UInt8) :
    let a := attempt room ⟨input, output, some k, false⟩ { data := bytes.toArray } {}
    a.report output = reportOn output (unpackFile bytes k) ∧
      a.written = (final (unpackFile bytes k)).sink.written := by
  have hdecode : ∀ t : Tree, decodeFile room t (some k) = t.decode k := by
    intro t
    rw [decodeFile, Medium.decode, refusal_of_le hk hroom]
  simp only [attempt, unpackFile, unpack, fileStreams]
  rcases hopen : openTree [] none { source := { data := bytes.toArray }, stats := some {} } with
    ⟨t, s⟩ | ⟨f, s⟩
  · rw [bind_of_ok hopen]
    simp only [hdecode]
    rcases hd : t.decode k s with ⟨d, s'⟩ | ⟨f, s'⟩
    · rw [bind_of_ok hd]
      exact ⟨rfl, rfl⟩
    · rw [bind_of_error hd]
      exact ⟨rfl, rfl⟩
  · rw [bind_of_error hopen]
    exact ⟨rfl, rfl⟩

end Attempt

section Run

variable (program : String) {input output text : String} {t : FileTree} {k : ℤ}

section Open

variable {α : Type} {name : String} {act : String → Except Refusal α} {a : α} {r : Refusal}

/-- A plain name has no null byte. -/
theorem usablePath_of_plain (h : PlainName name) : usablePath (some name) = .ok name := by
  rw [usablePath, if_neg (by simpa using h.noNull)]

theorem openPath_of_ok (h : PlainName name) (hact : act name = .ok a) :
    openPath act (some name) = .ok a := by
  simp only [openPath, usablePath_of_plain h, hact]

theorem openPath_of_error (h : PlainName name) (hact : act name = .error r) :
    openPath act (some name) = .error (ofFailure "" (.system (r.error name))) := by
  simp only [openPath, usablePath_of_plain h, hact]

end Open

variable (hin : PlainName input) (hout : PlainName output)
  (hinput : t.links.lookup (t.place input) = none)
  (htext : numeral? k = some text)

include hin hout hinput htext

/-- **A missing input is reported**, and nothing is touched. -/
theorem run_missing (hentry : t.entry (t.place input) = .absent) :
    (run program [input, output, "--chunk-size", text] t).1.Failed ∧
      (run program [input, output, "--chunk-size", text] t).2 = t := by
  have hopen := openPath_of_error hin (FileTree.find_of_absent hin hinput hentry)
  simp only [run, Invocation.parse_numeral hin.noMinus hout.noMinus htext, runOn, hopen, and_true]
  exact failed_ofFailure _ rfl

variable (houtput : t.links.lookup (t.place output) = none) (hk : k ≤ 2 ^ 30)
  (hmemory : ∀ m ∈ t.memory, k + byteStringHead ≤ m)
  (hcreate : (∃ bytes, t.entry (t.place output) = .file bytes) ∨
    t.entry (t.place output) = .absent ∧ t.closure (t.place output) = none)

include houtput hk hmemory hcreate

/-- **A run that opens both files**: the output is empty when the input is read. -/
theorem run_opened {bytes : List UInt8} (hentry : t.entry (t.place input) = .file bytes) :
    let r := unpackFile (if input = output then [] else bytes) k
    (run program [input, output, "--chunk-size", text] t).1 = reportOn output r ∧
      t.Holding (t.place output) (final r).sink.written.toList
        (run program [input, output, "--chunk-size", text] t).2 := by
  intro r
  have hfree : t.Free output := by
    rcases hcreate with ⟨old, hfile⟩ | ⟨habsent, -⟩
    · exact FileTree.free_of_entry (by rw [hfile]; exact nofun) fun d => by rw [hfile]; exact nofun
    · exact FileTree.free_of_entry (by rw [habsent]; exact nofun) fun d => by rw [habsent]; exact nofun
  -- the tree while both files are open
  have hopened := FileTree.holding_put hfree []
  have hfree' := hfree.put []
  generalize hplace : t.put (t.place output) [] = opened at hopened hfree'
  have hsame : opened.place output = t.place output := by
    rw [hopened.rest]
    rfl
  have hrefusal : opened.refusal (t.place output) = none := by
    rw [FileTree.refusal, ← hsame, hfree'.noDevice]
    rfl
  have hcontents : opened.contents (t.place input) = if input = output then [] else bytes := by
    by_cases heq : input = output
    · rw [if_pos heq, heq, hopened.contents]
    · have hne : t.place input ≠ t.place output := by simpa [FileTree.place] using heq
      rw [if_neg heq, hopened.contents_other hne, FileTree.contents, hentry]
  have hsource := openPath_of_ok hin (FileTree.find_of_file hin hinput hentry)
  have htarget := openPath_of_ok hout (FileTree.create_of_plain hout houtput hcreate)
  have hroom : opened.memory = t.memory := by rw [hopened.rest]
  obtain ⟨hreport, hwritten⟩ :=
    attempt_eq input output hk hmemory (if input = output then [] else bytes)
  simp only [run, Invocation.parse_numeral hin.noMinus hout.noMinus htext, runOn, hsource, htarget,
    hplace, hcontents, hroom, FileTree.sink, hrefusal, Option.map_none, Attempt.close, Option.getD_some]
  refine ⟨hreport, ?_⟩
  rw [hwritten]
  have hput := FileTree.holding_put hfree' (final r).sink.written.toList
  rw [hsame] at hput
  exact hopened.trans hput

end Run

section Report

variable {bytes : List UInt8} {k : ℤ} {n : ℕ} {s : Streams}

/-- A file that is read does not fail. -/
theorem clean_file (bytes : List UInt8) : ({ data := bytes.toArray } : Source).Clean :=
  ⟨rfl, nofun⟩

/-- **What a file unpacks to**: a header, and words of slots. -/
theorem unpackFile_of_ok (hk : 1 ≤ k) (h : unpackFile bytes k = .ok n s) :
    ∃ t source' slots rest, Tree.read [] none { data := bytes.toArray } = .ok t source' ∧
      t.Factors (bitsOf source'.upcoming) slots rest ∧ slots.length = n ∧
      s.sink.written.toList = slots.map t.symbolAt ∧
      s.stats = some ⟨1 + t.levels + t.symbols.length + ((t.payloadLength slots + 7) / 8 : ℕ), n⟩ := by
  have hs := clean_file bytes
  obtain ⟨t, source', slots, rest, hread, hf⟩ := factors_of_unpack hs rfl hk h
  obtain ⟨hout, hwritten, hadded⟩ :=
    unpack_of_factors (s := fileStreams bytes) hs rfl hk hread hf
  obtain ⟨-, hsize, -, -⟩ := Tree.read_clean hs hread
  rw [← unpackFile, h] at hout hwritten hadded
  rw [Tree.settled_of_none hsize] at hout
  have hn : n = slots.length := Except.ok.inj hout
  refine ⟨t, source', slots, rest, hread, hf, hn.symm, ?_, ?_⟩
  · simpa [final, fileStreams] using congrArg Array.toList hwritten
  · rw [hn]
    exact hadded.of_zero rfl

/-- A file that cannot be unpacked in chunks of some bytes is reported. -/
theorem failed_of_unpackFile {f : Failure} (hk : 1 ≤ k) (h : unpackFile bytes k = .error f s)
    (output : String) : (reportOn output (unpackFile bytes k)).Failed := by
  have ha : ([] : List UInt8).length ≤ 1 := Nat.zero_le 1
  have hforeseen : Foreseen none none (unpackFile bytes k) :=
    unpack_foreseen systemOnly_none systemOnly_none ha none hk
  rw [h] at hforeseen ⊢
  exact failed_ofFailure "" (hforeseen f rfl).isDecodeFailure

/-- And one with a bad header, whatever the chunks are. -/
theorem failed_of_read_error {source' : Source} {f : Failure}
    (h : Tree.read [] none { data := bytes.toArray } = .error f source') (output : String) (k : ℤ) :
    (reportOn output (unpackFile bytes k)).Failed ∧ (final (unpackFile bytes k)).sink.written = #[] := by
  have ha : ([] : List UInt8).length ≤ 1 := Nat.zero_le 1
  have hforeseen : f.Foreseen none none f.kind :=
    (Tree.refusal_of_read ha h).foreseen systemOnly_none
  rw [unpackFile, unpack_of_error (s := fileStreams bytes) h]
  exact ⟨failed_ofFailure "" hforeseen.isDecodeFailure, rfl⟩

/-- An empty file has no header. -/
theorem failed_of_nil (output : String) (k : ℤ) :
    (reportOn output (unpackFile [] k)).Failed ∧ (final (unpackFile [] k)).sink.written = #[] := by
  have hread : outcome (Tree.read [] none { data := ([] : List UInt8).toArray }) =
      .error (.truncated "pack header") := by decide +kernel
  exact failed_of_read_error (eq_error_of_outcome hread) output k

/-- **What is printed about a file**, in chunks of some bytes. -/
theorem tells_reportOn (hk : 1 ≤ k) (output : String) (bytes : List UInt8) :
    (reportOn output (unpackFile bytes k)).Tells output bytes k := by
  cases hr : unpackFile bytes k with
  | ok n s =>
    obtain ⟨t, source', slots, rest, hread, hf, hslots, hwritten, hstats⟩ := unpackFile_of_ok hk hr
    rcases Nat.eq_zero_or_pos n with rfl | hpos
    · have hfailed : (reportOn output (.ok 0 s)).Failed := ⟨rfl, rfl, by simp [reportOn, ofDecoded]⟩
      refine ⟨?_, ?_, fun _ => hfailed, fun _ => ?_⟩
      · rw [hr, hfailed.exit]
        exact ⟨nofun, fun ⟨n, hn, hpos⟩ => absurd (Except.ok.inj hn) hpos.ne⟩
      · intro n hn hpos
        rw [hr] at hn
        exact absurd (Except.ok.inj hn) hpos.ne
      · rw [List.length_eq_zero_iff.1 hslots] at hwritten
        rw [hr]
        exact Array.toList_inj.1 hwritten
    · have hreport : reportOn output (.ok n s) =
          { exit := .ok 0,
            stdout := wrote output n
              (1 + t.levels + t.symbols.length + ((t.payloadLength slots + 7) / 8 : ℕ)) } := by
        simp only [reportOn, ofDecoded, hstats, Option.map_some, Option.getD_some, if_neg hpos.ne']
      rw [hreport]
      refine ⟨?_, ?_, fun hne => absurd rfl hne, ?_⟩
      · rw [hr]
        exact ⟨fun _ => ⟨n, rfl, hpos⟩, fun _ => rfl⟩
      · intro n' hn _
        rw [hr] at hn ⊢
        cases hn
        exact ⟨rfl, t, source', slots, rest, hread, hf, hslots, hwritten, rfl⟩
      · intro hn
        rw [hr] at hn
        cases hn
        exact absurd hpos (lt_irrefl 0)
  | error f s =>
    have hfailed := failed_of_unpackFile hk hr output
    rw [hr] at hfailed
    refine ⟨?_, ?_, fun _ => hfailed, ?_⟩
    · rw [hr, hfailed.exit]
      exact ⟨nofun, fun ⟨n, hn, _⟩ => nomatch hn⟩
    · rw [hr]
      exact nofun
    · rw [hr]
      exact nofun

/-- **And in chunks of none.** -/
theorem refuses_reportOn (hk : k < 1) (output : String) (bytes : List UInt8) :
    (reportOn output (unpackFile bytes k)).Refuses bytes k := by
  cases hread : Tree.read [] none { data := bytes.toArray } with
  | ok t source' =>
    obtain ⟨hout, hfinal⟩ :=
      unpack_of_ok (s := fileStreams bytes) hread k
    rw [Tree.decode_of_lt hk] at hout hfinal
    have hr : unpackFile bytes k = .error .chunkSizeNotPositive (final (unpackFile bytes k)) :=
      eq_error_of_outcome hout
    refine ⟨?_, ⟨fun _ => ⟨t, source', hread⟩, fun _ => ⟨.chunkSizeNotPositive, ?_, rfl⟩⟩, fun hbad => ?_⟩
    · rw [unpackFile, hfinal]
      rfl
    · rw [hr]
      rfl
    · exact absurd ⟨t, source', hread⟩ hbad
  | error f source' =>
    obtain ⟨hfailed, hwritten⟩ := failed_of_read_error hread output k
    refine ⟨hwritten, ⟨?_, ?_⟩, fun _ => hfailed⟩
    · rintro ⟨f', hexit, -⟩
      rw [hfailed.exit] at hexit
      cases hexit
    · rintro ⟨t, source₁, hgood⟩
      rw [hread] at hgood
      cases hgood

end Report

/-- **A run on two plain names and a chunk size**, of a gibibyte at most and with memory for it. A missing
input is reported, and nothing changes. Otherwise the output holds what unpacking the input wrote, and
no other file changes. The report says how many bytes that is and how many were taken for it, or that
something went wrong, which it also says when there is nothing to write. In chunks of no bytes, a good
header brings the program down. An input that is its own output is lost. -/
theorem run_unpacks (program : String) {input output text : String} {t : FileTree} {k : ℤ}
    (hin : PlainName input) (hout : PlainName output)
    (hinput : t.links.lookup (t.place input) = none)
    (houtput : t.links.lookup (t.place output) = none)
    (hcreate : (∃ old, t.entry (t.place output) = .file old) ∨
      t.entry (t.place output) = .absent ∧ t.closure (t.place output) = none)
    (htext : numeral? k = some text) (hk : k ≤ 2 ^ 30)
    (hmemory : ∀ m ∈ t.memory, k + byteStringHead ≤ m) :
    let report := (run program [input, output, "--chunk-size", text] t).1
    let t' := (run program [input, output, "--chunk-size", text] t).2
    (t.entry (t.place input) = .absent → report.Failed ∧ t' = t) ∧
      ∀ bytes, t.entry (t.place input) = .file bytes →
        (input = output → report.Failed ∧ t.Holding (t.place output) [] t') ∧
        (input ≠ output →
          t.Holding (t.place output) (final (unpackFile bytes k)).sink.written.toList t' ∧
            (1 ≤ k → report.Tells output bytes k) ∧ (k < 1 → report.Refuses bytes k)) := by
  intro report t'
  refine ⟨run_missing program hin hout hinput htext, fun bytes hentry => ?_⟩
  obtain ⟨hreport, hholding⟩ :=
    run_opened program hin hout hinput htext houtput hk hmemory hcreate hentry
  refine ⟨fun heq => ?_, fun hne => ?_⟩
  · obtain ⟨hfailed, hwritten⟩ := failed_of_nil output k
    rw [if_pos heq] at hreport hholding
    rw [hwritten] at hholding
    exact ⟨by rwa [← hreport] at hfailed, hholding⟩
  · rw [if_neg hne] at hreport hholding
    simp only [report]
    rw [hreport]
    exact ⟨hholding, fun hpos => tells_reportOn hpos output bytes, fun hlt =>
      refuses_reportOn hlt output bytes⟩

/-- Four bytes from one file to another on a usual system, no bytes at a time, and a file onto itself. -/
theorem run_unpacks_four_bytes :
    let t := FileTree.ofWorking [] [(["a"], [2, 1, 0, 65, 66, 0x02, 0x80])]
    (PlainName "a" ∧ PlainName "b" ∧ t.links.lookup (t.place "a") = none ∧
        t.links.lookup (t.place "b") = none ∧ t.entry (t.place "b") = .absent ∧
        t.closure (t.place "b") = none ∧ numeral? 4 = some "4" ∧ numeral? (-1) = some "-1" ∧
        ∀ m ∈ t.memory, 4 + byteStringHead ≤ m) ∧
      (let (report, t') := run "unpack" ["a", "b", "--chunk-size", "4"] t
       report.exit = .ok 0 ∧ report.stdout = "[unpack] wrote b size=4 (0KB) read=7B\n" ∧
         report.stderr = "" ∧ t'.entry (t.place "b") = .file [66, 66, 66, 65]) ∧
      (let (report, t') := run "unpack" ["a", "b", "--chunk-size", "-1"] t
       t'.entry (t.place "b") = .file [] ∧ ∃ f, report.exit = .error f ∧ f.kind = .badValue) ∧
      let (report, t') := run "unpack" ["a", "a", "--chunk-size", "4"] t
      report.exit = .ok 1 ∧ report.stdout = "" ∧ t'.entry (t.place "a") = .file [] := by
  have hrun : outcome (unpackFile [2, 1, 0, 65, 66, 0x02, 0x80] 4) = .ok 4 ∧
      (final (unpackFile [2, 1, 0, 65, 66, 0x02, 0x80] 4)).sink.written = #[66, 66, 66, 65] ∧
      (final (unpackFile [2, 1, 0, 65, 66, 0x02, 0x80] 4)).stats = some ⟨7, 4⟩ := by
    decide +kernel
  have hgood : (outcome (Tree.read [] none
      { data := [2, 1, 0, 65, 66, 0x02, 0x80].toArray })).isOk = true := by decide +kernel
  intro t
  have ha : PlainName "a" := ⟨by decide, by decide, by decide, by decide, by decide, by decide, by decide⟩
  have hb : PlainName "b" := ⟨by decide, by decide, by decide, by decide, by decide, by decide, by decide⟩
  have hlink := FileTree.links_ofWorking [] [(["a"], [2, 1, 0, 65, 66, 0x02, 0x80])]
  have hentry : t.entry (t.place "a") = .file [2, 1, 0, 65, 66, 0x02, 0x80] :=
    FileTree.entry_ofWorking _ _ (by decide) (by decide)
  have habsent : t.entry (t.place "b") = .absent :=
    FileTree.entry_ofWorking _ _ (by decide) (by decide)
  have hclosure : t.closure (t.place "b") = none := FileTree.closure_ofWorking _ _ _
  have hmemory : ∀ {k : ℤ}, k ≤ 2 ^ 30 → ∀ m ∈ t.memory, k + byteStringHead ≤ m :=
    FileTree.memory_ofWorking _ _
  have hfour : numeral? 4 = some "4" := by decide +kernel
  have hminus : numeral? (-1) = some "-1" := by decide +kernel
  refine ⟨⟨ha, hb, hlink _, hlink _, habsent, hclosure, hfour, hminus, hmemory (by decide)⟩, ?_, ?_, ?_⟩
  · obtain ⟨hholding, htells, -⟩ := ((run_unpacks "unpack" ha hb (hlink _) (hlink _)
      (Or.inr ⟨habsent, hclosure⟩) hfour (by decide) (hmemory (by decide))).2 _ hentry).2 (by decide)
    have htold := htells (by decide)
    obtain ⟨hstderr, tree, source', slots, rest, hread, hf, -, -, hstdout⟩ :=
      htold.told 4 hrun.1 (by decide)
    -- the bytes that are told are those of the totals
    have htaken : 1 + tree.levels + tree.symbols.length + ((tree.payloadLength slots + 7) / 8 : ℕ) =
        (7 : ℤ) := by
      obtain ⟨-, -, hadded⟩ := unpack_of_factors (s := fileStreams _) (clean_file _) rfl
        (k := 4) (by decide) hread hf
      have htotals := (hadded.of_zero rfl).symm.trans hrun.2.2
      exact congrArg Stats.bytesIn (Option.some.inj htotals)
    rw [htaken] at hstdout
    rw [hrun.2.1] at hholding
    exact ⟨htold.exit_ok.2 ⟨4, hrun.1, by decide⟩, hstdout.trans (by decide +kernel), hstderr,
      hholding.self⟩
  · obtain ⟨hholding, -, hrefuses⟩ := ((run_unpacks "unpack" ha hb (hlink _) (hlink _)
      (Or.inr ⟨habsent, hclosure⟩) hminus (by decide) (hmemory (by decide))).2 _ hentry).2 (by decide)
    have hbad := hrefuses (by decide)
    rw [hbad.empty] at hholding
    refine ⟨hholding.self, hbad.badValue.2 ?_⟩
    cases h : Tree.read [] none { data := [2, 1, 0, 65, 66, 0x02, 0x80].toArray } with
    | ok tree source' => exact ⟨tree, source', rfl⟩
    | error f source' =>
      rw [h] at hgood
      cases hgood
  · obtain ⟨hfailed, hholding⟩ := ((run_unpacks "unpack" ha ha (hlink _) (hlink _)
      (Or.inl ⟨_, hentry⟩) hfour (by decide) (hmemory (by decide))).2 _ hentry).1 rfl
    exact ⟨hfailed.exit, hfailed.stdout, hholding.self⟩

end PackFormat.CommandLine
