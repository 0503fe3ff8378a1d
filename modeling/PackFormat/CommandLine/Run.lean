import PackFormat.CommandLine.Arguments
import PackFormat.CommandLine.FileTree
import PackFormat.Medium
import PackFormat.Text.Lines

/-!
# A run of the program

The input is opened first, then the output is created, then the one is unpacked
into the other. A failure of the format or of the system is reported; any other
leaves the program.

* `attempt`: an opened file, unpacked or not.
* `Attempt.report`: what is printed about that.
* `run`: a run from its arguments on a file tree.
-/

namespace PackFormat.CommandLine

/-- What a run prints and how it ends: with a status, or with a failure that leaves the program. -/
structure Report where
  exit : Except Failure Nat
  stdout : String := ""
  stderr : String := ""

/-- The last line about what went wrong. -/
def Report.reason (r : Report) : String := lastLine r.stderr

/-- A list as the notes show it. -/
def shown (xs : List Int) : String := "[" ++ ", ".intercalate (xs.map toString) ++ "]"

/-- The note on a good header. -/
def treeNote (t : Tree) : String :=
  "DEBUG:huff_levels:pack tree: levels=" ++ toString t.levels ++ " leaves=" ++ shown t.leaves ++
    " inodes=" ++ shown t.interior ++ " symbols=" ++ toString t.symbols.length ++ "\n"

/-- The note on a decoded payload. -/
def payloadNote (d : Decoded) : String :=
  "DEBUG:codec_unpack:pack payload: " ++ toString d.received ++ " bytes in, " ++ toString d.size ++
    " bytes out\n"

/-- The last line on a run that failed. -/
def failed : String := "[unpack] decompression of the file failed"

/-- The line on a run that went well. -/
def wrote (output : String) (size : Nat) (bytesIn : Int) : String :=
  "[unpack] wrote " ++ output ++ " size=" ++ toString size ++ " (" ++ toString (size / 1024) ++
    "KB) read=" ++ toString bytesIn ++ "B\n"

/-- A cause, reported. -/
def reported (notes cause : String) : Report :=
  { exit := .ok 1, stderr := notes ++ "[unpack] " ++ cause ++ "\n" ++ failed ++ "\n" }

/-- **A failure is reported or leaves the program**, by its kind. -/
def ofFailure (notes : String) (f : Failure) : Report :=
  if f.kind.isDecodeFailure then reported notes f.message else { exit := .error f, stderr := notes }

/-- A decoded payload. An empty one counts as a failure. -/
def ofDecoded (notes output : String) (d : Decoded) (bytesIn : Int) : Report :=
  if d.size = 0 then { exit := .ok 1, stderr := notes ++ failed ++ ": empty output\n" }
  else { exit := .ok 0, stdout := wrote output d.size bytesIn, stderr := notes }

/-- Decodes the payload of a file, with some room for a chunk. -/
def decodeFile (room : Option Int) (t : Tree) : Option Int → EStateM Failure Streams Decoded
  | none => throw .noChunkSize
  | some size => (Medium.file room).decode t size

/-- An opened file that was unpacked, or not. -/
structure Attempt where
  notes : String
  result : Except Failure Decoded
  streams : Streams

/-- **Unpacks an opened file**, with some room for a chunk. -/
def attempt (room : Option Int) (i : Invocation) (source : Source) (sink : Sink) : Attempt :=
  match openTree [] none { source, sink, stats := some {} } with
  | .error f s => ⟨"", .error f, s⟩
  | .ok t s =>
    let notes := if i.verbose then treeNote t else ""
    match decodeFile room t i.chunkSize s with
    | .error f s => ⟨notes, .error f, s⟩
    | .ok d s => ⟨if i.verbose then notes ++ payloadNote d else notes, .ok d, s⟩

namespace Attempt

/-- What was written. -/
def written (a : Attempt) : Array UInt8 := a.streams.sink.written

/-- **Closes what was written to.** Bytes that are refused then count for more than whatever came
before. -/
def close (refusal : Option SystemError) (a : Attempt) : Attempt :=
  match refusal with
  | some e => if a.written.isEmpty then a else { a with result := .error (.system e) }
  | none => a

/-- What is printed, with the name that the output goes by. -/
def report (output : String) (a : Attempt) : Report :=
  match a.result with
  | .error f => ofFailure a.notes f
  | .ok d => ofDecoded a.notes output d ((a.streams.stats.map (·.bytesIn)).getD 0)

end Attempt

/-- A run that never came to decoding. -/
def ofHalt (program : String) : Halt → Report
  | .help => { exit := .ok 0 }
  | .misuse m => { exit := .ok 2, stderr := program ++ ": error: " ++ m.message ++ "\n" }

/-- A path that can be opened. None has a null byte. -/
def usablePath : Option String → Except Failure String
  | none => .error .noPath
  | some path => if path.toList.contains '\x00' then .error .nullInPath else .ok path

/-- Opens a file in some way. -/
def openPath {α : Type} (act : String → Except Refusal α) (path : Option String) :
    Except Report α :=
  match usablePath path with
  | .error f => .error (ofFailure "" f)
  | .ok path =>
    match act path with
    | .error r => .error (ofFailure "" (.system (r.error path)))
    | .ok a => .ok a

/-- A run on a file tree. The input is read after the output is created, which matters if they are
one file. -/
def runOn (i : Invocation) (t : FileTree) : Report × FileTree :=
  match openPath t.find i.input with
  | .error r => (r, t)
  | .ok source =>
    match openPath t.create i.output with
    | .error r => (r, t)
    | .ok (target, t) =>
      let a := attempt t.memory i { data := (t.contents source).toArray } (t.sink target)
      let a := a.close (t.refusal target)
      (a.report (i.output.getD ""), t.put target a.written.toList)

/-- **A run from its arguments.** -/
def run (program : String) (arguments : List String) (t : FileTree) : Report × FileTree :=
  match Invocation.parse arguments with
  | .error h => (ofHalt program h, t)
  | .ok i => runOn i t

end PackFormat.CommandLine
