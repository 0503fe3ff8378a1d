import PackFormat.CommandLine.Run

/-!
# The program

Opens the files that the arguments name, hands them to `CommandLine.attempt`, and
prints what that says.
-/

namespace PackFormat.CommandLine

/-- An error of the system, by its number and its words. -/
def systemError : IO.Error → SystemError
  | .alreadyExists _ number text | .interrupted _ number text | .noFileOrDirectory _ number text
  | .invalidArgument _ number text | .permissionDenied _ number text
  | .resourceExhausted _ number text | .inappropriateType _ number text
  | .noSuchThing _ number text | .otherError number text | .resourceBusy number text
  | .resourceVanished number text | .unsupportedOperation number text | .hardwareFault number text
  | .unsatisfiedConstraints number text | .illegalOperation number text
  | .protocolError number text | .timeExpired number text => ⟨some number.toNat, text⟩
  | .userError text => ⟨none, text⟩
  | .unexpectedEof => ⟨none, "end of file"⟩

/-- Opens a file. A directory cannot be opened, not even to read it. -/
def openFile (mode : IO.FS.Mode) (path : Option String) : IO (Except Report IO.FS.Handle) := do
  match usablePath path with
  | .error f => return .error (ofFailure "" f)
  | .ok path =>
    let refuse (e : SystemError) : Except Report IO.FS.Handle := .error (ofFailure "" (.system e))
    let isDirectory ←
      try
        discard <| IO.FS.Handle.mk (path ++ "/.") .read
        pure (path != "")
      catch _ => pure false
    if isDirectory then return refuse (Refusal.isDirectory.error path)
    try return .ok (← IO.FS.Handle.mk path mode)
    catch e =>
      let e := systemError e
      return refuse { e with text := e.text ++ ": " ++ quoted path }

/-- A file that is read from its start to its end. -/
def sourceOf (input : IO.FS.Handle) : IO Source := do
  try return { data := (← input.readBinToEnd).data }
  catch e => return { fault := some ⟨0, .system (systemError e)⟩ }

/-- Runs what arguments ask for. -/
def perform (i : Invocation) : IO Report := do
  match ← openFile .read i.input with
  | .error r => return r
  | .ok input =>
    match ← openFile .write i.output with
    | .error r => return r
    | .ok output =>
      let a := attempt none i (← sourceOf input) {}
      let report (a : Attempt) : Report := a.report (i.output.getD "")
      try
        output.write ⟨a.written⟩
        output.flush
        return report a
      catch e => return report (a.close (systemError e))

/-- How the program is used. -/
def usage : String :=
  "usage: unpack [-h] [--chunk-size CHUNK_SIZE] [-v] input output\n"

end PackFormat.CommandLine

open PackFormat.CommandLine in
/-- **Decompresses a packed file.** -/
def main (arguments : List String) : IO UInt32 := do
  let r ← match Invocation.parse arguments with
    | .error .help => pure { exit := .ok 0, stdout := usage }
    | .error h => pure (ofHalt "unpack" h)
    | .ok i => perform i
  IO.print r.stdout
  IO.eprint r.stderr
  match r.exit with
  | .ok status => return status.toUInt32
  | .error f =>
    IO.eprintln f.message
    return 1
