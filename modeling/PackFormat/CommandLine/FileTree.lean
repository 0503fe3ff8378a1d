import PackFormat.Sink
import PackFormat.Text.Quoted

/-!
# Files and directories

A file tree knows files, directories, devices and links by the names that lead to
them from the root. Every name that leads on is a directory, listed or not. One
directory is the working directory, where a path starts unless it starts at the root.
A device stands among the files and keeps nothing: what is written to it is lost or
refused, and what it gives does not depend on that.

* `FileTree.resolve`: where a path leads, name by name and link by link.
* `FileTree.find`: the file or the device that a path leads to.
* `FileTree.create`: an empty file where a path leads, whatever was in it.
* `Refusal`: why neither may be possible.
-/

namespace PackFormat.CommandLine

/-- Why a path does not lead to a file. -/
inductive Refusal
  | notFound
  | notDirectory
  | isDirectory
  | nameTooLong
  | noDevice
  | notPermitted
  | tooManyLinks
deriving DecidableEq, Repr

/-- The system's number and words for a refusal. -/
def Refusal.describe : Refusal → Int × String
  | notFound => (2, "No such file or directory")
  | notDirectory => (20, "Not a directory")
  | isDirectory => (21, "Is a directory")
  | nameTooLong => (36, "File name too long")
  | noDevice => (6, "No such device or address")
  | notPermitted => (13, "Permission denied")
  | tooManyLinks => (40, "Too many levels of symbolic links")

/-- The system error for a refused path. -/
def Refusal.error (path : String) (r : Refusal) : SystemError :=
  { number := some r.describe.1, text := r.describe.2 ++ ": " ++ quoted path }

/-- **A device.** -/
structure Device where
  /-- What a run gets to read. -/
  bytes : List UInt8 := []
  /-- Why it cannot be opened, if it cannot. -/
  closed : Option Refusal := none
  /-- Why what is written does not arrive, if it does not. -/
  refusal : Option SystemError := none
deriving DecidableEq, Repr

/-- The names that lead from the root to a file or a directory. -/
abbrev Location := List String

/-- What is at a location. -/
inductive Entry
  | directory
  | device (device : Device)
  | file (bytes : List UInt8)
  | absent
deriving DecidableEq, Repr

/-- **Files and directories**, and the memory that files are read into. -/
structure FileTree where
  working : Location := []
  directories : List Location := []
  devices : List (Location × Device) := []
  /-- Where each link leads, which is never to a link. -/
  links : List (Location × Location) := []
  /-- Why nothing can be created below a location. -/
  closed : List (Location × Refusal) := []
  files : List (Location × List UInt8) := []
  /-- The memory for a chunk, if that is limited. -/
  memory : Option Int := none
deriving Repr

/-- A text cut at its slashes. -/
def cutAtSlashes : List Char → List (List Char)
  | [] => [[]]
  | c :: rest =>
    if c = '/' then [] :: cutAtSlashes rest
    else
      match cutAtSlashes rest with
      | [] => [[c]]
      | name :: more => (c :: name) :: more

/-- The names in a path, an empty one wherever a slash has none beside it. -/
def names (path : String) : List String := (cutAtSlashes path.toList).map .ofList

/-- The most bytes a name may have. -/
def maxName : Nat := 255

/-- A path has to have fewer bytes than this. -/
def maxPath : Nat := 4096

/-- The most links that a path may lead through. -/
def maxLinks : Nat := 40

/-- The bytes that wait before they go to a device. -/
def bufferSize : Nat := 4096

namespace FileTree

/-- Whatever is listed as a directory, and whatever a listed name leads through. -/
def isDirectory (t : FileTree) (l : Location) : Bool :=
  (t.working :: t.directories).any l.isPrefixOf ||
    (t.devices.map (·.1) ++ t.links.map (·.1) ++ t.files.map (·.1)).any fun l' =>
      l.isPrefixOf l' && l ≠ l'

/-- **What is at a location.** -/
def entry (t : FileTree) (l : Location) : Entry :=
  if t.isDirectory l then .directory
  else
    match t.devices.lookup l with
    | some device => .device device
    | none =>
      match t.files.lookup l with
      | some bytes => .file bytes
      | none => .absent

/-- Where a path starts. -/
def start (t : FileTree) (path : String) : Location :=
  if path.toList.head? = some '/' then [] else t.working

/-- One name further, from a directory. An empty name stays there. -/
def enter (t : FileTree) (l : Location) (name : String) : Except Refusal Location :=
  match t.entry l with
  | .absent => .error .notFound
  | .file _ | .device _ => .error .notDirectory
  | .directory =>
    if name = "" ∨ name = "." then .ok l
    else if name = ".." then .ok l.dropLast
    else if maxName < name.utf8ByteSize then .error .nameTooLong
    else .ok (l ++ [name])

/-- A path that cannot lead anywhere. -/
def unusable (path : String) : Option Refusal :=
  if path = "" then some .notFound
  else if maxPath ≤ path.utf8ByteSize then some .nameTooLong
  else none

/-- **Where a path leads**, name by name from a location, through so many links at most. -/
def resolve (t : FileTree) (links : Nat) (l : Location) : List String → Except Refusal Location
  | [] => .ok l
  | name :: rest => do
    let l ← t.enter l name
    match t.links.lookup l, links with
    | none, _ => t.resolve links l rest
    | some _, 0 => .error .tooManyLinks
    | some target, links + 1 => t.resolve links target rest

/-- **The file or the device that a path leads to.** -/
def find (t : FileTree) (path : String) : Except Refusal Location :=
  match unusable path with
  | some r => .error r
  | none => do
    let l ← t.resolve maxLinks (t.start path) (names path)
    match t.entry l with
    | .directory => .error .isDirectory
    | .device device => device.closed.elim (.ok l) .error
    | .file _ => .ok l
    | .absent => .error .notFound

/-- What there is to read at a location. -/
def contents (t : FileTree) (l : Location) : List UInt8 :=
  match t.entry l with
  | .device device => device.bytes
  | .file bytes => bytes
  | .directory | .absent => []

/-- Puts a file at a location, unless a device is there. -/
def put (t : FileTree) (l : Location) (bytes : List UInt8) : FileTree :=
  if (t.devices.lookup l).isSome then t
  else { t with files := (l, bytes) :: t.files.filter (·.1 ≠ l) }

/-- Why what is written at a location does not arrive, if it does not. -/
def refusal (t : FileTree) (l : Location) : Option SystemError :=
  (t.devices.lookup l).bind Device.refusal

/-- What is written to at a location. A refusal shows as soon as more comes than can wait. -/
def sink (t : FileTree) (l : Location) : Sink :=
  { fault := (t.refusal l).map fun e => ⟨bufferSize, .system e⟩ }

/-- Why nothing can be created at a location, if nothing can. -/
def closure (t : FileTree) (l : Location) : Option Refusal :=
  (t.closed.find? fun c => c.1.isPrefixOf l).map (·.2)

/-- **An empty file where a path leads**, and where that is. Behind a slash no file can be
created. -/
def create (t : FileTree) (path : String) : Except Refusal (Location × FileTree) :=
  match unusable path with
  | some r => .error r
  | none => do
    let names := names path
    let named := (names.reverse.dropWhile (· = "")).reverse
    if named.length < names.length then
      let _ ← t.resolve maxLinks (t.start path) (named.dropLast ++ [""])
      .error .isDirectory
    else
      let l ← t.resolve maxLinks (t.start path) names
      match t.entry l with
      | .directory => .error .isDirectory
      | .device device => device.closed.elim (.ok (l, t.put l [])) .error
      | .file _ => .ok (l, t.put l [])
      | .absent => (t.closure l).elim (.ok (l, t.put l [])) .error

end FileTree

end PackFormat.CommandLine
