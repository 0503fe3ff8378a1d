import PackFormat.CommandLine.FileTree

/-!
# A usual system

A run works on any file tree. What it finds on most systems outside its working
directory is here, and nowhere else. The working directory and the directories of the
running process have names that cannot be known, so no path spells them: one gets there
by `..`, by a link, or by starting there.

* `FileTree.ofWorking`: a usual system, by what is in the working directory.
* `FileTree.workingFiles`: what is in the working directory.
-/

namespace PackFormat.CommandLine

/-- **The name that no path spells.** An empty name in a path stays where it is. -/
def nameless : String := ""

/-- Where a run works. -/
def workplace : Location := ["tmp", nameless]

/-- What the system shows of the running process. -/
def processPlace : Location := ["proc", nameless]

/-- What it shows of the running thread of that. -/
def threadPlace : Location := processPlace ++ ["task", nameless]

namespace Device

/-- Nothing to read, and room for everything. -/
def null : Device := {}

/-- Zeros without end. The first is enough, for no header starts with one. -/
def zero : Device := { bytes := [0] }

/-- Zeros to read, and no room to write. -/
def full : Device := { bytes := [0], refusal := some ⟨some 28, "No space left on device"⟩ }

/-- What is given at random cannot be known, and counts as zeros. -/
def random : Device := zero

/-- The terminal of a run, which has none. -/
def terminal : Device := { closed := some .noDevice }

end Device

namespace FileTree

/-- The directories. -/
def usualDirectories : List Location :=
  ["boot", "dev", "etc", "home", "media", "mnt", "opt", "proc", "root", "run", "srv", "sys", "tmp",
    "usr", "var"].map (fun name => [name]) ++
  ["bin", "include", "lib", "lib64", "local", "sbin", "share", "src"].map
    (fun name => ["usr", name]) ++
  ["backups", "cache", "lib", "local", "log", "mail", "opt", "spool", "tmp"].map
    (fun name => ["var", name]) ++
  ["block", "bus", "class", "dev", "devices", "firmware", "fs", "kernel", "module", "power"].map
    (fun name => ["sys", name]) ++
  [["dev", "pts"], ["dev", "shm"], ["proc", "1"], ["proc", "sys"], ["run", "lock"]] ++
  [processPlace, threadPlace].flatMap fun place =>
    ["fd", "fdinfo", "net", "ns"].map fun name => place ++ [name]

/-- The devices. The streams that a process starts with count as such. -/
def usualDevices : List (Location × Device) :=
  [(["dev", "null"], .null), (["dev", "zero"], .zero), (["dev", "full"], .full),
    (["dev", "random"], .random), (["dev", "urandom"], .random), (["dev", "tty"], .terminal)] ++
  [processPlace, threadPlace].flatMap fun place =>
    ["0", "1", "2"].map fun name => (place ++ ["fd", name], .null)

/-- The links. -/
def usualLinks : List (Location × Location) :=
  [(["bin"], ["usr", "bin"]), (["lib"], ["usr", "lib"]), (["lib64"], ["usr", "lib64"]),
    (["sbin"], ["usr", "sbin"]), (["var", "run"], ["run"]), (["var", "lock"], ["run", "lock"]),
    (["dev", "fd"], processPlace ++ ["fd"]), (["dev", "stdin"], processPlace ++ ["fd", "0"]),
    (["dev", "stdout"], processPlace ++ ["fd", "1"]),
    (["dev", "stderr"], processPlace ++ ["fd", "2"]), (["proc", "self"], processPlace),
    (["proc", "thread-self"], threadPlace), (["proc", "net"], processPlace ++ ["net"])] ++
  [processPlace, threadPlace].flatMap fun place =>
    [(place ++ ["cwd"], workplace), (place ++ ["root"], [])]

/-- The byte that a file begins with. No header begins with one of these, so a run looks no
further. -/
def usualBeginnings : List (Char × List Location) :=
  [('r', ["passwd", "group", "shadow", "gshadow"].map fun name => ["etc", name]),
    ('#', ["profile", "bash.bashrc", "shells", "fstab", "login.defs"].map
      fun name => ["etc", name]),
    ('P', [["etc", "os-release"], ["usr", "lib", "os-release"]]),
    ('L', [["proc", "version"], processPlace ++ ["limits"], threadPlace ++ ["limits"]]),
    ('N', [processPlace ++ ["status"], threadPlace ++ ["status"]]),
    ('M', [["proc", "meminfo"]]), ('p', [["proc", "cpuinfo"]]), ('c', [["proc", "stat"]]),
    ('n', [["proc", "filesystems"]]), ('F', [["proc", "swaps"]]),
    ('\x7f', [processPlace ++ ["exe"], threadPlace ++ ["exe"]] ++
      ["sh", "bash", "ls", "cat", "env", "true", "false"].map fun name => ["usr", "bin", name])]

/-- The files. -/
def usualFiles : List (Location × List UInt8) :=
  usualBeginnings.flatMap fun b => b.2.map fun l => (l, [b.1.toNat.toUInt8])

/-- What shows the state of the system takes no new files. -/
def usualClosed : List (Location × Refusal) := [(["proc"], .notFound), (["sys"], .notPermitted)]

/-- The memory, 32 GiB. -/
def usualMemory : Int := 34359738368

/-- **A usual system around a working directory**, by the directories and files in that. -/
def ofWorking (directories : List Location) (files : List (Location × List UInt8)) : FileTree :=
  { working := workplace
    directories := usualDirectories ++ directories.map (workplace ++ ·)
    devices := usualDevices
    links := usualLinks
    closed := usualClosed
    files := usualFiles ++ files.map fun f => (workplace ++ f.1, f.2)
    memory := some usualMemory }

/-- **The files in the working directory.** -/
def workingFiles (t : FileTree) : List (Location × List UInt8) :=
  (t.files.filter fun f => t.working.isPrefixOf f.1).map fun f =>
    (f.1.drop t.working.length, f.2)

end FileTree

end PackFormat.CommandLine
