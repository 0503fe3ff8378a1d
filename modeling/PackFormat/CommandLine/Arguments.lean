import PackFormat.Text.Numeral
import PackFormat.Text.Quoted
import PackFormat.Unpack

/-!
# The arguments of a run

Two paths and a few switches. A switch may be cut short as long as it stays
distinct, may have its value attached, and may stand anywhere; short switches can
be run together. After `--` everything is a path.

* `classify`: what an argument is by itself. Negative numbers and anything with a
  blank in it are paths, unless they are switches.
* `readArguments`: the arguments in their order.
* `Invocation.parse`: the run that the arguments ask for.
-/

namespace PackFormat.CommandLine

/-- The switches there are. -/
inductive Switch
  | help
  | chunkSize
  | verbose
deriving DecidableEq, Repr

/-- Each spelling of each switch. -/
def spellings : List (String × Switch) :=
  [("-h", .help), ("--help", .help), ("--chunk-size", .chunkSize), ("-v", .verbose),
   ("--verbose", .verbose)]

/-- A switch by all its spellings. -/
def Switch.title (s : Switch) : String :=
  "/".intercalate ((spellings.filter (·.2 = s)).map (·.1))

/-- What an argument is by itself. -/
inductive Argument
  | plain (text : String)
  /-- The first `--`. -/
  | separator
  /-- A switch, whether it is spelled with one letter, and the value attached to it. -/
  | switch (switch : Switch) (short : Bool) (value : Option (List Char))
  /-- It looks like a switch and is none. -/
  | unknown (text : String)
deriving DecidableEq, Repr

/-- Why arguments make no sense. -/
inductive Misuse
  | ambiguous (text : String) (candidates : List String)
  | valueIgnored (switch : Switch) (value : List Char)
  | valueMissing (switch : Switch)
  | notWhole (switch : Switch) (value : String)
  | pathsMissing (names : List String)
  | unrecognized (arguments : List String)
deriving DecidableEq, Repr

/-- The wording of each. -/
def Misuse.message : Misuse → String
  | ambiguous text candidates =>
    "ambiguous option: " ++ text ++ " could match " ++ ", ".intercalate candidates
  | valueIgnored s value =>
    "argument " ++ s.title ++ ": ignored explicit argument " ++ quoted (.ofList value)
  | valueMissing s => "argument " ++ s.title ++ ": expected one argument"
  | notWhole s value => "argument " ++ s.title ++ ": invalid int value: " ++ quoted value
  | pathsMissing names => "the following arguments are required: " ++ ", ".intercalate names
  | unrecognized arguments => "unrecognized arguments: " ++ " ".intercalate arguments

/-- What ends a run before it starts. -/
inductive Halt
  | help
  | misuse (misuse : Misuse)
deriving DecidableEq, Repr

/-- Whether a text is a minus sign and a whole number or a decimal fraction. One line end may
follow. -/
def looksNegative : List Char → Bool
  | '-' :: text =>
    let text := if text.getLast? = some '\n' then text.dropLast else text
    match text.dropWhile isDecimalDigit with
    | [] => !text.isEmpty
    | '.' :: fraction => !fraction.isEmpty && fraction.all isDecimalDigit
    | _ => false
  | _ => false

/-- Whether a spelling has one letter. -/
def isShort (name : String) : Bool := name.length = 2

/-- A text up to its first equals sign, and what comes after that. -/
def splitValue : List Char → List Char × Option (List Char)
  | [] => ([], none)
  | c :: rest =>
    if c = '=' then ([], some rest)
    else
      let (name, value) := splitValue rest
      (c :: name, value)

/-- The switches that a text is short for, each with its spelling. -/
def candidates (text : List Char) : List (String × Argument) :=
  match text with
  | '-' :: '-' :: _ =>
    let (name, value) := splitValue text
    (spellings.filter fun s => name.isPrefixOf s.1.toList).map fun s =>
      (s.1, .switch s.2 (isShort s.1) value)
  | '-' :: letter :: value =>
    (spellings.filter fun s => s.1.toList = ['-', letter]).map fun s =>
      (s.1, .switch s.2 true (some value))
  | _ => []

/-- **What an argument is by itself.** -/
def classify (text : String) : Except Halt Argument :=
  let chars := text.toList
  if chars.head? ≠ some '-' ∨ text = "-" then .ok (.plain text)
  else
    match spellings.lookup text with
    | some s => .ok (.switch s (isShort text) none)
    | none =>
      let (name, value) := splitValue chars
      match spellings.lookup (.ofList name), value with
      | some s, some value => .ok (.switch s (name.length = 2) (some value))
      | _, _ =>
        match candidates chars with
        | [] =>
          let isPath := looksNegative chars || chars.contains ' '
          .ok (if isPath then .plain text else .unknown text)
        | [(_, argument)] => .ok argument
        | several => .error (.misuse (.ambiguous text (several.map (·.1))))

/-- All arguments by themselves. Those after the first `--` are plain, whatever they look like. -/
def classifyAll : List String → Except Halt (List Argument)
  | [] => .ok []
  | text :: rest =>
    if text = "--" then .ok (.separator :: rest.map .plain)
    else do
      let argument ← classify text
      return argument :: (← classifyAll rest)

/-- What stands before the argument at hand. -/
inductive Before
  | path
  /-- A separator that no path before it has taken. -/
  | separator
  | other
deriving DecidableEq, Repr

/-- What the arguments read so far ask for. -/
structure Reading where
  /-- The paths, of which there can be two. A second `--` that is no path leaves its place empty. -/
  paths : List (Option String) := []
  /-- Arguments for which there is no use. -/
  extras : List String := []
  /-- The chunk size, unless the last one given was a `--`, which is no value. -/
  chunkSize : Option Int := some defaultChunkSize
  verbose : Bool := false
  before : Before := .other
deriving DecidableEq, Repr

namespace Reading

/-- No use for an argument. -/
def extra (r : Reading) (text : String) : Reading :=
  { r with extras := r.extras ++ [text], before := .other }

/-- A plain argument is a path as long as one is missing. A `--` is one only right after the
separator. -/
def plain (r : Reading) (text : String) : Reading :=
  if 2 ≤ r.paths.length then r.extra text
  else
    let path := if text = "--" ∧ r.before ≠ .separator then none else some text
    { r with paths := r.paths ++ [path], before := .path }

/-- The separator goes with the path before it, or else with the paths still to come. -/
def separator (r : Reading) : Reading :=
  if r.before = .path then r
  else if 2 ≤ r.paths.length then r.extra "--"
  else { r with before := .separator }

/-- The value of the chunk size. -/
def size (r : Reading) (value : String) : Except Halt Reading :=
  if value = "--" then .ok { r with chunkSize := none, before := .other }
  else
    match integer? value.toList with
    | some size => .ok { r with chunkSize := some size, before := .other }
    | none => .error (.misuse (.notWhole .chunkSize value))

/-- A switch without a value. -/
def flag (r : Reading) : Switch → Except Halt Reading
  | .help => .error .help
  | .verbose => .ok { r with verbose := true, before := .other }
  | .chunkSize => .error (.misuse (.valueMissing .chunkSize))

end Reading

/-- **Short switches run together.** What is attached to one switch are the letters of more. -/
def cluster (s : Switch) : List Char → Except Halt (List Switch)
  | [] => .error (.misuse (.valueIgnored s []))
  | letter :: rest =>
    match spellings.lookup (.ofList ['-', letter]) with
    | none => .error (.misuse (.valueIgnored s (letter :: rest)))
    | some s' =>
      if rest.isEmpty then .ok [s, s']
      else do return s :: (← cluster s' rest)

/-- The switches in one argument, none of which takes a value. -/
def flags (s : Switch) (short : Bool) : Option (List Char) → Except Halt (List Switch)
  | none => .ok [s]
  | some value => if short then cluster s value else .error (.misuse (.valueIgnored s value))

/-- **The arguments in their order.** -/
def readArguments (r : Reading) : List Argument → Except Halt Reading
  | [] => .ok r
  | .plain text :: rest => readArguments (r.plain text) rest
  | .separator :: rest => readArguments r.separator rest
  | .unknown text :: rest => readArguments (r.extra text) rest
  | .switch .chunkSize _ (some value) :: rest => do
    readArguments (← r.size (.ofList value)) rest
  | .switch .chunkSize _ none :: .plain text :: rest => do
    readArguments (← r.size text) rest
  | .switch .chunkSize _ none :: _ => .error (.misuse (.valueMissing .chunkSize))
  | .switch s short value :: rest => do
    readArguments (← (← flags s short value).foldlM Reading.flag r) rest

/-- **A run that arguments ask for.** -/
structure Invocation where
  input : Option String
  output : Option String
  chunkSize : Option Int
  verbose : Bool
deriving DecidableEq, Repr

namespace Invocation

/-- The run, if both paths are there and everything had a use. -/
def ofReading (r : Reading) : Except Halt Invocation :=
  match r.paths with
  | [] => .error (.misuse (.pathsMissing ["input", "output"]))
  | [_] => .error (.misuse (.pathsMissing ["output"]))
  | input :: output :: _ =>
    if r.extras.isEmpty then .ok ⟨input, output, r.chunkSize, r.verbose⟩
    else .error (.misuse (.unrecognized r.extras))

/-- **The run that arguments ask for.** -/
def parse (arguments : List String) : Except Halt Invocation := do
  ofReading (← readArguments {} (← classifyAll arguments))

end Invocation

end PackFormat.CommandLine
