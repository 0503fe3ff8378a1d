import PackFormat.BitWriter
import PackFormat.Header.Write
import PackFormat.Huffman.CodeLengths
import PackFormat.Tree

/-!
# Packing a byte string

The codes of one length are consecutive numbers: on each level the leaves stand
behind the interior nodes, in the order of their symbols. The stop mark has the
last code of the last level.

* `levelSymbols`: the symbols of each level.
* `codes`: the code of each symbol.
* `pack`: the whole packed stream.
-/

namespace PackFormat

/-- Why a byte string is not packed. -/
inductive PackError
  | emptyInput
  /-- More bytes occur than the table has room for. -/
  | tooManySymbols
  | tooDeep (levels : Nat)
  | header (error : HeaderError)
deriving DecidableEq, Repr

/-- The wording of each cause. -/
def PackError.message : PackError → String
  | emptyInput => "pack(1) refuses empty input"
  | tooManySymbols => "too many distinct symbols"
  | tooDeep levels => "tree too deep: " ++ toString levels
  | header e => e.message

/-- **The symbols of each level**, in order. -/
def levelSymbols (lengths : List (Symbol × Nat)) : List (List Symbol) :=
  (List.range (deepest lengths)).map fun level =>
    (lengths.filter fun x => x.2 = level + 1).map (·.1)

/-- A symbol's code, and how many bits it has. -/
structure Code where
  value : Int
  length : Nat
deriving DecidableEq, Repr

/-- **The code of each symbol**, level by level. -/
def codes (levels : List (List Symbol)) : List (Symbol × Code) :=
  let interior := interiorCounts (levels.map fun symbols => (symbols.length : Int))
  (levels.zip interior).zipIdx.flatMap fun ((symbols, first), level) =>
    symbols.zipIdx.map fun (s, i) => (s, ⟨first + i, level + 1⟩)

/-- The counts of a header: the last level's leaves out two. -/
def storedCounts : List Int → List Int
  | [] => []
  | [c] => [c - 2]
  | c :: c' :: rest => c :: storedCounts (c' :: rest)

/-- Writes the code of a symbol. -/
def writeSymbol (codes : List (Symbol × Code)) (w : BitWriter) (s : Symbol) : BitWriter :=
  match codes.lookup s with
  | some code => w.writeCode code.value code.length
  | none => w

/-- The payload of a byte string: its codes and the stop mark's, up to a whole byte. -/
def payload (codes : List (Symbol × Code)) (data : List UInt8) : List UInt8 :=
  let w := data.foldl (fun w b => writeSymbol codes w (.byte b)) {}
  (writeSymbol codes w .stop).finish.bytes.toList

/-- **Packs a byte string.** -/
def pack (data : List UInt8) : Except PackError (List UInt8) :=
  if data.isEmpty then .error .emptyInput
  else if 255 < (alphabet data).length then .error .tooManySymbols
  else
    let lengths := codeLengths data
    let depth := deepest lengths
    if Header.maxDepth < depth then .error (.tooDeep depth)
    else
      let levels := levelSymbols lengths
      let counts := storedCounts (levels.map fun symbols => (symbols.length : Int))
      match Header.write counts (levels.flatten.filterMap Symbol.byte?) {} with
      | .error e _ => .error (.header e)
      | .ok () header => .ok (header.written.toList ++ payload (codes levels) data)

end PackFormat
