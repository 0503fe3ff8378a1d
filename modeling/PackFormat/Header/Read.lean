import PackFormat.Source

/-!
# Reading the header

A packed stream opens with the depth of its tree, one byte; then one byte for each
level, its number of leaves; then the symbols of the leaves, level by level. The
last level's count leaves out two leaves: the stop code, which has no symbol, and
the symbol next to it. So the table is one longer than the counts add up to.

* `readExact`: a number of bytes, however many reads that takes.
* `readDepth`, `readLevelCounts`, `readSymbols`: the three parts.
-/

namespace PackFormat

/-- **Exactly `n` bytes**, in as many reads as it takes; a number below one asks for nothing.
Each read asks for what is missing. -/
def readExact (n : Int) (part : String) : EStateM Failure Source (List UInt8) := fun s =>
  if 0 < n then
    match s.read n.toNat with
    | .error e s => .error (.ofRead part e) s
    | .ok [] s => .error (.truncated part) s
    | .ok (b :: bytes) s =>
      match readExact (n - (bytes.length + 1)) part s with
      | .error f s => .error f s
      | .ok rest s => .ok (b :: bytes ++ rest) s
  else .ok [] s
termination_by n.toNat
decreasing_by omega

namespace Header

/-- The deepest tree there may be. -/
def maxDepth : Nat := 24

/-- The symbols there are: the bytes and the stop code. -/
def maxSymbols : Nat := 256

/-- What counts add up to. -/
def total (counts : List Nat) : Nat := counts.foldr (· + ·) 0

/-- The depth of the tree. The header byte may have been read ahead. -/
def readDepth (ahead : List UInt8) : EStateM Failure Source Nat :=
  if 1 < ahead.length then throw .readAheadTooLong
  else do
    let header := ahead ++ (← readExact (1 - ahead.length) "pack header")
    let depth := (header.headD 0).toNat
    if 1 ≤ depth ∧ depth ≤ maxDepth then return depth else throw (.insaneLevels depth)

/-- The counts of the levels, as they are stored. -/
def readLevelCounts (levels : Int) : EStateM Failure Source (List Nat) := do
  let counts := (← readExact levels "symbol count table").map UInt8.toNat
  let capacity := 1 + total counts
  if maxSymbols < capacity then throw (.tableOverflow capacity) else return counts

/-- The symbols of the leaves. -/
def readSymbols (capacity : Int) : EStateM Failure Source (List UInt8) :=
  readExact capacity "symbol table"

end Header

end PackFormat
