import PackFormat.Header.Read

/-!
# Code trees, level by level

A tree is stored without nodes. On each level the interior nodes come first and
the leaves after them, so a level is two numbers, and a code of `l + 1` bits is an
interior node of level `l` or, from there on, a leaf. The symbols of the leaves lie
in one table, and the stop code is the place right behind its end.

* `interiorCounts`: the interior nodes of each level, half of the level below.
* `Tree.ofCounts`: the tree of a header, its three lists as long as the tree is
  deep.
* `Tree.read`: reads a header up to the first byte of the payload.
-/

namespace PackFormat

/-- **A tree, level by level.** One made by hand need not be consistent. -/
structure Tree where
  levels : Int
  /-- The leaves of each level, the stop code among them. -/
  leaves : List Int
  /-- The interior nodes of each level. -/
  interior : List Int
  /-- The symbols of the leaves, level by level. -/
  symbols : List UInt8
  /-- Where the symbols of each level start. -/
  offsets : List Nat
  /-- The number of bytes the payload decodes to, when it is known. -/
  size : Option Int
deriving DecidableEq, Repr

/-- **The interior nodes of each level, from the leaves.** Two nodes of the level below hang from
each, one left over from none, and the last level has none. -/
def interiorCounts : List Int → List Int
  | [] => []
  | [_] => [0]
  | _ :: below :: rest =>
    let inner := interiorCounts (below :: rest)
    (inner.headD 0 + below) / 2 :: inner

@[simp] theorem length_interiorCounts (leaves : List Int) :
    (interiorCounts leaves).length = leaves.length := by
  induction leaves with
  | nil => rfl
  | cons c rest ih =>
    cases rest with
    | nil => rfl
    | cons below rest => simpa [interiorCounts] using ih

/-- Adds to the last entry of a list. -/
def addToLast (n : Nat) : List Nat → List Nat
  | [] => []
  | [c] => [c + n]
  | c :: c' :: rest => c :: addToLast n (c' :: rest)

@[simp] theorem length_addToLast (n : Nat) (counts : List Nat) :
    (addToLast n counts).length = counts.length := by
  induction counts with
  | nil => rfl
  | cons c rest ih =>
    cases rest with
    | nil => rfl
    | cons c' rest => simpa [addToLast] using ih

/-- The sums of what stands before each entry, from a start. -/
def runningSums (start : Nat) : List Nat → List Nat
  | [] => []
  | c :: rest => start :: runningSums (start + c) rest

@[simp] theorem length_runningSums (start : Nat) (counts : List Nat) :
    (runningSums start counts).length = counts.length := by
  induction counts generalizing start with
  | nil => rfl
  | cons c rest ih => simp [runningSums, ih]

namespace Tree

/-- The deepest level. -/
def maxLevel (t : Tree) : Int := t.levels - 1

/-- The place of the stop code: the first behind the symbols. -/
def stopIndex (t : Tree) : Nat := t.symbols.length

/-- **The tree of a header.** The last level has one more symbol than its count says, and one more
leaf than that, for the stop code. -/
def ofCounts (counts : List Nat) (symbols : List UInt8) (size : Option Int) : Tree :=
  let leaves := (addToLast 2 counts).map Int.ofNat
  { levels := counts.length
    leaves
    interior := interiorCounts leaves
    symbols
    offsets := runningSums 0 (addToLast 1 counts)
    size }

/-- **Reads a header**, up to the first byte of the payload. -/
def read (ahead : List UInt8) (size : Option Int) : EStateM Failure Source Tree := do
  let depth ← Header.readDepth ahead
  let counts ← Header.readLevelCounts depth
  let symbols ← Header.readSymbols (Header.total counts + 1)
  return ofCounts counts symbols size

/-- The bytes of the header that a tree was read from. -/
def headerLength (t : Tree) : Int := 1 + t.levels + t.symbols.length

end Tree

end PackFormat
