import PackFormat.Tree

/-!
# The walk down the levels

The walk takes one bit at a time. On each level the bits since the last leaf make a
number, and it is below the number of interior nodes, or it is a leaf.

* `Tree.step`: one bit.
* `Tree.scan`: the bits of a chunk, up to the stop code or a failure.
* `Tree.scan_eq`: what a walk took and gave before a bit string has no influence on
  what it takes and gives there.
-/

namespace PackFormat

/-- Where the walk stands between two bits: the level, and the number that the bits since the last
leaf make. -/
structure Cursor where
  level : Nat := 0
  code : Nat := 0
deriving DecidableEq, Repr

/-- What one more bit leads to. -/
inductive Step
  /-- An interior node. -/
  | descend (cursor : Cursor)
  /-- A leaf. -/
  | symbol (byte : UInt8)
  /-- The stop code. -/
  | stop
  | fail (failure : Failure)
deriving DecidableEq, Repr

/-- What the bits of a chunk led to. -/
inductive Ending
  /-- All of them are used, and the walk goes on. -/
  | more (cursor : Cursor)
  | stopped
  | failed (failure : Failure)
deriving DecidableEq, Repr

/-- The walk over a chunk. -/
structure Scan where
  /-- What the codes that ended stand for. -/
  symbols : Array UInt8
  /-- The bits taken, with the one that ended the walk. -/
  used : Nat
  ending : Ending

namespace Tree

/-- The leaf that is `index` places behind the first of its level. -/
def leaf (t : Tree) (level index : Nat) : Step :=
  match t.leaves[level]? with
  | none => .fail .levelMissing
  | some leaves =>
    if leaves ≤ index then .fail (.leafOutOfRange index level)
    else
      match t.offsets[level]? with
      | none => .fail .levelMissing
      | some offset =>
        if offset + index = t.stopIndex then .stop
        else
          match t.symbols[offset + index]? with
          | none => .fail .symbolMissing
          | some b => .symbol b

/-- **One bit of the walk.** Codes below the number of interior nodes go on, the others are
leaves. -/
def step (t : Tree) (c : Cursor) (bit : Bool) : Step :=
  let code := 2 * c.code + bit.toNat
  match t.interior[c.level]? with
  | none => .fail .levelMissing
  | some inner =>
    if inner ≤ code then t.leaf c.level (code - inner).toNat
    else if t.maxLevel < c.level + 1 then .fail .tooDeep
    else .descend ⟨c.level + 1, code⟩

/-- **The walk over the bits of a chunk**, after `used` bits that gave `symbols`. -/
def scan (t : Tree) (c : Cursor) (symbols : Array UInt8) (used : Nat) : List Bool → Scan
  | [] => ⟨symbols, used, .more c⟩
  | bit :: bits =>
    match t.step c bit with
    | .descend c => t.scan c symbols (used + 1) bits
    | .symbol b => t.scan {} (symbols.push b) (used + 1) bits
    | .stop => ⟨symbols, used + 1, .stopped⟩
    | .fail f => ⟨symbols, used + 1, .failed f⟩

/-- **A walk does not look back**: what it took and gave before only stands in front. -/
theorem scan_eq (t : Tree) (c : Cursor) (symbols : Array UInt8) (used : Nat) (bits : List Bool) :
    t.scan c symbols used bits =
      { symbols := symbols ++ (t.scan c #[] 0 bits).symbols
        used := used + (t.scan c #[] 0 bits).used
        ending := (t.scan c #[] 0 bits).ending } := by
  induction bits generalizing c symbols used with
  | nil => simp [scan]
  | cons bit bits ih =>
    simp only [scan]
    cases t.step c bit with
    | descend c =>
      simp only
      rw [ih c symbols, ih c #[] (0 + 1)]
      simp [Nat.add_assoc]
    | symbol b =>
      simp only
      rw [ih {} (symbols.push b), ih {} (#[].push b) (0 + 1)]
      simp [Nat.add_assoc]
    | stop => simp
    | fail f => simp

end Tree

end PackFormat
