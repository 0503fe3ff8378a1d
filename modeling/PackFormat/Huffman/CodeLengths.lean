import PackFormat.Huffman.CodeTree

/-!
# Code lengths for a byte string

Each byte weighs as often as it occurs, the stop mark nothing. How deep a symbol
lies in Huffman's tree is the length of its code, and no code is longer than the
stop mark's.

* `alphabet`: the bytes that occur.
* `codeLengths`: the symbols in order, each with the length of its code.
-/

namespace PackFormat

/-- The bytes that occur, in order. -/
def alphabet (data : List UInt8) : List UInt8 :=
  ((List.range 256).map UInt8.ofNat).filter data.contains

/-- The leaves of the tree: the bytes that occur and the stop mark. -/
def weighted (data : List UInt8) : List CodeTree :=
  (alphabet data).map (fun b => .leaf (.byte b) (data.count b)) ++ [.leaf .stop 0]

/-- **Huffman's tree for a byte string.** -/
def codeTree (data : List UInt8) : CodeTree := .join (CodeTree.forest (weighted data))

/-- Into its place among the symbols in order. -/
def insertSymbol (x : Symbol × Nat) : List (Symbol × Nat) → List (Symbol × Nat)
  | [] => [x]
  | y :: rest => if x.1.rank ≤ y.1.rank then x :: y :: rest else y :: insertSymbol x rest

/-- The symbols in order. -/
def inOrder (lengths : List (Symbol × Nat)) : List (Symbol × Nat) := lengths.foldr insertSymbol []

theorem insertSymbol_perm (x : Symbol × Nat) (lengths : List (Symbol × Nat)) :
    (insertSymbol x lengths).Perm (x :: lengths) := by
  induction lengths with
  | nil => exact .refl _
  | cons y rest ih =>
    unfold insertSymbol
    split
    · exact .refl _
    · exact (ih.cons y).trans (.swap x y rest)

/-- **Ordering loses nothing and adds nothing.** -/
theorem inOrder_perm (lengths : List (Symbol × Nat)) : (inOrder lengths).Perm lengths := by
  induction lengths with
  | nil => exact .refl _
  | cons x rest ih => exact (insertSymbol_perm x _).trans (ih.cons x)

/-- How deep each symbol lies in the tree, in the order of the symbols. -/
def treeLengths (data : List UInt8) : List (Symbol × Nat) := inOrder ((codeTree data).depths 0)

/-- The longest of some code lengths. -/
def deepest (lengths : List (Symbol × Nat)) : Nat := lengths.foldl (fun d x => max d x.2) 0

/-- Lets the stop mark change places with the last symbol of the longest code, unless its own is as
long already. -/
def stopDeepest (lengths : List (Symbol × Nat)) : List (Symbol × Nat) :=
  let own := (lengths.lookup .stop).getD 0
  let longest := deepest lengths
  if own = longest then lengths
  else
    match (lengths.filter fun x => x.2 = longest).getLast? with
    | none => lengths
    | some (other, _) =>
      lengths.map fun x =>
        if x.1 = other then (x.1, own) else if x.1 = .stop then (x.1, longest) else x

/-- **The length of each symbol's code**, in the order of the symbols. -/
def codeLengths (data : List UInt8) : List (Symbol × Nat) := stopDeepest (treeLengths data)

end PackFormat
