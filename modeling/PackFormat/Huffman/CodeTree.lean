/-!
# Huffman's trees

A code tree has the symbols at its leaves, each with its weight. Trees are joined
two at a time, the lightest first; of equal weight, the one that has waited longest
goes first. A forest is kept in that order, so a new tree goes behind all that are
no heavier.

* `CodeTree.insert`, `CodeTree.join`: the order and the joining.
* `CodeTree.depths`: how deep each symbol lies.
-/

namespace PackFormat

/-- What has a code: the bytes, and the mark that stops a payload. -/
inductive Symbol
  | byte (value : UInt8)
  | stop
deriving DecidableEq, Repr

/-- The number of a symbol. The stop mark comes after all bytes. -/
def Symbol.rank : Symbol → Nat
  | byte value => value.toNat
  | stop => 256

/-- The byte of a symbol that is one. -/
def Symbol.byte? : Symbol → Option UInt8
  | byte value => some value
  | stop => none

/-- **A code tree.** -/
inductive CodeTree
  | leaf (symbol : Symbol) (weight : Nat)
  | node (left right : CodeTree)
deriving DecidableEq, Repr

namespace CodeTree

/-- The weight of all leaves together. -/
def weight : CodeTree → Nat
  | leaf _ w => w
  | node l r => l.weight + r.weight

/-- The symbols and how far each lies below a tree that lies `depth` down. -/
def depths (depth : Nat) : CodeTree → List (Symbol × Nat)
  | leaf s _ => [(s, depth)]
  | node l r => l.depths (depth + 1) ++ r.depths (depth + 1)

/-- **Into its place in a forest**: behind all trees that are no heavier. -/
def insert (t : CodeTree) : List CodeTree → List CodeTree
  | [] => [t]
  | u :: rest => if t.weight < u.weight then t :: u :: rest else u :: insert t rest

/-- A new tree makes the forest larger by one. -/
@[simp] theorem length_insert (t : CodeTree) (forest : List CodeTree) :
    (insert t forest).length = forest.length + 1 := by
  induction forest with
  | nil => rfl
  | cons u rest ih =>
    unfold insert
    split <;> simp [ih]

/-- Trees in the order in which they are to be joined. -/
def forest (trees : List CodeTree) : List CodeTree := trees.foldl (fun f t => insert t f) []

/-- **Joins the two lightest** until one tree is left. Nothing at all joins to the stop mark. -/
def join : List CodeTree → CodeTree
  | [] => leaf .stop 0
  | [t] => t
  | t :: u :: rest => join (insert (node t u) rest)
termination_by forest => forest.length
decreasing_by simp

end CodeTree

end PackFormat
