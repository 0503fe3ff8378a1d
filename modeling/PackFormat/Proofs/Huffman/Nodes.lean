import Mathlib.Tactic
import PackFormat.Huffman.CodeTree

/-!
# The nodes of a code tree

On each depth of a code tree there are twice as many nodes as interior nodes one
above, whatever the tree looks like. Joining a forest keeps its symbols.

* `CodeTree.nodesAt_eq`, `CodeTree.nodesAt_succ`: **nodes, interior nodes and leaves**
  of each depth.
* `CodeTree.nodesAt_le_mul`: how many nodes one interior node makes room for.
* `CodeTree.symbols_join`: the symbols of a joined forest.
-/

namespace PackFormat

namespace CodeTree

/-- The symbols at the leaves. -/
def symbols : CodeTree → List Symbol
  | leaf s _ => [s]
  | node l r => l.symbols ++ r.symbols

/-- The nodes that lie `d` down. -/
def nodesAt : CodeTree → ℕ → ℕ
  | _, 0 => 1
  | leaf _ _, _ + 1 => 0
  | node l r, d + 1 => l.nodesAt d + r.nodesAt d

/-- Those of them that are no leaves. -/
def innerAt : CodeTree → ℕ → ℕ
  | leaf _ _, _ => 0
  | node _ _, 0 => 1
  | node l r, d + 1 => l.innerAt d + r.innerAt d

/-- The leaves that lie `d` down. -/
def leavesAt (t : CodeTree) (d : ℕ) : ℕ := ((t.depths 0).map (·.2)).count d

theorem map_fst_depths (t : CodeTree) (k : ℕ) : (t.depths k).map (·.1) = t.symbols := by
  induction t generalizing k with
  | leaf s w => rfl
  | node l r ihl ihr => rw [depths, List.map_append, ihl, ihr, symbols]

/-- A tree has a leaf at least. -/
theorem depths_ne_nil (t : CodeTree) (k : ℕ) : t.depths k ≠ [] := by
  induction t generalizing k with
  | leaf s w => exact List.cons_ne_nil _ _
  | node l r ihl ihr => exact List.append_ne_nil_of_left_ne_nil (ihl (k + 1)) _

/-- Depths count from where the tree lies. -/
theorem map_snd_depths (t : CodeTree) (k : ℕ) :
    (t.depths k).map (·.2) = ((t.depths 0).map (·.2)).map (k + ·) := by
  induction t generalizing k with
  | leaf s w => rfl
  | node l r ihl ihr =>
    have hshift : ∀ ds : List ℕ, (ds.map (0 + 1 + ·)).map (k + ·) = ds.map (k + 1 + ·) := by
      intro ds
      rw [List.map_map]
      exact List.map_congr_left fun d _ => by simp only [Function.comp_apply]; omega
    simp only [depths, List.map_append]
    rw [ihl (k + 1), ihr (k + 1), ihl (0 + 1), ihr (0 + 1), hshift, hshift]

theorem leavesAt_node_succ (l r : CodeTree) (d : ℕ) :
    (node l r).leavesAt (d + 1) = l.leavesAt d + r.leavesAt d := by
  have hcount : ∀ ds : List ℕ, (ds.map (0 + 1 + ·)).count (d + 1) = ds.count d := by
    intro ds
    rw [show d + 1 = 0 + 1 + d by omega]
    exact List.count_map_of_injective ds _ (add_right_injective _) d
  unfold leavesAt
  rw [depths, List.map_append, List.count_append, map_snd_depths l (0 + 1), map_snd_depths r (0 + 1),
    hcount, hcount]

theorem leavesAt_node_zero (l r : CodeTree) : (node l r).leavesAt 0 = 0 := by
  unfold leavesAt
  rw [depths, List.map_append, map_snd_depths l (0 + 1), map_snd_depths r (0 + 1)]
  refine List.count_eq_zero.2 fun h => ?_
  simp only [List.mem_append, List.mem_map] at h
  rcases h with ⟨_, -, h⟩ | ⟨_, -, h⟩ <;> omega

/-- **A node is interior or a leaf.** -/
theorem nodesAt_eq (t : CodeTree) (d : ℕ) : t.nodesAt d = t.innerAt d + t.leavesAt d := by
  induction t generalizing d with
  | leaf s w => cases d <;> simp [nodesAt, innerAt, leavesAt, depths]
  | node l r ihl ihr =>
    cases d with
    | zero => rw [leavesAt_node_zero]; rfl
    | succ d => rw [nodesAt, innerAt, leavesAt_node_succ, ihl, ihr]; omega

/-- **Two nodes hang from each interior one.** -/
theorem nodesAt_succ (t : CodeTree) (d : ℕ) : t.nodesAt (d + 1) = 2 * t.innerAt d := by
  induction t generalizing d with
  | leaf s w => cases d <;> rfl
  | node l r ihl ihr =>
    cases d with
    | zero => simp [nodesAt, innerAt]
    | succ d => rw [nodesAt, innerAt, ihl, ihr]; omega

theorem innerAt_le_nodesAt (t : CodeTree) (d : ℕ) : t.innerAt d ≤ t.nodesAt d := by
  rw [nodesAt_eq]; exact Nat.le_add_right _ _

theorem nodesAt_le (t : CodeTree) (d : ℕ) : t.nodesAt d ≤ 2 ^ d := by
  induction d with
  | zero => simp [nodesAt]
  | succ d ih =>
    have := t.innerAt_le_nodesAt d
    rw [nodesAt_succ, pow_succ]
    omega

/-- **The nodes far below interior ones**, twice as many at most with each step down. -/
theorem nodesAt_le_mul (t : CodeTree) (d e : ℕ) :
    t.nodesAt (d + (e + 1)) ≤ 2 ^ (e + 1) * t.innerAt d := by
  induction e with
  | zero => rw [zero_add, nodesAt_succ, pow_one]
  | succ e ih =>
    have := t.innerAt_le_nodesAt (d + (e + 1))
    rw [← Nat.add_assoc d, nodesAt_succ, pow_succ]
    calc 2 * t.innerAt (d + (e + 1)) ≤ 2 * (2 ^ (e + 1) * t.innerAt d) := by omega
      _ = 2 ^ (e + 1) * 2 * t.innerAt d := by ring

/-- No interior node lies as deep as the deepest leaves. -/
theorem innerAt_eq_zero {t : CodeTree} {d : ℕ} (h : ∀ e ∈ (t.depths 0).map (·.2), e ≤ d) :
    t.innerAt d = 0 := by
  induction t generalizing d with
  | leaf s w => rfl
  | node l r ihl ihr =>
    have hmem : ∀ u : CodeTree, u = l ∨ u = r → ∀ e ∈ (u.depths 0).map (·.2), e + 1 ≤ d := by
      intro u hu e he
      refine h (e + 1) ?_
      rw [depths, List.map_append, map_snd_depths l (0 + 1), map_snd_depths r (0 + 1), List.mem_append]
      rcases hu with rfl | rfl
      · exact Or.inl (List.mem_map.2 ⟨e, he, by omega⟩)
      · exact Or.inr (List.mem_map.2 ⟨e, he, by omega⟩)
    cases d with
    | zero =>
      -- a leaf of the left tree would lie below the root
      obtain ⟨x, hx⟩ := List.exists_mem_of_ne_nil _ (l.depths_ne_nil 0)
      have := hmem l (Or.inl rfl) x.2 (List.mem_map_of_mem hx)
      omega
    | succ d =>
      rw [innerAt, ihl fun e he => Nat.le_of_succ_le_succ (hmem l (Or.inl rfl) e he),
        ihr fun e he => Nat.le_of_succ_le_succ (hmem r (Or.inr rfl) e he)]

/-- A tree goes into its place and the others stay. -/
theorem insert_perm (t : CodeTree) (trees : List CodeTree) : (insert t trees).Perm (t :: trees) := by
  induction trees with
  | nil => exact .refl _
  | cons u rest ih =>
    unfold insert
    split
    · exact .refl _
    · exact (ih.cons u).trans (.swap t u rest)

theorem forest_perm (trees : List CodeTree) : (forest trees).Perm trees := by
  have h : ∀ done, (trees.foldl (fun f t => insert t f) done).Perm (trees ++ done) := by
    induction trees with
    | nil => exact fun done => .refl _
    | cons t rest ih =>
      intro done
      exact (ih (insert t done)).trans (((insert_perm t done).append_left rest).trans
        List.perm_middle)
  simpa [forest] using h []

/-- **Joining keeps the symbols.** -/
theorem symbols_join (trees : List CodeTree) (h : trees ≠ []) :
    (join trees).symbols.Perm (trees.flatMap symbols) := by
  induction trees using join.induct with
  | case1 => exact absurd rfl h
  | case2 t => rw [join, List.flatMap_singleton]
  | case3 t u rest ih =>
    have hne : insert (node t u) rest ≠ [] := by
      rw [← List.length_pos_iff, length_insert]; omega
    -- the joined tree has the symbols of both
    rw [join]
    refine (ih hne).trans ((List.Perm.flatMap_right _ (insert_perm (node t u) rest)).trans ?_)
    rw [List.flatMap_cons, List.flatMap_cons, List.flatMap_cons, symbols, List.append_assoc]

end CodeTree

end PackFormat
