import PackFormat.Proofs.Huffman.Nodes

/-!
# How a forest is joined

Trees are joined in one order, from the two lightest to the whole tree: by weight, and
of equal weight the leaves go first, since they have waited longest. On that order rests
whatever can be said about depths: a tree that is joined later does not lie deeper.

* `CodeTree.Joining`: a forest, how deep each of its trees comes to lie, and all the
  trees that are joined on the way, in that order. `CodeTree.exists_joining` finds it.
* `CodeTree.Joining.order_before`: **the order is by weight.**
* `CodeTree.Joining.order_descending`: **the order goes up.**
* `CodeTree.Joining.depths_perm`, `CodeTree.Joining.mem_subtrees_iff`: the leaves and the
  nodes of the whole tree.
-/

namespace PackFormat

namespace CodeTree

/-- Whether a tree is a leaf. -/
def isLeaf : CodeTree → Bool
  | leaf _ _ => true
  | node _ _ => false

/-- **Which of two trees is joined first**: no heavier one, and no node before a leaf that weighs the
same. -/
def Before (t u : CodeTree) : Prop :=
  t.weight ≤ u.weight ∧ (t.isLeaf = false → u.isLeaf = true → t.weight < u.weight)

/-- A node waits behind whatever is no heavier. -/
theorem before_node {t l r : CodeTree} (h : t.weight ≤ (node l r).weight) : t.Before (node l r) :=
  ⟨h, fun _ hleaf => absurd hleaf (by simp [isLeaf])⟩

theorem before_of_lt {t u : CodeTree} (h : t.weight < u.weight) : t.Before u := ⟨h.le, fun _ _ => h⟩

/-- **A new tree goes between** the trees that are no heavier and the heavier ones. -/
theorem insert_eq_append (t : CodeTree) {trees : List CodeTree} (h : trees.Pairwise Before) :
    ∃ before after, trees = before ++ after ∧ insert t trees = before ++ t :: after ∧
      (∀ u ∈ before, u.weight ≤ t.weight) ∧ ∀ u ∈ after, t.weight < u.weight := by
  induction trees with
  | nil => exact ⟨[], [], rfl, rfl, by simp, by simp⟩
  | cons u rest ih =>
    obtain ⟨hu, hrest⟩ := List.pairwise_cons.1 h
    by_cases hlt : t.weight < u.weight
    · refine ⟨[], u :: rest, rfl, by rw [insert, if_pos hlt]; rfl, by simp, ?_⟩
      intro v hv
      rcases List.mem_cons.1 hv with rfl | hv
      · exact hlt
      · exact lt_of_lt_of_le hlt (hu v hv).1
    · obtain ⟨before, after, hsplit, hinsert, hbefore, hafter⟩ := ih hrest
      refine ⟨u :: before, after, by rw [hsplit]; rfl, ?_, ?_, hafter⟩
      · rw [insert, if_neg hlt, hinsert]
        rfl
      · intro v hv
        rcases List.mem_cons.1 hv with rfl | hv
        · exact not_lt.1 hlt
        · exact hbefore v hv

/-- A node that goes to its place keeps the order. -/
theorem pairwise_before_node {l r : CodeTree} {before after : List CodeTree}
    (h : (before ++ after).Pairwise Before) (hbefore : ∀ u ∈ before, u.weight ≤ (node l r).weight)
    (hafter : ∀ u ∈ after, (node l r).weight < u.weight) :
    (before ++ node l r :: after).Pairwise Before := by
  obtain ⟨h₁, h₂, h₁₂⟩ := List.pairwise_append.1 h
  refine List.pairwise_append.2 ⟨h₁, List.pairwise_cons.2 ⟨?_, h₂⟩, ?_⟩
  · intro u hu
    exact before_of_lt (hafter u hu)
  · intro u hu v hv
    rcases List.mem_cons.1 hv with rfl | hv
    · exact before_node (hbefore u hu)
    · exact h₁₂ u hu v hv

/-- **The share of a code space** that words of some lengths take up together. -/
def share (lengths : List ℕ) : ℚ := (lengths.map fun d => (1 / 2 : ℚ) ^ d).sum

@[simp] theorem share_cons (d : ℕ) (lengths : List ℕ) :
    share (d :: lengths) = (1 / 2) ^ d + share lengths := by
  rw [share, List.map_cons, List.sum_cons, share]

theorem share_eq_of_perm {lengths lengths' : List ℕ} (h : lengths.Perm lengths') :
    share lengths = share lengths' :=
  (h.map _).sum_eq

/-- **All subtrees** of a tree that lies `k` down, each with its depth. -/
def subtrees (k : ℕ) : CodeTree → List (CodeTree × ℕ)
  | leaf s w => [(leaf s w, k)]
  | node l r => (node l r, k) :: (l.subtrees (k + 1) ++ r.subtrees (k + 1))

/-- The subtrees below the root of a tree. -/
def descendants (k : ℕ) : CodeTree → List (CodeTree × ℕ)
  | leaf _ _ => []
  | node l r => l.subtrees (k + 1) ++ r.subtrees (k + 1)

theorem subtrees_eq_cons (t : CodeTree) (k : ℕ) : t.subtrees k = (t, k) :: t.descendants k := by
  cases t with
  | leaf s w => rfl
  | node l r => rfl

/-- **A forest and how it is joined to `root`**: its trees in order, each with the depth at which it
comes to lie, and all trees that are joined, from the first two to the root. -/
inductive Joining (root : CodeTree) : List (CodeTree × ℕ) → List (CodeTree × ℕ) → Prop
  /-- One tree is the root. -/
  | last : Joining root [(root, 0)] [(root, 0)]
  /-- The first two come to lie right below their node. -/
  | pair {t u : CodeTree} {d : ℕ} {before after order : List (CodeTree × ℕ)}
      (hsorted : ((t, d + 1) :: (u, d + 1) :: (before ++ after)).Pairwise fun x y => x.1.Before y.1)
      (hbefore : ∀ x ∈ before, x.1.weight ≤ (node t u).weight)
      (hafter : ∀ x ∈ after, (node t u).weight < x.1.weight)
      (h : Joining root (before ++ (node t u, d) :: after) order) :
      Joining root ((t, d + 1) :: (u, d + 1) :: (before ++ after))
        ((t, d + 1) :: (u, d + 1) :: order)

/-- **Any forest in order is joined so.** -/
theorem exists_joining (trees : List CodeTree) (hne : trees ≠ []) (hsorted : trees.Pairwise Before) :
    ∃ placed order, placed.map (·.1) = trees ∧ Joining (join trees) placed order := by
  induction trees using join.induct with
  | case1 => exact absurd rfl hne
  | case2 t =>
    rw [join]
    exact ⟨[(t, 0)], _, rfl, .last⟩
  | case3 t u rest ih =>
    have hrest : rest.Pairwise Before := (List.pairwise_cons.1 (List.pairwise_cons.1 hsorted).2).2
    obtain ⟨before, after, rfl, hinsert, hbefore, hafter⟩ := insert_eq_append (node t u) hrest
    rw [hinsert] at ih
    obtain ⟨placed, order, htrees, h⟩ :=
      ih (by simp) (pairwise_before_node hrest hbefore hafter)
    -- the place of the new node splits the depths as it splits the trees
    obtain ⟨placed₁, placed₂, rfl, rfl, hplaced₂⟩ := List.map_eq_append_iff.1 htrees
    obtain ⟨⟨v, d⟩, placed₃, rfl, hv, rfl⟩ := List.map_eq_cons_iff.1 hplaced₂
    simp only at hv
    subst hv
    refine ⟨(t, d + 1) :: (u, d + 1) :: (placed₁ ++ placed₃), (t, d + 1) :: (u, d + 1) :: order,
      by simp, ?_⟩
    rw [join, hinsert]
    refine .pair ?_ (fun x hx => hbefore _ (List.mem_map_of_mem hx))
      (fun x hx => hafter _ (List.mem_map_of_mem hx)) h
    have hmap : (((t, d + 1) :: (u, d + 1) :: (placed₁ ++ placed₃)).map (·.1)).Pairwise Before := by
      simpa using hsorted
    exact List.pairwise_map.1 hmap

namespace Joining

variable {root : CodeTree} {placed order : List (CodeTree × ℕ)}

/-- The trees of the forest are joined in the order in which they stand. -/
theorem placed_sublist (h : Joining root placed order) : placed.Sublist order := by
  induction h with
  | last => exact .refl _
  | pair hsorted hbefore hafter h ih =>
    refine .cons_cons _ (.cons_cons _ (.trans ?_ ih))
    exact (List.Sublist.refl _).append (List.sublist_cons_self _ _)

/-- What comes before all trees of the forest comes before all that are joined. -/
theorem before_order (h : Joining root placed order) {t : CodeTree}
    (ht : ∀ x ∈ placed, t.Before x.1) : ∀ x ∈ order, t.Before x.1 := by
  induction h with
  | last => exact ht
  | @pair l r d before after order hsorted hbefore hafter h ih =>
    have hl : t.Before l := ht _ List.mem_cons_self
    have hr : t.Before r := ht _ (List.mem_cons_of_mem _ List.mem_cons_self)
    have hrest : ∀ x ∈ before ++ after, t.Before x.1 := fun x hx =>
      ht x (List.mem_cons_of_mem _ (List.mem_cons_of_mem _ hx))
    have hnode : t.Before (node l r) := before_node (hl.1.trans (Nat.le_add_right _ _))
    have horder : ∀ x ∈ order, t.Before x.1 := by
      apply ih
      intro x hx
      rcases List.mem_cons.1 (List.perm_middle.mem_iff.1 hx) with rfl | hx
      · exact hnode
      · exact hrest x hx
    intro x hx
    rcases List.mem_cons.1 hx with rfl | hx
    · exact hl
    rcases List.mem_cons.1 hx with rfl | hx
    · exact hr
    · exact horder x hx

/-- **Trees are joined by weight**, and of equal weight leaves first. -/
theorem order_before (h : Joining root placed order) :
    order.Pairwise fun x y => x.1.Before y.1 := by
  induction h with
  | last => exact List.pairwise_singleton _ _
  | @pair l r d before after order hsorted hbefore hafter h ih =>
    obtain ⟨hl, hsorted⟩ := List.pairwise_cons.1 hsorted
    obtain ⟨hr, -⟩ := List.pairwise_cons.1 hsorted
    have horder : ∀ t : CodeTree, t.weight ≤ (node l r).weight →
        (∀ x ∈ before ++ after, t.Before x.1) → ∀ x ∈ order, t.Before x.1 := by
      intro t ht hrest
      apply h.before_order
      intro x hx
      rcases List.mem_cons.1 (List.perm_middle.mem_iff.1 hx) with rfl | hx
      · exact before_node ht
      · exact hrest x hx
    have hlorder := horder l (Nat.le_add_right _ _) fun x hx => hl x (List.mem_cons_of_mem _ hx)
    have hrorder := horder r (Nat.le_add_left _ _) hr
    refine List.pairwise_cons.2 ⟨?_, List.pairwise_cons.2 ⟨hrorder, ih⟩⟩
    intro x hx
    rcases List.mem_cons.1 hx with rfl | hx
    · exact hl _ List.mem_cons_self
    · exact hlorder x hx

/-- Depths go up along the order, and nothing lies more than one below a tree that is no heavier than
twice the lightest. -/
theorem descending_and_near (h : Joining root placed order) :
    (order.Pairwise fun x y => y.2 ≤ x.2) ∧
      ∀ m, (∀ x ∈ placed, m ≤ x.1.weight) → ∀ x ∈ placed, x.1.weight ≤ 2 * m →
        ∀ y ∈ order, y.2 ≤ x.2 + 1 := by
  induction h with
  | last =>
    refine ⟨List.pairwise_singleton _ _, ?_⟩
    intro m _ x _ _ y hy
    rw [List.mem_singleton.1 hy]
    exact Nat.zero_le _
  | @pair l r d before after order hsorted hbefore hafter h ih =>
    obtain ⟨hdescending, hnear⟩ := ih
    obtain ⟨hl, hsorted⟩ := List.pairwise_cons.1 hsorted
    obtain ⟨hr, -⟩ := List.pairwise_cons.1 hsorted
    have hlr : l.weight ≤ r.weight := (hl _ List.mem_cons_self).1
    have hweight : (node l r).weight = l.weight + r.weight := rfl
    -- all that is left weighs as much as the second tree, and the node no more than twice that
    have hbelow : ∀ y ∈ order, y.2 ≤ d + 1 := by
      refine hnear r.weight ?_ (node l r, d) (by simp) (by simp only; omega)
      intro x hx
      rcases List.mem_cons.1 (List.perm_middle.mem_iff.1 hx) with rfl | hx
      · simp only; omega
      · exact (hr x hx).1
    have habove : ∀ x ∈ before, d ≤ x.2 := by
      intro x hx
      have := hdescending.sublist h.placed_sublist
      exact (List.pairwise_append.1 this).2.2 x hx _ List.mem_cons_self
    have hall : ∀ y ∈ (l, d + 1) :: (r, d + 1) :: order, y.2 ≤ d + 1 := by
      intro y hy
      rcases List.mem_cons.1 hy with rfl | hy
      · exact le_rfl
      rcases List.mem_cons.1 hy with rfl | hy
      · exact le_rfl
      · exact hbelow y hy
    refine ⟨?_, ?_⟩
    · exact List.pairwise_cons.2 ⟨fun y hy => hall y (List.mem_cons_of_mem _ hy),
        List.pairwise_cons.2 ⟨hbelow, hdescending⟩⟩
    · intro m hm x hx hxm y hy
      have hy := hall y hy
      have hml := hm (l, d + 1) List.mem_cons_self
      simp only at hml
      rcases List.mem_cons.1 hx with rfl | hx
      · simp only; omega
      rcases List.mem_cons.1 hx with rfl | hx
      · simp only; omega
      rcases List.mem_append.1 hx with hx | hx
      · have := habove x hx
        omega
      · have := hafter x hx
        omega

/-- **What is joined later does not lie deeper.** -/
theorem order_descending (h : Joining root placed order) : order.Pairwise fun x y => y.2 ≤ x.2 :=
  h.descending_and_near.1

/-- A deeper tree is joined first. -/
theorem before_of_deeper (h : Joining root placed order) {x y : CodeTree × ℕ} (hx : x ∈ order)
    (hy : y ∈ order) (hlt : x.2 < y.2) : y.1.Before x.1 := by
  obtain ⟨i, hi, rfl⟩ := List.mem_iff_getElem.1 hx
  obtain ⟨j, hj, rfl⟩ := List.mem_iff_getElem.1 hy
  have hdescending := List.pairwise_iff_getElem.1 h.order_descending
  have hbefore := List.pairwise_iff_getElem.1 h.order_before
  rcases Nat.lt_trichotomy i j with hij | rfl | hij
  · have := hdescending i j hi hj hij
    omega
  · omega
  · exact hbefore j i hj hi hij

/-- **The leaves of the whole tree** are those of the forest's trees. -/
theorem depths_perm (h : Joining root placed order) :
    (root.depths 0).Perm (placed.flatMap fun x => x.1.depths x.2) := by
  induction h with
  | last => rw [List.flatMap_singleton]
  | pair hsorted hbefore hafter h ih =>
    refine ih.trans ((List.perm_middle.flatMap_right _).trans ?_)
    rw [List.flatMap_cons, List.flatMap_cons, List.flatMap_cons, depths, List.append_assoc]

/-- **The subtrees of the whole tree** are the trees that are joined, and what lies below those of the
forest. -/
theorem mem_subtrees_iff (h : Joining root placed order) {x : CodeTree × ℕ} :
    x ∈ root.subtrees 0 ↔ x ∈ order ∨ x ∈ placed.flatMap fun y => y.1.descendants y.2 := by
  induction h with
  | last =>
    rw [subtrees_eq_cons, List.flatMap_singleton, List.mem_cons, List.mem_singleton]
  | @pair l r d before after order hsorted hbefore hafter h ih =>
    have hmiddle : x ∈ (before ++ (node l r, d) :: after).flatMap (fun y => y.1.descendants y.2) ↔
        x ∈ l.subtrees (d + 1) ++ r.subtrees (d + 1) ∨
          x ∈ (before ++ after).flatMap fun y => y.1.descendants y.2 := by
      rw [(List.perm_middle.flatMap_right _).mem_iff, List.flatMap_cons, List.mem_append, descendants]
    rw [ih, hmiddle, subtrees_eq_cons l, subtrees_eq_cons r]
    simp only [List.flatMap_cons, List.mem_append, List.mem_cons]
    tauto

/-- The whole tree weighs what the forest weighs. -/
theorem weight_eq (h : Joining root placed order) :
    root.weight = (placed.map fun x => x.1.weight).sum := by
  induction h with
  | last => simp
  | @pair l r d before after order hsorted hbefore hafter h ih =>
    rw [ih, (List.perm_middle.map _).sum_eq]
    simp only [List.map_cons, List.sum_cons, weight]
    omega

/-- No tree of a forest lies at the root, unless it is the only one. -/
theorem depth_pos (h : Joining root placed order) (hlen : 1 < placed.length) :
    ∀ x ∈ placed, 0 < x.2 := by
  induction h with
  | last => simp at hlen
  | @pair l r d before after order hsorted hbefore hafter h ih =>
    intro x hx
    rcases List.mem_cons.1 hx with rfl | hx
    · exact Nat.succ_pos d
    rcases List.mem_cons.1 hx with rfl | hx
    · exact Nat.succ_pos d
    · have hmore : 0 < (before ++ after).length := List.length_pos_of_mem hx
      apply ih
      · rw [List.length_append] at hmore
        rw [List.length_append, List.length_cons]
        omega
      · exact List.perm_middle.mem_iff.2 (List.mem_cons_of_mem _ hx)

/-- **The trees of a forest share the whole code space.** -/
theorem share_eq_one (h : Joining root placed order) : share (placed.map (·.2)) = 1 := by
  induction h with
  | last => simp [share]
  | pair hsorted hbefore hafter h ih =>
    rw [share_eq_of_perm (List.perm_middle.map _)] at ih
    simp only [List.map_cons, share_cons, pow_succ] at ih ⊢
    linarith

end Joining

end CodeTree

end PackFormat
