import Mathlib.Data.Nat.Fib.Basic
import PackFormat.Pack
import PackFormat.Proofs.Huffman.Frequencies

/-!
# Deep trees need long byte strings

From the stop mark up to the root, each tree on the way weighs more than the one before
it by the weight of its neighbour, and that weighs more than the one before that: a
deeper tree is joined first, and at the same weight a leaf would have been. So the
weights on the way grow like the Fibonacci numbers, from the stop mark that weighs
nothing. Bytes that occur as often as those numbers say make the longest way.

* `CodeTree.Graded.slope_step`, `CodeTree.Graded.exists_slope`: one step up and all of
  them, and how much weighs what holds the stop mark.
* `CodeTree.mem_depths_join`: a forest of Fibonacci weights is joined to one long way.
* `Fibonacci`: bytes that occur so often. `Fibonacci.deepest_eq` makes them a tree.
* `codeLengths_depth`: **how deep the tree of a byte string can be.**
-/

namespace PackFormat

namespace CodeTree

theorem le_of_mem_subtrees {t : CodeTree} {k : ℕ} {x : CodeTree × ℕ} (hx : x ∈ t.subtrees k) :
    k ≤ x.2 := by
  induction t generalizing k with
  | leaf s w => rw [List.mem_singleton.1 hx]
  | node l r ihl ihr =>
    rcases List.mem_cons.1 hx with rfl | hx
    · exact le_rfl
    rcases List.mem_append.1 hx with hx | hx
    · exact (Nat.le_succ k).trans (ihl hx)
    · exact (Nat.le_succ k).trans (ihr hx)

/-- What hangs from a node is one deeper. -/
theorem children_mem {t l r : CodeTree} {k e : ℕ} (h : (node l r, e) ∈ t.subtrees k) :
    (l, e + 1) ∈ t.subtrees k ∧ (r, e + 1) ∈ t.subtrees k := by
  induction t generalizing k with
  | leaf s w => exact absurd (List.mem_singleton.1 h) (by simp)
  | node l' r' ihl ihr =>
    rcases List.mem_cons.1 h with heq | h
    · simp only [Prod.mk.injEq, node.injEq] at heq
      obtain ⟨⟨rfl, rfl⟩, rfl⟩ := heq
      refine ⟨List.mem_cons_of_mem _ (List.mem_append_left _ ?_),
        List.mem_cons_of_mem _ (List.mem_append_right _ ?_)⟩
      · rw [subtrees_eq_cons]; exact List.mem_cons_self
      · rw [subtrees_eq_cons]; exact List.mem_cons_self
    rcases List.mem_append.1 h with h | h
    · obtain ⟨hl, hr⟩ := ihl h
      exact ⟨List.mem_cons_of_mem _ (List.mem_append_left _ hl),
        List.mem_cons_of_mem _ (List.mem_append_left _ hr)⟩
    · obtain ⟨hl, hr⟩ := ihr h
      exact ⟨List.mem_cons_of_mem _ (List.mem_append_right _ hl),
        List.mem_cons_of_mem _ (List.mem_append_right _ hr)⟩

/-- What holds a leaf is the leaf, or a node above it. -/
theorem eq_or_lt_of_mem_subtrees {t : CodeTree} {s : Symbol} {w k d : ℕ}
    (h : (leaf s w, d) ∈ t.subtrees k) : (t = leaf s w ∧ k = d) ∨ (t.isLeaf = false ∧ k < d) := by
  cases t with
  | leaf s' w' =>
    obtain ⟨heq, rfl⟩ := Prod.mk.inj (List.mem_singleton.1 h)
    exact Or.inl ⟨heq.symm, rfl⟩
  | node l r =>
    rcases List.mem_cons.1 h with heq | h
    · cases heq
    have hle : k + 1 ≤ d := by
      rcases List.mem_append.1 h with h | h
      · exact le_of_mem_subtrees h
      · exact le_of_mem_subtrees h
    exact Or.inr ⟨rfl, hle⟩

/-- **A tree whose deeper parts are joined first**, with the stop mark `d` down, the only part that
weighs nothing. -/
structure Graded (t : CodeTree) (d : ℕ) : Prop where
  before : ∀ x ∈ t.subtrees 0, ∀ y ∈ t.subtrees 0, x.2 < y.2 → y.1.Before x.1
  pos : ∀ x ∈ t.subtrees 0, x = (leaf .stop 0, d) ∨ 0 < x.1.weight

/-- **How a part compares with the others of its depth**, when it holds the stop mark `i` further down:
the others weigh `q` at least, and it weighs less than `q` and any of them together. -/
structure Slope (t : CodeTree) (i k : ℕ) (u : CodeTree) (q : ℕ) : Prop where
  fib_le : Nat.fib (i + 1) ≤ q
  fib_le_weight : Nat.fib (i + 2) ≤ u.weight + 1
  others : ∀ x ∈ t.subtrees 0, x.2 = k → x.1 ≠ leaf .stop 0 →
    q ≤ x.1.weight ∧ u.weight + 1 ≤ q + x.1.weight

namespace Graded

variable {t : CodeTree} {d : ℕ}

/-- Any part but the stop mark weighs something. -/
theorem weight_pos (h : t.Graded d) {x : CodeTree × ℕ} (hx : x ∈ t.subtrees 0)
    (hne : x.1 ≠ leaf .stop 0) : 0 < x.1.weight := by
  rcases h.pos x hx with rfl | hpos
  · exact absurd rfl hne
  · exact hpos

/-- The stop mark lies nowhere else. -/
theorem ne_stop (h : t.Graded d) {x : CodeTree × ℕ} (hx : x ∈ t.subtrees 0) (hne : x.2 ≠ d) :
    x.1 ≠ leaf .stop 0 := by
  intro heq
  rcases h.pos x hx with rfl | hpos
  · exact hne rfl
  · rw [heq] at hpos
    exact lt_irrefl _ hpos

/-- **One step up**, from a part `u` that holds the stop mark to the node `w` above it and above its
neighbour `v`. -/
theorem slope_step (h : t.Graded d) {u v w : CodeTree} {i k q : ℕ} (hslope : t.Slope i (k + 1) u q)
    (hu : (u, k + 1) ∈ t.subtrees 0) (hv : (v, k + 1) ∈ t.subtrees 0) (hw : (w, k) ∈ t.subtrees 0)
    (hnode : w.isLeaf = false) (hweight : w.weight = u.weight + v.weight)
    (hstop : (u = leaf .stop 0 ∧ k + 1 = d) ∨ (u.isLeaf = false ∧ k + 1 < d)) :
    t.Slope (i + 1) k w (u.weight + 1) := by
  have hne : ∀ {x}, (x, k + 1) ∈ t.subtrees 0 → k + 1 < d → x ≠ leaf .stop 0 :=
    fun hx hlt => h.ne_stop hx hlt.ne
  have hvne : v ≠ leaf .stop 0 := by
    rcases hstop with ⟨rfl, -⟩ | ⟨-, hlt⟩
    · -- two stop marks would weigh nothing together
      rintro rfl
      have hpos := h.weight_pos hw (by rintro rfl; cases hnode)
      simp only [hweight, weight] at hpos
      omega
    · exact hne hv hlt
  obtain ⟨hqv, -⟩ := hslope.others _ hv rfl hvne
  simp only at hqv
  refine ⟨hslope.fib_le_weight, ?_, ?_⟩
  · have hfib : Nat.fib (i + 1 + 2) = Nat.fib (i + 1) + Nat.fib (i + 2) := Nat.fib_add_two
    have := hslope.fib_le
    have := hslope.fib_le_weight
    omega
  · intro x hx hdepth hxne
    have hvx : v.weight ≤ x.1.weight := (h.before x hx _ hv (by simp only; omega)).1
    refine ⟨?_, by omega⟩
    rcases hstop with ⟨rfl, -⟩ | ⟨huleaf, hlt⟩
    · have := h.weight_pos hx hxne
      simp only [weight]
      omega
    obtain ⟨x, e⟩ := x
    simp only at hdepth hxne ⊢
    subst hdepth
    cases x with
    | leaf s m =>
      -- a leaf that weighed no more would have been joined before the node that lies deeper
      exact (h.before _ hx _ hu (Nat.lt_succ_self _)).2 huleaf rfl
    | node y z =>
      obtain ⟨hy, hz⟩ := children_mem hx
      obtain ⟨hqy, -⟩ := hslope.others _ hy rfl (hne hy hlt)
      obtain ⟨-, huz⟩ := hslope.others _ hz rfl (hne hz hlt)
      simp only [weight] at hqy huz ⊢
      omega

/-- **What holds the stop mark weighs as much as Fibonacci's number says**, for how far down it lies. -/
theorem exists_slope (h : t.Graded d) {u : CodeTree} {k i : ℕ}
    (hu : ∀ x ∈ u.subtrees k, x ∈ t.subtrees 0) (hstop : (leaf .stop 0, d) ∈ u.subtrees k)
    (hi : k + i = d) : ∃ q, t.Slope i k u q := by
  induction u generalizing k i with
  | leaf s m =>
    obtain ⟨heq, rfl⟩ := Prod.mk.inj (List.mem_singleton.1 hstop)
    obtain rfl : i = 0 := by omega
    rw [← heq]
    refine ⟨1, le_rfl, le_rfl, ?_⟩
    intro x hx _ hne
    have := h.weight_pos hx hne
    simp only [weight]
    omega
  | node l r ihl ihr =>
    have hself : (node l r, k) ∈ t.subtrees 0 := hu _ List.mem_cons_self
    obtain ⟨hl, hr⟩ := children_mem hself
    rcases List.mem_cons.1 hstop with heq | hstop
    · cases heq
    have hlt : k < d := by
      rcases List.mem_append.1 hstop with hstop | hstop
      · exact le_of_mem_subtrees hstop
      · exact le_of_mem_subtrees hstop
    obtain ⟨j, rfl⟩ : ∃ j, i = j + 1 := ⟨i - 1, by omega⟩
    rcases List.mem_append.1 hstop with hstop | hstop
    · have hsub : ∀ x ∈ l.subtrees (k + 1), x ∈ t.subtrees 0 := fun x hx =>
        hu x (List.mem_cons_of_mem _ (List.mem_append_left _ hx))
      obtain ⟨q, hslope⟩ := ihl hsub hstop (i := j) (by omega)
      exact ⟨_, h.slope_step hslope hl hr hself rfl rfl (eq_or_lt_of_mem_subtrees hstop)⟩
    · have hsub : ∀ x ∈ r.subtrees (k + 1), x ∈ t.subtrees 0 := fun x hx =>
        hu x (List.mem_cons_of_mem _ (List.mem_append_right _ hx))
      obtain ⟨q, hslope⟩ := ihr hsub hstop (i := j) (by omega)
      exact ⟨_, h.slope_step hslope hr hl hself rfl (Nat.add_comm _ _)
        (eq_or_lt_of_mem_subtrees hstop)⟩

end Graded

theorem mem_depths_succ {t : CodeTree} {s : Symbol} {k d : ℕ} (h : (s, d) ∈ t.depths k) :
    (s, d + 1) ∈ t.depths (k + 1) := by
  induction t generalizing k with
  | leaf s' w =>
    obtain ⟨rfl, rfl⟩ := Prod.mk.inj (List.mem_singleton.1 h)
    exact List.mem_singleton_self _
  | node l r ihl ihr =>
    rcases List.mem_append.1 h with h | h
    · exact List.mem_append_left _ (ihl h)
    · exact List.mem_append_right _ (ihr h)

/-- **A forest of Fibonacci weights is joined to one long way**: each new node weighs less than the
next tree but one, and is joined with the next. -/
theorem mem_depths_join {t : CodeTree} {rest : List CodeTree} {s : Symbol} {i d : ℕ}
    (ht : t.weight + 1 = Nat.fib (i + 3))
    (hrest : ∀ j (hj : j < rest.length), rest[j].weight = Nat.fib (i + 2 + j))
    (hs : (s, d) ∈ t.depths 0) : (s, d + rest.length) ∈ (join (insert t rest)).depths 0 := by
  induction rest generalizing t i d with
  | nil => simpa [insert, join] using hs
  | cons c rest ih =>
    have hc : c.weight = Nat.fib (i + 2) := hrest 0 (Nat.succ_pos _)
    have hrest' : ∀ j (hj : j < rest.length), rest[j].weight = Nat.fib (i + 1 + 2 + j) := by
      intro j hj
      have hj' := hrest (j + 1) (Nat.succ_lt_succ hj)
      rw [List.getElem_cons_succ] at hj'
      rw [hj']
      congr 1
      omega
    have hinsert : insert t (c :: rest) = c :: insert t rest := by
      have hlt : Nat.fib (i + 2) < Nat.fib (i + 3) := Nat.fib_lt_fib_succ (by omega)
      rw [insert, if_neg (by omega)]
    have hinsert' : insert t rest = t :: rest := by
      cases rest with
      | nil => rfl
      | cons c' rest =>
        have hc' : c'.weight = Nat.fib (i + 3) := hrest' 0 (Nat.succ_pos _)
        rw [insert, if_pos (by omega)]
    have hnode : (node c t).weight + 1 = Nat.fib (i + 1 + 3) := by
      have hfib : Nat.fib (i + 1 + 3) = Nat.fib (i + 2) + Nat.fib (i + 3) := Nat.fib_add_two
      simp only [weight]
      omega
    have hmem := ih hnode hrest' (List.mem_append_right _ (mem_depths_succ hs))
    rw [hinsert, hinsert', join, List.length_cons, ← Nat.add_assoc, Nat.add_right_comm]
    exact hmem

end CodeTree

/-- A tree of a byte string has its deeper parts joined first. -/
theorem Joined.graded {data : List UInt8} {d : ℕ} {b : UInt8} {rest : List (Symbol × ℕ)}
    {order : List (CodeTree × ℕ)} (hb : b ∈ data)
    (h : Joined data ((.stop, d) :: (.byte b, d) :: rest)
      ((leafOf data .stop, d) :: (leafOf data (.byte b), d) :: order)) :
    (codeTree data).Graded d := by
  refine ⟨?_, ?_⟩
  · intro x hx y hy hlt
    exact h.joining.before_of_deeper (h.mem_subtrees_iff.1 hx) (h.mem_subtrees_iff.1 hy) hlt
  · intro x hx
    have hpos : 0 < (leafOf data (.byte b)).weight := frequency_pos hb
    have hbefore := (List.pairwise_cons.1 (List.pairwise_cons.1 h.joining.order_before).2).1
    rcases List.mem_cons.1 (h.mem_subtrees_iff.1 hx) with rfl | hx
    · exact Or.inl rfl
    rcases List.mem_cons.1 hx with rfl | hx
    · exact Or.inr hpos
    · exact Or.inr (lt_of_lt_of_le hpos (hbefore x hx).1)

/-- **How long a byte string is for how deep its tree.** -/
theorem fib_deepest_le {data : List UInt8} (hne : data ≠ []) :
    Nat.fib (deepest (codeLengths data) + 2) ≤ data.length + 1 := by
  obtain ⟨entries, order, h⟩ := exists_joined data
  obtain ⟨b, d, rest, order', hb, rfl, rfl⟩ := h.first_pair hne
  obtain ⟨q, hslope⟩ := (h.graded hb).exists_slope (fun _ hx => hx)
    (h.mem_subtrees_iff.2 List.mem_cons_self) (Nat.zero_add _)
  rw [h.codeLengths_eq, h.deepest_eq, ← h.weight_codeTree]
  exact hslope.fib_le_weight

/-- **Some bytes occur as often as Fibonacci's numbers say**, the first once, and no others occur. -/
structure Fibonacci (data bytes : List UInt8) : Prop where
  nodup : bytes.Nodup
  count : ∀ i (h : i < bytes.length), data.count bytes[i] = Nat.fib (i + 1)
  mem : ∀ b ∈ data, b ∈ bytes

namespace Fibonacci

variable {data bytes : List UInt8}

theorem alphabet_perm (h : Fibonacci data bytes) : (alphabet data).Perm bytes := by
  refine (List.perm_ext_iff_of_nodup (nodup_alphabet data) h.nodup).2 ?_
  intro b
  rw [mem_alphabet]
  refine ⟨h.mem b, fun hb => ?_⟩
  obtain ⟨i, hi, rfl⟩ := List.mem_iff_getElem.1 hb
  refine List.count_pos_iff.1 ?_
  rw [h.count i hi]
  exact Nat.fib_pos.2 (Nat.succ_pos i)

/-- The stop mark and the bytes weigh Fibonacci's numbers from the first on, which is nothing. -/
theorem frequency_perm (h : Fibonacci data bytes) :
    ((coded data).map (frequency data)).Perm ((List.range (bytes.length + 1)).map Nat.fib) := by
  have hcounts : bytes.map data.count = ((List.range bytes.length).map Nat.succ).map Nat.fib := by
    apply List.ext_getElem
    · rw [List.length_map, List.length_map, List.length_map, List.length_range]
    · intro i hi _
      rw [List.length_map] at hi
      rw [List.getElem_map, List.getElem_map, List.getElem_map, List.getElem_range, h.count i hi]
  rw [coded, List.map_append, List.map_map, List.range_succ_eq_map, List.map_cons]
  refine List.perm_append_comm.trans (.cons 0 ?_)
  exact (h.alphabet_perm.map _).trans (.of_eq hcounts)

theorem length_eq (h : Fibonacci data bytes) : data.length + 1 = Nat.fib (bytes.length + 2) := by
  rw [← sum_frequency, h.frequency_perm.sum_eq, Nat.fib_succ_eq_succ_sum]
  rfl

/-- **In order, they are Fibonacci's numbers one by one.** -/
theorem map_frequency (h : Fibonacci data bytes) {symbols : List Symbol}
    (hperm : symbols.Perm (coded data)) (hsorted : symbols.Pairwise (Rarer data)) :
    symbols.map (frequency data) = (List.range (bytes.length + 1)).map Nat.fib := by
  refine List.Perm.eq_of_pairwise' (r := (· ≤ ·)) ?_ ?_ ((hperm.map _).trans h.frequency_perm)
  · exact List.pairwise_map.2 (hsorted.imp fun hrarer => hrarer.before.1)
  · exact List.pairwise_map.2 (List.pairwise_lt_range.imp fun hlt => Nat.fib_mono hlt.le)

/-- **Such bytes make a tree as deep as they are many.** -/
theorem deepest_eq (h : Fibonacci data bytes) (hne : bytes ≠ []) :
    deepest (codeLengths data) = bytes.length := by
  obtain ⟨entries, order, hjoined⟩ := exists_joined data
  obtain ⟨symbols, hforest, hperm, hsorted⟩ := forest_weighted data
  have hfrequency := h.map_frequency hperm hsorted
  obtain ⟨n, hn⟩ := Nat.exists_eq_succ_of_ne_zero (List.length_pos_iff.2 hne).ne'
  have hlength : symbols.length = n + 2 := by
    have hlengths := congrArg List.length hfrequency
    rwa [List.length_map, List.length_map, List.length_range, hn] at hlengths
  have hfib : ∀ i (hi : i < symbols.length), frequency data symbols[i] = Nat.fib i := by
    intro i hi
    have hget := List.getElem_of_eq hfrequency (i := i) (by rwa [List.length_map])
    rwa [List.getElem_map, List.getElem_map, List.getElem_range] at hget
  obtain ⟨s₀, s₁, rest, rfl⟩ : ∃ s₀ s₁ rest, symbols = s₀ :: s₁ :: rest := by
    match symbols, hlength with
    | s₀ :: s₁ :: rest, _ => exact ⟨s₀, s₁, rest, rfl⟩
  have hrest : rest.length = n := Nat.succ_injective (Nat.succ_injective hlength)
  have h₀ : frequency data s₀ = 0 := hfib 0 (Nat.succ_pos _)
  have h₁ : frequency data s₁ = 1 := hfib 1 (Nat.succ_lt_succ (Nat.succ_pos _))
  have hstop : s₀ = .stop := by
    rcases mem_coded.1 (hperm.mem_iff.1 List.mem_cons_self) with hstop | ⟨b, hb, rfl⟩
    · exact hstop
    · exact absurd h₀ (frequency_pos hb).ne'
  -- the first two weigh one, and from there on the forest is joined to one way
  have hmem : (.stop, 1 + (rest.map (leafOf data)).length) ∈ (codeTree data).depths 0 := by
    rw [codeTree, hforest, List.map_cons, List.map_cons, CodeTree.join]
    refine CodeTree.mem_depths_join (i := 0) ?_ ?_ ?_
    · change frequency data s₀ + frequency data s₁ + 1 = 2
      rw [h₀, h₁]
    · intro j hj
      rw [List.length_map] at hj
      have hj' := hfib (j + 2) (by simp only [List.length_cons]; omega)
      rw [List.getElem_map, Nat.add_comm (0 + 2)]
      exact hj'
    · rw [hstop]
      exact List.mem_cons_self
  rw [List.length_map, hrest] at hmem
  have hdeepest := hjoined.stop_mem_iff.1 ((inOrder_perm _).mem_iff.2 hmem)
  rw [hjoined.codeLengths_eq, ← hdeepest, hn]
  exact Nat.add_comm 1 n

/-- There are such byte strings. -/
theorem exists_of_nodup (hnodup : bytes.Nodup) : ∃ data, Fibonacci data bytes := by
  induction bytes using List.reverseRecOn with
  | nil => exact ⟨[], List.nodup_nil, by simp, by simp⟩
  | append_singleton bytes b ih =>
    have hb : b ∉ bytes := by
      intro hb
      exact (List.nodup_append.1 hnodup).2.2 b hb b (List.mem_singleton_self b) rfl
    obtain ⟨data, h⟩ := ih (List.nodup_append.1 hnodup).1
    refine ⟨data ++ List.replicate (Nat.fib (bytes.length + 1)) b, hnodup, ?_, ?_⟩
    · intro i hi
      rw [List.length_append, List.length_singleton] at hi
      rw [List.count_append, List.count_replicate]
      by_cases hlt : i < bytes.length
      · have hne : b ≠ bytes[i] := by
          rintro rfl
          exact hb (List.getElem_mem hlt)
        rw [List.getElem_append_left hlt, h.count i hlt, if_neg (by simpa using hne), Nat.add_zero]
      · obtain rfl : i = bytes.length := by omega
        have hcount : data.count b = 0 := List.count_eq_zero.2 fun hmem => hb (h.mem b hmem)
        rw [List.getElem_concat_length rfl, hcount, if_pos (by simp), Nat.zero_add]
    · intro c hc
      rcases List.mem_append.1 hc with hc | hc
      · exact List.mem_append_left _ (h.mem c hc)
      · exact List.mem_append_right _ (List.mem_singleton.2 (List.eq_of_mem_replicate hc))

end Fibonacci

/-- What is refused as too deep is. -/
theorem lt_of_pack_tooDeep {data : List UInt8} {levels : ℕ}
    (h : pack data = .error (.tooDeep levels)) :
    data ≠ [] ∧ Header.maxDepth < deepest (codeLengths data) := by
  unfold pack at h
  split at h
  · cases h
  rename_i hempty
  split at h
  · cases h
  simp only at h
  split at h
  · rename_i hdeep
    exact ⟨fun hnil => hempty (by rw [hnil]; rfl), hdeep⟩
  · split at h
    · cases h
    · cases h

/-- **How deep the tree of a byte string can be**: deep trees take long byte strings, too long for what
is shorter than 196417 bytes to be refused as too deep. Where the bytes occur as often as Fibonacci's
numbers say, the byte string is no longer than it must be, and there is one for each depth that has
bytes enough. -/
theorem codeLengths_depth :
    (∀ data : List UInt8, data ≠ [] →
      Nat.fib (deepest (codeLengths data) + 2) - 1 ≤ data.length) ∧
    (∀ data : List UInt8, data.length < Nat.fib 27 - 1 →
      ∀ levels, pack data ≠ .error (.tooDeep levels)) ∧
    Nat.fib 27 - 1 = 196417 ∧
    (∀ data bytes : List UInt8, bytes ≠ [] → Fibonacci data bytes →
      deepest (codeLengths data) = bytes.length ∧
        data.length = Nat.fib (bytes.length + 2) - 1) ∧
    ∀ d ≤ 256, ∃ data bytes : List UInt8, bytes.length = d ∧ Fibonacci data bytes := by
  refine ⟨?_, ?_, by decide +kernel, ?_, ?_⟩
  · intro data hne
    have := fib_deepest_le hne
    omega
  · intro data hlen levels hpack
    obtain ⟨hne, hdeep⟩ := lt_of_pack_tooDeep hpack
    have hmono : Nat.fib 27 ≤ Nat.fib (deepest (codeLengths data) + 2) := by
      refine Nat.fib_mono ?_
      simp only [Header.maxDepth] at hdeep
      omega
    have := fib_deepest_le hne
    omega
  · intro data bytes hne h
    have := h.length_eq
    exact ⟨h.deepest_eq hne, by omega⟩
  · intro d hd
    obtain ⟨data, h⟩ := Fibonacci.exists_of_nodup
      (nodup_of_sorted (bytes_sorted.sublist (List.take_sublist d _)))
    exact ⟨data, _, by simpa using hd, h⟩

/-- Three bytes of frequencies one, one and two. -/
theorem codeLengths_depth_four_bytes :
    let data : List UInt8 := [66, 67, 65, 67]
    data ≠ [] ∧ data.length < Nat.fib 27 - 1 ∧ Fibonacci data [65, 66, 67] ∧
      deepest (codeLengths data) = 3 ∧ data.length = Nat.fib 5 - 1 ∧
      ∀ levels, pack data ≠ .error (.tooDeep levels) := by
  intro data
  obtain ⟨-, hpack, hlen, hfib, -⟩ := codeLengths_depth
  have hshort : data.length < Nat.fib 27 - 1 := by rw [hlen]; decide
  have h : Fibonacci data [65, 66, 67] := ⟨by decide, by decide, by simp [data]⟩
  obtain ⟨hdeep, hlength⟩ := hfib data [65, 66, 67] (by decide) h
  exact ⟨by decide, hshort, h, hdeep, hlength, hpack data hshort⟩

end PackFormat
