import PackFormat.Proofs.Huffman.Joining
import PackFormat.Proofs.Huffman.Lengths

/-!
# Rare symbols have long codes

The leaves of a byte string's tree stand in order before they are joined: the stop mark
first, since it weighs nothing, then the bytes by how often they occur. So code lengths
go down from rare symbols to frequent ones, and the stop mark need not change places
with anything to have one of the longest.

* `exists_joined`: **the symbols in the order in which they are joined**, with the
  depths of the tree.
* `Joined.le_of_rarer`: a rarer symbol lies as deep at least.
* `Joined.stop_mem_iff`: the stop mark lies deepest.
* `codeLengths_complete`: **the code lengths of a byte string are complete and go by
  frequency.**
-/

namespace PackFormat

/-- How often a symbol occurs in a byte string. The stop mark does not. -/
def frequency (data : List UInt8) : Symbol → ℕ
  | .byte b => data.count b
  | .stop => 0

/-- **The rarer of two symbols**, and of two that are as rare the first. -/
def Rarer (data : List UInt8) (s t : Symbol) : Prop :=
  frequency data s < frequency data t ∨ frequency data s = frequency data t ∧ s.rank < t.rank

/-- The leaf of a symbol. -/
def leafOf (data : List UInt8) (s : Symbol) : CodeTree := .leaf s (frequency data s)

variable {data : List UInt8} {s t : Symbol}

theorem Rarer.asymm (h : Rarer data s t) : ¬Rarer data t s := by
  intro h'
  rcases h with h | ⟨h, hrank⟩
  · rcases h' with h' | ⟨h', -⟩
    · omega
    · omega
  · rcases h' with h' | ⟨-, hrank'⟩
    · omega
    · omega

/-- The rarer symbol's leaf is joined first. -/
theorem Rarer.before (h : Rarer data s t) : (leafOf data s).Before (leafOf data t) := by
  refine ⟨?_, fun hleaf => absurd hleaf (by simp [leafOf, CodeTree.isLeaf])⟩
  change frequency data s ≤ frequency data t
  rcases h with h | ⟨h, -⟩
  · exact h.le
  · exact h.le

theorem frequency_pos {b : UInt8} (hb : b ∈ data) : 0 < frequency data (.byte b) :=
  List.count_pos_iff.2 hb

theorem mem_coded : s ∈ coded data ↔ s = .stop ∨ ∃ b ∈ data, s = .byte b := by
  rw [coded, List.mem_append, List.mem_map, List.mem_singleton]
  constructor
  · rintro (⟨b, hb, rfl⟩ | rfl)
    · exact Or.inr ⟨b, mem_alphabet.1 hb, rfl⟩
    · exact Or.inl rfl
  · rintro (rfl | ⟨b, hb, rfl⟩)
    · exact Or.inr rfl
    · exact Or.inl ⟨b, mem_alphabet.2 hb, rfl⟩

/-- A sum over the coded symbols is one over the bytes that occur, and the stop mark's share. -/
theorem sum_coded {M : Type} [AddCommMonoid M] (data : List UInt8) (f : Symbol → M) :
    ((coded data).map f).sum = ∑ b ∈ data.toFinset, f (.byte b) + f .stop := by
  have hbytes : data.toFinset = (alphabet data).toFinset := by
    ext b
    rw [List.mem_toFinset, List.mem_toFinset, mem_alphabet]
  rw [coded, List.map_append, List.sum_append, List.map_map, hbytes,
    List.sum_toFinset _ (nodup_alphabet data), List.map_singleton, List.sum_singleton]
  rfl

/-- All frequencies together are the length of the byte string. -/
theorem sum_frequency (data : List UInt8) :
    ((coded data).map (frequency data)).sum = data.length := by
  rw [sum_coded]
  simp only [frequency, add_zero]
  exact List.sum_toFinset_count_eq_length data

/-- Nothing is rarer than the stop mark. -/
theorem not_rarer_stop (hs : s ∈ coded data) : ¬Rarer data s .stop := by
  rintro (h | ⟨h, hrank⟩)
  · exact Nat.not_lt_zero _ h
  · rcases mem_coded.1 hs with rfl | ⟨b, hb, rfl⟩
    · exact lt_irrefl _ hrank
    · exact (frequency_pos hb).ne' h

/-- The coded symbols are listed in order. -/
theorem coded_sorted (data : List UInt8) : (coded data).Pairwise fun s t => s.rank < t.rank := by
  have hbytes : ((alphabet data).map Symbol.byte).Pairwise fun s t => s.rank < t.rank :=
    List.pairwise_map.2 (alphabet_sorted data)
  refine List.pairwise_append.2 ⟨hbytes, List.pairwise_singleton _ _, ?_⟩
  intro s hs t ht
  obtain ⟨b, -, rfl⟩ := List.mem_map.1 hs
  rw [List.mem_singleton.1 ht]
  exact b.toNat_lt

theorem weighted_eq (data : List UInt8) : weighted data = (coded data).map (leafOf data) := by
  rw [weighted, coded, List.map_append, List.map_map]
  rfl

/-- **Leaves that are put in one by one**, in the order of their symbols, stand by frequency. -/
theorem foldl_insert_leafOf (data : List UInt8) (todo : List Symbol) {done : List Symbol}
    (hdone : done.Pairwise (Rarer data)) (htodo : todo.Pairwise fun s t => s.rank < t.rank)
    (hcross : ∀ s ∈ done, ∀ t ∈ todo, s.rank < t.rank) :
    ∃ symbols : List Symbol,
      (todo.map (leafOf data)).foldl (fun f t => CodeTree.insert t f) (done.map (leafOf data)) =
        symbols.map (leafOf data) ∧
      symbols.Perm (todo ++ done) ∧ symbols.Pairwise (Rarer data) := by
  induction todo generalizing done with
  | nil => exact ⟨done, rfl, .refl _, hdone⟩
  | cons t todo ih =>
    obtain ⟨ht, htodo⟩ := List.pairwise_cons.1 htodo
    have hbefore : (done.map (leafOf data)).Pairwise CodeTree.Before :=
      List.pairwise_map.2 (hdone.imp Rarer.before)
    obtain ⟨before, after, hsplit, hinsert, hlight, hheavy⟩ :=
      CodeTree.insert_eq_append (leafOf data t) hbefore
    obtain ⟨done₁, done₂, rfl, rfl, rfl⟩ := List.map_eq_append_iff.1 hsplit
    obtain ⟨h₁, h₂, h₁₂⟩ := List.pairwise_append.1 hdone
    have hdone' : (done₁ ++ t :: done₂).Pairwise (Rarer data) := by
      refine List.pairwise_append.2 ⟨h₁, List.pairwise_cons.2 ⟨?_, h₂⟩, ?_⟩
      · intro s hs
        exact Or.inl (hheavy _ (List.mem_map_of_mem hs))
      · intro s hs u hu
        rcases List.mem_cons.1 hu with rfl | hu
        · -- a symbol that is put in goes behind those that are as rare, and they come before it
          have hrank := hcross s (List.mem_append_left _ hs) u List.mem_cons_self
          have hle : frequency data s ≤ frequency data u := hlight _ (List.mem_map_of_mem hs)
          rcases Nat.lt_or_eq_of_le hle with hlt | heq
          · exact Or.inl hlt
          · exact Or.inr ⟨heq, hrank⟩
        · exact h₁₂ s hs u hu
    have hcross' : ∀ s ∈ done₁ ++ t :: done₂, ∀ u ∈ todo, s.rank < u.rank := by
      intro s hs u hu
      rcases List.mem_cons.1 (List.perm_middle.mem_iff.1 hs) with rfl | hs
      · exact ht u hu
      · exact hcross s hs u (List.mem_cons_of_mem _ hu)
    obtain ⟨symbols, hfold, hperm, hsorted⟩ := ih hdone' htodo hcross'
    refine ⟨symbols, ?_, ?_, hsorted⟩
    · rw [List.map_cons, List.foldl_cons, hinsert, ← hfold, List.map_append, List.map_cons]
    · refine hperm.trans ((List.perm_middle.append_left todo).trans ?_)
      exact List.perm_middle

/-- **A forest of leaves stands by frequency.** -/
theorem forest_weighted (data : List UInt8) :
    ∃ symbols : List Symbol, CodeTree.forest (weighted data) = symbols.map (leafOf data) ∧
      symbols.Perm (coded data) ∧ symbols.Pairwise (Rarer data) := by
  obtain ⟨symbols, hfold, hperm, hsorted⟩ :=
    foldl_insert_leafOf data (coded data) List.Pairwise.nil (coded_sorted data) (by simp)
  rw [List.append_nil] at hperm
  exact ⟨symbols, by rw [weighted_eq]; exact hfold, hperm, hsorted⟩

/-- What is paired with values of a function is paired with their arguments. -/
theorem exists_pairs {α β γ : Type} (f : α → β) {xs : List α} {pairs : List (β × γ)}
    (h : pairs.map (·.1) = xs.map f) :
    ∃ entries : List (α × γ), pairs = entries.map (fun x => (f x.1, x.2)) ∧
      entries.map (·.1) = xs := by
  induction xs generalizing pairs with
  | nil => exact ⟨[], List.map_eq_nil_iff.1 h, rfl⟩
  | cons x xs ih =>
    obtain ⟨⟨y, c⟩, rest, rfl, hy, hrest⟩ := List.map_eq_cons_iff.1 h
    obtain ⟨entries, rfl, rfl⟩ := ih hrest
    simp only at hy
    exact ⟨(x, c) :: entries, by rw [List.map_cons, hy], rfl⟩

/-- **The symbols of a byte string in the order in which they are joined**, the rarest first, each with
its depth in the tree, and all trees that are joined. -/
structure Joined (data : List UInt8) (entries : List (Symbol × ℕ)) (order : List (CodeTree × ℕ)) :
    Prop where
  joining : (codeTree data).Joining (entries.map fun x => (leafOf data x.1, x.2)) order
  symbols : (entries.map (·.1)).Perm (coded data)
  sorted : entries.Pairwise fun x y => Rarer data x.1 y.1
  lengths : (treeLengths data).Perm entries

/-- **There is such an order.** -/
theorem exists_joined (data : List UInt8) : ∃ entries order, Joined data entries order := by
  obtain ⟨symbols, hforest, hperm, hsorted⟩ := forest_weighted data
  have hbefore : (symbols.map (leafOf data)).Pairwise CodeTree.Before :=
    List.pairwise_map.2 (hsorted.imp Rarer.before)
  have hne : symbols.map (leafOf data) ≠ [] := by
    intro h
    have hlen := hperm.length_eq
    rw [List.map_eq_nil_iff.1 h] at hlen
    simp [coded] at hlen
  obtain ⟨placed, order, htrees, h⟩ := CodeTree.exists_joining _ hne hbefore
  obtain ⟨entries, rfl, rfl⟩ := exists_pairs (leafOf data) htrees
  rw [← hforest] at h
  refine ⟨entries, order, h, hperm, List.pairwise_map.1 hsorted, ?_⟩
  have hdepths := h.depths_perm
  rw [List.flatMap_map] at hdepths
  have hsingle : (entries.flatMap fun x => (leafOf data x.1).depths x.2) = entries := by
    simp only [leafOf, CodeTree.depths]
    exact List.flatMap_singleton' entries
  rw [hsingle] at hdepths
  exact (inOrder_perm _).trans hdepths

namespace Joined

variable {entries : List (Symbol × ℕ)} {order : List (CodeTree × ℕ)}

theorem descending (h : Joined data entries order) : entries.Pairwise fun x y => y.2 ≤ x.2 :=
  List.pairwise_map.1 (h.joining.order_descending.sublist h.joining.placed_sublist)

/-- **A rarer symbol lies as deep at least.** -/
theorem le_of_rarer (h : Joined data entries order) {x y : Symbol × ℕ} (hx : x ∈ entries)
    (hy : y ∈ entries) (hrarer : Rarer data x.1 y.1) : y.2 ≤ x.2 := by
  obtain ⟨i, hi, rfl⟩ := List.mem_iff_getElem.1 hx
  obtain ⟨j, hj, rfl⟩ := List.mem_iff_getElem.1 hy
  rcases Nat.lt_trichotomy i j with hij | rfl | hij
  · exact List.pairwise_iff_getElem.1 h.descending i j hi hj hij
  · exact le_rfl
  · exact absurd hrarer (List.pairwise_iff_getElem.1 h.sorted j i hj hi hij).asymm

theorem mem_iff (h : Joined data entries order) {x : Symbol × ℕ} :
    x ∈ treeLengths data ↔ x ∈ entries := h.lengths.mem_iff

/-- A sum over the symbols is one over the bytes that occur, and the stop mark's share. -/
theorem sum_eq {M : Type} [AddCommMonoid M] (h : Joined data entries order) (f : Symbol → M) :
    (entries.map fun x => f x.1).sum = ∑ b ∈ data.toFinset, f (.byte b) + f .stop := by
  rw [← sum_coded, ← (h.symbols.map f).sum_eq, List.map_map]
  rfl

/-- **The tree weighs as much as the byte string is long.** -/
theorem weight_codeTree (h : Joined data entries order) : (codeTree data).weight = data.length := by
  rw [h.joining.weight_eq, List.map_map, ← sum_frequency, ← (h.symbols.map _).sum_eq, List.map_map]
  rfl

/-- The subtrees of the tree are the trees that are joined. -/
theorem mem_subtrees_iff (h : Joined data entries order) {x : CodeTree × ℕ} :
    x ∈ (codeTree data).subtrees 0 ↔ x ∈ order := by
  rw [h.joining.mem_subtrees_iff, List.flatMap_map]
  simp [leafOf, CodeTree.descendants]

/-- The stop mark is the first to be joined. -/
theorem stop_first (h : Joined data entries order) :
    ∃ d rest, entries = (.stop, d) :: rest := by
  have hstop : .stop ∈ entries.map (·.1) := h.symbols.mem_iff.2 (mem_coded.2 (Or.inl rfl))
  cases entries with
  | nil => exact absurd hstop List.not_mem_nil
  | cons x rest =>
    obtain ⟨s, d⟩ := x
    have hcoded : s ∈ coded data := h.symbols.mem_iff.1 List.mem_cons_self
    rcases List.mem_cons.1 hstop with heq | hstop
    · simp only at heq
      exact ⟨d, rest, by rw [heq]⟩
    · -- a symbol in front of it would be rarer
      obtain ⟨y, hy, heq⟩ := List.mem_map.1 hstop
      have hrarer := (List.pairwise_cons.1 h.sorted).1 y hy
      rw [heq] at hrarer
      exact absurd hrarer (not_rarer_stop hcoded)

/-- **The stop mark and a byte are joined first**, and come to lie on one level. -/
theorem first_pair (h : Joined data entries order) (hne : data ≠ []) :
    ∃ b d rest order', b ∈ data ∧ entries = (.stop, d + 1) :: (.byte b, d + 1) :: rest ∧
      order = (leafOf data .stop, d + 1) :: (leafOf data (.byte b), d + 1) :: order' := by
  obtain ⟨d, rest, rfl⟩ := h.stop_first
  obtain ⟨b, hb⟩ := List.exists_mem_of_ne_nil _ hne
  have hnodup := h.symbols.nodup_iff.2 (nodup_coded data)
  have hmem : .byte b ∈ ((Symbol.stop, d) :: rest).map (·.1) :=
    h.symbols.mem_iff.2 (mem_coded.2 (Or.inr ⟨b, hb, rfl⟩))
  -- there is a second symbol, and it is a byte
  cases rest with
  | nil => simp at hmem
  | cons x rest =>
    obtain ⟨s, e⟩ := x
    have hcoded : s ∈ coded data :=
      h.symbols.mem_iff.1 (List.mem_cons_of_mem _ List.mem_cons_self)
    rcases mem_coded.1 hcoded with rfl | ⟨b', hb', rfl⟩
    · simp at hnodup
    · have hjoining := h.joining
      simp only [List.map_cons] at hjoining
      generalize hplaced : ((leafOf data .stop, d) :: (leafOf data (.byte b'), e) ::
        rest.map fun x => (leafOf data x.1, x.2)) = placed at hjoining
      cases hjoining with
      | last => simp at hplaced
      | @pair l r d' before after order' hsorted hbefore hafter hrest =>
        simp only [List.cons.injEq, Prod.mk.injEq] at hplaced
        obtain ⟨⟨rfl, rfl⟩, ⟨rfl, rfl⟩, -⟩ := hplaced
        exact ⟨b', d', rest, order', hb', rfl, rfl⟩

theorem deepest_eq {d : ℕ} {rest : List (Symbol × ℕ)} (h : Joined data ((.stop, d) :: rest) order) :
    deepest (treeLengths data) = d := by
  have hle : deepest (treeLengths data) ≤ d := by
    refine deepest_le_iff.2 ?_
    intro x hx
    rcases List.mem_cons.1 (h.mem_iff.1 hx) with rfl | hx
    · exact le_rfl
    · exact (List.pairwise_cons.1 h.descending).1 x hx
  have hge : d ≤ deepest (treeLengths data) :=
    le_deepest (x := (.stop, d)) (h.mem_iff.2 List.mem_cons_self)
  exact le_antisymm hle hge

/-- **The stop mark lies deepest** in the tree. -/
theorem stop_mem_iff (h : Joined data entries order) {d : ℕ} :
    (.stop, d) ∈ treeLengths data ↔ d = deepest (treeLengths data) := by
  obtain ⟨d', rest, rfl⟩ := h.stop_first
  have hnodup := nodup_treeLengths data
  have hmem : (.stop, d') ∈ treeLengths data := h.mem_iff.2 List.mem_cons_self
  rw [h.deepest_eq]
  constructor
  · intro hd
    exact congrArg Prod.snd (List.inj_on_of_nodup_map hnodup hd hmem rfl)
  · rintro rfl
    exact hmem

theorem lookup_stop (h : Joined data entries order) :
    (treeLengths data).lookup .stop = some (deepest (treeLengths data)) :=
  lookup_of_unique (h.stop_mem_iff.2 rfl) fun _ hd => h.stop_mem_iff.1 hd

/-- **So nothing changes places.** -/
theorem codeLengths_eq (h : Joined data entries order) : codeLengths data = treeLengths data := by
  rw [codeLengths, stopDeepest, h.lookup_stop]
  simp

end Joined

/-- **The code lengths of a byte string are complete and go by frequency.** Its bytes and the stop mark
have one each, none is zero, and their shares add up to the whole; of two symbols the rarer has no
shorter code. In the tree itself the stop mark lies deepest, and a byte as deep, so that nothing has
to change places. -/
theorem codeLengths_complete {data : List UInt8} (hne : data ≠ []) :
    (((codeLengths data).map (·.1)).Nodup ∧
      ∀ s, s ∈ (codeLengths data).map (·.1) ↔ s = .stop ∨ ∃ b ∈ data, s = .byte b) ∧
    (∀ x ∈ codeLengths data, 1 ≤ x.2) ∧
    ((codeLengths data).map fun x => (1 / 2 : ℚ) ^ x.2).sum = 1 ∧
    (∀ x ∈ codeLengths data, ∀ y ∈ codeLengths data, Rarer data x.1 y.1 → y.2 ≤ x.2) ∧
    (treeLengths data).lookup .stop = some (deepest (treeLengths data)) ∧
    (∃ b ∈ data, (.byte b, deepest (treeLengths data)) ∈ treeLengths data) ∧
    codeLengths data = treeLengths data := by
  obtain ⟨entries, order, h⟩ := exists_joined data
  obtain ⟨b, d, rest, order', hb, rfl, rfl⟩ := h.first_pair hne
  rw [h.codeLengths_eq]
  refine ⟨⟨nodup_treeLengths data, ?_⟩, ?_, ?_, ?_, h.lookup_stop, ?_, rfl⟩
  · intro s
    exact (symbols_treeLengths data).mem_iff.trans mem_coded
  · intro x hx
    refine h.joining.depth_pos (by simp) (leafOf data x.1, x.2) ?_
    exact List.mem_map.2 ⟨x, h.mem_iff.1 hx, rfl⟩
  · rw [(h.lengths.map _).sum_eq]
    have hshare := h.joining.share_eq_one
    rwa [CodeTree.share, List.map_map, List.map_map] at hshare
  · intro x hx y hy hrarer
    exact h.le_of_rarer (h.mem_iff.1 hx) (h.mem_iff.1 hy) hrarer
  · refine ⟨b, hb, ?_⟩
    rw [h.deepest_eq]
    exact h.mem_iff.2 (List.mem_cons_of_mem _ List.mem_cons_self)

/-- Two bytes that are as rare, and a third one that is not. -/
theorem codeLengths_complete_four_bytes :
    let data : List UInt8 := [66, 67, 65, 67]
    data ≠ [] ∧
      codeLengths data = [(.byte 65, 3), (.byte 66, 2), (.byte 67, 1), (.stop, 3)] ∧
      Rarer data (.byte 65) (.byte 66) ∧
      ((codeLengths data).map fun x => (1 / 2 : ℚ) ^ x.2).sum = 1 ∧
      codeLengths data = treeLengths data := by
  intro data
  have hne : data ≠ [] := by decide
  obtain ⟨-, -, hkraft, -, -, -, heq⟩ := codeLengths_complete hne
  exact ⟨hne, by decide +kernel, Or.inr ⟨by decide, by decide⟩, hkraft, heq⟩

end PackFormat
