import PackFormat.Huffman.CodeLengths
import PackFormat.Proofs.Huffman.Nodes

/-!
# Code lengths that fill a tree

The code lengths of a byte string are the depths of a tree's leaves, though not
always of the leaves that the symbols have in Huffman's tree: the stop mark may
change places with another symbol.

* `FillsTree`: such lengths, each symbol once and the stop mark last.
* `fillsTree_codeLengths`: **the code lengths of any byte string**.
* `symbols_codeLengths`: whose they are.
-/

namespace PackFormat

/-- An entry that has its key to itself is found. -/
theorem lookup_of_unique {α β : Type} [BEq α] [LawfulBEq α] {l : List (α × β)} {a : α} {b : β}
    (hmem : (a, b) ∈ l) (hunique : ∀ b', (a, b') ∈ l → b' = b) : l.lookup a = some b := by
  cases h : l.lookup a with
  | none =>
    rw [List.lookup_eq_none_iff] at h
    exact absurd (h (a, b) hmem) (by simp)
  | some b' =>
    obtain ⟨l₁, l₂, rfl, -⟩ := List.lookup_eq_some_iff.1 h
    rw [hunique b' (by simp)]

variable {lengths lengths' : List (Symbol × ℕ)}

theorem deepest_le_iff {d : ℕ} : deepest lengths ≤ d ↔ ∀ x ∈ lengths, x.2 ≤ d := by
  have h : ∀ k, lengths.foldl (fun d x => max d x.2) k ≤ d ↔ k ≤ d ∧ ∀ x ∈ lengths, x.2 ≤ d := by
    induction lengths with
    | nil => intro k; simp
    | cons x rest ih =>
      intro k
      rw [List.foldl_cons, ih, max_le_iff, List.forall_mem_cons, and_assoc]
  exact (h 0).trans ⟨fun h => h.2, fun h => ⟨Nat.zero_le d, h⟩⟩

theorem le_deepest {x : Symbol × ℕ} (hx : x ∈ lengths) : x.2 ≤ deepest lengths :=
  deepest_le_iff.1 le_rfl x hx

/-- Whose lengths they are does not matter to the longest. -/
theorem deepest_eq_of_perm (h : (lengths.map (·.2)).Perm (lengths'.map (·.2))) :
    deepest lengths = deepest lengths' := by
  have hmem : ∀ {l : List (Symbol × ℕ)} {d : ℕ}, (∀ x ∈ l, x.2 ≤ d) ↔ ∀ e ∈ l.map (·.2), e ≤ d := by
    intro l d
    simp only [List.forall_mem_map]
  refine eq_of_forall_ge_iff fun d => ?_
  rw [deepest_le_iff, deepest_le_iff, hmem, hmem]
  exact ⟨fun hd e he => hd e (h.mem_iff.2 he), fun hd e he => hd e (h.mem_iff.1 he)⟩

theorem exists_deepest (h : lengths ≠ []) : ∃ x ∈ lengths, x.2 = deepest lengths := by
  -- were all shorter, the longest would be shorter too
  by_contra hnone
  push Not at hnone
  have hlt : ∀ x ∈ lengths, x.2 < deepest lengths := fun x hx =>
    lt_of_le_of_ne (le_deepest hx) (hnone x hx)
  obtain ⟨x, hx⟩ := List.exists_mem_of_ne_nil _ h
  have hpos := hlt x hx
  have hle : deepest lengths ≤ deepest lengths - 1 :=
    deepest_le_iff.2 fun y hy => by have := hlt y hy; omega
  omega

theorem insertSymbol_sorted (x : Symbol × ℕ)
    (h : lengths.Pairwise fun x y => x.1.rank ≤ y.1.rank) :
    (insertSymbol x lengths).Pairwise fun x y => x.1.rank ≤ y.1.rank := by
  induction lengths with
  | nil => exact List.pairwise_singleton _ _
  | cons y rest ih =>
    obtain ⟨hy, hrest⟩ := List.pairwise_cons.1 h
    unfold insertSymbol
    split
    · rename_i hxy
      refine List.pairwise_cons.2 ⟨?_, h⟩
      intro z hz
      rcases List.mem_cons.1 hz with rfl | hz
      · exact hxy
      · exact hxy.trans (hy z hz)
    · rename_i hxy
      refine List.pairwise_cons.2 ⟨?_, ih hrest⟩
      intro z hz
      rcases List.mem_cons.1 ((insertSymbol_perm x rest).mem_iff.1 hz) with rfl | hz
      · omega
      · exact hy z hz

theorem inOrder_sorted (lengths : List (Symbol × ℕ)) :
    (inOrder lengths).Pairwise fun x y => x.1.rank ≤ y.1.rank := by
  induction lengths with
  | nil => exact List.Pairwise.nil
  | cons x rest ih => exact insertSymbol_sorted x ih

theorem rank_lt_of_ne_stop {s : Symbol} (h : s ≠ .stop) : s.rank < Symbol.stop.rank := by
  cases s with
  | byte b => exact b.toNat_lt
  | stop => exact absurd rfl h

/-- Among symbols in order, the stop mark is the last. -/
theorem stop_last_of_sorted {d : ℕ} (hsorted : (lengths.map (·.1)).Pairwise (·.rank ≤ ·.rank))
    (hnodup : (lengths.map (·.1)).Nodup) (hstop : (.stop, d) ∈ lengths) :
    ∃ others, lengths = others ++ [(.stop, d)] := by
  obtain ⟨others, behind, rfl⟩ := List.append_of_mem hstop
  cases behind with
  | nil => exact ⟨others, rfl⟩
  | cons x behind =>
    rw [List.map_append, List.map_cons, List.map_cons] at hsorted hnodup
    have hle := (List.pairwise_cons.1 (List.pairwise_append.1 hsorted).2.1).1 x.1 (by simp)
    have hne := (List.nodup_cons.1 (List.nodup_append.1 hnodup).2.1).1
    -- a symbol behind the stop mark would come after it, and none but itself does
    have hx : x.1 ≠ .stop := fun h => hne (by rw [h]; exact List.mem_cons_self)
    have := rank_lt_of_ne_stop hx
    simp only at hle
    omega

/-- The two entries that change places. -/
def swapped (other : Symbol) (own longest : ℕ) (x : Symbol × ℕ) : Symbol × ℕ :=
  if x.1 = other then (x.1, own) else if x.1 = .stop then (x.1, longest) else x

theorem swapped_of_ne {other : Symbol} {own longest : ℕ} {x : Symbol × ℕ} (hother : x.1 ≠ other)
    (hstop : x.1 ≠ .stop) : swapped other own longest x = x := by
  rw [swapped, if_neg hother, if_neg hstop]

/-- Changing places changes no symbol. -/
theorem map_fst_swapped (lengths : List (Symbol × ℕ)) (other : Symbol) (own longest : ℕ) :
    (lengths.map (swapped other own longest)).map (·.1) = lengths.map (·.1) := by
  rw [List.map_map]
  refine List.map_congr_left fun x _ => ?_
  simp only [Function.comp_apply, swapped]
  split
  · rfl
  · split <;> rfl

/-- **Changing places changes the lengths in their order only.** -/
theorem map_snd_swapped (hnodup : (lengths.map (·.1)).Nodup) {other : Symbol} {own longest : ℕ}
    (hother : (other, longest) ∈ lengths) (hstop : (.stop, own) ∈ lengths) (hne : other ≠ .stop) :
    ((lengths.map (swapped other own longest)).map (·.2)).Perm (lengths.map (·.2)) := by
  have hstop' : (.stop, own) ∈ lengths.erase (other, longest) := by
    rw [List.mem_erase_of_ne (by intro h; exact hne (congrArg Prod.fst h).symm)]
    exact hstop
  obtain ⟨rest, hperm⟩ : ∃ rest, lengths.Perm ((other, longest) :: (.stop, own) :: rest) :=
    ⟨_, (List.perm_cons_erase hother).trans ((List.perm_cons_erase hstop').cons _)⟩
  -- the symbols of the rest are neither of the two, so the rest stays
  have hrest := (hperm.map (·.1)).nodup_iff.1 hnodup
  simp only [List.map_cons, List.nodup_cons, List.mem_cons, not_or] at hrest
  obtain ⟨⟨-, hnotother⟩, hnotstop, -⟩ := hrest
  have hkept : rest.map (swapped other own longest) = rest := by
    refine (List.map_congr_left fun x hx => ?_).trans (List.map_id rest)
    refine swapped_of_ne ?_ ?_
    · intro h; exact hnotother (h ▸ List.mem_map_of_mem hx)
    · intro h; exact hnotstop (h ▸ List.mem_map_of_mem hx)
  have hswap : (((other, longest) :: (.stop, own) :: rest).map (swapped other own longest)).map (·.2) =
      own :: longest :: rest.map (·.2) := by
    simp only [List.map_cons, hkept, swapped, if_true, if_neg hne.symm]
  refine ((hperm.map _).map _).trans (.trans ?_ (hperm.map _).symm)
  rw [hswap]
  exact .swap ..

/-- **The stop mark gets one of the longest codes**, whatever the lengths. -/
theorem stopDeepest_spec {own : ℕ} (hnodup : (lengths.map (·.1)).Nodup)
    (hstop : (.stop, own) ∈ lengths) :
    (stopDeepest lengths).map (·.1) = lengths.map (·.1) ∧
      ((stopDeepest lengths).map (·.2)).Perm (lengths.map (·.2)) ∧
      (.stop, deepest lengths) ∈ stopDeepest lengths := by
  have hinj : ∀ {x y : Symbol × ℕ}, x ∈ lengths → y ∈ lengths → x.1 = y.1 → x = y :=
    fun hx hy h => List.inj_on_of_nodup_map hnodup hx hy h
  have hlookup : lengths.lookup .stop = some own :=
    lookup_of_unique hstop fun d hd => congrArg Prod.snd (hinj hd hstop rfl)
  unfold stopDeepest
  simp only [hlookup, Option.getD_some]
  by_cases hown : own = deepest lengths
  · rw [if_pos hown]
    exact ⟨rfl, .refl _, hown ▸ hstop⟩
  rw [if_neg hown]
  cases hlast : (lengths.filter fun x => x.2 = deepest lengths).getLast? with
  | none =>
    obtain ⟨x, hx, hdeep⟩ := exists_deepest (List.ne_nil_of_mem hstop)
    rw [List.getLast?_eq_none_iff, List.filter_eq_nil_iff] at hlast
    exact absurd (decide_eq_true hdeep) (hlast x hx)
  | some x =>
    obtain ⟨hx, hdeep⟩ := List.mem_filter.1 (List.mem_of_getLast? hlast)
    obtain ⟨other, d⟩ := x
    rw [decide_eq_true_iff] at hdeep
    simp only at hdeep
    subst hdeep
    have hne : other ≠ .stop := by
      intro h
      exact hown (congrArg Prod.snd (hinj hx hstop h)).symm
    have hmem : (.stop, deepest lengths) ∈ lengths.map (swapped other own (deepest lengths)) := by
      refine List.mem_map.2 ⟨_, hstop, ?_⟩
      rw [swapped, if_neg hne.symm, if_pos rfl]
    exact ⟨map_fst_swapped .., map_snd_swapped hnodup hx hstop hne, hmem⟩

theorem mem_alphabet {data : List UInt8} {b : UInt8} : b ∈ alphabet data ↔ b ∈ data := by
  unfold alphabet
  rw [List.mem_filter, List.contains_iff_mem, List.mem_map]
  exact ⟨fun h => h.2, fun h => ⟨⟨b.toNat, List.mem_range.2 b.toNat_lt, UInt8.ofNat_toNat⟩, h⟩⟩

/-- All bytes, in order. -/
theorem bytes_sorted : ((List.range 256).map UInt8.ofNat).Pairwise fun a b => a.toNat < b.toNat := by
  refine List.pairwise_map.2 (List.pairwise_lt_range.imp_of_mem ?_)
  intro m n hm hn hlt
  rw [List.mem_range] at hm hn
  rwa [UInt8.toNat_ofNat', UInt8.toNat_ofNat', Nat.mod_eq_of_lt hm, Nat.mod_eq_of_lt hn]

theorem nodup_of_sorted {bytes : List UInt8} (h : bytes.Pairwise fun a b => a.toNat < b.toNat) :
    bytes.Nodup :=
  h.imp fun hlt heq => hlt.ne (congrArg UInt8.toNat heq)

theorem alphabet_sorted (data : List UInt8) :
    (alphabet data).Pairwise fun a b => a.toNat < b.toNat := bytes_sorted.filter _

theorem nodup_alphabet (data : List UInt8) : (alphabet data).Nodup :=
  nodup_of_sorted (alphabet_sorted data)

/-- What has a code: the bytes that occur, and the stop mark. -/
def coded (data : List UInt8) : List Symbol := (alphabet data).map .byte ++ [.stop]

theorem nodup_coded (data : List UInt8) : (coded data).Nodup := by
  refine List.nodup_append.2 ⟨(nodup_alphabet data).map fun a b h => Symbol.byte.inj h,
    List.nodup_singleton _, ?_⟩
  intro s hs s' hs' h
  obtain ⟨b, -, rfl⟩ := List.mem_map.1 hs
  rw [List.mem_singleton.1 hs'] at h
  cases h

/-- **Huffman's tree has the coded symbols.** -/
theorem symbols_codeTree (data : List UInt8) : (codeTree data).symbols.Perm (coded data) := by
  have hne : CodeTree.forest (weighted data) ≠ [] := by
    intro h
    have := (CodeTree.forest_perm (weighted data)).length_eq
    rw [h] at this
    simp [weighted] at this
  refine (CodeTree.symbols_join _ hne).trans (((CodeTree.forest_perm _).flatMap_right _).trans ?_)
  rw [weighted, List.flatMap_append, List.flatMap_map, coded, List.map_eq_flatMap]
  exact .refl _

/-- **Lengths that fill a tree**: each symbol once, the stop mark last and as deep as any, and all
together the depths of the tree's leaves. -/
structure FillsTree (lengths : List (Symbol × ℕ)) (t : CodeTree) : Prop where
  nodup : (lengths.map (·.1)).Nodup
  stop_last : ∃ others, lengths = others ++ [(.stop, deepest lengths)]
  depths : (lengths.map (·.2)).Perm ((t.depths 0).map (·.2))

theorem FillsTree.stop_mem {t : CodeTree} (h : FillsTree lengths t) :
    (.stop, deepest lengths) ∈ lengths := by
  obtain ⟨others, hothers⟩ := h.stop_last
  have hmem : (.stop, deepest lengths) ∈ others ++ [(Symbol.stop, deepest lengths)] :=
    List.mem_append_right _ (List.mem_singleton_self _)
  rwa [← hothers] at hmem

theorem symbols_treeLengths (data : List UInt8) :
    ((treeLengths data).map (·.1)).Perm (coded data) := by
  refine ((inOrder_perm _).map _).trans ?_
  rw [CodeTree.map_fst_depths]
  exact symbols_codeTree data

theorem nodup_treeLengths (data : List UInt8) : ((treeLengths data).map (·.1)).Nodup :=
  (symbols_treeLengths data).nodup_iff.2 (nodup_coded data)

/-- **The symbols with a code length** are the coded ones. -/
theorem symbols_codeLengths (data : List UInt8) :
    ((codeLengths data).map (·.1)).Perm (coded data) := by
  have hsymbols := symbols_treeLengths data
  obtain ⟨⟨s, own⟩, hmem, rfl⟩ := List.mem_map.1
    (hsymbols.mem_iff.2 (List.mem_append_right _ (List.mem_singleton_self Symbol.stop)))
  rw [codeLengths, (stopDeepest_spec (nodup_treeLengths data) hmem).1]
  exact hsymbols

theorem exists_length_iff {data : List UInt8} {s : Symbol} :
    (∃ d, (s, d) ∈ codeLengths data) ↔ s ∈ coded data := by
  rw [← (symbols_codeLengths data).mem_iff, List.mem_map]
  constructor
  · rintro ⟨d, hd⟩
    exact ⟨_, hd, rfl⟩
  · rintro ⟨⟨s', d⟩, hd, rfl⟩
    exact ⟨d, hd⟩

/-- **The code lengths of a byte string fill a tree.** -/
theorem fillsTree_codeLengths (data : List UInt8) : FillsTree (codeLengths data) (codeTree data) := by
  have hsymbols := symbols_treeLengths data
  have hnodup := nodup_treeLengths data
  obtain ⟨⟨s, own⟩, hmem, rfl⟩ := List.mem_map.1
    (hsymbols.mem_iff.2 (List.mem_append_right _ (List.mem_singleton_self Symbol.stop)))
  obtain ⟨hfst, hsnd, hstop⟩ := stopDeepest_spec hnodup hmem
  refine ⟨by rw [codeLengths, hfst]; exact hnodup, ?_, hsnd.trans ((inOrder_perm _).map _)⟩
  rw [codeLengths, deepest_eq_of_perm hsnd]
  refine stop_last_of_sorted ?_ (by rw [hfst]; exact hnodup) hstop
  rw [hfst, List.pairwise_map]
  exact inOrder_sorted _

end PackFormat
