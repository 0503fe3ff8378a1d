import Mathlib.Data.List.GetD
import PackFormat.Pack
import PackFormat.Proofs.Huffman.Lengths
import PackFormat.Proofs.Levels

/-!
# Levels, codes and the table

Code lengths that fill a tree put as many symbols on each level as the tree has
leaves there, so the interior counts come out even, and they are the tree's. Each
symbol then has one code, and its place among the symbols of all levels is a byte's
in the table or, for the stop mark alone, behind it.

* `FillsTree.getD_interiorCounts_levels`: **the interior counts of the levels** are
  the tree's.
* `FillsTree.lookup_codes`: the code of a symbol.
* `FillsTree.flatten_levelSymbols`: the table.
-/

namespace PackFormat

/-- The symbols of one level. -/
def symbolsAt (lengths : List (Symbol × ℕ)) (l : ℕ) : List Symbol :=
  (lengths.filter fun x => x.2 = l + 1).map (·.1)

/-- How many symbols each level has. -/
def levelSizes (levels : List (List Symbol)) : List ℤ :=
  levels.map fun symbols => (symbols.length : ℤ)

/-- The symbols of all levels, the stop mark apart. -/
def symbolTable (levels : List (List Symbol)) : List UInt8 := levels.flatten.filterMap Symbol.byte?

@[simp] theorem length_levelSizes (levels : List (List Symbol)) :
    (levelSizes levels).length = levels.length := List.length_map _

theorem sum_levelSizes (levels : List (List Symbol)) :
    (levelSizes levels).sum = levels.flatten.length := by
  rw [levelSizes, List.length_flatten]
  induction levels with
  | nil => rfl
  | cons symbols levels ih => rw [List.map_cons, List.sum_cons, ih]; simp

theorem map_byte_filterMap {symbols : List Symbol} (h : ∀ s ∈ symbols, s ≠ .stop) :
    (symbols.filterMap Symbol.byte?).map .byte = symbols := by
  induction symbols with
  | nil => rfl
  | cons s rest ih =>
    cases s with
    | byte b =>
      have hrest := ih fun s hs => h s (List.mem_cons_of_mem _ hs)
      rw [List.filterMap_cons, Symbol.byte?, List.map_cons, hrest]
    | stop => exact absurd rfl (h .stop List.mem_cons_self)

section Codes

variable {levels : List (List Symbol)} {s : Symbol}

/-- **Which codes there are**: one for each place of each level. -/
theorem mem_codes {v : Code} : (s, v) ∈ codes levels ↔
    ∃ (l : ℕ) (symbols : List Symbol) (i : ℕ),
      levels[l]? = some symbols ∧ symbols[i]? = some s ∧
        v = ⟨(interiorCounts (levelSizes levels)).getD l 0 + i, l + 1⟩ := by
  have hlen : (interiorCounts (levelSizes levels)).length = levels.length := by simp
  have hinner : ∀ {l : ℕ} {first : ℤ}, (interiorCounts (levelSizes levels))[l]? = some first →
      (interiorCounts (levelSizes levels)).getD l 0 = first := by
    intro l first h
    rw [List.getD_eq_getElem?_getD, h, Option.getD_some]
  unfold codes
  simp only [List.mem_flatMap, List.mem_map]
  constructor
  · rintro ⟨⟨⟨symbols, first⟩, l⟩, hl, ⟨s', i⟩, hi, heq⟩
    obtain ⟨h1, h2⟩ := List.getElem?_zip_eq_some.1 (List.mem_zipIdx_iff_getElem?.1 hl)
    simp only [Prod.mk.injEq] at heq
    obtain ⟨rfl, rfl⟩ := heq
    exact ⟨l, symbols, i, h1, List.mem_zipIdx_iff_getElem?.1 hi, by rw [hinner h2]⟩
  · rintro ⟨l, symbols, i, hl, hi, rfl⟩
    have hlt : l < (interiorCounts (levelSizes levels)).length := by
      rw [hlen]; exact (List.getElem?_eq_some_iff.1 hl).1
    have hfirst := List.getElem?_eq_getElem hlt
    refine ⟨((symbols, _), l), List.mem_zipIdx_iff_getElem?.2
      (List.getElem?_zip_eq_some.2 ⟨hl, hfirst⟩), (s, i), List.mem_zipIdx_iff_getElem?.2 hi, ?_⟩
    rw [hinner hfirst]

/-- A place of a level, counted through the levels before it. -/
theorem getElem?_flatten_levels {l i : ℕ} {symbols : List Symbol} (hl : levels[l]? = some symbols)
    (hi : symbols[i]? = some s) :
    levels.flatten[Header.total ((levels.take l).map List.length) + i]? = some s := by
  obtain ⟨hlt, rfl⟩ := List.getElem?_eq_some_iff.1 hl
  have hsplit : levels.flatten =
      (levels.take l).flatten ++ (levels[l] ++ (levels.drop (l + 1)).flatten) := by
    rw [← List.flatten_cons, ← List.drop_eq_getElem_cons hlt, ← List.flatten_append,
      List.take_append_drop]
  have hlen : (levels.take l).flatten.length = Header.total ((levels.take l).map List.length) :=
    List.length_flatten
  rw [hsplit, ← hlen, List.getElem?_append_right (by omega), Nat.add_sub_cancel_left,
    List.getElem?_append_left (List.getElem?_eq_some_iff.1 hi).1, hi]

end Codes

variable {lengths : List (Symbol × ℕ)} {s : Symbol} {l : ℕ}

@[simp] theorem length_levelSymbols (lengths : List (Symbol × ℕ)) :
    (levelSymbols lengths).length = deepest lengths := by
  simp [levelSymbols]

theorem getElem?_levelSymbols (hl : l < deepest lengths) :
    (levelSymbols lengths)[l]? = some (symbolsAt lengths l) := by
  rw [levelSymbols, List.getElem?_map, List.getElem?_range hl]
  rfl

theorem mem_symbolsAt : s ∈ symbolsAt lengths l ↔ (s, l + 1) ∈ lengths := by
  unfold symbolsAt
  rw [List.mem_map]
  constructor
  · rintro ⟨⟨s', d⟩, hx, rfl⟩
    obtain ⟨hmem, hd⟩ := List.mem_filter.1 hx
    rw [decide_eq_true_iff] at hd
    simp only at hd
    rwa [hd] at hmem
  · intro h
    exact ⟨_, List.mem_filter.2 ⟨h, decide_eq_true rfl⟩, rfl⟩

/-- The symbols of all levels are those with a length, if none is zero. -/
theorem mem_flatten_levelSymbols (hpos : ∀ x ∈ lengths, 0 < x.2) :
    s ∈ (levelSymbols lengths).flatten ↔ ∃ d, (s, d) ∈ lengths := by
  rw [List.mem_flatten]
  constructor
  · rintro ⟨symbols, hsymbols, hs⟩
    obtain ⟨l, -, rfl⟩ := List.mem_map.1 hsymbols
    exact ⟨l + 1, mem_symbolsAt.1 hs⟩
  · rintro ⟨d, hd⟩
    obtain ⟨l, rfl⟩ : ∃ l, d = l + 1 := ⟨d - 1, by have := hpos _ hd; omega⟩
    have hl : l < deepest lengths := le_deepest hd
    exact ⟨_, List.mem_of_getElem? (getElem?_levelSymbols hl), mem_symbolsAt.2 hd⟩

/-- Nothing lies below the deepest level. -/
theorem symbolsAt_eq_nil (hl : deepest lengths ≤ l) : symbolsAt lengths l = [] := by
  rw [List.eq_nil_iff_forall_not_mem]
  intro s hs
  have := le_deepest (mem_symbolsAt.1 hs)
  omega

theorem getD_levelSizes (lengths : List (Symbol × ℕ)) (l : ℕ) :
    (levelSizes (levelSymbols lengths)).getD l 0 = (symbolsAt lengths l).length := by
  rw [List.getD_eq_getElem?_getD, levelSizes, List.getElem?_map]
  rcases Nat.lt_or_ge l (deepest lengths) with hl | hl
  · rw [getElem?_levelSymbols hl]; rfl
  · rw [List.getElem?_eq_none (by rw [length_levelSymbols]; exact hl), symbolsAt_eq_nil hl]; rfl

namespace FillsTree

variable {t : CodeTree}

/-- An entry is known by its symbol. -/
theorem length_unique (h : FillsTree lengths t) {d d' : ℕ} (hd : (s, d) ∈ lengths)
    (hd' : (s, d') ∈ lengths) : d = d' :=
  congrArg Prod.snd (List.inj_on_of_nodup_map h.nodup hd hd' rfl)

theorem nodup_symbolsAt (h : FillsTree lengths t) (l : ℕ) : (symbolsAt lengths l).Nodup :=
  h.nodup.sublist (List.filter_sublist.map _)

/-- **As many symbols on a level as the tree has leaves there.** -/
theorem length_symbolsAt (h : FillsTree lengths t) (l : ℕ) :
    (symbolsAt lengths l).length = t.leavesAt (l + 1) := by
  rw [CodeTree.leavesAt, ← h.depths.count_eq, List.count_eq_countP, List.countP_map,
    List.countP_eq_length_filter, symbolsAt, List.length_map]
  rfl

theorem innerAt_eq_zero (h : FillsTree lengths t) {d : ℕ} (hd : deepest lengths ≤ d) :
    t.innerAt d = 0 := by
  refine CodeTree.innerAt_eq_zero ?_
  intro e he
  obtain ⟨x, hx, rfl⟩ := List.mem_map.1 (h.depths.mem_iff.2 he)
  exact (le_deepest hx).trans hd

/-- **The interior counts of the levels are the tree's.** -/
theorem getD_interiorCounts_levels (h : FillsTree lengths t) (l : ℕ) :
    (interiorCounts (levelSizes (levelSymbols lengths))).getD l 0 = t.innerAt (l + 1) := by
  -- upwards from the last level, below which there is nothing
  induction hn : deepest lengths - l generalizing l with
  | zero =>
    rw [List.getD_eq_default _ _ (by simp; omega), h.innerAt_eq_zero (by omega)]
    rfl
  | succ n ih =>
    have hnodes := t.nodesAt_eq (l + 2)
    rw [t.nodesAt_succ (l + 1)] at hnodes
    rw [getD_interiorCounts, ih (l + 1) (by omega), getD_levelSizes, h.length_symbolsAt, ← Nat.cast_add,
      ← hnodes]
    omega

/-- **The code of a symbol**: its place on its level, behind the interior nodes. -/
theorem lookup_codes (h : FillsTree lengths t) (hs : (s, l + 1) ∈ lengths) :
    ∃ i : ℕ, (symbolsAt lengths l)[i]? = some s ∧
      (codes (levelSymbols lengths)).lookup s = some ⟨t.innerAt (l + 1) + i, l + 1⟩ := by
  have hl : l < deepest lengths := le_deepest hs
  obtain ⟨i, hi⟩ := List.getElem?_of_mem (mem_symbolsAt.2 hs)
  refine ⟨i, hi, lookup_of_unique (mem_codes.2 ⟨l, _, i, getElem?_levelSymbols hl, hi, ?_⟩) ?_⟩
  · rw [h.getD_interiorCounts_levels]
  · -- another code of the symbol would be on the same level, and at the same place of it
    intro v hv
    obtain ⟨l', symbols, i', hl', hi', rfl⟩ := mem_codes.1 hv
    have hlt : l' < deepest lengths := by
      rw [← length_levelSymbols]; exact (List.getElem?_eq_some_iff.1 hl').1
    rw [getElem?_levelSymbols hlt, Option.some.injEq] at hl'
    subst hl'
    obtain rfl : l = l' := by
      have := h.length_unique hs (mem_symbolsAt.1 (List.mem_of_getElem? hi'))
      omega
    obtain rfl : i = i' := by
      obtain ⟨hi₁, -⟩ := List.getElem?_eq_some_iff.1 hi
      exact (List.getElem?_inj hi₁ (h.nodup_symbolsAt l)).1 (hi.trans hi'.symm)
    rw [h.getD_interiorCounts_levels]

theorem nodup_flatten (h : FillsTree lengths t) : (levelSymbols lengths).flatten.Nodup := by
  refine List.nodup_flatten.2 ⟨?_, List.pairwise_map.2 ?_⟩
  · intro symbols hsymbols
    obtain ⟨l, -, rfl⟩ := List.mem_map.1 hsymbols
    exact h.nodup_symbolsAt l
  · refine List.nodup_range.imp ?_
    intro l l' hne s hs hs'
    have := h.length_unique (mem_symbolsAt.1 hs) (mem_symbolsAt.1 hs')
    omega

/-- **The symbols of all levels are the table's, and the stop mark.** -/
theorem flatten_levelSymbols (h : FillsTree lengths t) (hpos : 0 < deepest lengths) :
    (levelSymbols lengths).flatten = (symbolTable (levelSymbols lengths)).map .byte ++ [.stop] := by
  obtain ⟨others, hothers⟩ := h.stop_last
  obtain ⟨n, hn⟩ : ∃ n, deepest lengths = n + 1 := ⟨deepest lengths - 1, by omega⟩
  -- the stop mark comes last on the last level, and so at the very end
  obtain ⟨front, hfront⟩ : ∃ front, (levelSymbols lengths).flatten = front ++ [.stop] := by
    have hlast : symbolsAt lengths n =
        (others.filter fun x => x.2 = n + 1).map (·.1) ++ [.stop] := by
      rw [symbolsAt, hothers, List.filter_append, List.map_append, hn]
      simp
    refine ⟨((List.range n).map (symbolsAt lengths)).flatten ++
      (others.filter fun x => x.2 = n + 1).map (·.1), ?_⟩
    change ((List.range (deepest lengths)).map (symbolsAt lengths)).flatten = _
    rw [hn, List.range_succ, List.map_append, List.flatten_append, List.map_singleton,
      List.flatten_singleton, hlast, List.append_assoc]
  have hnodup := h.nodup_flatten
  rw [hfront] at hnodup
  have hbytes := map_byte_filterMap fun s hs hstop =>
    (List.nodup_append.1 hnodup).2.2 s hs .stop (List.mem_singleton_self _) hstop
  rw [symbolTable, hfront, List.filterMap_append, List.map_append, hbytes]
  exact (congrArg (· ++ _) (List.append_nil front)).symm

end FillsTree

end PackFormat
