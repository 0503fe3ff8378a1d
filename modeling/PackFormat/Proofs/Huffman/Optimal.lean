import PackFormat.Proofs.Huffman.Frequencies

/-!
# No code is shorter

Lengths that fit into one code space can be exchanged until the two lightest symbols
have the longest, and then cut until those are two of one length. Joined, the two are one
symbol of a smaller alphabet, with a code that is one bit shorter; so what is optimal
for the forest that is left is optimal for the forest before.

* `exists_exchange`: the longest length for the lightest symbol.
* `share_add_le_one`: room for one more word of the longest length.
* `CodeTree.Joining.cost_le`: **the joined forest costs least.**
* `codeLength_optimal`: **the code lengths of a byte string are optimal.**
-/

namespace PackFormat

/-- What some weights cost, each with its length. -/
def cost (weighed : List (ℕ × ℕ)) : ℕ := (weighed.map fun x => x.1 * x.2).sum

@[simp] theorem cost_cons (w d : ℕ) (weighed : List (ℕ × ℕ)) :
    cost ((w, d) :: weighed) = w * d + cost weighed := by
  rw [cost, List.map_cons, List.sum_cons, cost]

theorem cost_eq_of_perm {weighed weighed' : List (ℕ × ℕ)} (h : weighed.Perm weighed') :
    cost weighed = cost weighed' :=
  (h.map _).sum_eq

/-- **The longest length goes to the lightest weight**, and nothing gets dearer. -/
theorem exists_exchange (w a : ℕ) {others : List (ℕ × ℕ)} (hw : ∀ x ∈ others, w ≤ x.1) :
    ∃ m others', others'.map (·.1) = others.map (·.1) ∧
      (m :: others'.map (·.2)).Perm (a :: others.map (·.2)) ∧ (∀ x ∈ others', x.2 ≤ m) ∧
      w * m + cost others' ≤ w * a + cost others := by
  induction others with
  | nil => exact ⟨a, [], rfl, .refl _, by simp, le_rfl⟩
  | cons x others ih =>
    obtain ⟨v, b⟩ := x
    have hwv : w ≤ v := hw (v, b) List.mem_cons_self
    obtain ⟨m, others', hfst, hperm, hlongest, hcost⟩ :=
      ih fun y hy => hw y (List.mem_cons_of_mem _ hy)
    have hperm' : (b :: m :: others'.map (·.2)).Perm (a :: b :: others.map (·.2)) :=
      (hperm.cons b).trans (.swap a b _)
    by_cases hbm : b ≤ m
    · refine ⟨m, (v, b) :: others', by rw [List.map_cons, List.map_cons, hfst], ?_, ?_, ?_⟩
      · exact (List.Perm.swap b m _).trans hperm'
      · intro y hy
        rcases List.mem_cons.1 hy with rfl | hy
        · exact hbm
        · exact hlongest y hy
      · rw [cost_cons, cost_cons]
        omega
    · refine ⟨b, (v, m) :: others', by rw [List.map_cons, List.map_cons, hfst], hperm', ?_, ?_⟩
      · intro y hy
        rcases List.mem_cons.1 hy with rfl | hy
        · exact (not_le.1 hbm).le
        · exact (hlongest y hy).trans (not_le.1 hbm).le
      · -- the heavier weight gets shorter by what the lighter one gets longer
        obtain ⟨i, rfl⟩ := Nat.exists_eq_add_of_le hwv
        obtain ⟨j, rfl⟩ := Nat.exists_eq_add_of_le (not_le.1 hbm).le
        rw [cost_cons, cost_cons]
        have hgain : w * (m + j) + (w + i) * m + i * j = w * m + (w + i) * (m + j) := by ring
        have := Nat.zero_le (i * j)
        omega

/-- Weights that include one are those of a pair and others. -/
theorem exists_perm_cons {w : ℕ} {weights : List ℕ} {weighed : List (ℕ × ℕ)}
    (h : (weighed.map (·.1)).Perm (w :: weights)) :
    ∃ a others, weighed.Perm ((w, a) :: others) ∧ (others.map (·.1)).Perm weights := by
  obtain ⟨⟨v, a⟩, hmem, rfl⟩ := List.mem_map.1 (h.mem_iff.2 List.mem_cons_self)
  have hperm := List.perm_cons_erase hmem
  refine ⟨a, _, hperm, ?_⟩
  have := (hperm.map (·.1)).symm.trans h
  rw [List.map_cons] at this
  exact this.cons_inv

namespace CodeTree

/-- Words of no more than `n` bits take up whole parts of that size. -/
theorem exists_share_eq {n : ℕ} {lengths : List ℕ} (h : ∀ d ∈ lengths, d ≤ n) :
    ∃ k : ℕ, share lengths = k * (1 / 2) ^ n := by
  induction lengths with
  | nil => exact ⟨0, by simp [share]⟩
  | cons d lengths ih =>
    obtain ⟨k, hk⟩ := ih fun e he => h e (List.mem_cons_of_mem _ he)
    obtain ⟨e, rfl⟩ := Nat.exists_eq_add_of_le (h d List.mem_cons_self)
    refine ⟨2 ^ e + k, ?_⟩
    have hpow : (2 : ℚ) ^ e * (1 / 2) ^ e = 1 := by rw [← mul_pow]; norm_num
    rw [share_cons, hk, pow_add]
    push_cast
    linear_combination (-(1 / 2 : ℚ) ^ d) * hpow

/-- **Where there is any room, there is room for one more of the longest words.** -/
theorem share_add_le_one {n : ℕ} {lengths : List ℕ} (h : ∀ d ∈ lengths, d ≤ n)
    (hlt : share lengths < 1) : (1 / 2) ^ n + share lengths ≤ 1 := by
  obtain ⟨k, hk⟩ := exists_share_eq h
  have hpos : (0 : ℚ) < 2 ^ n := by positivity
  have hone : (1 / 2 : ℚ) ^ n * 2 ^ n = 1 := by rw [← mul_pow]; norm_num
  rw [hk] at hlt ⊢
  have hkn : (k : ℚ) < 2 ^ n := by nlinarith
  have hkn' : (k : ℚ) + 1 ≤ 2 ^ n := by exact_mod_cast hkn
  nlinarith

theorem share_nonneg (lengths : List ℕ) : 0 ≤ share lengths := by
  apply List.sum_nonneg
  intro x hx
  obtain ⟨d, -, rfl⟩ := List.mem_map.1 hx
  positivity

/-- **The two lightest weights may have the longest length**, both the same, and nothing gets dearer. -/
theorem exists_two_longest {v w : ℕ} {weights : List ℕ} {weighed : List (ℕ × ℕ)}
    (hweights : (weighed.map (·.1)).Perm (v :: w :: weights)) (hvw : v ≤ w)
    (hw : ∀ x ∈ weights, w ≤ x) (hshare : share (weighed.map (·.2)) ≤ 1) :
    ∃ (n : ℕ) (others : List (ℕ × ℕ)), (others.map (·.1)).Perm weights ∧
      share ((n + 1) :: (n + 1) :: others.map (·.2)) ≤ 1 ∧
      v * (n + 1) + (w * (n + 1) + cost others) ≤ cost weighed := by
  obtain ⟨a, others₁, hperm₁, hothers₁⟩ := exists_perm_cons hweights
  obtain ⟨b, others, hperm₂, hothers⟩ := exists_perm_cons hothers₁
  have hperm : weighed.Perm ((v, a) :: (w, b) :: others) := hperm₁.trans (hperm₂.cons _)
  have hlengths : (weighed.map (·.2)).Perm (a :: b :: others.map (·.2)) := hperm.map _
  have hheavy : ∀ x ∈ others, w ≤ x.1 := fun x hx =>
    hw x.1 (hothers.mem_iff.1 (List.mem_map_of_mem hx))
  have hheavy' : ∀ x ∈ (w, b) :: others, v ≤ x.1 := by
    intro x hx
    rcases List.mem_cons.1 hx with rfl | hx
    · exact hvw
    · exact hvw.trans (hheavy x hx)
  -- the lightest gets the longest length, and then the next one the longest of the others
  obtain ⟨m, others₂, hfst₂, hsnd₂, hlongest₂, hcost₂⟩ := exists_exchange v a hheavy'
  obtain ⟨⟨w', b'⟩, rest, rfl, hw', hrest⟩ := List.map_eq_cons_iff.1 hfst₂
  simp only at hw'
  subst hw'
  have hheavy'' : ∀ x ∈ rest, w' ≤ x.1 := by
    intro x hx
    have hmem : x.1 ∈ rest.map (·.1) := List.mem_map_of_mem hx
    rw [hrest] at hmem
    exact hw _ (hothers.mem_iff.1 hmem)
  obtain ⟨n, others₃, hfst₃, hsnd₃, hlongest₃, hcost₃⟩ := exists_exchange w' b' hheavy''
  have hnm : n ≤ m := by
    have hmem : n ∈ b' :: rest.map (·.2) := hsnd₃.mem_iff.1 List.mem_cons_self
    obtain ⟨x, hx, heq⟩ := List.mem_map.1 (show n ∈ ((w', b') :: rest).map (·.2) from hmem)
    rw [← heq]
    exact hlongest₂ x hx
  -- so the longest of all can be cut to the next
  have hcut : share (n :: n :: others₃.map (·.2)) ≤ 1 := by
    have hall : share (m :: n :: others₃.map (·.2)) ≤ 1 := calc
      share (m :: n :: others₃.map (·.2))
      _ = share (m :: b' :: rest.map (·.2)) := share_eq_of_perm (hsnd₃.cons m)
      _ = share (a :: b :: others.map (·.2)) := share_eq_of_perm hsnd₂
      _ = share (weighed.map (·.2)) := (share_eq_of_perm hlengths).symm
      _ ≤ 1 := hshare
    have hle : ∀ d ∈ n :: others₃.map (·.2), d ≤ n := by
      intro d hd
      rcases List.mem_cons.1 hd with rfl | hd
      · exact le_rfl
      · obtain ⟨x, hx, rfl⟩ := List.mem_map.1 hd
        exact hlongest₃ x hx
    have hpos : (0 : ℚ) < (1 / 2) ^ m := by positivity
    rw [share_cons m] at hall
    rw [share_cons n]
    exact share_add_le_one hle (by linarith)
  have hn : n ≠ 0 := by
    rintro rfl
    have := share_nonneg (others₃.map (·.2))
    simp only [share_cons, pow_zero] at hcut
    linarith
  obtain ⟨n, rfl⟩ := Nat.exists_eq_succ_of_ne_zero hn
  refine ⟨n, others₃, ?_, hcut, ?_⟩
  · rw [hfst₃, hrest]
    exact hothers
  · have hle : v * (n + 1) ≤ v * m := Nat.mul_le_mul_left v hnm
    rw [cost_eq_of_perm hperm, cost_cons]
    rw [cost_cons] at hcost₂
    simp only [Nat.succ_eq_add_one] at hcost₃
    omega

/-- **No lengths cost less than those of a joined forest.** -/
theorem Joining.cost_le {root : CodeTree} {placed order : List (CodeTree × ℕ)}
    (h : Joining root placed order) {weighed : List (ℕ × ℕ)}
    (hweights : (weighed.map (·.1)).Perm (placed.map fun x => x.1.weight))
    (hshare : share (weighed.map (·.2)) ≤ 1) :
    cost (placed.map fun x => (x.1.weight, x.2)) ≤ cost weighed := by
  induction h generalizing weighed with
  | last => simp [cost]
  | @pair l r d before after order hsorted hbefore hafter h ih =>
    obtain ⟨hl, hsorted⟩ := List.pairwise_cons.1 hsorted
    obtain ⟨hr, -⟩ := List.pairwise_cons.1 hsorted
    have hheavy : ∀ x ∈ (before ++ after).map fun x => x.1.weight, r.weight ≤ x := by
      intro x hx
      obtain ⟨y, hy, rfl⟩ := List.mem_map.1 hx
      exact (hr y hy).1
    simp only [List.map_cons] at hweights
    obtain ⟨n, others, hothers, hcut, hcost⟩ :=
      exists_two_longest hweights (hl _ List.mem_cons_self).1 hheavy hshare
    -- joined, the two are one symbol with a code that is one bit shorter
    have hjoined : cost ((before ++ (node l r, d) :: after).map fun x => (x.1.weight, x.2)) ≤
        cost (((node l r).weight, n) :: others) := by
      refine ih ?_ ?_
      · refine .trans ?_ (List.perm_middle.map _).symm
        rw [List.map_cons, List.map_cons]
        exact hothers.cons _
      · rw [List.map_cons, share_cons]
        simp only [share_cons, pow_succ] at hcut
        linarith
    rw [cost_eq_of_perm (List.perm_middle.map _), List.map_cons, cost_cons, cost_cons] at hjoined
    rw [List.map_cons, List.map_cons, cost_cons, cost_cons]
    simp only [weight] at hjoined ⊢
    have hnode : (l.weight + r.weight) * d = l.weight * d + r.weight * d := Nat.add_mul ..
    have hnode' : (l.weight + r.weight) * n = l.weight * n + r.weight * n := Nat.add_mul ..
    have hd : ∀ x e : ℕ, x * (e + 1) = x * e + x := fun x e => Nat.mul_succ x e
    rw [hd, hd] at hcost ⊢
    omega

end CodeTree

/-- **The length of a symbol's code.** -/
def codeLength (data : List UInt8) (s : Symbol) : ℕ := ((codeLengths data).lookup s).getD 0

variable {data : List UInt8}

theorem codeLength_of_mem {s : Symbol} {d : ℕ} (h : (s, d) ∈ codeLengths data) :
    codeLength data s = d := by
  have hlookup : (codeLengths data).lookup s = some d := by
    refine lookup_of_unique h ?_
    intro d' hd'
    exact congrArg Prod.snd
      (List.inj_on_of_nodup_map (fillsTree_codeLengths data).nodup hd' h rfl)
  rw [codeLength, hlookup, Option.getD_some]

/-- **The code lengths of a byte string are optimal**: whatever other lengths fit into one code space,
its bytes take no fewer bits in them. -/
theorem codeLength_optimal (data : List UInt8) (m : Symbol → ℕ)
    (hfits : ∑ b ∈ data.toFinset, (1 / 2 : ℚ) ^ m (.byte b) + (1 / 2) ^ m .stop ≤ 1) :
    ∑ b ∈ data.toFinset, data.count b * codeLength data (.byte b) ≤
      ∑ b ∈ data.toFinset, data.count b * m (.byte b) := by
  obtain ⟨entries, order, h⟩ := exists_joined data
  have hle : cost ((entries.map fun x => (leafOf data x.1, x.2)).map fun x => (x.1.weight, x.2)) ≤
      cost (entries.map fun x => (frequency data x.1, m x.1)) := by
    apply h.joining.cost_le
    · rw [List.map_map, List.map_map]
      exact .refl _
    · rw [CodeTree.share, List.map_map, List.map_map]
      exact (h.sum_eq fun s => (1 / 2 : ℚ) ^ m s).trans_le hfits
  have hlengths : ∀ x ∈ entries, x.2 = codeLength data x.1 := by
    intro x hx
    refine (codeLength_of_mem ?_).symm
    rw [h.codeLengths_eq]
    exact h.mem_iff.2 hx
  have hcost : cost ((entries.map fun x => (leafOf data x.1, x.2)).map fun x => (x.1.weight, x.2)) =
      (entries.map fun x => frequency data x.1 * codeLength data x.1).sum := by
    rw [cost, List.map_map, List.map_map]
    refine congrArg List.sum (List.map_congr_left fun x hx => ?_)
    rw [← hlengths x hx]
    rfl
  rw [hcost, h.sum_eq fun s => frequency data s * codeLength data s, cost, List.map_map] at hle
  have hother := h.sum_eq fun s => frequency data s * m s
  simp only [frequency, zero_mul, add_zero] at hle hother
  exact hle.trans_eq hother

/-- Three bytes take seven bits together. Lengths of two for all would take eight. -/
theorem codeLength_optimal_four_bytes :
    let data : List UInt8 := [66, 67, 65, 67]
    (∑ _b ∈ data.toFinset, (1 / 2 : ℚ) ^ 2 + (1 / 2) ^ 2 ≤ 1) ∧
      ∑ b ∈ data.toFinset, data.count b * codeLength data (.byte b) = 7 ∧
      ∑ b ∈ data.toFinset, data.count b * codeLength data (.byte b) ≤
        ∑ b ∈ data.toFinset, data.count b * 2 := by
  intro data
  have hfits : ∑ _b ∈ data.toFinset, (1 / 2 : ℚ) ^ 2 + (1 / 2) ^ 2 ≤ 1 := by
    rw [show data.toFinset = {65, 66, 67} by decide, Finset.sum_const,
      show ({65, 66, 67} : Finset UInt8).card = 3 by decide]
    norm_num
  exact ⟨hfits, by decide +kernel, codeLength_optimal data (fun _ => 2) hfits⟩

end PackFormat
