import PackFormat.Proofs.Reading

/-!
# Reading a number of bytes

A number of bytes takes as many reads as the source makes of it. Each read asks for what is
still missing, so that no byte behind them is taken, and each but perhaps the last gives a
piece of them; so there are no more reads than bytes.

* `Source.Gathers`: reads that each gave a piece.
* `gathered_readExact`: reading a number of bytes is such reads, and perhaps one more that
  gave nothing or failed.
* `readExact_of_le`, `readExact_of_lt`: it gives the next bytes, or says why there are too
  few, however small the reads are.
* `readExact_of_ok`, `readExact_of_error`: what holds of any source, a failing one too.
* `readExact_gathers`: **what is read, what is asked for on the way, and where the source
  is left.**
-/

namespace PackFormat

namespace Source

/-- **What reads ask for** that are to get `n` bytes, when they get some pieces one by one. -/
def asked (n : ℕ) : List (List UInt8) → List ℕ
  | [] => []
  | piece :: pieces => n :: asked (n - piece.length) pieces

/-- **Reads that are to get `n` bytes**, each of what is missing, and each of which gave a piece. -/
inductive Gathers : ℕ → Source → List (List UInt8) → Source → Prop
  | nil (n : ℕ) (s : Source) : Gathers n s [] s
  | cons {n : ℕ} {s s₁ s' : Source} {piece : List UInt8} {pieces : List (List UInt8)}
    (hread : s.read n = .ok piece s₁) (hne : piece ≠ [])
    (hrest : Gathers (n - piece.length) s₁ pieces s') : Gathers n s (piece :: pieces) s'

/-- **A read that gave nothing or failed**, and what that is called while a part is read. -/
inductive Stuck (part : String) :
    EStateM.Result StreamError Source (List UInt8) → Failure → Source → Prop
  | silent (s : Source) : Stuck part (.ok [] s) (.truncated part) s
  | failed (e : StreamError) (s : Source) : Stuck part (.error e s) (.ofRead part e) s

/-- **How reading `n` bytes ends**: with pieces that hold them all, or stuck at a read of what is
missing. -/
inductive Gathered (n : ℕ) (part : String) (s : Source) :
    EStateM.Result Failure Source (List UInt8) → Prop
  | whole {pieces : List (List UInt8)} {s' : Source} (h : Gathers n s pieces s')
    (hlength : pieces.flatten.length = n) : Gathered n part s (.ok pieces.flatten s')
  | short {pieces : List (List UInt8)} {s₁ s' : Source} {f : Failure} (h : Gathers n s pieces s₁)
    (hlt : pieces.flatten.length < n)
    (hstuck : Stuck part (s₁.read (n - pieces.flatten.length)) f s') :
    Gathered n part s (.error f s')

variable {n : ℕ} {s s₁ s' : Source} {pieces : List (List UInt8)} {piece : List UInt8}
  {part : String} {f : Failure}

theorem length_asked (n : ℕ) (pieces : List (List UInt8)) : (asked n pieces).length = pieces.length := by
  induction pieces generalizing n with
  | nil => rfl
  | cons piece pieces ih => rw [asked, List.length_cons, ih, List.length_cons]

/-- One more read asks for what all pieces have left missing. -/
theorem asked_append (n : ℕ) (pieces : List (List UInt8)) (last : List UInt8) :
    asked n (pieces ++ [last]) = asked n pieces ++ [n - pieces.flatten.length] := by
  induction pieces generalizing n with
  | nil => rfl
  | cons piece pieces ih =>
    simp only [List.cons_append, asked, ih, List.flatten_cons, List.length_append, Nat.sub_sub]

/-- What a read gives was to come, and nothing else is missing afterwards. -/
theorem upcoming_of_read (hread : s.read n = .ok piece s') (hne : piece ≠ []) :
    s.upcoming = piece ++ s'.upcoming := by
  by_cases ha : s.upcoming = []
  · obtain ⟨s₁, hend⟩ := read_end ha n
    rw [hread] at hend
    cases hhalt : s.haltError with
    | none => rw [hhalt] at hend; cases hend; exact absurd rfl hne
    | some e => rw [hhalt] at hend; cases hend
  · obtain ⟨s₁, hr, hpast⟩ := read_eq ha n
    cases hread.symm.trans hr
    rw [hpast.upcoming_take, List.take_append_drop]

section Stuck

/-- Nothing is taken, and the read is logged. -/
theorem Stuck.left (h : Stuck part (s.read n) f s') :
    s'.pos = s.pos ∧ s'.requests = s.requests.push n := by
  generalize hread : s.read n = r at h
  cases h with
  | silent => exact ⟨(gave_of_read hread).pos, requests_of_read hread⟩
  | failed e =>
    obtain ⟨-, rfl⟩ := read_of_error hread
    exact ⟨rfl, rfl⟩

/-- It is the fault's error, unless it is silence. -/
theorem Stuck.cause (h : Stuck part (s.read n) f s') :
    f = .truncated part ∨ ∃ fault ∈ s.fault, f = .ofRead part fault.error := by
  generalize hread : s.read n = r at h
  cases h with
  | silent => exact Or.inl rfl
  | failed e =>
    obtain ⟨⟨fault, hfault, rfl⟩, -⟩ := read_of_error hread
    exact Or.inr ⟨fault, hfault, rfl⟩

/-- **Where reads get stuck**, nothing is to come, and the cause is what the source ends with. -/
theorem Stuck.halted (h : Stuck part (s.read n) f s') (hm : s.maxRead ≠ some 0) (hn : 0 < n) :
    s.upcoming = [] ∧ f = (Failure.truncated part).atHalt s.haltError := by
  generalize hread : s.read n = r at h
  have hnil : s.upcoming = [] := by
    by_contra ha
    obtain ⟨s₁, hr, -⟩ := read_eq ha n
    have hgrant := grant_pos hm hn
    rw [hr] at hread
    subst hread
    generalize hpiece : s.upcoming.take (s.grant n) = piece at h
    cases h with
    | silent =>
      rcases List.take_eq_nil_iff.1 hpiece with hzero | hempty
      · omega
      · exact ha hempty
  obtain ⟨s₁, hend⟩ := read_end hnil n
  rw [hread] at hend
  refine ⟨hnil, ?_⟩
  cases hhalt : s.haltError with
  | none => rw [hhalt] at hend; subst hend; cases h; rfl
  | some e => rw [hhalt] at hend; subst hend; cases h; rfl

end Stuck

namespace Gathers

theorem takes (h : Gathers n s pieces s') : s.Takes pieces.flatten s' := by
  induction h with
  | nil n s => exact Takes.refl s
  | @cons n s s₁ s' piece pieces hread hne hrest ih =>
    obtain ⟨b, bytes, rfl⟩ := List.exists_cons_of_ne_nil hne
    exact (takes_of_read hread).trans ih

theorem upcoming (h : Gathers n s pieces s') : s.upcoming = pieces.flatten ++ s'.upcoming := by
  induction h with
  | nil n s => rfl
  | cons hread hne hrest ih =>
    rw [upcoming_of_read hread hne, ih, List.flatten_cons, List.append_assoc]

theorem requests (h : Gathers n s pieces s') :
    s'.requests.toList = s.requests.toList ++ asked n pieces := by
  induction h with
  | nil n s => exact (List.append_nil _).symm
  | cons hread hne hrest ih =>
    rw [ih, requests_of_read hread, Array.toList_push, List.append_assoc]
    rfl

theorem ne_nil (h : Gathers n s pieces s') : ∀ piece ∈ pieces, piece ≠ [] := by
  induction h with
  | nil n s => exact fun piece hpiece => absurd hpiece List.not_mem_nil
  | cons hread hne hrest ih =>
    intro piece hpiece
    rcases List.mem_cons.1 hpiece with rfl | hpiece
    · exact hne
    · exact ih piece hpiece

/-- **There are no more pieces than bytes**, and no more bytes than were to be got. -/
theorem length_le (h : Gathers n s pieces s') :
    pieces.length ≤ pieces.flatten.length ∧ pieces.flatten.length ≤ n := by
  induction h with
  | nil n s => exact ⟨le_rfl, Nat.zero_le n⟩
  | cons hread hne hrest ih =>
    have hle := (read_of_ok hread).1
    have hpos := List.length_pos_iff.2 hne
    rw [List.length_cons, List.flatten_cons, List.length_append]
    omega

/-- **Each read asks for less than the one before it**, and for more than is missing behind them. -/
theorem asked_decreasing (h : Gathers n s pieces s') :
    (asked n pieces).Pairwise (· > ·) ∧
      ∀ x ∈ asked n pieces, n - pieces.flatten.length < x ∧ x ≤ n := by
  induction h with
  | nil n s => exact ⟨List.Pairwise.nil, fun x hx => absurd hx List.not_mem_nil⟩
  | @cons n s s₁ s' piece pieces hread hne hrest ih =>
    have hle := (read_of_ok hread).1
    have hpos := List.length_pos_iff.2 hne
    obtain ⟨hpairwise, hbounds⟩ := ih
    refine ⟨List.pairwise_cons.2 ⟨?_, hpairwise⟩, ?_⟩
    · intro x hx
      have := (hbounds x hx).2
      omega
    · intro x hx
      rw [List.flatten_cons, List.length_append]
      rcases List.mem_cons.1 hx with rfl | hx
      · omega
      · have := hbounds x hx
        omega

/-- **Stuck behind some pieces**, these are all that was to come. -/
theorem stuck (h : Gathers n s pieces s₁) (hm : s.maxRead ≠ some 0)
    (hlt : pieces.flatten.length < n)
    (hstuck : Stuck part (s₁.read (n - pieces.flatten.length)) f s') :
    s.upcoming = pieces.flatten ∧ f = (Failure.truncated part).atHalt s.haltError := by
  have hpast := h.takes.past
  obtain ⟨hnil, hcause⟩ := hstuck.halted (hpast.maxRead ▸ hm) (by omega)
  have hupcoming := h.upcoming
  rw [hnil, List.append_nil] at hupcoming
  rw [hpast.haltError (by rw [hupcoming])] at hcause
  exact ⟨hupcoming, hcause⟩

/-- **What a read that got stuck leaves**: it counts as one more that gave an empty piece, asks for less
than the reads before it, and is the last. -/
theorem asked_stuck (h : Gathers n s pieces s₁) (hlt : pieces.flatten.length < n)
    (hstuck : Stuck part (s₁.read (n - pieces.flatten.length)) f s') :
    s'.pos = s.pos + pieces.flatten.length ∧
      s'.requests.toList = s.requests.toList ++ asked n (pieces ++ [[]]) ∧
      (asked n (pieces ++ [[]])).Pairwise (· > ·) ∧ (asked n (pieces ++ [[]])).length ≤ n := by
  obtain ⟨hpos, hrequests⟩ := hstuck.left
  obtain ⟨hcount, -⟩ := h.length_le
  obtain ⟨hpairwise, hbounds⟩ := h.asked_decreasing
  have hasked := asked_append n pieces []
  refine ⟨by rw [hpos, h.takes.gave.pos], ?_, ?_, ?_⟩
  · rw [hrequests, Array.toList_push, h.requests, hasked, List.append_assoc]
  · rw [hasked, List.pairwise_append]
    refine ⟨hpairwise, List.pairwise_singleton _ _, ?_⟩
    intro x hx y hy
    obtain rfl := List.mem_singleton.1 hy
    exact (hbounds x hx).1
  · rw [length_asked, List.length_append, List.length_singleton]
    omega

end Gathers

/-- Stuck at once. -/
theorem Gathered.stuck (hn : 0 < n) (h : Stuck part (s.read n) f s') :
    Gathered n part s (.error f s') := .short (.nil n s) hn h

/-- **A piece in front.** -/
theorem Gathered.cons {r : EStateM.Result Failure Source (List UInt8)}
    (hread : s.read n = .ok piece s₁) (hne : piece ≠ []) :
    Gathered (n - piece.length) part s₁ r → Gathered n part s
      (match r with
        | .error f s' => .error f s'
        | .ok rest s' => .ok (piece ++ rest) s') := by
  intro h
  have hle := (read_of_ok hread).1
  cases h with
  | whole hrest hlength =>
    simp only [← List.flatten_cons]
    exact .whole (.cons hread hne hrest) (by rw [List.flatten_cons, List.length_append]; omega)
  | short hrest hlt hstuck =>
    rw [Nat.sub_sub, ← List.length_append, ← List.flatten_cons] at hstuck
    exact .short (.cons hread hne hrest) (by rw [List.flatten_cons, List.length_append]; omega) hstuck

end Source

open Source

section ReadExact

variable {n : ℤ} {part : String} {s s' : Source} {bytes : List UInt8} {f : Failure}

/-- **Reading a number of bytes** is reads of what is missing, whatever the source. -/
theorem gathered_readExact (n : ℤ) (part : String) (s : Source) :
    Gathered n.toNat part s (readExact n part s) := by
  -- by what is missing: a read that gives something leaves less of it
  induction hm : n.toNat using Nat.strong_induction_on generalizing n s with
  | h m ih =>
    rw [readExact]
    split
    · rename_i hn
      subst hm
      rcases hread : s.read n.toNat with ⟨_ | ⟨b, bytes⟩, s₁⟩ | ⟨e, s₁⟩
      · exact .stuck (by omega) (hread ▸ .silent s₁)
      · have hle := (read_of_ok hread).1
        rw [List.length_cons] at hle
        have hrest := ih (n - (bytes.length + 1)).toNat (by omega) (n - (bytes.length + 1)) s₁ rfl
        rw [show (n - (bytes.length + 1)).toNat = n.toNat - (b :: bytes).length by
          rw [List.length_cons]; omega] at hrest
        exact Gathered.cons hread (List.cons_ne_nil _ _) hrest
      · exact .stuck (by omega) (hread ▸ .failed e s₁)
    · obtain rfl : m = 0 := by omega
      exact .whole (.nil 0 s) rfl

/-- **As many bytes as were asked for**, whatever the source. -/
theorem readExact_of_ok (h : readExact n part s = .ok bytes s') :
    bytes.length = n.toNat ∧ s.Takes bytes s' := by
  have hgathered := gathered_readExact n part s
  rw [h] at hgathered
  cases hgathered with
  | whole hgathers hlength => exact ⟨hlength, hgathers.takes⟩

/-- **The two ways to fail**: too few bytes, or the source's fault. -/
theorem readExact_of_error (h : readExact n part s = .error f s') :
    f = .truncated part ∨ ∃ fault ∈ s.fault, f = .ofRead part fault.error := by
  have hgathered := gathered_readExact n part s
  rw [h] at hgathered
  cases hgathered with
  | short hgathers hlt hstuck => exact hgathers.takes.kin.fault ▸ hstuck.cause

/-- **Enough bytes**: the next `n`, in however many reads. -/
theorem readExact_of_le (part : String) (n : ℕ) (hm : s.maxRead ≠ some 0)
    (hn : n ≤ s.upcoming.length) :
    ∃ s', readExact n part s = .ok (s.upcoming.take n) s' ∧ s.Past n s' := by
  have hgathered := gathered_readExact n part s
  generalize readExact n part s = r at hgathered
  cases hgathered with
  | @whole pieces s' hgathers hlength =>
    rw [Int.toNat_natCast] at hlength
    have hpast := hgathers.takes.past
    rw [hlength] at hpast
    refine ⟨s', ?_, hpast⟩
    rw [hgathers.upcoming, List.take_left' hlength]
  | short hgathers hlt hstuck =>
    obtain ⟨hupcoming, -⟩ := hgathers.stuck hm hlt hstuck
    rw [hupcoming] at hn
    omega

/-- **Too few bytes**: the source is truncated, or fails. -/
theorem readExact_of_lt (part : String) (n : ℕ) (hm : s.maxRead ≠ some 0)
    (hn : s.upcoming.length < n) :
    ∃ s', readExact n part s = .error ((Failure.truncated part).atHalt s.haltError) s' := by
  have hgathered := gathered_readExact n part s
  generalize readExact n part s = r at hgathered
  cases hgathered with
  | whole hgathers hlength =>
    rw [hgathers.upcoming, List.length_append] at hn
    omega
  | @short pieces s₁ s' f hgathers hlt hstuck =>
    obtain ⟨-, rfl⟩ := hgathers.stuck hm hlt hstuck
    exact ⟨s', rfl⟩

theorem length_upcoming (s : Source) : s.upcoming.length = s.halt - s.pos := by
  have : s.halt ≤ s.data.size := Nat.min_le_left _ _
  rw [upcoming, List.length_take, List.length_drop, Array.length_toList]
  omega

/-- **Reading `n` bytes reads them and no more**, from any source that gives what it can. It takes the
next `n` bytes if so many come before the halt, and otherwise all that do, and then it says what the
source ends with. The sizes asked for start with `n` and get smaller from read to read: each is what the
pieces before it have left missing, of which only the last one may be empty. So there are no more reads
than bytes, and none where no bytes are asked for. -/
theorem readExact_gathers {s : Source} (n : ℤ) (part : String) (hm : s.maxRead ≠ some 0) :
    let a := s.halt - s.pos
    let taken := (s.data.toList.drop s.pos).take (min n.toNat a)
    ∃ (pieces : List (List UInt8)) (s' : Source),
      (n ≤ a → readExact n part s = .ok taken s') ∧
      (a < n → readExact n part s =
        .error (match s.haltError with
          | some e => .ofRead part e
          | none => .truncated part) s') ∧
      s'.pos = s.pos + min n.toNat a ∧
      pieces.flatten = taken ∧ (∀ piece ∈ pieces.dropLast, piece ≠ []) ∧
      s'.requests.toList = s.requests.toList ++ asked n.toNat pieces ∧
      (asked n.toNat pieces).Pairwise (· > ·) ∧ (asked n.toNat pieces).length ≤ n.toNat ∧
      (1 ≤ n → (asked n.toNat pieces).head? = some n.toNat) ∧ (n ≤ 0 → s' = s) := by
  intro a taken
  have ha : s.upcoming.length = a := length_upcoming s
  have htaken : taken = s.upcoming.take n.toNat := by
    rw [upcoming, List.take_take]
  have hgathered := gathered_readExact n part s
  generalize readExact n part s = r at hgathered
  cases hgathered with
  | @whole pieces s' hgathers hlength =>
    have hle : n.toNat ≤ a := by
      rw [← ha, hgathers.upcoming, List.length_append]
      omega
    have hflatten : pieces.flatten = taken := by
      rw [htaken, hgathers.upcoming, List.take_left' hlength]
    obtain ⟨hcount, -⟩ := hgathers.length_le
    refine ⟨pieces, s', fun _ => by rw [hflatten], fun hlt => by omega, ?_, hflatten,
      fun piece hpiece => hgathers.ne_nil piece (List.dropLast_subset _ hpiece), hgathers.requests,
      hgathers.asked_decreasing.1, by rw [length_asked]; omega, ?_, ?_⟩
    · rw [hgathers.takes.gave.pos, hlength, Nat.min_eq_left hle]
    · intro hn
      cases hgathers with
      | nil => simp at hlength; omega
      | cons hread hne hrest => rfl
    · intro hn
      cases hgathers with
      | nil => rfl
      | cons hread hne hrest => rw [List.length_cons] at hcount; omega
  | @short pieces s₁ s' f hgathers hlt hstuck =>
    obtain ⟨hupcoming, hcause⟩ := hgathers.stuck hm hlt hstuck
    have hlength : pieces.flatten.length = a := by rw [← hupcoming, ha]
    have hflatten : pieces.flatten = taken := by
      rw [htaken, hupcoming, List.take_of_length_le hlt.le]
    obtain ⟨hpos, hrequests, hdecreasing, hcount⟩ := hgathers.asked_stuck hlt hstuck
    refine ⟨pieces ++ [[]], s', fun hle => by omega, fun _ => ?_, ?_, ?_, ?_, hrequests, hdecreasing,
      hcount, fun _ => ?_, fun hn => by omega⟩
    · rw [hcause]
      cases s.haltError with
      | none => rfl
      | some e => rfl
    · rw [hpos, hlength, Nat.min_eq_right (by omega)]
    · rw [List.flatten_append, List.flatten_singleton, List.append_nil, hflatten]
    · rw [List.dropLast_concat]
      exact hgathers.ne_nil
    · cases pieces with
      | nil => rfl
      | cons piece pieces => rfl

/-- Six bytes from a source that gives two at a time and fails after three. -/
theorem readExact_gathers_failing :
    let s : Source := { data := #[10, 11, 12, 13, 14, 15, 16, 17], pos := 1, maxRead := some 2,
                        fault := some ⟨4, .system ⟨some 5, "gone"⟩⟩ }
    s.maxRead ≠ some 0 ∧
      ∃ pieces s', readExact 6 "symbol table" s = .error (.reading "symbol table" ⟨some 5, "gone"⟩) s' ∧
        s'.pos = 4 ∧ pieces.flatten = [11, 12, 13] ∧ s'.requests.toList = asked 6 pieces := by
  intro s
  have hm : s.maxRead ≠ some 0 := by decide
  obtain ⟨pieces, s', -, herror, hpos, hflatten, -, hrequests, -⟩ :=
    readExact_gathers (s := s) 6 "symbol table" hm
  exact ⟨hm, pieces, s', herror (by decide), hpos, hflatten, hrequests⟩

end ReadExact

end PackFormat
