import Mathlib.Tactic
import PackFormat.CommandLine.FileTree

/-!
# Files right in the working directory

A plain name leads to what is right in the working directory, if no link has that name.
Putting a file there changes what is at that location and nothing else.

* `PlainName`: a name that is a path by itself, and no switch.
* `FileTree.find_of_file`, `FileTree.find_of_absent`, `FileTree.create_of_plain`: opening
  such a name.
* `FileTree.Holding`: **a tree with a file put at a location**, and every other location as
  it was.
-/

namespace PackFormat.CommandLine

/-- **A name that is a path by itself**, and that no switch starts like. -/
structure PlainName (name : String) : Prop where
  ne_empty : name ≠ ""
  ne_dot : name ≠ "."
  ne_dots : name ≠ ".."
  noSlash : '/' ∉ name.toList
  noNull : '\x00' ∉ name.toList
  noMinus : name.toList.head? ≠ some '-'
  short : name.utf8ByteSize ≤ maxName

theorem cutAtSlashes_of_notMem {chars : List Char} (h : '/' ∉ chars) : cutAtSlashes chars = [chars] := by
  induction chars with
  | nil => rfl
  | cons c rest ih =>
    rw [List.mem_cons, not_or] at h
    rw [cutAtSlashes, if_neg (Ne.symm h.1), ih h.2]

namespace PlainName

variable {name : String}

theorem names (h : PlainName name) : names name = [name] := by
  rw [CommandLine.names, cutAtSlashes_of_notMem h.noSlash, List.map_singleton, String.ofList_toList]

theorem unusable (h : PlainName name) : FileTree.unusable name = none := by
  have hlt : ¬ maxPath ≤ name.utf8ByteSize := not_le.2 (lt_of_le_of_lt h.short (by decide))
  rw [FileTree.unusable, if_neg h.ne_empty, if_neg hlt]

theorem start (h : PlainName name) (t : FileTree) : t.start name = t.working :=
  if_neg fun heq => h.noSlash (List.mem_of_head? heq)

end PlainName

namespace FileTree

variable {t t' t'' : FileTree} {name : String} {l : Location} {bytes bytes' : List UInt8}

/-- Where a plain name leads, unless it is a link. -/
def place (t : FileTree) (name : String) : Location := t.working ++ [name]

theorem isDirectory_iff : t.isDirectory l = true ↔
    (∃ x ∈ t.working :: t.directories, l <+: x) ∨
      ∃ x ∈ t.devices.map (·.1) ++ t.links.map (·.1) ++ t.files.map (·.1), l <+: x ∧ l ≠ x := by
  simp only [isDirectory, Bool.or_eq_true, List.any_eq_true, List.isPrefixOf_iff_prefix,
    Bool.and_eq_true, decide_eq_true_eq]

theorem entry_working (t : FileTree) : t.entry t.working = .directory :=
  if_pos (isDirectory_iff.2 (Or.inl ⟨_, List.mem_cons_self, List.prefix_refl _⟩))

/-- **A plain name leads to its place.** -/
theorem resolve_plain (h : PlainName name) (hlink : t.links.lookup (t.place name) = none) (n : ℕ) :
    t.resolve n t.working [name] = .ok (t.place name) := by
  have henter : t.enter t.working name = .ok (t.place name) := by
    rw [enter, entry_working]
    simp only [h.ne_empty, h.ne_dot, h.ne_dots, or_self, if_false, if_neg (not_lt.2 h.short)]
    rfl
  simp only [resolve, henter, bind, Except.bind, hlink]

section Open

variable (h : PlainName name) (hlink : t.links.lookup (t.place name) = none)

include h hlink

theorem find_of_file (hentry : t.entry (t.place name) = .file bytes) :
    t.find name = .ok (t.place name) := by
  simp only [find, h.unusable, h.names, h.start, resolve_plain h hlink, bind, Except.bind, hentry]

theorem find_of_absent (hentry : t.entry (t.place name) = .absent) :
    t.find name = .error .notFound := by
  simp only [find, h.unusable, h.names, h.start, resolve_plain h hlink, bind, Except.bind, hentry]

/-- **Creating a file under a plain name**: where there is one, or where nothing is and something may be. -/
theorem create_of_plain (hentry : (∃ bytes, t.entry (t.place name) = .file bytes) ∨
      t.entry (t.place name) = .absent ∧ t.closure (t.place name) = none) :
    t.create name = .ok (t.place name, t.put (t.place name) []) := by
  have hnamed : (([name].reverse.dropWhile (· = "")).reverse) = [name] := by
    rw [List.reverse_singleton, List.dropWhile_cons_of_neg (by simpa using h.ne_empty),
      List.reverse_singleton]
  simp only [create, h.unusable, h.names, h.start, hnamed, lt_irrefl, if_false, resolve_plain h hlink,
    bind, Except.bind]
  rcases hentry with ⟨bytes, hfile⟩ | ⟨habsent, hopen⟩
  · simp only [hfile]
  · simp only [habsent, hopen, Option.elim_none]

end Open

section Put

/-- **A place for a file** in the working directory: no directory, and no device. -/
structure Free (t : FileTree) (name : String) : Prop where
  notDirectory : t.isDirectory (t.place name) = false
  noDevice : t.devices.lookup (t.place name) = none

theorem free_of_entry (hdirectory : t.entry (t.place name) ≠ .directory)
    (hdevice : ∀ d, t.entry (t.place name) ≠ .device d) : t.Free name := by
  unfold entry at hdirectory hdevice
  split at hdirectory
  · exact absurd rfl hdirectory
  · rename_i hnot
    refine ⟨Bool.not_eq_true _ ▸ hnot, Option.eq_none_iff_forall_ne_some.2 fun d hd => hdevice d ?_⟩
    rw [if_neg hnot, hd]

theorem put_of_free (h : t.Free name) (bytes : List UInt8) :
    t.put (t.place name) bytes =
      { t with files := (t.place name, bytes) :: t.files.filter (·.1 ≠ t.place name) } :=
  if_neg (by rw [h.noDevice]; decide)

/-- What leads to a place in the working directory leads to that. -/
theorem prefix_working (h : l <+: t.place name) (hne : l ≠ t.place name) : l <+: t.working :=
  (List.prefix_concat_iff.1 h).resolve_left hne

/-- A file that is put there makes no directories, and neither did one that was there. -/
theorem isDirectory_put (h : t.Free name) (bytes : List UInt8) (l : Location) :
    (t.put (t.place name) bytes).isDirectory l = t.isDirectory l := by
  have hworking : l <+: t.place name → l ≠ t.place name →
      ∃ x ∈ t.working :: t.directories, l <+: x := fun hprefix hne =>
    ⟨_, List.mem_cons_self, prefix_working hprefix hne⟩
  rw [put_of_free h, Bool.eq_iff_iff, isDirectory_iff, isDirectory_iff]
  simp only [List.map_cons, List.mem_append, List.mem_cons, List.mem_map, List.mem_filter]
  constructor
  · rintro (hlisted | ⟨x, hx | rfl | ⟨f, ⟨hf, -⟩, rfl⟩, hprefix, hne⟩)
    · exact Or.inl (by simpa using hlisted)
    · exact Or.inr ⟨x, Or.inl hx, hprefix, hne⟩
    · exact Or.inl (by simpa using hworking hprefix hne)
    · exact Or.inr ⟨f.1, Or.inr ⟨f, hf, rfl⟩, hprefix, hne⟩
  · rintro (hlisted | ⟨x, hx | ⟨f, hf, rfl⟩, hprefix, hne⟩)
    · exact Or.inl (by simpa using hlisted)
    · exact Or.inr ⟨x, Or.inl hx, hprefix, hne⟩
    · by_cases heq : f.1 = t.place name
      · rw [heq] at hprefix hne
        exact Or.inl (by simpa using hworking hprefix hne)
      · exact Or.inr ⟨f.1, Or.inr (Or.inr ⟨f, ⟨hf, by simpa using heq⟩, rfl⟩), hprefix, hne⟩

theorem lookup_filter_ne {α : Type} {l l' : Location} (h : l ≠ l') (entries : List (Location × α)) :
    (entries.filter (·.1 ≠ l')).lookup l = entries.lookup l := by
  induction entries with
  | nil => rfl
  | cons e rest ih =>
    by_cases he : e.1 = l'
    · have hne : (l == e.1) = false := by rw [he]; exact beq_false_of_ne h
      rw [List.filter_cons_of_neg (by simpa using he), ih, List.lookup_cons, hne]
    · rw [List.filter_cons_of_pos (by simpa using he), List.lookup_cons, List.lookup_cons, ih]

/-- **What a tree is like when a file was put at a location**: that file is there, and everything else is
as it was. -/
structure Holding (t : FileTree) (l : Location) (bytes : List UInt8) (t' : FileTree) : Prop where
  self : t'.entry l = .file bytes
  other : ∀ l' ≠ l, t'.entry l' = t.entry l'
  rest : t' = { t with files := t'.files }

/-- **Putting a file** in the working directory. -/
theorem holding_put (h : t.Free name) (bytes : List UInt8) :
    t.Holding (t.place name) bytes (t.put (t.place name) bytes) := by
  have hput := put_of_free h bytes
  refine ⟨?_, ?_, by rw [hput]⟩
  · have hlookup : (t.put (t.place name) bytes).files.lookup (t.place name) = some bytes := by
      rw [hput, List.lookup_cons_self]
    have hdevice : (t.put (t.place name) bytes).devices.lookup (t.place name) = none := by
      rw [hput]
      exact h.noDevice
    rw [entry, isDirectory_put h, h.notDirectory, hdevice, hlookup]
    rfl
  · intro l' hne
    have hlookup : (t.put (t.place name) bytes).files.lookup l' = t.files.lookup l' := by
      rw [hput, List.lookup_cons, beq_false_of_ne hne]
      exact lookup_filter_ne hne t.files
    have hdevice : (t.put (t.place name) bytes).devices = t.devices := by rw [hput]
    rw [entry, entry, isDirectory_put h, hdevice, hlookup]

theorem Free.put (h : t.Free name) (bytes : List UInt8) : (t.put (t.place name) bytes).Free name := by
  have hplace : (t.put (t.place name) bytes).place name = t.place name := by rw [put_of_free h]; rfl
  have hentry := (holding_put h bytes).self
  refine free_of_entry ?_ fun d => ?_
  · rw [hplace, hentry]
    exact nofun
  · rw [hplace, hentry]
    exact nofun

/-- Another file in its place. -/
theorem Holding.trans (h : t.Holding l bytes t') (h' : t'.Holding l bytes' t'') :
    t.Holding l bytes' t'' := by
  refine ⟨h'.self, fun l' hne => (h'.other l' hne).trans (h.other l' hne), ?_⟩
  rw [h'.rest, h.rest]

theorem Holding.contents (h : t.Holding l bytes t') : t'.contents l = bytes := by
  rw [FileTree.contents, h.self]

theorem Holding.contents_other (h : t.Holding l bytes t') {l' : Location} (hne : l' ≠ l) :
    t'.contents l' = t.contents l' := by
  rw [FileTree.contents, FileTree.contents, h.other l' hne]

end Put

end FileTree

end PackFormat.CommandLine
