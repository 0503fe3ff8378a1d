import PackFormat.CommandLine.System
import PackFormat.Medium
import PackFormat.Proofs.CommandLine.FileTree

/-!
# Plain names on a usual system

Nothing that a usual system has is in the working directory but what was put there. So a
plain name is no link, and may be created; and what it leads to is the file of that name,
if there is one.

* `FileTree.Apart`: places outside the working directory, as all of the usual ones are.
* `FileTree.links_ofWorking`, `FileTree.closure_ofWorking`, `FileTree.memory_ofWorking`:
  nothing is in the way of a plain name, nor of a chunk.
* `FileTree.workingFiles_ofWorking`, `FileTree.entry_ofWorking`: **what is in the working
  directory**, and at a plain name.
-/

namespace PackFormat.CommandLine.FileTree

/-- **Places outside the working directory.** -/
def Apart (places : List Location) : Prop := ∀ l ∈ places, ¬ workplace <+: l

instance (places : List Location) : Decidable (Apart places) :=
  inferInstanceAs (Decidable (∀ l ∈ places, ¬ workplace <+: l))

theorem apart_directories : Apart usualDirectories := by decide +kernel

theorem apart_devices : Apart (usualDevices.map (·.1)) := by decide +kernel

theorem apart_links : Apart (usualLinks.map (·.1)) := by decide +kernel

theorem apart_files : Apart (usualFiles.map (·.1)) := by decide +kernel

section Lookup

variable {α : Type} {entries : List (Location × α)}

/-- What is listed elsewhere is not found in the working directory. -/
theorem Apart.lookup (h : Apart (entries.map (·.1))) (l : Location) :
    entries.lookup (workplace ++ l) = none := by
  refine List.lookup_eq_none_iff.2 fun e he => bne_iff_ne.2 fun heq => ?_
  exact h e.1 (List.mem_map_of_mem he) (heq ▸ List.prefix_append workplace l)

/-- What was put there is found by the names that lead to it from there. -/
theorem lookup_workplace (entries : List (Location × α)) (l : Location) :
    (entries.map fun e => (workplace ++ e.1, e.2)).lookup (workplace ++ l) = entries.lookup l := by
  induction entries with
  | nil => rfl
  | cons e rest ih =>
    have hkey : (workplace ++ l == workplace ++ e.1) = (l == e.1) := by
      rw [Bool.eq_iff_iff, beq_iff_eq, beq_iff_eq, List.append_cancel_left_eq]
    rw [List.map_cons, List.lookup_cons, List.lookup_cons, hkey, ih]

end Lookup

section OfWorking

variable (directories : List Location) (files : List (Location × List UInt8)) (name : String)

/-- **No plain name is a link.** -/
theorem links_ofWorking : (ofWorking directories files).links.lookup
    ((ofWorking directories files).place name) = none :=
  apart_links.lookup [name]

/-- **None is closed.** -/
theorem closure_ofWorking : (ofWorking directories files).closure
    ((ofWorking directories files).place name) = none := by
  simp [closure, ofWorking, usualClosed, place, workplace]

/-- **There is memory** for any chunk that is not too large. -/
theorem memory_ofWorking {k : ℤ} (hk : k ≤ 2 ^ 30) :
    ∀ m ∈ (ofWorking directories files).memory, k + byteStringHead ≤ m := by
  intro m hm
  cases hm
  unfold byteStringHead usualMemory
  omega

/-- **The files in the working directory** are those that were put there. -/
theorem workingFiles_ofWorking : (ofWorking directories files).workingFiles = files := by
  have husual : usualFiles.filter (fun f => workplace.isPrefixOf f.1) = [] := by
    refine List.filter_eq_nil_iff.2 fun f hf hprefix => ?_
    exact apart_files f.1 (List.mem_map_of_mem hf) (List.isPrefixOf_iff_prefix.1 hprefix)
  have hown : (files.map fun f => (workplace ++ f.1, f.2)).filter (fun f => workplace.isPrefixOf f.1) =
      files.map fun f => (workplace ++ f.1, f.2) := by
    refine List.filter_eq_self.2 fun f hf => ?_
    obtain ⟨f, -, rfl⟩ := List.mem_map.1 hf
    exact List.isPrefixOf_iff_prefix.2 (List.prefix_append workplace f.1)
  change ((usualFiles ++ files.map fun f => (workplace ++ f.1, f.2)).filter fun f =>
    workplace.isPrefixOf f.1).map (fun f => (f.1.drop workplace.length, f.2)) = files
  rw [List.filter_append, husual, List.nil_append, hown, List.map_map]
  simp [Function.comp_def]

variable {name}

/-- A plain name is no directory, unless a directory or a file makes it one. -/
theorem isDirectory_ofWorking (hdirectories : ∀ l ∈ directories, ¬ [name] <+: l)
    (hfiles : ∀ f ∈ files, [name] <+: f.1 → f.1 = [name]) :
    (ofWorking directories files).isDirectory ((ofWorking directories files).place name) = false := by
  have hwithin : ∀ {x}, workplace ++ [name] <+: x → workplace <+: x := fun h =>
    (List.prefix_append workplace [name]).trans h
  rw [Bool.eq_false_iff, Ne, isDirectory_iff]
  rintro (⟨x, hx, hprefix⟩ | ⟨x, hx, hprefix, hne⟩)
  · change x ∈ workplace :: (usualDirectories ++ directories.map (workplace ++ ·)) at hx
    rcases List.mem_cons.1 hx with rfl | hx
    · exact absurd hprefix.length_le (by simp [place, ofWorking])
    rcases List.mem_append.1 hx with hx | hx
    · exact apart_directories x hx (hwithin hprefix)
    · obtain ⟨l, hl, rfl⟩ := List.mem_map.1 hx
      exact hdirectories l hl ((List.prefix_append_right_inj workplace).1 hprefix)
  · change x ∈ usualDevices.map (·.1) ++ usualLinks.map (·.1) ++
      (usualFiles ++ files.map fun f => (workplace ++ f.1, f.2)).map (·.1) at hx
    rw [List.map_append, List.mem_append, List.mem_append, List.mem_append] at hx
    rcases hx with (hx | hx) | hx | hx
    · exact apart_devices x hx (hwithin hprefix)
    · exact apart_links x hx (hwithin hprefix)
    · exact apart_files x hx (hwithin hprefix)
    · rw [List.map_map] at hx
      obtain ⟨f, hf, rfl⟩ := List.mem_map.1 hx
      exact hne (congrArg _ (hfiles f hf ((List.prefix_append_right_inj workplace).1 hprefix)).symm)

/-- **What is at a plain name** is the file of that name, if it is no directory. -/
theorem entry_ofWorking (hdirectories : ∀ l ∈ directories, ¬ [name] <+: l)
    (hfiles : ∀ f ∈ files, [name] <+: f.1 → f.1 = [name]) :
    (ofWorking directories files).entry ((ofWorking directories files).place name) =
      (files.lookup [name]).elim .absent .file := by
  have hdevice : (ofWorking directories files).devices.lookup
      ((ofWorking directories files).place name) = none := apart_devices.lookup [name]
  have hfile : (ofWorking directories files).files.lookup ((ofWorking directories files).place name) =
      files.lookup [name] := by
    change (usualFiles ++ files.map fun f => (workplace ++ f.1, f.2)).lookup (workplace ++ [name]) = _
    rw [List.lookup_append, apart_files.lookup, Option.none_or, lookup_workplace]
  rw [entry, isDirectory_ofWorking directories files hdirectories hfiles, hdevice, hfile]
  cases files.lookup [name] <;> rfl

end OfWorking

end PackFormat.CommandLine.FileTree
