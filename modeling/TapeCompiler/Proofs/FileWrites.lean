import TapeCompiler.Files.Tree

/-! # What writing a file changes

Writing a file makes the directories above it and then puts the file.  Making directories, whether
it succeeds or not, never touches a file; putting a file touches no other one.

* `FileTree.file?`, `FileTree.SameFiles`: the files of a tree, directories left aside.
* `FileTree.sameFiles_add`: one new directory.  `FileTree.sameFiles_makeMissing` and
  `FileTree.sameFiles_makeDirectoriesFrom`: all of them.
* `FileTree.writeFile_cases`: what a write leaves behind, with an error or without.
-/

namespace TapeCompiler.FileTree

variable {tree : FileTree} {place other : Path} {entry : Entry}

/-! ## Looking up -/

@[simp] theorem lookup_root (tree : FileTree) : tree.lookup [] = some .directory := rfl

theorem lookup_put_self (hplace : place ≠ []) :
    (tree.put place entry).lookup place = some entry := by
  have hnone : (tree.entries.filter fun e => e.1 ≠ place).find? (fun e => e.1 = place) = none := by
    simp [List.find?_eq_none]
  rw [lookup, if_neg hplace, put, List.find?_append, hnone]
  simp

theorem lookup_put_of_ne (hne : other ≠ place) :
    (tree.put place entry).lookup other = tree.lookup other := by
  have hfilter : (tree.entries.filter fun e => e.1 ≠ place).find? (fun e => e.1 = other) =
      tree.entries.find? fun e => e.1 = other := by
    rw [List.find?_filter]
    congr 1
    funext e
    -- An entry at `other` is not at `place`, so it is kept.
    by_cases he : e.1 = other <;> simp [he, hne]
  rw [lookup, lookup, put, List.find?_append, hfilter]
  simp [hne.symm]

theorem lookup_add (tree : FileTree) (place other : Path) (entry : Entry) :
    (tree.add place entry).lookup other =
      (tree.lookup other).or (if other = place then some entry else none) := by
  by_cases hroot : other = []
  · simp [hroot]
  · rw [lookup, lookup, if_neg hroot, if_neg hroot, add, List.find?_append]
    cases tree.entries.find? fun e => e.1 = other with
    | none => by_cases hother : other = place <;> simp [hother, eq_comm]
    | some found => rfl

/-! ## Files -/

/-- The bytes of the file at a place, if there is one. -/
def file? (tree : FileTree) (place : Path) : Option (List UInt8) :=
  match tree.lookup place with
  | some (.file bytes) => some bytes
  | some .directory => none
  | none => none

/-- The second tree has the files of the first and no others. -/
def SameFiles (tree after : FileTree) : Prop := ∀ place, after.file? place = tree.file? place

theorem SameFiles.refl (tree : FileTree) : tree.SameFiles tree := fun _ => rfl

theorem SameFiles.trans {first second third : FileTree} (h : first.SameFiles second)
    (h' : second.SameFiles third) : first.SameFiles third :=
  fun place => (h' place).trans (h place)

theorem sameFiles_add (tree : FileTree) (place : Path) :
    tree.SameFiles (tree.add place .directory) := by
  intro other
  rw [file?, file?, lookup_add]
  cases tree.lookup other with
  | none => by_cases hother : other = place <;> simp [hother]
  | some entry => rfl

theorem file?_put_self (hplace : place ≠ []) (bytes : List UInt8) :
    (tree.put place (.file bytes)).file? place = some bytes := by
  rw [file?, lookup_put_self hplace]

theorem file?_put_of_ne (hne : other ≠ place) :
    (tree.put place entry).file? other = tree.file? other := by
  rw [file?, file?, lookup_put_of_ne hne]

/-! ## Making directories -/

theorem sameFiles_makeMissing (tree : FileTree) (place : Path) (names : List String) :
    tree.SameFiles (tree.makeMissing place names).tree := by
  induction names generalizing tree place with
  | nil => exact .refl tree
  | cons name rest ih =>
    rw [makeMissing]
    by_cases hlong : nameLimit < name.utf8ByteSize
    · simpa [hlong] using SameFiles.refl tree
    · simpa [hlong] using (sameFiles_add tree _).trans (ih _ _)

theorem sameFiles_makeDirectoriesFrom (tree : FileTree) (target place : Path)
    (names : List String) : tree.SameFiles (tree.makeDirectoriesFrom target place names).tree := by
  induction names generalizing place with
  | nil => exact .refl tree
  | cons name rest ih =>
    rw [makeDirectoriesFrom]
    by_cases hlong : nameLimit < name.utf8ByteSize
    · simpa [hlong] using SameFiles.refl tree
    · simp only [if_neg hlong]
      cases tree.lookup (place ++ [name]) with
      | none => exact (sameFiles_add tree _).trans (sameFiles_makeMissing _ _ _)
      | some entry =>
        cases entry with
        | directory => exact ih _
        | file bytes => exact .refl tree

theorem sameFiles_prepareDirectory (tree : FileTree) (place : Path) :
    tree.SameFiles (tree.prepareDirectory place).1 := by
  rw [prepareDirectory]
  cases nullError? (Path.text place) with
  | some e => exact .refl tree
  | none =>
    simp only [makeDirectories]
    by_cases hlong : pathLimit < (Path.text place).utf8ByteSize
    · simpa [hlong] using SameFiles.refl tree
    · simpa [hlong] using sameFiles_makeDirectoriesFrom tree place [] place

/-! ## Writing -/

theorem storeFile_cases (tree : FileTree) (place : Path) (bytes : List UInt8) :
    (∃ e, tree.storeFile place bytes = (tree, some e)) ∨
      (place ≠ [] ∧ tree.storeFile place bytes = (tree.put place (.file bytes), none)) := by
  rw [storeFile]
  cases nullError? (Path.text place) with
  | some e => exact .inl ⟨e, rfl⟩
  | none =>
    cases hfailure : tree.writeFailure? place with
    | some cause => exact .inl ⟨_, rfl⟩
    | none =>
      refine .inr ⟨?_, rfl⟩
      -- The root is a directory, and a directory is never written over.
      rintro rfl
      simp [writeFailure?] at hfailure

/-- A write that fails leaves all files as they were.  One that succeeds leaves its own file with the
bytes given, and all others as they were. -/
theorem writeFile_cases (tree : FileTree) (place : Path) (bytes : List UInt8) :
    (∃ after e, tree.writeFile place bytes = (after, some e) ∧ tree.SameFiles after) ∨
      (∃ after, tree.writeFile place bytes = (after, none) ∧ after.file? place = some bytes ∧
        ∀ other, other ≠ place → after.file? other = tree.file? other) := by
  have hfiles := sameFiles_prepareDirectory tree place.dropLast
  rw [writeFile]
  generalize tree.prepareDirectory place.dropLast = outcome at hfiles
  obtain ⟨prepared, failure⟩ := outcome
  cases failure with
  | some e => exact .inl ⟨prepared, e, rfl, hfiles⟩
  | none =>
    rcases prepared.storeFile_cases place bytes with ⟨e, hstore⟩ | ⟨hplace, hstore⟩
    · exact .inl ⟨prepared, e, hstore, hfiles⟩
    · refine .inr ⟨_, hstore, file?_put_self hplace bytes, fun other hne => ?_⟩
      rw [file?_put_of_ne hne]
      exact hfiles other

end TapeCompiler.FileTree
