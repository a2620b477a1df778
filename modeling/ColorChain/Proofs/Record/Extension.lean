import ColorChain.Proofs.Text.LowerCase
import ColorChain.Record.File

/-!
# Extensions of record files

An extension is what follows the last dot of a name, so there are no dots to be dropped before it. The
kinds of record files have extensions of three letters only, and every lower-case form that leads to
these letters from ASCII alone finds the same kind.
-/

namespace ColorChain

namespace Storage

theorem dot_notMem_extension (path : List Char) : '.' ∉ extension path := by
  unfold extension
  cases h : extension? path with
  | none => exact List.not_mem_nil
  | some tail =>
    obtain ⟨name, -, hname⟩ := Option.bind_eq_some_iff.mp h
    simp only [Option.ite_none_right_eq_some, Option.some.injEq] at hname
    obtain ⟨-, rfl⟩ := hname
    intro hmem
    rw [Option.getD_some, List.mem_reverse] at hmem
    exact absurd (List.all_eq_true.mp List.all_takeWhile _ hmem) (by decide)

theorem dropWhile_extension (path : List Char) :
    (extension path).dropWhile (· = '.') = extension path := by
  cases h : extension path with
  | nil => rfl
  | cons c cs =>
    have hc : c ≠ '.' := by
      rintro rfl
      exact dot_notMem_extension path (h ▸ List.mem_cons_self)
    rw [List.dropWhile_cons, if_neg (by simpa using hc)]

end Storage

namespace Record

open Text

theorem FileKind.mem_recordLetters {cs : List Char} {kind : FileKind}
    (h : ofExtension? cs = some kind) : ∀ c ∈ cs, c ∈ recordLetters := by
  unfold ofExtension? at h
  split at h
  · simp [recordLetters]
  · simp [recordLetters]
  · simp [recordLetters]
  · cases h

variable {fold fold' : List Char → List Char}

/-- What one lower-case form finds, every other one does. -/
theorem FileKind.ofExtension?_of_fold (hfold : IsLowerCase fold) (hfold' : IsLowerCase fold')
    {cs : List Char} {kind : FileKind} (h : ofExtension? (fold cs) = some kind) :
    ofExtension? (fold' cs) = some kind := by
  have hascii : IsAscii cs := hfold.letters cs (mem_recordLetters h)
  rwa [hfold'.ascii cs hascii, ← hfold.ascii cs hascii]

/-- The test of an extension drops dots and looks at ASCII only. It finds of the extension of a path
what every lower-case form finds. -/
theorem isRecordExtension_iff (hfold : IsLowerCase fold) (path : List Char) :
    isRecordExtension (Storage.extension path) = true ↔
      ∃ kind, FileKind.ofExtension? (fold (Storage.extension path)) = some kind := by
  rw [isRecordExtension, Storage.dropWhile_extension, Option.isSome_iff_exists]
  refine exists_congr fun kind => ⟨?_, ?_⟩
  · exact FileKind.ofExtension?_of_fold isLowerCase_map_toLower hfold
  · exact FileKind.ofExtension?_of_fold hfold isLowerCase_map_toLower

end Record

end ColorChain
