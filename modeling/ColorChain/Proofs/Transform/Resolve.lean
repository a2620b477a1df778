import ColorChain.Proofs.Record.Extension
import ColorChain.Proofs.Record.Fault
import ColorChain.Transform.Record

/-!
# Resolving a file reference

A reference is tested for an extension of a record file before its file is read, and the reader tests
the extension again in its own way. The two tests find the same of every path, so what passes the first
is never refused by the second, and what does not pass could not have been read.
-/

namespace ColorChain

open Record Storage

namespace Cdl

variable {directory : Directory} {path id : String}

theorem ofFile_eq_recordFile_iff {fault : RecordFault} :
    ofFile directory path id = .error (.recordFile fault) ↔
      readRecordFile directory path.toList = .error fault := by
  unfold ofFile
  cases readRecordFile directory path.toList with
  | error found => simp
  | ok collection => cases h : collection.select id <;> simp [h]

/-- Reading a file does not ask whether its format is supported. -/
theorem ofFile_ne_unsupportedFile {source : String} {extension : List Char} :
    ofFile directory path id ≠ .error (.unsupportedFile source extension) := by
  unfold ofFile
  cases readRecordFile directory path.toList with
  | error found => nofun
  | ok collection => cases h : collection.select id <;> simp [h]

end Cdl

namespace FileReference

variable (directory : Directory) (reference : FileReference)

/-- A reference is refused as unsupported exactly if the test of its extension fails. -/
theorem resolve_eq_unsupportedFile_iff {source : String} {extension : List Char} :
    reference.resolve directory = .error (.unsupportedFile source extension) ↔
      isRecordExtension reference.extension = false ∧
        reference.source = source ∧ reference.extension = extension := by
  unfold resolve
  cases isRecordExtension reference.extension with
  | true => simp [Cdl.ofFile_ne_unsupportedFile]
  | false => simp

/-- What the test of an extension refuses the reader refuses too, in whatever directory. -/
theorem isRecordExtension_eq_false_iff :
    isRecordExtension reference.extension = false ↔
      readRecordFile directory reference.source.toList =
        .error (.document (.unknownExtension (Text.lower reference.extension))) := by
  rw [← Bool.not_eq_true, extension, isRecordExtension_iff Text.isLowerCase_lower,
    readRecordFile_eq_unknownExtension_iff, and_iff_left rfl, Option.eq_none_iff_forall_ne_some,
    not_exists]

/-- What passes the test is not refused by the reader. -/
theorem resolve_ne_unknownExtension (named : List Char) : reference.resolve directory ≠
    .error (.recordFile (.document (.unknownExtension named))) := by
  unfold resolve
  cases hpass : isRecordExtension reference.extension with
  | false => simp
  | true =>
    intro h
    rw [if_pos rfl, Cdl.ofFile_eq_recordFile_iff, readRecordFile_eq_unknownExtension_iff] at h
    obtain ⟨kind, hkind⟩ := (isRecordExtension_iff Text.isLowerCase_lower _).mp hpass
    rw [h.1] at hkind
    cases hkind

/-- Whatever a reference names, the test of its extension and the reader of the file agree: the test
passes exactly if the reader knows the extension in lower case, no reference is refused by the reader for
its extension, and none is refused as unsupported whose file could be read. -/
theorem resolve_agrees (directory : Directory) (reference : FileReference) :
    let lowered := Text.lower reference.extension
    (isRecordExtension reference.extension = true ↔
        ∃ kind, FileKind.ofExtension? lowered = some kind) ∧
      (∀ named, reference.resolve directory ≠
        .error (.recordFile (.document (.unknownExtension named)))) ∧
      (reference.resolve directory =
          .error (.unsupportedFile reference.source reference.extension) ↔
        readRecordFile directory reference.source.toList =
          .error (.document (.unknownExtension lowered))) ∧
      ∀ source extension,
        reference.resolve directory = .error (.unsupportedFile source extension) →
          ∀ files id c, Cdl.ofFile files reference.source id ≠ .ok c := by
  refine ⟨isRecordExtension_iff Text.isLowerCase_lower _, reference.resolve_ne_unknownExtension _,
    ?_, ?_⟩
  · rw [resolve_eq_unsupportedFile_iff, ← isRecordExtension_eq_false_iff, and_iff_left ⟨rfl, rfl⟩]
  · intro source extension h files id c hc
    have hrefused := ((resolve_eq_unsupportedFile_iff _ _).mp h).1
    rw [isRecordExtension_eq_false_iff files, ← Cdl.ofFile_eq_recordFile_iff, hc] at hrefused
    cases hrefused

/-- Of several extensions the last one counts, in any case and with slashes and dots of a path behind
it. A hidden name has none, so nothing is ever read under it. -/
theorem resolve_agrees_hidden :
    let shown : FileReference := { source := "looks/v2.lut.CcC/." }
    let hidden : FileReference := { source := "looks/.cdl" }
    let directory : Directory := ⟨[]⟩
    (∃ kind, FileKind.ofExtension? (Text.lower shown.extension) = some kind) ∧
      hidden.resolve directory = .error (.unsupportedFile hidden.source []) ∧
        ∀ files id c, Cdl.ofFile files hidden.source id ≠ .ok c := by
  intro shown hidden directory
  have hshown : isRecordExtension shown.extension = true := by decide
  have hhidden : hidden.resolve directory = .error (.unsupportedFile hidden.source []) :=
    (resolve_eq_unsupportedFile_iff directory hidden).mpr ⟨by decide, rfl, by decide⟩
  obtain ⟨hknown, -⟩ := resolve_agrees directory shown
  obtain ⟨-, -, -, hread⟩ := resolve_agrees directory hidden
  exact ⟨hknown.mp hshown, hhidden, hread hidden.source [] hhidden⟩

end FileReference

end ColorChain
