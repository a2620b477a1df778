import Mathlib.Data.Nat.Notation
import ColorChain.Proofs.Record.File

/-!
# Texts written again

What a record or a file leaves out of a correction was not written in the first place: the part that
is read back is written as the very text that it was read from. So a text that was written once does
not change when it is read and written again, however often.
-/

namespace ColorChain.Record

open Text

/-! ### The part that is read back -/

/-- An absent identifier is written as an empty one. -/
theorem getD_kept (id : String) : (if id = "" then none else some id).getD "" = id := by
  by_cases h : id = "" <;> simp [h]

namespace Correction

theorem id?_recorded (c : Correction) : c.recorded.id?.getD "" = c.id?.getD "" := getD_kept _

theorem id?_filed (c : Correction) : c.filed.id?.getD "" = c.id?.getD "" := getD_kept _

/-- The remark that stands for the whole is all that a compact record keeps of the remarks. -/
theorem description?_recorded (c : Correction) :
    c.recorded.description? = c.description?.filter (· ≠ "") := by
  simp [recorded, description?]

theorem compactDescription_recorded (c : Correction) :
    compactDescription c.recorded = compactDescription c := by
  rw [compactDescription, compactDescription, description?_recorded]
  cases c.description? with
  | none => rfl
  | some text => by_cases h : text = "" <;> simp [h, Option.filter_some]

/-- What a compact record keeps of a correction has the same compact record. -/
theorem compact_recorded (c : Correction) : c.recorded.compact = c.compact := by
  have htone : compactTone c.recorded = compactTone c := by
    rw [compactTone, compactDescription_recorded]
    rfl
  rw [compact_eq, compact_eq, id?_recorded, htone]
  rfl

/-- What a file holds of a correction has the same lines. -/
theorem lines_filed (c : Correction) : c.filed.lines = c.lines := by
  have htag : startTag c.filed.id? = startTag c.id? := by
    unfold startTag
    rw [id?_filed]
  unfold lines
  simp only [htag]
  simp only [filed, Notes.filed]

theorem fileText_filed (c : Correction) : c.filed.fileText = c.fileText := by
  rw [fileText, lines_filed, fileText]

end Correction

/-- What a file holds of a collection is written as the same file. -/
theorem Collection.fileText_filed (c : Collection) : c.filed.fileText = c.fileText := by
  unfold fileText filed
  simp only [List.flatMap_map, Correction.lines_filed]
  rfl

/-! ### Reading and writing in turn -/

/-- The compact record of the first correction in a document. -/
def Document.recompact (bs : Bytes) : Except DocumentFault (List Char) :=
  (readCorrection bs).map Correction.compact

/-- The compact record of a document after it was read and written `n` more times. -/
def Document.rewritten (bs : Bytes) : ℕ → Except DocumentFault (List Char)
  | 0 => recompact bs
  | n + 1 => (rewritten bs n).bind fun text => recompact (encode text)

theorem recompact_compact (c : Correction) :
    Document.recompact (encode c.compact) = .ok c.compact := by
  rw [Document.recompact, readCorrection_compact]
  exact congrArg Except.ok c.compact_recorded

/-- One more round changes nothing, whatever document the text was made from: what comes out of the
first writing is a compact record already. -/
theorem rewritten_eq (bs : Bytes) (n : ℕ) : Document.rewritten bs n = Document.recompact bs := by
  induction n with
  | zero => rfl
  | succ n ih =>
      rw [Document.rewritten, ih, Document.recompact]
      cases Document.readCorrection bs with
      | error fault => rfl
      | ok c => exact recompact_compact c

/-- Every written text is read, and what is read is written as the same text: compact records, files
of one correction and files of a collection. A document of any origin is written as a text that is
stable from then on. -/
theorem written_reads_and_writes_same (correction : Correction) (collection : Collection) :
    (Document.readCorrection (encode correction.compact)).map Correction.compact
      = .ok correction.compact ∧
    (Document.readCorrection (encode correction.fileText)).map Correction.fileText
      = .ok correction.fileText ∧
    (Document.readCollection (encode collection.fileText)).map Collection.fileText
      = .ok collection.fileText ∧
    ∀ (bs : Bytes) (n : ℕ), Document.rewritten bs n
      = (Document.readCorrection bs).map Correction.compact := by
  refine ⟨recompact_compact correction, ?_, ?_, rewritten_eq⟩
  · rw [readCorrection_fileText]
    exact congrArg Except.ok correction.fileText_filed
  · rw [readCollection_fileText]
    exact congrArg Except.ok collection.fileText_filed

end ColorChain.Record
