import ColorChain.Proofs.Record.Rewritten
import ColorChain.Proofs.Storage.Directory
import ColorChain.Transform.Record

/-!
# Grades from saved files

A grade is the same whether its correction was saved to a file and loaded from there, went through a
compact record, or was taken as it is. In a saved collection the identifiers select what they
selected before: the ones that a file does not keep are empty, and nothing is selected by those.
-/

namespace ColorChain

open Record Storage Text

/-! ### Corrections as grades -/

namespace Cdl

/-- A grade holds an empty text where a correction has none. -/
theorem ofCorrection_filed (c : Correction) : ofCorrection c.filed = ofCorrection c := by
  rw [ofCorrection, Correction.id?_filed]
  rfl

theorem ofCorrection_recorded (c : Correction) : ofCorrection c.recorded = ofCorrection c := by
  have hdescription : c.recorded.description?.getD "" = c.description?.getD "" := by
    rw [Correction.description?_recorded]
    cases c.description? with
    | none => rfl
    | some text => by_cases h : text = "" <;> simp [h, Option.filter_some]
  rw [ofCorrection, Correction.id?_recorded, hdescription]
  rfl

/-- The compact record of a correction gives the grade of the correction. -/
theorem ofRecord_compact (c : Correction) : ofRecord c.compact = .ok (ofCorrection c) := by
  rw [ofRecord, readCorrection_compact]
  exact congrArg Except.ok (ofCorrection_recorded c)

end Cdl

/-! ### Selecting -/

namespace Record

/-- A file keeps every identifier that something can be found by. -/
theorem Correction.id?_filed_beq (c : Correction) {id : String} (h : id ≠ "") :
    (c.filed.id? == some id) = (c.id? == some id) := by
  obtain ⟨id?, notes, gradeDescription?, grade⟩ := c
  cases id? with
  | none => simp [filed]
  | some own =>
      by_cases hown : own = ""
      · simp [filed, hown, h.symm]
      · simp [filed, hown]

theorem Collection.find?_filed (c : Collection) {id : String} (h : id ≠ "") :
    c.filed.find? id = (c.find? id).map Correction.filed := by
  simp only [find?, filed, List.find?_map, Function.comp_def, Correction.id?_filed_beq _ h]

/-- From what a file holds of a collection the same correction is selected. -/
theorem Collection.select_filed (c : Collection) (id : String) :
    c.filed.select id = (c.select id).map Correction.filed := by
  by_cases h : id = ""
  · simp only [select, h, if_true, first?, filed, List.head?_map]
    cases c.corrections.head? <;> rfl
  · simp only [select, h, if_false, find?_filed c h]
    cases c.find? id <;> rfl

end Record

/-! ### Saved files -/

/-- A file that was written is read as the document that was written. -/
theorem readFile_writeFile {α : Type} {read : Bytes → Except DocumentFault α}
    {directory saved : Directory} {path text : List Char} {a : α}
    (h : writeFile directory path text = .ok saved) (hread : read (encode text) = .ok a) :
    readFile read saved path = .ok a := by
  rw [writeFile, mapError_eq_ok_iff] at h
  simp only [readFile, Directory.read_write h, hread]
  rfl

namespace Cdl

section

variable {directory saved : Directory} {path : String}

/-- Loading a grade from the file of a collection is selecting it from the collection. -/
theorem ofFile_collection {collection : Collection}
    (hpath : Text.lower (extension path.toList) = "ccc".toList)
    (h : writeFile directory path.toList collection.fileText = .ok saved) (id : String) :
    ofFile saved path id = ((collection.select id).map ofCorrection).mapError
      fun fault => .defect (.noCorrection path fault) := by
  have hread : readRecordFile saved path.toList = .ok collection.filed := by
    have hkind : FileKind.ofExtension? (Text.lower (extension path.toList)) = some .collection := by
      rw [hpath]
      rfl
    simp only [readRecordFile, hkind]
    exact readFile_writeFile h (readCollection_fileText collection)
  simp only [ofFile, hread, Collection.select_filed]
  cases collection.select id with
  | ok c => exact congrArg Except.ok (ofCorrection_filed c)
  | error fault => rfl

/-- Loading the first grade from the file of a correction gives the grade of the correction. -/
theorem ofFile_correction {correction : Correction}
    (hpath : Text.lower (extension path.toList) = "cc".toList)
    (h : writeFile directory path.toList correction.fileText = .ok saved) :
    ofFile saved path "" = .ok (ofCorrection correction) := by
  have hread : readRecordFile saved path.toList = .ok { corrections := [correction.filed] } := by
    have hkind : FileKind.ofExtension? (Text.lower (extension path.toList)) = some .correction := by
      rw [hpath]
      rfl
    simp only [readRecordFile, hkind, readCorrectionFile,
      readFile_writeFile h (readCorrection_fileText correction)]
    rfl
  simp only [ofFile, hread]
  exact congrArg Except.ok (ofCorrection_filed correction)

end

/-- Whatever collection is saved to whatever file of a collection, an identifier loads from there what
it selects in the collection, and fails to load for the same reason. A correction gives the same
grade by way of its file, by way of its compact record and as it is. -/
theorem ofFile_saved (collection : Collection) (correction : Correction) :
    (∀ (directory saved : Directory) (path id : String),
      Text.lower (extension path.toList) = "ccc".toList →
      writeFile directory path.toList collection.fileText = .ok saved →
      ofFile saved path id = ((collection.select id).map ofCorrection).mapError
        fun fault => .defect (.noCorrection path fault)) ∧
    (∀ (directory saved : Directory) (path : String),
      Text.lower (extension path.toList) = "cc".toList →
      writeFile directory path.toList correction.fileText = .ok saved →
      ofFile saved path "" = .ok (ofCorrection correction)) ∧
    ofRecord correction.compact = .ok (ofCorrection correction) :=
  ⟨fun _ _ _ id hpath h => ofFile_collection hpath h id,
    fun _ _ _ hpath h => ofFile_correction hpath h, ofRecord_compact correction⟩

/-- An identifier that has to be escaped, after a correction without one. -/
theorem ofFile_saved_escaped :
    let warm : Correction := { id? := some "a<b", notes := { descriptions := ["x & y"] } }
    let collection : Collection := { corrections := [{ id? := some "" }, warm] }
    ∃ saved saved' : Directory,
      writeFile ⟨[]⟩ "grades.CCC".toList collection.fileText = .ok saved ∧
      ofFile saved "grades.CCC" "a<b" = .ok (ofCorrection warm) ∧
      writeFile ⟨[]⟩ "warm.cc".toList warm.fileText = .ok saved' ∧
      ofFile saved' "warm.cc" "" = .ok (ofCorrection warm) := by
  intro warm collection
  obtain ⟨saved, hsaved⟩ : ∃ saved,
      writeFile ⟨[]⟩ "grades.CCC".toList collection.fileText = .ok saved := ⟨_, rfl⟩
  obtain ⟨saved', hsaved'⟩ : ∃ saved',
      writeFile ⟨[]⟩ "warm.cc".toList warm.fileText = .ok saved' := ⟨_, rfl⟩
  have hselect : collection.select "a<b" = .ok warm := rfl
  have hcollection := (ofFile_saved collection warm).1 ⟨[]⟩ saved "grades.CCC" "a<b" (by decide) hsaved
  rw [hselect] at hcollection
  have hcorrection := (ofFile_saved collection warm).2.1 ⟨[]⟩ saved' "warm.cc" (by decide) hsaved'
  exact ⟨saved, saved', hsaved, hcollection, hsaved', hcorrection⟩

end Cdl

end ColorChain
