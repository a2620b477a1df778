import ColorChain.Proofs.Outcome
import ColorChain.Record.File

/-!
# Faults of documents and faults of extensions

Only the choice of a reader by the extension of a file finds an extension unknown. Whatever the events
of a document are, no step of the pass over them fails in this way, and so no reader does.
-/

namespace ColorChain.Record

open Markup Storage Text

/-- The fault lies in a document and not in the name of its file. -/
def DocumentFault.IsOfContent (fault : DocumentFault) : Prop :=
  ∀ extension, fault ≠ .unknownExtension extension

/-- The fault is none of the name of the file. -/
def RecordFault.IsOfContent (fault : RecordFault) : Prop :=
  ∀ extension, fault ≠ .document (.unknownExtension extension)

section Values

variable (setting : Setting) (text : List Char)

theorem attributeText?_failsOnly (tag : Tag) (name : String) :
    FailsOnly (attributeText? tag name) DocumentFault.IsOfContent := by
  unfold attributeText?
  cases tag.attribute? name with
  | none => exact .ok _
  | some bytes =>
    cases h : unescape (decodeLossy bytes) with
    | error fault => simpa only [h] using .error nofun
    | ok text => simpa only [h] using .ok _

theorem readValue_failsOnly : FailsOnly (readValue setting text) DocumentFault.IsOfContent :=
  FailsOnly.any.mapError fun _ _ => nofun

theorem readTriple_failsOnly : FailsOnly (readTriple setting text) DocumentFault.IsOfContent := by
  unfold readTriple
  split
  · exact (readValue_failsOnly setting _).bind fun _ => (readValue_failsOnly setting _).bind
      fun _ => (readValue_failsOnly setting _).bind fun _ => .ok _
  · exact .error nofun

theorem readSetting_failsOnly (grade : Grade Float) :
    FailsOnly (readSetting setting text grade) DocumentFault.IsOfContent := by
  cases setting with
  | saturation => exact (readValue_failsOnly _ _).map
  | _ => exact (readTriple_failsOnly _ _).map

end Values

namespace Progress

variable (p : Progress)

theorem onStart_failsOnly (tag : Tag) : FailsOnly (p.onStart tag) DocumentFault.IsOfContent := by
  unfold onStart
  refine .map ?_
  split
  · exact .ok _
  · exact (attributeText?_failsOnly tag "id").map
  · exact .ok _

theorem onEmpty_failsOnly (tag : Tag) : FailsOnly (p.onEmpty tag) DocumentFault.IsOfContent := by
  unfold onEmpty
  split
  · exact (attributeText?_failsOnly tag "ref").map
  · exact (attributeText?_failsOnly tag "id").map
  · exact .ok _

theorem finish_failsOnly (element : Element) :
    FailsOnly (p.finish element) DocumentFault.IsOfContent := by
  cases element with
  | setting setting =>
    unfold finish
    cases p.correction? with
    | none => exact .ok _
    | some c => exact (readSetting_failsOnly setting p.text c.grade).map
  | _ => exact .ok _

theorem onText_failsOnly (source : TextSource) (content : Bytes) :
    FailsOnly (p.onText source content) DocumentFault.IsOfContent := by
  unfold onText
  split
  · exact .error nofun
  · exact .ok _

theorem referent_failsOnly (content : Bytes) :
    FailsOnly (referent content) DocumentFault.IsOfContent := by
  unfold referent
  split
  · exact .error nofun
  · exact FailsOnly.any.mapError fun _ _ => nofun
  · split
    · exact .ok _
    · exact .error nofun

/-- No event makes an extension unknown. -/
theorem step_failsOnly (event : Event) : FailsOnly (p.step event) DocumentFault.IsOfContent := by
  cases event with
  | start tag => exact p.onStart_failsOnly tag
  | empty tag => exact p.onEmpty_failsOnly tag
  | close name => exact (p.finish_failsOnly _).map
  | text content => exact p.onText_failsOnly .text content
  | cdata content => exact p.onText_failsOnly .cdata content
  | reference content => exact (referent_failsOnly content).map

end Progress

namespace Document

theorem read_failsOnly (bs : Bytes) : FailsOnly (read bs) DocumentFault.IsOfContent := by
  refine (FailsOnly.foldlM Progress.step_failsOnly {} _).bind fun p => ?_
  split
  · exact .error nofun
  · exact .error nofun
  · exact .ok _

theorem readCorrection_failsOnly (bs : Bytes) :
    FailsOnly (readCorrection bs) DocumentFault.IsOfContent := by
  refine (read_failsOnly bs).bind fun document => ?_
  split
  · exact .ok _
  · exact .error nofun

end Document

section Files

variable (directory : Directory) (path : List Char)

theorem readFile_failsOnly {α : Type} {read : Bytes → Except DocumentFault α}
    (h : ∀ bs, FailsOnly (read bs) DocumentFault.IsOfContent) :
    FailsOnly (readFile read directory path) RecordFault.IsOfContent := by
  unfold readFile
  split
  · next content _ =>
    refine (h content).mapError fun fault hfault extension heq => ?_
    exact hfault extension (RecordFault.document.inj heq)
  · exact .error nofun
  · exact .error nofun

/-- A reader that the extension leads to finds the extension known. -/
theorem readRecordFile_failsOnly {kind : FileKind}
    (h : FileKind.ofExtension? (lower (extension path)) = some kind) :
    FailsOnly (readRecordFile directory path) RecordFault.IsOfContent := by
  simp only [readRecordFile, h]
  cases kind with
  | correction => exact (readFile_failsOnly directory path Document.readCorrection_failsOnly).map
  | collection =>
    exact readFile_failsOnly directory path fun bs => (Document.read_failsOnly bs).map
  | decisions =>
    exact (readFile_failsOnly directory path fun bs => (Document.read_failsOnly bs).map).map

/-- A file is refused for its extension exactly if the extension in lower case stands for no kind of
record file, and then this is the extension that is named. -/
theorem readRecordFile_eq_unknownExtension_iff {named : List Char} :
    readRecordFile directory path = .error (.document (.unknownExtension named)) ↔
      FileKind.ofExtension? (lower (extension path)) = none ∧ lower (extension path) = named := by
  cases h : FileKind.ofExtension? (lower (extension path)) with
  | some kind =>
    have hne := fun hread => readRecordFile_failsOnly directory path h _ hread named rfl
    exact iff_of_false hne nofun
  | none => simp [readRecordFile, h]

end Files

end ColorChain.Record
