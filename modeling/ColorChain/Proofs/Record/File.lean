import ColorChain.Proofs.Record.Written

/-!
# Record files read back

A file of one correction and a file of a collection are read as what they were written from, without
the remarks on the input and on the viewing conditions: these are read from documents and not written
to them. The blanks that indent the lines stand between elements, where they are no part of any text.
-/

namespace ColorChain.Record

open Markup Text

/-! ### What a file keeps -/

/-- The remarks that a file holds. -/
def Notes.filed (notes : Notes) : Notes := { descriptions := notes.descriptions }

/-- The part of a correction that a file holds. An empty identifier counts as none. -/
def Correction.filed (c : Correction) : Correction where
  id? := if c.id?.getD "" = "" then none else some (c.id?.getD "")
  notes := c.notes.filed
  gradeDescription? := c.gradeDescription?
  grade := c.grade

/-- The part of a collection that a file holds. -/
def Collection.filed (c : Collection) : Collection :=
  ⟨c.notes.filed, c.corrections.map Correction.filed⟩

/-- There are no remarks on the input and on the viewing conditions. -/
def Notes.Fileable (notes : Notes) : Prop := notes.input? = none ∧ notes.viewing? = none

def Correction.Fileable (c : Correction) : Prop := c.id? ≠ some "" ∧ c.notes.Fileable

def Collection.Fileable (c : Collection) : Prop :=
  c.notes.Fileable ∧ ∀ correction ∈ c.corrections, correction.Fileable

theorem Notes.filed_eq_self_iff {notes : Notes} : notes.filed = notes ↔ notes.Fileable := by
  obtain ⟨descriptions, input?, viewing?⟩ := notes
  simp [filed, Fileable, eq_comm]

theorem Correction.filed_eq_self_iff {c : Correction} : c.filed = c ↔ c.Fileable := by
  obtain ⟨id?, notes, gradeDescription?, grade⟩ := c
  have hid : (if id?.getD "" = "" then none else some (id?.getD "")) = id? ↔ id? ≠ some "" := by
    cases id? with
    | none => simp
    | some id => by_cases h : id = "" <;> simp [h]
  simp [filed, Fileable, hid, Notes.filed_eq_self_iff]

theorem Collection.filed_eq_self_iff {c : Collection} : c.filed = c ↔ c.Fileable := by
  obtain ⟨notes, corrections⟩ := c
  have hmap : corrections.map Correction.filed = corrections ↔
      ∀ correction ∈ corrections, correction.Fileable := by
    simp only [← Correction.filed_eq_self_iff]
    induction corrections with
    | nil => simp
    | cons correction corrections ih => simp [ih]
  simp [filed, Fileable, hmap, Notes.filed_eq_self_iff]

/-! ### Lines -/

theorem textOfLines_nil (n : Nat) : textOfLines n [] = [] := rfl

theorem textOfLines_cons (n : Nat) (line : List Char) (lines : List (List Char)) :
    textOfLines n (line :: lines)
      = List.replicate n ' ' ++ line ++ '\n' :: textOfLines n lines := by
  simp [textOfLines]

theorem textOfLines_append (n : Nat) (lines lines' : List (List Char)) :
    textOfLines n (lines ++ lines') = textOfLines n lines ++ textOfLines n lines' := by
  simp [textOfLines]

/-- Lines that are indented twice are indented by the sum. -/
theorem textOfLines_indent (n k : Nat) (lines : List (List Char)) :
    textOfLines n (lines.map (List.replicate k ' ' ++ ·)) = textOfLines (n + k) lines := by
  induction lines with
  | nil => rfl
  | cons line lines ih =>
      rw [List.map_cons, textOfLines_cons, textOfLines_cons, ih, ← List.append_assoc,
        List.replicate_append_replicate]

/-- The content of the element around slope, offset and power, in a file that indents by `n`. -/
def toneLines (n : Nat) (c : Correction) : List Char :=
  '\n' :: textOfLines (n + 4) (c.gradeDescription?.toList.map descriptionElement)
    ++ textOfLines (n + 4) [settingElement .slope c.grade, settingElement .offset c.grade,
      settingElement .power c.grade]
    ++ List.replicate (n + 2) ' '

/-- The content of the element around the saturation. -/
def saturationLines (n : Nat) (c : Correction) : List Char :=
  '\n' :: textOfLines (n + 4) [settingElement .saturation c.grade] ++ List.replicate (n + 2) ' '

/-- The content of a correction. -/
def correctionLines (n : Nat) (c : Correction) : List Char :=
  '\n' :: textOfLines (n + 2) (c.notes.descriptions.map descriptionElement)
    ++ textOfLines (n + 2) [element "SOPNode" (toneLines n c),
      element "SatNode" (saturationLines n c)]
    ++ List.replicate n ' '

/-- The lines of a correction make up one element with an attribute. -/
theorem textOfLines_lines (n : Nat) (c : Correction) : textOfLines n c.lines
    = List.replicate n ' ' ++ ('<' :: "ColorCorrection".toList ++ ' ' :: "id".toList ++ '=' :: '"'
      :: escape (c.id?.getD "").toList ++ '"' :: '>' :: correctionLines n c
      ++ '<' :: '/' :: "ColorCorrection".toList ++ ['>']) ++ ['\n'] := by
  have hopen : "<ColorCorrection id=\"".toList
      = '<' :: "ColorCorrection".toList ++ ' ' :: "id".toList ++ ['=', '"'] := by simp
  have hend : "\">".toList = ['"', '>'] := by simp
  have hclose : "</ColorCorrection>".toList = '<' :: '/' :: "ColorCorrection".toList ++ ['>'] := by
    simp
  have htone : "<SOPNode>".toList = '<' :: "SOPNode".toList ++ ['>'] := by simp
  have htoneEnd : "</SOPNode>".toList = '<' :: '/' :: "SOPNode".toList ++ ['>'] := by simp
  have hsat : "<SatNode>".toList = '<' :: "SatNode".toList ++ ['>'] := by simp
  have hsatEnd : "</SatNode>".toList = '<' :: '/' :: "SatNode".toList ++ ['>'] := by simp
  have hdescriptions (k : Nat) (texts : List String) :
      textOfLines n (texts.map fun text => List.replicate k ' ' ++ descriptionElement text)
        = textOfLines (n + k) (texts.map descriptionElement) := by
    rw [← textOfLines_indent, List.map_map]
    rfl
  unfold Correction.lines startTag
  rewrite [hopen, hend, hclose, htone, htoneEnd, hsat, hsatEnd]
  simp only [textOfLines_append, hdescriptions, correctionLines, toneLines, saturationLines, element,
    textOfLines_cons, textOfLines_nil, ← List.replicate_append_replicate, List.append_assoc,
    List.cons_append, List.nil_append]

section

variable {p q r : Progress} {n : Nat}

theorem passes_blanks (n : Nat) (p : Progress) : Passes (List.replicate n ' ') p p := by
  refine Passes.plain (fun c hc => ?_) p
  rw [List.eq_of_mem_replicate hc]
  decide

theorem passes_newline (p : Progress) : Passes ['\n'] p p := Passes.plain (by simp) p

/-- The blanks before a line and the line feed after it change nothing. -/
theorem passes_line {line : List Char} (h : Passes line p q) :
    Passes (List.replicate n ' ' ++ line ++ ['\n']) p q :=
  ((passes_blanks n p).append h).append (passes_newline q)

theorem passes_lines_cons {line : List Char} {lines : List (List Char)} (h : Passes line p q)
    (hlines : Passes (textOfLines n lines) q r) : Passes (textOfLines n (line :: lines)) p r := by
  rw [textOfLines_cons, List.append_cons]
  exact (passes_line h).append hlines

theorem passes_lines_nil (n : Nat) (p : Progress) : Passes (textOfLines n []) p p := Passes.nil p

/-- Lines are read one by one, if each takes the progress one item further. -/
theorem passes_lines {α : Type} {line : α → List Char} (state : List α → Progress)
    (h : ∀ items item, Passes (line item) (state items) (state (items ++ [item])))
    (items : List α) : Passes (textOfLines n (items.map line)) (state []) (state items) := by
  have hflat : textOfLines n (items.map line)
      = items.flatMap fun x => List.replicate n ' ' ++ line x ++ ['\n'] := by
    rw [textOfLines, List.flatMap_map]
  rw [hflat]
  exact Passes.flatMap state (fun items item => passes_line (h items item)) items

/-! ### Corrections -/

/-- The lines of the tone are read into a correction that was just opened. -/
theorem passes_toneLines {path : List String} (hpath : p.path = "SOPNode" :: path) {c : Correction}
    (hc : c.gradeDescription? = none) (written : Correction) :
    Passes (toneLines n written) (p.inside c) (p.inside { c with
      gradeDescription? := written.gradeDescription?
      grade := { written.grade with saturation := c.grade.saturation } }) := by
  have hdescription : Passes (textOfLines (n + 4)
      (written.gradeDescription?.toList.map descriptionElement)) (p.inside c)
      (p.inside { c with gradeDescription? := written.gradeDescription? }) := by
    cases written.gradeDescription? with
    | none =>
        have hself : { c with gradeDescription? := none } = c := by rw [← hc]
        rw [hself]
        exact Passes.nil _
    | some text =>
        exact passes_lines_cons (passes_gradeDescription hpath text) (passes_lines_nil _ _)
  have hnext (c : Correction) (setting : Setting) : Passes (settingElement setting written.grade)
      (p.inside c) (p.inside { c with grade := setting.copy written.grade c.grade }) :=
    passes_settingElement setting written.grade
  have hsettings (c : Correction) : Passes (textOfLines (n + 4) [settingElement .slope written.grade,
      settingElement .offset written.grade, settingElement .power written.grade]) (p.inside c)
      (p.inside { c with grade := { written.grade with saturation := c.grade.saturation } }) :=
    passes_lines_cons (hnext c .slope) (passes_lines_cons (hnext _ .offset)
      (passes_lines_cons (hnext _ .power) (passes_lines_nil _ _)))
  exact (((passes_newline _).append hdescription).append (hsettings _)).append (passes_blanks _ _)

/-- The lines of a correction are read into a correction that was just opened. -/
theorem passes_correctionLines {path : List String} (hpath : p.path = "ColorCorrection" :: path)
    (id? : Option String) (written : Correction) :
    Passes (correctionLines n written) (p.inside { id? })
      (p.inside { written.filed with id? }) := by
  have hkind : Element.ofName "ColorCorrection" = .correction := rfl
  have hdescriptions : Passes
      (textOfLines (n + 2) (written.notes.descriptions.map descriptionElement)) (p.inside { id? })
      (p.inside { id?, notes := written.notes.filed }) := by
    refine passes_lines (fun texts => p.inside { id?, notes := { descriptions := texts } })
      (fun texts text => ?_) _
    have hread := passes_descriptionElement
      (p := p.inside { id?, notes := { descriptions := texts } }) hpath text
    rw [hkind] at hread
    simp only [Progress.addNote, Notes.add, String.ofList_toList] at hread
    exact hread
  have htone : Passes (element "SOPNode" (toneLines n written))
      (p.inside { id?, notes := written.notes.filed })
      (p.inside { written.filed with
        id?
        grade := { written.grade with saturation := (Grade.neutral : Grade Float).saturation } }) :=
    passes_container (.inl rfl)
      (passes_toneLines (p := p.enter "SOPNode") rfl rfl written)
  have hsaturation (c : Correction) : Passes (element "SatNode" (saturationLines n written))
      (p.inside c) (p.inside { c with
        grade := { c.grade with saturation := written.grade.saturation } }) := by
    have hsetting : Passes (settingElement .saturation written.grade)
        ((p.enter "SatNode").inside c) ((p.enter "SatNode").inside { c with
          grade := { c.grade with saturation := written.grade.saturation } }) :=
      passes_settingElement .saturation written.grade
    exact passes_container (.inr rfl)
      (((passes_newline _).append (passes_lines_cons hsetting (passes_lines_nil _ _))).append
        (passes_blanks _ _))
  exact (((passes_newline _).append hdescriptions).append
    (passes_lines_cons htone (passes_lines_cons (hsaturation _) (passes_lines_nil _ _)))).append
      (passes_blanks _ _)

/-- A written correction is read as what its lines hold of it. -/
theorem passes_lines_correction (n : Nat) (c : Correction) (p : Progress) :
    Passes (textOfLines n c.lines) p (p.inside c.filed).endCorrection := by
  rw [textOfLines_lines]
  refine passes_line (Passes.elementWith isName_correction (isName_key (by simp))
    (quote_not_mem_escape _) (fun text => onStart_identified _ _)
    (passes_correctionLines (p := p.enter "ColorCorrection") rfl _ c) (onClose_correction p c.filed))

end

/-- The file of a correction is the document of what it holds of the correction. -/
theorem readCorrection_fileText (c : Correction) :
    Document.readCorrection (encode c.fileText) = .ok c.filed := by
  have hmark : dropByteOrderMark (encode c.fileText) = encode c.fileText := by
    rw [Correction.fileText, textOfLines_lines]
    rfl
  have hread := (passes_lines_correction 0 c {}).read_eq rfl hmark
  rw [Document.readCorrection, Correction.fileText, hread]
  rfl

/-! ### Collections -/

/-- The content of a collection. -/
def collectionLines (c : Collection) : List Char :=
  '\n' :: textOfLines 2 (c.notes.descriptions.map descriptionElement)
    ++ c.corrections.flatMap (fun correction => '\n' :: textOfLines 2 correction.lines) ++ ['\n']

/-- The file of a collection is one element with an attribute. -/
theorem collection_fileText_eq (c : Collection) : c.fileText
    = '<' :: "ColorCorrectionCollection".toList ++ ' ' :: "xmlns".toList ++ '=' :: '"'
      :: "urn:ASC:CDL:v1.01".toList ++ '"' :: '>' :: collectionLines c
      ++ '<' :: '/' :: "ColorCorrectionCollection".toList ++ ['>'] ++ ['\n'] := by
  have hopen : "<ColorCorrectionCollection xmlns=\"urn:ASC:CDL:v1.01\">\n".toList
      = '<' :: "ColorCorrectionCollection".toList ++ ' ' :: "xmlns".toList ++ '=' :: '"'
        :: "urn:ASC:CDL:v1.01".toList ++ ['"', '>', '\n'] := by simp
  have hclose : "\n</ColorCorrectionCollection>\n".toList
      = '\n' :: '<' :: '/' :: "ColorCorrectionCollection".toList ++ ['>', '\n'] := by simp
  unfold Collection.fileText collectionLines
  rewrite [hopen, hclose]
  simp only [List.append_assoc, List.cons_append, List.nil_append]

/-- The progress inside the outermost element of a collection, with what was collected so far. -/
def Progress.inCollection (texts : List String) (corrections : List Correction) : Progress where
  document := { notes := { descriptions := texts }, corrections }
  path := ["ColorCorrectionCollection"]

theorem passes_collectionLines (c : Collection) : Passes (collectionLines c)
    (.inCollection [] []) (.inCollection c.notes.descriptions c.filed.corrections) := by
  have hkind : Element.ofName "ColorCorrectionCollection" = .collection := rfl
  have hdescriptions : Passes (textOfLines 2 (c.notes.descriptions.map descriptionElement))
      (.inCollection [] []) (.inCollection c.notes.descriptions []) := by
    refine passes_lines (fun texts => .inCollection texts []) (fun texts text => ?_) _
    have hread := passes_descriptionElement (p := .inCollection texts []) rfl text
    rw [hkind] at hread
    simp only [Progress.addNote, Notes.add, String.ofList_toList] at hread
    exact hread
  have hcorrections : Passes
      (c.corrections.flatMap fun correction => '\n' :: textOfLines 2 correction.lines)
      (.inCollection c.notes.descriptions [])
      (.inCollection c.notes.descriptions c.filed.corrections) := by
    refine Passes.flatMap
      (fun done => .inCollection c.notes.descriptions (done.map Correction.filed))
      (fun done correction => ?_) _
    rw [List.map_append]
    exact (passes_newline _).append (passes_lines_correction 2 correction _)
  exact (((passes_newline _).append hdescriptions).append hcorrections).append (passes_newline _)

/-- The file of a collection is the document of what it holds of the collection. -/
theorem readCollection_fileText (c : Collection) :
    Document.readCollection (encode c.fileText) = .ok c.filed := by
  have hkind : Element.ofName "ColorCorrectionCollection" = .collection := rfl
  have hmark : dropByteOrderMark (encode c.fileText) = encode c.fileText := by
    rw [collection_fileText_eq]
    rfl
  have hpasses : Passes c.fileText {}
      { document := { notes := c.notes.filed, corrections := c.filed.corrections } } := by
    rw [collection_fileText_eq]
    refine (Passes.elementWith isName_collection (isName_key (by simp)) (by simp)
      (fun text => onStart_of_ne isName_collection (by simp [hkind]) (by simp [hkind]))
      (passes_collectionLines c) fun text => ?_).append (passes_newline _)
    rw [onClose_encode isName_collection, hkind]
    rfl
  rw [Document.readCollection, hpasses.read_eq rfl hmark]
  rfl

/-- A collection and a correction are read back from their files exactly if they have no remarks on
the input and on the viewing conditions, and no identifier that is empty and not absent. -/
theorem fileText_reads_back_iff (collection : Collection) (correction : Correction) :
    (Document.readCollection (encode collection.fileText) = .ok collection ↔ collection.Fileable) ∧
    (Document.readCorrection (encode correction.fileText) = .ok correction ↔
      correction.Fileable) := by
  constructor
  · rw [readCollection_fileText, Except.ok.injEq, Collection.filed_eq_self_iff]
  · rw [readCorrection_fileText, Except.ok.injEq, Correction.filed_eq_self_iff]

/-- A remark on the input of a collection is not in its file. -/
theorem input_remark_lost :
    let c : Collection := { notes := { input? := some "log footage" } }
    Document.readCollection (encode c.fileText) ≠ .ok c := by
  intro c h
  rw [readCollection_fileText] at h
  cases congrArg (·.notes.input?) (Except.ok.inj h)

end ColorChain.Record
