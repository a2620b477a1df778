import ColorChain.Proofs.Number.Float
import ColorChain.Proofs.Number.Numeral
import ColorChain.Proofs.Outcome
import ColorChain.Proofs.Record.Document
import ColorChain.Proofs.Text.Blank
import ColorChain.Record.Written

/-!
# Written elements read back

Each element of a written record is read as the part of the correction that it was written for. The
compact record as a whole is read as the correction without the remarks that it leaves out.
-/

namespace ColorChain.Record

open Markup Number Text

/-! ### Numbers -/

theorem not_mem_reserved_of_isNumeral {c : Char} (h : IsNumeral c) : c ∉ reserved := by
  intro hc
  have hbounds := h.toNat_bounds
  simp only [reserved, List.mem_cons, List.not_mem_nil, or_false] at hc
  rcases hc with rfl | rfl | rfl | rfl | rfl <;> simp at hbounds

section

variable (x : Float)

/-- A number as it stands in a record. -/
theorem isNumeral_of_mem_plain_chars {c : Char} (h : c ∈ Layout.plain.chars x) : IsNumeral c :=
  Layout.plain.isNumeral_of_mem_chars rfl rfl h

theorem isBlank_of_mem_chars : ∀ c ∈ Layout.plain.chars x, isBlank c = false :=
  fun _ hc => isBlank_of_isNumeral (isNumeral_of_mem_plain_chars x hc)

theorem plain_chars_ne_nil : Layout.plain.chars x ≠ [] := by
  intro h
  have hread := Layout.read_plain_chars x
  rw [h] at hread
  cases hread

@[simp]
theorem readValue_chars (setting : Setting) :
    readValue setting (Layout.plain.chars x) = .ok x := by
  rw [readValue, Layout.read_plain_chars]
  rfl

end

/-- Three written numbers are three words. -/
theorem words_triple (p : Rgb Float) :
    words (triple p) = [Layout.plain.chars p.r, Layout.plain.chars p.g, Layout.plain.chars p.b] := by
  have hr := isBlank_of_mem_chars p.r
  have hg := isBlank_of_mem_chars p.g
  have hb := isBlank_of_mem_chars p.b
  rw [triple, List.append_assoc, List.cons_append,
    words_append_blank hr (plain_chars_ne_nil p.r) (by decide),
    words_append_blank hg (plain_chars_ne_nil p.g) (by decide),
    words_singleton hb (plain_chars_ne_nil p.b)]

theorem readTriple_triple (setting : Setting) (p : Rgb Float) :
    readTriple setting (triple p) = .ok p := by
  rw [readTriple, words_triple]
  simp only [readValue_chars]
  rfl

theorem escape_chars (x : Float) : escape (Layout.plain.chars x) = Layout.plain.chars x :=
  escape_eq_self fun _ hc => not_mem_reserved_of_isNumeral (isNumeral_of_mem_plain_chars x hc)

theorem escape_triple (p : Rgb Float) : escape (triple p) = triple p := by
  refine escape_eq_self fun c hc => ?_
  have hchars {x : Float} (h : c ∈ Layout.plain.chars x) : c ∉ reserved :=
    not_mem_reserved_of_isNumeral (isNumeral_of_mem_plain_chars x h)
  simp only [triple, List.mem_append, List.mem_cons] at hc
  rcases hc with (hc | rfl | hc) | rfl | hc
  · exact hchars hc
  · decide
  · exact hchars hc
  · decide
  · exact hchars hc

/-! ### Settings -/

/-- The text of a setting. -/
def settingText (setting : Setting) (grade : Grade Float) : List Char :=
  match setting with
  | .slope => triple grade.slope
  | .offset => triple grade.offset
  | .power => triple grade.power
  | .saturation => Layout.plain.chars grade.saturation

theorem settingElement_eq (setting : Setting) (grade : Grade Float) :
    settingElement setting grade = element setting.name (settingText setting grade) := rfl

theorem escape_settingText (setting : Setting) (grade : Grade Float) :
    escape (settingText setting grade) = settingText setting grade := by
  cases setting with
  | slope => exact escape_triple _
  | offset => exact escape_triple _
  | power => exact escape_triple _
  | saturation => exact escape_chars _

/-- One setting of `grade` put in the place of that of `other`. -/
def Setting.copy (setting : Setting) (grade other : Grade Float) : Grade Float :=
  match setting with
  | .slope => { other with slope := grade.slope }
  | .offset => { other with offset := grade.offset }
  | .power => { other with power := grade.power }
  | .saturation => { other with saturation := grade.saturation }

/-- The text of a setting is read as the setting. -/
theorem readSetting_settingText (setting : Setting) (grade other : Grade Float) :
    readSetting setting (settingText setting grade) other = .ok (setting.copy grade other) := by
  cases setting with
  | slope => rw [readSetting, settingText, readTriple_triple]; rfl
  | offset => rw [readSetting, settingText, readTriple_triple]; rfl
  | power => rw [readSetting, settingText, readTriple_triple]; rfl
  | saturation =>
      rw [readSetting, settingText, trim_eq_self (isBlank_of_mem_chars grade.saturation),
        readValue_chars]
      rfl

/-! ### Elements -/

theorem ofName_setting (setting : Setting) : Element.ofName setting.name = .setting setting := by
  cases setting <;> rfl

theorem isName_setting (setting : Setting) : IsName setting.name.toList :=
  isName_of_ofName (by simp [ofName_setting])

/-- The progress with `c` as the open correction, before any text of its next element. -/
def Progress.inside (p : Progress) (c : Correction) : Progress :=
  { p with correction? := some c, text := [] }

section

variable {p : Progress} {c : Correction}

/-- The element of a setting is read as the setting of the open correction. -/
theorem passes_settingElement (setting : Setting) (grade : Grade Float) :
    Passes (settingElement setting grade) (p.inside c)
      (p.inside { c with grade := setting.copy grade c.grade }) := by
  have hname := isName_setting setting
  have hkind := ofName_setting setting
  have hstart (text : List Char) :
      ({ p.inside c with text := text } : Progress).onStart ⟨encode setting.name.toList, []⟩
        = .ok ((p.inside c).enter setting.name) :=
    onStart_of_ne hname (by simp [hkind]) (by simp [hkind])
  rw [settingElement_eq, element, ← escape_settingText]
  refine Passes.textElement hname hstart ?_
  rw [onClose_encode hname, hkind]
  simp only [Progress.finish, Progress.enter, Progress.inside, List.nil_append,
    readSetting_settingText]
  rfl

/-- The element of a description is read as a remark of the record around it. -/
theorem passes_descriptionElement {outer : String} {path : List String}
    (hpath : p.path = outer :: path) (text : String) : Passes (descriptionElement text) p
      (({ p with text := text.toList } : Progress).addNote .description (.ofName outer)) := by
  have hname : IsName "Description".toList := isName_of_ofName (by decide)
  have hkind : Element.ofName "Description" = .description := rfl
  have hstart (text : List Char) :
      ({ p with text := text } : Progress).onStart ⟨encode "Description".toList, []⟩
        = .ok (p.enter "Description") :=
    onStart_of_ne hname (by decide) (by decide)
  rw [descriptionElement, element]
  -- the text that is left after the end tag is empty
  change Passes _ p
    { ({ p with text := text.toList } : Progress).addNote .description (.ofName outer) with
      text := [] }
  refine Passes.textElement hname hstart ?_
  rw [onClose_encode hname, hkind]
  simp only [Progress.finish, Progress.parent, Progress.enter, hpath, List.nil_append, Except.map]
  congr 1
  unfold Progress.addNote
  cases Element.ofName outer <;> rfl

/-- Beside slope, offset and power it is the remark on them. -/
theorem passes_gradeDescription {path : List String} (hpath : p.path = "SOPNode" :: path)
    (text : String) : Passes (descriptionElement text) (p.inside c)
      (p.inside { c with gradeDescription? := some text }) := by
  have hkind : Element.ofName "SOPNode" = .tone := rfl
  have hread := passes_descriptionElement (p := p.inside c) hpath text
  rw [hkind] at hread
  simp only [Progress.addNote, if_true, String.ofList_toList] at hread
  exact hread

/-- The elements around the settings only hold them. -/
theorem passes_container {name : String} {content : List Char} {c' : Correction}
    (hkind : Element.ofName name = .tone ∨ Element.ofName name = .saturation)
    (hcontent : Passes content ((p.enter name).inside c) ((p.enter name).inside c')) :
    Passes (element name content) (p.inside c) (p.inside c') := by
  have hname : IsName name.toList :=
    isName_of_ofName (by rcases hkind with h | h <;> simp [h])
  refine Passes.element hname (fun text => onStart_of_ne hname ?_ ?_) hcontent fun text => ?_
  · rcases hkind with h | h <;> simp [h]
  · rcases hkind with h | h <;> simp [h]
  · rw [onClose_encode hname]
    rcases hkind with h | h <;> rw [h] <;> rfl

end

/-! ### Compact records -/

/-- The part of a correction that its compact record keeps: empty texts count as none, and of the
remarks the one that stands for the whole stands alone. -/
def Correction.recorded (c : Correction) : Correction where
  id? := if c.id?.getD "" = "" then none else some (c.id?.getD "")
  gradeDescription? := c.description?.filter (· ≠ "")
  grade := c.grade

/-- The description of a compact record, left out if it is empty. -/
def compactDescription (c : Correction) : List Char :=
  match c.description? with
  | some text => if text = "" then [] else descriptionElement text
  | none => []

/-- The content of the element around slope, offset and power. -/
def compactTone (c : Correction) : List Char :=
  compactDescription c ++ (settingElement .slope c.grade ++ settingElement .offset c.grade
    ++ settingElement .power c.grade)

/-- A compact record as one element with an attribute. -/
theorem compact_eq (c : Correction) : c.compact
    = '<' :: "ColorCorrection".toList ++ ' ' :: "id".toList ++ '=' :: '"'
      :: escape (c.id?.getD "").toList ++ '"' :: '>'
      :: (element "SOPNode" (compactTone c)
        ++ element "SatNode" (settingElement .saturation c.grade))
      ++ '<' :: '/' :: "ColorCorrection".toList ++ ['>'] := by
  have hopen : "<ColorCorrection id=\"".toList
      = '<' :: "ColorCorrection".toList ++ ' ' :: "id".toList ++ ['=', '"'] := by simp
  have hend : "\">".toList = ['"', '>'] := by simp
  have hclose : "</ColorCorrection>".toList = '<' :: '/' :: "ColorCorrection".toList ++ ['>'] := by
    simp
  unfold Correction.compact startTag compactTone compactDescription
  rewrite [hopen, hend, hclose]
  cases c.description? <;>
    simp only [List.append_assoc, List.cons_append, List.nil_append]

section

variable {p : Progress} {c : Correction}

/-- The description is read as the remark beside slope, offset and power. -/
theorem passes_compactDescription {path : List String} (hpath : p.path = "SOPNode" :: path)
    (hc : c.gradeDescription? = none) (written : Correction) :
    Passes (compactDescription written) (p.inside c)
      (p.inside { c with gradeDescription? := written.description?.filter (· ≠ "") }) := by
  have hself : { c with gradeDescription? := none } = c := by rw [← hc]
  unfold compactDescription
  cases written.description? with
  | none =>
      rw [Option.filter_none, hself]
      exact Passes.nil _
  | some text =>
      by_cases hempty : text = ""
      · simp only [hempty, if_true, ne_eq, Option.filter_some, not_true_eq_false, decide_false,
          Bool.false_eq_true, if_false, hself]
        exact Passes.nil _
      · simp only [hempty, if_false, ne_eq, Option.filter_some, not_false_eq_true, decide_true,
          if_true]
        exact passes_gradeDescription hpath text

/-- The content of the tone is read into a correction that was just opened. -/
theorem passes_compactTone {path : List String} (hpath : p.path = "SOPNode" :: path)
    (hc : c.gradeDescription? = none) (written : Correction) :
    Passes (compactTone written) (p.inside c)
      (p.inside { c with
        gradeDescription? := written.description?.filter (· ≠ "")
        grade := { written.grade with saturation := c.grade.saturation } }) :=
  (passes_compactDescription hpath hc written).append
    (((passes_settingElement .slope written.grade).append
      (passes_settingElement .offset written.grade)).append
        (passes_settingElement .power written.grade))

end

/-- The start of a correction with an identifier opens the correction. -/
theorem onStart_identified (p : Progress) (id : String) :
    p.onStart ⟨encode "ColorCorrection".toList,
        attributeBytes "id".toList (encode (escape id.toList))⟩
      = .ok ((p.enter "ColorCorrection").inside { id? := if id = "" then none else some id }) := by
  have hkind : Element.ofName "ColorCorrection" = .correction := rfl
  simp only [Progress.onStart, isName_correction.nameText_encode, String.ofList_toList, hkind,
    attributeText?_escape]
  rfl

/-- The end of a correction puts it into the document. -/
theorem onClose_correction (p : Progress) (c : Correction) (text : List Char) :
    ({ (p.enter "ColorCorrection").inside c with text := text } : Progress).onClose
        (encode "ColorCorrection".toList)
      = .ok (p.inside c).endCorrection := by
  have hkind : Element.ofName "ColorCorrection" = .correction := rfl
  rw [onClose_encode isName_correction, hkind]
  rfl

/-- The compact record of a correction is read as what it keeps of the correction. -/
theorem passes_compact (c : Correction) (p : Progress) :
    Passes c.compact p (p.inside c.recorded).endCorrection := by
  let id? := if c.id?.getD "" = "" then none else some (c.id?.getD "")
  let tone : Grade Float := { c.grade with saturation := (Grade.neutral : Grade Float).saturation }
  have htone : Passes (element "SOPNode" (compactTone c))
      ((p.enter "ColorCorrection").inside { id? })
      ((p.enter "ColorCorrection").inside { c.recorded with grade := tone }) :=
    passes_container (.inl rfl) (passes_compactTone rfl rfl c)
  have hsaturation : Passes (element "SatNode" (settingElement .saturation c.grade))
      ((p.enter "ColorCorrection").inside { c.recorded with grade := tone })
      ((p.enter "ColorCorrection").inside c.recorded) :=
    passes_container (.inr rfl) (passes_settingElement .saturation c.grade)
  rw [compact_eq]
  exact Passes.elementWith isName_correction (isName_key (by simp)) (quote_not_mem_escape _)
    (fun text => onStart_identified _ _) (htone.append hsaturation)
    (onClose_correction p c.recorded)

/-- A compact record is the document of what it keeps of its correction. -/
theorem readCorrection_compact (c : Correction) :
    Document.readCorrection (encode c.compact) = .ok c.recorded := by
  have hmark : dropByteOrderMark (encode c.compact) = encode c.compact := by
    rw [compact_eq]
    rfl
  have hread := (passes_compact c {}).read_eq rfl hmark
  rw [Document.readCorrection, hread]
  rfl

end ColorChain.Record
