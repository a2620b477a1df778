import ColorChain.Transform.Document

/-!
# Fields of documents

What the fields of an atom read as. A field that is left out when its text is empty reads as the empty
text, so that leaving it out and writing it come to the same.
-/

namespace ColorChain

open Yaml

/-! ### Written fields -/

/-- A field for a text under its name, left out if the text is empty. -/
def texts (name text : String) : List (String × Value) :=
  if text = "" then [] else [(name, .string text)]

section

variable {entries rest : List (Value × Value)} {fields after : List (String × Value)}

theorem fields?_append (h : fields? entries = some fields) (hrest : fields? rest = some after) :
    fields? (entries ++ rest) = some (fields ++ after) := by
  rw [fields?] at h hrest ⊢
  rw [List.mapM_append, h, hrest]
  rfl

theorem fields?_cons (name : String) (value : Value) (hrest : fields? rest = some after) :
    fields? (field name value :: rest) = some ((name, value) :: after) := by
  have hfield : fields? [field name value] = some [(name, value)] := rfl
  exact fields?_append hfield hrest

theorem fields?_textField (name text : String) :
    fields? (textField name text) = some (texts name text) := by
  unfold textField texts
  split
  · rfl
  · rfl

end

/-! ### Reading one field -/

theorem filter_texts (name text other : String) :
    (texts name text).filter (·.1 = other) = if name = other then texts name text else [] := by
  unfold texts
  split
  · simp
  · by_cases h : name = other <;> simp [h]

section

variable {α : Type} {fields : List (String × Value)} {name : String} {missing : α}
  {read : Value → Option α}

theorem readField_of_nil (h : fields.filter (·.1 = name) = []) :
    readField fields name missing read = some missing := by
  rw [readField, h]

theorem readField_of_singleton (value : Value) {x : α}
    (h : fields.filter (·.1 = name) = [(name, value)]) (hread : read value = some x) :
    readField fields name missing read = some x := by
  rw [readField, h]
  exact hread

/-- An empty text is what a missing field stands for. -/
theorem readField_of_texts {text : String}
    (h : fields.filter (·.1 = name) = texts name text) :
    readField fields name "" text? = some text := by
  unfold texts at h
  split at h
  · next hempty => rw [readField_of_nil h, hempty]
  · exact readField_of_singleton _ h rfl

end

/-! ### Values of fields -/

theorem numbers?_numbers (xs : List Float) : numbers? (numbers xs) = some xs := by
  change (xs.map Value.floating).mapM number? = some xs
  induction xs with
  | nil => rfl
  | cons x xs ih =>
      rw [List.map_cons, List.mapM_cons, ih]
      rfl

theorem shaped?_numbers {α : Type} {ofList? : List Float → Option α} {xs : List Float} {a : α}
    (h : ofList? xs = some a) : shaped? ofList? (numbers xs) = some a := by
  rw [shaped?, numbers?_numbers, Option.bind_some, h]

theorem readField_of_text {fields : List (String × Value)} {name missing text : String}
    (h : fields.filter (·.1 = name) = [(name, .string text)]) :
    readField fields name missing text? = some text :=
  readField_of_singleton _ h rfl

theorem readField_of_number {fields : List (String × Value)} {name : String} {missing x : Float}
    (h : fields.filter (·.1 = name) = [(name, .floating x)]) :
    readField fields name missing number? = some x :=
  readField_of_singleton _ h rfl

theorem readField_of_shaped {α : Type} {fields : List (String × Value)} {name : String}
    {missing a : α} {ofList? : List Float → Option α} {xs : List Float}
    (h : fields.filter (·.1 = name) = [(name, numbers xs)]) (ha : ofList? xs = some a) :
    readField fields name missing (shaped? ofList?) = some a :=
  readField_of_singleton _ h (shaped?_numbers ha)

/-- Choices with different names are found by their names. -/
theorem find?_name {α : Type} {name : α → String} {choices : List α}
    (hname : ∀ a ∈ choices, ∀ b ∈ choices, name a = name b → a = b) {c : α} (hc : c ∈ choices) :
    choices.find? (name · = name c) = some c := by
  have hsome : (choices.find? (name · = name c)).isSome := by
    rw [List.find?_isSome]
    exact ⟨c, hc, by simp⟩
  obtain ⟨b, hb⟩ := Option.isSome_iff_exists.1 hsome
  have hsame : name b = name c := by simpa using List.find?_some hb
  rw [hb, hname b (List.mem_of_find?_eq_some hb) c hc hsame]

theorem ofName?_name (kind : Kind) : Kind.ofName? kind.name = some kind :=
  find?_name (by decide) (by cases kind <;> decide)

theorem choice?_direction (d : Direction) :
    choice? Direction.name Direction.all (.string d.name) = some d :=
  find?_name (by decide) (by cases d <;> decide)

theorem choice?_encoding (e : Encoding) :
    choice? Encoding.name Encoding.all (.string e.name) = some e :=
  find?_name (by decide) (by cases e <;> decide)

theorem choice?_interpolation (i : Interpolation) :
    choice? Interpolation.name Interpolation.all (.string i.name) = some i :=
  find?_name (by decide) (by cases i <;> decide)

/-! ### Fields of atoms -/

/-- The fields of an atom under their names. -/
def Atom.labelled : Atom Float → List (String × Value)
  | .allocation a =>
    ("allocation", .string a.encoding.name)
      :: if a.vars = [] then [] else [("vars", numbers a.vars)]
  | .cdl c => texts "id" c.id ++ texts "description" c.description ++
    [("slope", numbers c.grade.slope.toList), ("offset", numbers c.grade.offset.toList),
      ("power", numbers c.grade.power.toList), ("sat", .floating c.grade.saturation)]
  | .colorSpace c => [("src", .string c.source), ("dst", .string c.destination)]
  | .exponent value => [("value", numbers value.toList)]
  | .file f => ("src", .string f.source) :: texts "cccid" f.correctionId
    ++ [("interpolation", .string f.interpolation.name)]
  | .log base => [("base", .floating base)]
  | .look l => [("src", .string l.source), ("dst", .string l.destination),
      ("looks", .string l.looks)]
  | .matrix map => [("matrix", numbers map.matrix.toList), ("offset", numbers map.offset.toList)]

def labelledDirection (d : Direction) : String × Value := ("direction", .string d.name)

namespace Atom

theorem fields?_fields (a : Atom Float) : fields? a.fields = some a.labelled := by
  cases a with
  | allocation a =>
      refine fields?_cons _ _ ?_
      split
      · rfl
      · rfl
  | cdl c =>
      exact fields?_append (fields?_append (fields?_textField _ _) (fields?_textField _ _)) rfl
  | file f =>
      exact fields?_cons _ _ (fields?_append (fields?_textField _ _) rfl)
  | colorSpace | exponent | log | look | matrix => rfl

theorem filter_direction (a : Atom Float) (d : Direction) :
    (a.labelled ++ [labelledDirection d]).filter (·.1 = "direction") = [labelledDirection d] := by
  cases a with
  | allocation a =>
      by_cases h : a.vars = [] <;> simp [labelled, labelledDirection, h]
  | _ => simp [labelled, labelledDirection, filter_texts]

/-- The variables of an allocation that has none are left out. -/
theorem ofFields?_allocation (a : Allocation Float) (d : Direction) :
    Atom.ofFields? .allocation ((allocation a).labelled ++ [labelledDirection d])
      = some (.allocation a) := by
  have hencoding : readField ((allocation a).labelled ++ [labelledDirection d]) "allocation"
      .uniform (choice? Encoding.name Encoding.all) = some a.encoding := by
    refine readField_of_singleton (.string a.encoding.name) ?_ (choice?_encoding _)
    by_cases h : a.vars = [] <;> simp [labelled, labelledDirection, h]
  have hvars : readField ((allocation a).labelled ++ [labelledDirection d]) "vars" [] numbers?
      = some a.vars := by
    by_cases h : a.vars = []
    · rw [h]
      exact readField_of_nil (by simp [labelled, labelledDirection, h])
    · exact readField_of_singleton (numbers a.vars) (by simp [labelled, labelledDirection, h])
        (numbers?_numbers _)
  simp only [Atom.ofFields?, hencoding, hvars]
  rfl

/-- The identifier and the description of a grade are left out if they are empty. -/
theorem ofFields?_cdl (c : Cdl Float) (d : Direction) :
    Atom.ofFields? .cdl ((cdl c).labelled ++ [labelledDirection d]) = some (.cdl c) := by
  generalize hfields : (cdl c).labelled ++ [labelledDirection d] = fields
  simp only [labelled, labelledDirection] at hfields
  have hid : readField fields "id" "" text? = some c.id :=
    readField_of_texts (by simp [← hfields, filter_texts])
  have hdescription : readField fields "description" "" text? = some c.description :=
    readField_of_texts (by simp [← hfields, filter_texts])
  have hslope : readField fields "slope" (Rgb.fill 1) (shaped? Rgb.ofList?)
      = some c.grade.slope :=
    readField_of_shaped (by simp [← hfields, filter_texts]) (Rgb.ofList?_toList _)
  have hoffset : readField fields "offset" (Rgb.fill 0) (shaped? Rgb.ofList?)
      = some c.grade.offset :=
    readField_of_shaped (by simp [← hfields, filter_texts]) (Rgb.ofList?_toList _)
  have hpower : readField fields "power" (Rgb.fill 1) (shaped? Rgb.ofList?)
      = some c.grade.power :=
    readField_of_shaped (by simp [← hfields, filter_texts]) (Rgb.ofList?_toList _)
  have hsaturation : readField fields "sat" 1 number? = some c.grade.saturation :=
    readField_of_number (by simp [← hfields, filter_texts])
  simp only [Atom.ofFields?, hid, hdescription, hslope, hoffset, hpower, hsaturation]
  rfl

/-- The identifier of a correction in a file is left out if it is empty. -/
theorem ofFields?_file (f : FileReference) (d : Direction) :
    Atom.ofFields? .file ((file f).labelled ++ [labelledDirection d]) = some (.file f) := by
  generalize hfields : (file f).labelled ++ [labelledDirection d] = fields
  simp only [labelled, labelledDirection] at hfields
  have hsource : readField fields "src" "" text? = some f.source :=
    readField_of_text (by simp [← hfields, filter_texts])
  have hid : readField fields "cccid" "" text? = some f.correctionId :=
    readField_of_texts (by simp [← hfields, filter_texts])
  have hinterpolation : readField fields "interpolation" .unknown
      (choice? Interpolation.name Interpolation.all) = some f.interpolation :=
    readField_of_singleton (.string f.interpolation.name) (by simp [← hfields, filter_texts])
      (choice?_interpolation _)
  simp only [Atom.ofFields?, hsource, hid, hinterpolation]
  rfl

/-- The fields of an atom, with the direction of the transform among them, read as the atom. -/
theorem ofFields?_labelled (a : Atom Float) (d : Direction) :
    Atom.ofFields? a.kind (a.labelled ++ [labelledDirection d]) = some a := by
  cases a with
  | allocation a => exact ofFields?_allocation a d
  | cdl c => exact ofFields?_cdl c d
  | file f => exact ofFields?_file f d
  | colorSpace c =>
      generalize hfields : (colorSpace c).labelled ++ [labelledDirection d] = fields
      simp only [labelled, labelledDirection] at hfields
      have hsource : readField fields "src" "" text? = some c.source :=
        readField_of_text (by simp [← hfields])
      have hdestination : readField fields "dst" "" text? = some c.destination :=
        readField_of_text (by simp [← hfields])
      simp only [Atom.ofFields?, Atom.kind, hsource, hdestination]
      rfl
  | exponent value =>
      generalize hfields : (exponent value).labelled ++ [labelledDirection d] = fields
      simp only [labelled, labelledDirection] at hfields
      have hvalue : readField fields "value" (Rgba.fill 1) (shaped? Rgba.ofList?) = some value :=
        readField_of_shaped (by simp [← hfields]) (Rgba.ofList?_toList _)
      simp only [Atom.ofFields?, Atom.kind, hvalue]
      rfl
  | log base =>
      generalize hfields : (log base).labelled ++ [labelledDirection d] = fields
      simp only [labelled, labelledDirection] at hfields
      have hbase : readField fields "base" 2 number? = some base :=
        readField_of_number (by simp [← hfields])
      simp only [Atom.ofFields?, Atom.kind, hbase]
      rfl
  | look l =>
      generalize hfields : (look l).labelled ++ [labelledDirection d] = fields
      simp only [labelled, labelledDirection] at hfields
      have hsource : readField fields "src" "" text? = some l.source :=
        readField_of_text (by simp [← hfields])
      have hdestination : readField fields "dst" "" text? = some l.destination :=
        readField_of_text (by simp [← hfields])
      have hlooks : readField fields "looks" "" text? = some l.looks :=
        readField_of_text (by simp [← hfields])
      simp only [Atom.ofFields?, Atom.kind, hsource, hdestination, hlooks]
      rfl
  | matrix map =>
      generalize hfields : (matrix map).labelled ++ [labelledDirection d] = fields
      simp only [labelled, labelledDirection] at hfields
      have hmatrix : readField fields "matrix" ColorMatrix.identity (shaped? ColorMatrix.ofList?)
          = some map.matrix :=
        readField_of_shaped (by simp [← hfields]) (ColorMatrix.ofList?_toList _)
      have hoffset : readField fields "offset" (Rgba.fill 0) (shaped? Rgba.ofList?)
          = some map.offset :=
        readField_of_shaped (by simp [← hfields]) (Rgba.ofList?_toList _)
      simp only [Atom.ofFields?, Atom.kind, hmatrix, hoffset]
      rfl

end Atom

end ColorChain
