import ColorChain.Proofs.Outcome
import ColorChain.Proofs.Transform.Fields
import ColorChain.Proofs.Transform.Tree
import ColorChain.Proofs.Yaml.Value

/-!
# Transforms through documents

The value that says a transform reads as the transform, whatever it holds and however deep it is. So
a text that reads back as the value it was written from gives the transform again if it is valid, and
otherwise its first defect.
-/

namespace ColorChain

open Yaml

/-- The parts with one more, in the field of a display that has the given name. -/
def Parts.put (parts : Parts) (name : String) (slot : Option (Transform Float)) : Parts :=
  match slot with
  | none => parts
  | some t =>
    match name with
    | "linear_cc" => { parts with linear := some t }
    | "color_timing_cc" => { parts with colorTiming := some t }
    | "channel_view" => { parts with channelView := some t }
    | "display_cc" => { parts with displayed := some t }
    | _ => parts

namespace Transform

/-! ### Parts -/

/-- A field for a part under its name, left out if there is none. -/
def slots (name : String) (slot : Option (Transform Float)) : List (String × Value) :=
  slot.toList.map fun t => (name, t.toValue)

theorem fields?_slotField (name : String) (slot : Option (Transform Float)) :
    fields? (slotField name slot) = some (slots name slot) := by
  cases slot <;> rfl

theorem filter_slots (name other : String) (slot : Option (Transform Float)) :
    (slots name slot).filter (·.1 = other) = if name = other then slots name slot else [] := by
  cases slot with
  | none => simp [slots]
  | some t => by_cases h : name = other <;> simp [slots, h]

theorem length_slots_le (name : String) (slot : Option (Transform Float)) :
    (slots name slot).length ≤ 1 := by
  cases slot <;> simp [slots]

/-- Transforms of other kinds than displays and groups have no parts to read. -/
theorem parts?_of_ne {kind : Kind} (hdisplay : kind ≠ .display) (hgroup : kind ≠ .group)
    (entries : List (Value × Value)) : parts? kind entries = some {} := by
  induction entries with
  | nil => simp only [parts?]
  | cons entry entries ih =>
      obtain ⟨key, value⟩ := entry
      simp only [parts?, ih]
      cases kind with
      | display => exact absurd rfl hdisplay
      | group => exact absurd rfl hgroup
      | _ => rfl

section

variable {rest : List (Value × Value)} {parts : Parts}

/-- A field of a display that holds no transform is no part. -/
theorem parts?_display_cons (name : String) (h : name ∉ partFields .display) (value : Value)
    (hrest : parts? .display rest = some parts) :
    parts? .display (field name value :: rest) = some parts := by
  simp only [partFields, List.mem_cons, List.not_mem_nil, or_false, not_or] at h
  obtain ⟨hlinear, hcolorTiming, hchannelView, hdisplayed⟩ := h
  have htext : text? (.string name) = some name := rfl
  simp [field, parts?, hrest, htext, hlinear, hcolorTiming, hchannelView, hdisplayed]

theorem parts?_display_textField (name : String) (h : name ∉ partFields .display) (text : String)
    (hrest : parts? .display rest = some parts) :
    parts? .display (textField name text ++ rest) = some parts := by
  unfold textField
  split
  · exact hrest
  · exact parts?_display_cons name h _ hrest

end

theorem exists_toValue (t : Transform Float) : ∃ tag content, t.toValue = .tagged tag content := by
  cases t with
  | atom d a => exact ⟨_, _, rfl⟩
  | display d s linear colorTiming channelView displayed => exact ⟨_, _, rfl⟩
  | group d children => exact ⟨_, _, rfl⟩

/-- A slot that reads as its transform is put among the parts. -/
theorem parts?_slotField (name : String) (hname : name ∈ partFields .display)
    {slot : Option (Transform Float)} (hslot : ∀ t ∈ slot, ofValue? t.toValue = some t)
    {rest : List (Value × Value)} {parts : Parts} (hrest : parts? .display rest = some parts) :
    parts? .display (slotField name slot ++ rest) = some (parts.put name slot) := by
  cases slot with
  | none => exact hrest
  | some t =>
      have ht := hslot t rfl
      obtain ⟨tag, content, hvalue⟩ := exists_toValue t
      rw [hvalue] at ht
      simp only [slotField, field, hvalue, List.cons_append, List.nil_append, parts?, hrest, ht]
      simp only [partFields, List.mem_cons, List.not_mem_nil, or_false] at hname
      rcases hname with rfl | rfl | rfl | rfl <;> rfl

theorem ofValues?_toValues {ts : List (Transform Float)}
    (h : ∀ t ∈ ts, ofValue? t.toValue = some t) : ofValues? (toValues ts) = some ts := by
  induction ts with
  | nil => simp only [toValues, ofValues?]
  | cons t ts ih =>
      have ht := h t List.mem_cons_self
      have hts := ih fun x hx => h x (List.mem_cons_of_mem t hx)
      simp only [toValues, ofValues?, ht, hts]
      rfl

/-! ### Nodes -/

theorem readField_direction {fields : List (String × Value)} {d : Direction}
    (h : fields.filter (·.1 = "direction") = [labelledDirection d]) :
    readField fields "direction" .forward (choice? Direction.name Direction.all) = some d :=
  readField_of_singleton (.string d.name) h (choice?_direction d)

/-- A mapping under the name of a kind is read by its fields and parts. -/
theorem ofValue?_mapping {kind : Kind} {entries : List (Value × Value)}
    {fields : List (String × Value)} {parts : Parts} (hfields : fields? entries = some fields)
    (hparts : parts? kind entries = some parts) :
    ofValue? (.tagged kind.name (.mapping entries)) = ofFields? kind fields parts := by
  simp only [ofValue?, ofName?_name, hfields, hparts]
  rfl

theorem ofValue?_atom (d : Direction) (a : Atom Float) :
    ofValue? (toValue (.atom d a)) = some (.atom d a) := by
  have hfields : fields? (a.fields ++ [directionField d])
      = some (a.labelled ++ [labelledDirection d]) := fields?_append a.fields?_fields rfl
  have hparts : parts? a.kind (a.fields ++ [directionField d]) = some {} :=
    parts?_of_ne (by cases a <;> simp [Atom.kind]) (by cases a <;> simp [Atom.kind]) _
  have hdirection := readField_direction (a.filter_direction d)
  have hatom := a.ofFields?_labelled d
  have hnone : partFields a.kind = [] := by cases a <;> rfl
  rw [toValue, ofValue?_mapping hfields hparts]
  simp only [ofFields?, hdirection, hnone, List.any_nil]
  cases a <;> simp only [Atom.kind] at hatom ⊢ <;> simp [hatom]

theorem ofValue?_group (d : Direction) {children : List (Transform Float)}
    (h : ∀ t ∈ children, ofValue? t.toValue = some t) :
    ofValue? (toValue (.group d children)) = some (.group d children) := by
  let fields : List (String × Value) :=
    [("children", .sequence (toValues children)), labelledDirection d]
  have hfields : fields? [field "children" (.sequence (toValues children)), directionField d]
      = some fields := rfl
  have hparts : parts? .group
      [field "children" (.sequence (toValues children)), directionField d] = some { children } := by
    have hchildren : children? (.sequence (toValues children)) = some children := by
      simp only [children?, ofValues?_toValues h]
    simp only [field, directionField, parts?]
    change (children? _).map _ = _
    rw [hchildren]
    rfl
  have hdirection : readField fields "direction" .forward (choice? Direction.name Direction.all)
      = some d := readField_direction (by simp [fields, labelledDirection])
  have honce : (partFields .group).any (fun name => (fields.filter (·.1 = name)).length > 1)
      = false := by simp [partFields, fields, labelledDirection]
  rw [toValue, ofValue?_mapping hfields hparts]
  simp only [ofFields?, hdirection, honce]
  rfl

section

variable (s : DisplaySettings) (d : Direction)
  (linear colorTiming channelView displayed : Option (Transform Float))

/-- The fields of a display under their names. -/
def displayLabelled : List (String × Value) :=
  ("input_colorspace", .string s.inputSpace) :: slots "linear_cc" linear
    ++ slots "color_timing_cc" colorTiming ++ slots "channel_view" channelView
    ++ ("display", .string s.display) :: ("view", .string s.view)
    :: slots "display_cc" displayed ++ texts "looks_override" s.looksOverride
    ++ [("looks_override_enabled", .boolean s.looksOverrideEnabled), labelledDirection d]

/-- The settings of a display are read past its parts. -/
theorem displaySettings?_labelled :
    displaySettings? (displayLabelled s d linear colorTiming channelView displayed) = some s := by
  generalize hfields : displayLabelled s d linear colorTiming channelView displayed = fields
  simp only [displayLabelled, labelledDirection] at hfields
  have hinput : readField fields "input_colorspace" "" text? = some s.inputSpace :=
    readField_of_singleton (.string s.inputSpace) (by simp [← hfields, filter_slots, filter_texts])
      rfl
  have hdisplay : readField fields "display" "" text? = some s.display :=
    readField_of_singleton (.string s.display) (by simp [← hfields, filter_slots, filter_texts]) rfl
  have hview : readField fields "view" "" text? = some s.view :=
    readField_of_singleton (.string s.view) (by simp [← hfields, filter_slots, filter_texts]) rfl
  have hlooks : readField fields "looks_override" "" text? = some s.looksOverride :=
    readField_of_texts (by simp [← hfields, filter_slots, filter_texts])
  have henabled : readField fields "looks_override_enabled" false flag?
      = some s.looksOverrideEnabled :=
    readField_of_singleton (.boolean s.looksOverrideEnabled)
      (by simp [← hfields, filter_slots, filter_texts]) rfl
  simp only [displaySettings?, hinput, hdisplay, hview, hlooks, henabled]
  rfl

variable {linear colorTiming channelView displayed}

/-- The parts of a display are read among its settings. -/
theorem parts?_display (hlinear : ∀ t ∈ linear, ofValue? t.toValue = some t)
    (hcolorTiming : ∀ t ∈ colorTiming, ofValue? t.toValue = some t)
    (hchannelView : ∀ t ∈ channelView, ofValue? t.toValue = some t)
    (hdisplayed : ∀ t ∈ displayed, ofValue? t.toValue = some t) :
    parts? .display (field "input_colorspace" (.string s.inputSpace) :: slotField "linear_cc" linear
      ++ slotField "color_timing_cc" colorTiming ++ slotField "channel_view" channelView
      ++ field "display" (.string s.display) :: field "view" (.string s.view)
      :: slotField "display_cc" displayed ++ textField "looks_override" s.looksOverride
      ++ [field "looks_override_enabled" (.boolean s.looksOverrideEnabled), directionField d])
      = some { linear, colorTiming, channelView, displayed } := by
  have hdirection : parts? .display [directionField d] = some {} :=
    parts?_display_cons "direction" (by decide) _ (by rw [parts?])
  have henabled := parts?_display_cons "looks_override_enabled" (by decide)
    (.boolean s.looksOverrideEnabled) hdirection
  have hlooks := parts?_display_textField "looks_override" (by decide) s.looksOverride henabled
  have hlast := parts?_slotField "display_cc" (by decide) hdisplayed hlooks
  have hview := parts?_display_cons "view" (by decide) (.string s.view) hlast
  have hdisplay := parts?_display_cons "display" (by decide) (.string s.display) hview
  have hthird := parts?_slotField "channel_view" (by decide) hchannelView hdisplay
  have hsecond := parts?_slotField "color_timing_cc" (by decide) hcolorTiming hthird
  have hfirst := parts?_slotField "linear_cc" (by decide) hlinear hsecond
  have hall := parts?_display_cons "input_colorspace" (by decide) (.string s.inputSpace) hfirst
  simp only [List.cons_append, List.append_assoc] at hall ⊢
  refine hall.trans ?_
  cases linear <;> cases colorTiming <;> cases channelView <;> cases displayed <;> rfl

theorem ofValue?_display (hlinear : ∀ t ∈ linear, ofValue? t.toValue = some t)
    (hcolorTiming : ∀ t ∈ colorTiming, ofValue? t.toValue = some t)
    (hchannelView : ∀ t ∈ channelView, ofValue? t.toValue = some t)
    (hdisplayed : ∀ t ∈ displayed, ofValue? t.toValue = some t) :
    ofValue? (toValue (.display d s linear colorTiming channelView displayed))
      = some (.display d s linear colorTiming channelView displayed) := by
  let fields := displayLabelled s d linear colorTiming channelView displayed
  have hdirection : readField fields "direction" .forward (choice? Direction.name Direction.all)
      = some d := by
    refine readField_direction ?_
    simp [fields, displayLabelled, labelledDirection, filter_slots, filter_texts]
  have honce : (partFields .display).any (fun name => (fields.filter (·.1 = name)).length > 1)
      = false := by
    simp [partFields, fields, displayLabelled, labelledDirection, filter_slots, filter_texts,
      length_slots_le]
  have hparts := parts?_display s d hlinear hcolorTiming hchannelView hdisplayed
  have hend : fields? [field "looks_override_enabled" (.boolean s.looksOverrideEnabled),
      directionField d] = some [("looks_override_enabled", .boolean s.looksOverrideEnabled),
        labelledDirection d] := rfl
  have hfields : fields? _ = some fields :=
    fields?_append (fields?_append (fields?_append (fields?_append (fields?_append
      (fields?_cons "input_colorspace" (.string s.inputSpace) (fields?_slotField "linear_cc" linear))
      (fields?_slotField _ _)) (fields?_slotField _ _))
      (fields?_cons _ _ (fields?_cons _ _ (fields?_slotField _ _)))) (fields?_textField _ _)) hend
  rw [toValue, ofValue?_mapping hfields hparts]
  simp only [ofFields?, hdirection, honce, displaySettings?_labelled, fields]
  rfl

end

/-! ### Whole transforms -/

/-- The value that says a transform reads as the transform. -/
theorem ofValue?_toValue (t : Transform Float) : ofValue? t.toValue = some t := by
  induction t using induction_on_parts with
  | step t ih =>
      cases t with
      | atom d a => exact ofValue?_atom d a
      | group d children => exact ofValue?_group d ih
      | display d s linear colorTiming channelView displayed =>
          have hslot (slot : Option (Transform Float))
              (hslot : slot ∈ [linear, colorTiming, channelView, displayed]) :
              ∀ t ∈ slot, ofValue? t.toValue = some t := by
            rintro t rfl
            exact ih t (List.mem_filterMap.2 ⟨some t, hslot, rfl⟩)
          exact ofValue?_display s d (hslot linear (by simp)) (hslot colorTiming (by simp))
            (hslot channelView (by simp)) (hslot displayed (by simp))

theorem ofDocument?_toValue (t : Transform Float) : ofDocument? t.toValue = some t := by
  obtain ⟨tag, content, hvalue⟩ := exists_toValue t
  have h := ofValue?_toValue t
  rw [hvalue] at h ⊢
  exact h

/-- The value that says a transform reads as the transform. Where the text of that value reads back
as the value, the text gives the transform if it is valid, and its first defect if it is not. -/
theorem ofText_text (t : Transform Float) :
    ofDocument? t.toValue = some t ∧
      (Value.ofText? t.text = some t.toValue →
        ofText t.text = match t.validate with
          | .ok () => .ok t
          | .error defect => .error (.defect defect)) := by
  refine ⟨ofDocument?_toValue t, fun htext => ?_⟩
  rw [ofText, htext, Option.bind_some, ofDocument?_toValue]
  dsimp only
  cases t.validate with
  | ok _ => rfl
  | error defect => rfl

/-- A display inside a group, with an empty identifier and two empty slots, comes back. So does the
defect of a group with an unknown direction. -/
theorem ofText_text_nested :
    let grade : Transform Float :=
      .atom .inverse (.cdl { description := "dusk: warm", grade := .neutral })
    let display : Transform Float := .display .forward { inputSpace := "ACES", view := "Rec.709" }
      (some grade) none (some (.atom .forward (.file { source := "a.cube" }))) none
    let t : Transform Float := .group .forward [display, .atom .inverse (.log 10)]
    let u : Transform Float := .group .unknown [grade]
    (Value.ofText? t.text = some t.toValue ∧ ofText t.text = .ok t) ∧
      (Value.ofText? u.text = some u.toValue ∧
        ofText u.text = .error (.defect (.unknownDirection .group))) := by
  intro grade display t u
  have ht : Value.ofText? t.text = some t.toValue := by decide +kernel
  have hu : Value.ofText? u.text = some u.toValue := by decide +kernel
  have hvalid : t.validate = .ok () :=
    exists_unit_eq_ok_iff.1 (exists_eq_ok_of_toBool (by decide +kernel))
  have hdefect : u.validate = .error (.unknownDirection .group) := rfl
  constructor
  · refine ⟨ht, ?_⟩
    rw [(ofText_text t).2 ht, hvalid]
  · refine ⟨hu, ?_⟩
    rw [(ofText_text u).2 hu, hdefect]

end Transform

end ColorChain
