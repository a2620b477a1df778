import ColorChain.Proofs.Outcome
import ColorChain.Proofs.Record.Tree

/-!
# Collecting elements

What a pass has collected after a content is what was collected before it, and what the elements of
the content add; a correction and a decision that are open add to it the elements since their start
tag. Elements may be collected in parts.
-/

namespace ColorChain.Record

open Markup Text

/-- The notes with the remarks of more elements. -/
def Notes.after (notes : Notes) (ns : List Node) : Notes where
  descriptions := notes.descriptions ++ textsOf .description ns
  input? := (textsOf .input ns).getLast? <|> notes.input?
  viewing? := (textsOf .viewing ns).getLast? <|> notes.viewing?

/-- The grade with the settings of more elements. -/
def gradeAfter (grade : Grade Float) (ns : List Node) : Grade Float where
  slope := (triplesOf .slope ns).getLast?.getD grade.slope
  offset := (triplesOf .offset ns).getLast?.getD grade.offset
  power := (triplesOf .power ns).getLast?.getD grade.power
  saturation := (saturationsOf ns).getLast?.getD grade.saturation

/-- The correction with more elements inside it. -/
def Correction.after (c : Correction) (ns : List Node) : Correction :=
  { c with
    notes := c.notes.after (directlyIn .correction ns)
    gradeDescription? :=
      (textsOf .description (directlyIn .tone ns)).getLast? <|> c.gradeDescription?
    grade := gradeAfter c.grade ns }

/-- The decision with more elements inside it. -/
def Decision.after (d : Decision) (ns : List Node) : Decision :=
  { d with
    notes := d.notes.after (directlyIn .decision ns)
    correction := (correctionsOf ns).getLast?.getD d.correction }

/-- The document with more elements in it. -/
def Document.after (d : Document) (ns : List Node) : Document where
  notes := d.notes.after (directlyIn .collection ns)
  corrections := d.corrections ++ correctionsOf ns
  decisions := d.decisions ++ decisionsOf ns

/-- The progress after more elements, with the text since the last of them. -/
def Progress.after (p : Progress) (ns : List Node) (text : List Char) : Progress :=
  { p with
    document := p.document.after ns
    decision? := p.decision?.map (·.after ns)
    correction? := p.correction?.map (·.after ns)
    text := text }

section

variable (ns ms : List Node)

theorem textsOf_append (kind : NoteKind) :
    textsOf kind (ns ++ ms) = textsOf kind ns ++ textsOf kind ms := by
  simp [textsOf]

theorem triplesOf_append (setting : Setting) :
    triplesOf setting (ns ++ ms) = triplesOf setting ns ++ triplesOf setting ms := by
  simp [triplesOf]

theorem saturationsOf_append : saturationsOf (ns ++ ms) = saturationsOf ns ++ saturationsOf ms := by
  simp [saturationsOf]

theorem correctionsOf_append : correctionsOf (ns ++ ms) = correctionsOf ns ++ correctionsOf ms := by
  simp [correctionsOf]

theorem decisionsOf_append : decisionsOf (ns ++ ms) = decisionsOf ns ++ decisionsOf ms := by
  simp [decisionsOf]

theorem directlyIn_append (parent : Element) :
    directlyIn parent (ns ++ ms) = directlyIn parent ns ++ directlyIn parent ms := by
  simp [directlyIn]

theorem Notes.after_append (notes : Notes) :
    notes.after (ns ++ ms) = (notes.after ns).after ms := by
  simp [Notes.after, textsOf_append, List.getLast?_append, Option.or_assoc]

theorem gradeAfter_append (grade : Grade Float) :
    gradeAfter grade (ns ++ ms) = gradeAfter (gradeAfter grade ns) ms := by
  simp [gradeAfter, triplesOf_append, saturationsOf_append, List.getLast?_append, Option.getD_or]

theorem Correction.after_append (c : Correction) : c.after (ns ++ ms) = (c.after ns).after ms := by
  simp [Correction.after, directlyIn_append, Notes.after_append, gradeAfter_append, textsOf_append,
    List.getLast?_append, Option.or_assoc]

theorem Decision.after_append (d : Decision) : d.after (ns ++ ms) = (d.after ns).after ms := by
  simp [Decision.after, directlyIn_append, Notes.after_append, correctionsOf_append,
    List.getLast?_append, Option.getD_or]

theorem Document.after_append (d : Document) : d.after (ns ++ ms) = (d.after ns).after ms := by
  simp [Document.after, directlyIn_append, Notes.after_append, correctionsOf_append,
    decisionsOf_append]

/-- Elements may be collected in two parts. -/
theorem Progress.after_append (p : Progress) (text text' : List Char) :
    p.after (ns ++ ms) text' = (p.after ns text).after ms text' := by
  simp [Progress.after, Document.after_append, Decision.after_append, Correction.after_append,
    Function.comp_def]

end

theorem Progress.after_nil (p : Progress) (text : List Char) :
    p.after [] text = { p with text := text } := by
  simp [Progress.after, Document.after, Decision.after, Correction.after, Notes.after, gradeAfter,
    directlyIn, textsOf, triplesOf, saturationsOf, correctionsOf, decisionsOf]

/-! ### What one element adds -/

section

variable {n : Node} {ns : List Node}

/-- An element that is no remark adds none. -/
theorem textsOf_directlyIn_cons (h : n.remark? = none) (kind : NoteKind) (parent : Element) :
    textsOf kind (directlyIn parent (n :: ns)) = textsOf kind (directlyIn parent ns) := by
  unfold directlyIn
  by_cases hparent : n.parent = parent <;> simp [textsOf, hparent, h]

theorem Notes.after_cons (h : n.remark? = none) (notes : Notes) (parent : Element) :
    notes.after (directlyIn parent (n :: ns)) = notes.after (directlyIn parent ns) := by
  simp only [Notes.after, textsOf_directlyIn_cons h]

theorem gradeAfter_cons (h : ∀ setting, n.kind ≠ .setting setting) (grade : Grade Float) :
    gradeAfter grade (n :: ns) = gradeAfter grade ns := by
  simp [gradeAfter, triplesOf, saturationsOf, h]

theorem correctionsOf_cons_of_ne (h : n.kind ≠ .correction) :
    correctionsOf (n :: ns) = correctionsOf ns := by
  simp [correctionsOf, h]

theorem decisionsOf_cons_of_ne (h : n.kind ≠ .decision) :
    decisionsOf (n :: ns) = decisionsOf ns := by
  simp [decisionsOf, h]

theorem correctionsOf_eq_nil (h : ∀ n ∈ ns, n.kind ≠ .correction) : correctionsOf ns = [] := by
  simp only [correctionsOf, List.map_eq_nil_iff, List.filter_eq_nil_iff]
  simpa using h

theorem decisionsOf_eq_nil (h : ∀ n ∈ ns, n.kind ≠ .decision) : decisionsOf ns = [] := by
  simp only [decisionsOf, List.map_eq_nil_iff, List.filter_eq_nil_iff]
  simpa using h

/-- A correction is what its elements add to its start. -/
theorem Node.correction_eq_after (hkind : n.kind = .correction)
    (h : ∀ m ∈ n.descendants, m.kind ≠ .correction) :
    n.correction = ({ id? := attributeValue? n.attributes "id" } : Correction).after n.descendants := by
  have hown : directlyIn .correction n.descendants = n.children := by
    unfold Node.descendants Node.children at *
    rw [hkind] at h ⊢
    exact directlyIn_nodes_self h
  simp [Node.correction, Correction.after, hown, Notes.after, notesOf, gradeAfter, gradeOf]

/-- A decision is what its elements add to its start. -/
theorem Node.decision_eq_after (hkind : n.kind = .decision)
    (h : ∀ m ∈ n.descendants, m.kind ≠ .decision) :
    n.decision = ({} : Decision).after n.descendants := by
  have hown : directlyIn .decision n.descendants = n.children := by
    unfold Node.descendants Node.children at *
    rw [hkind] at h ⊢
    exact directlyIn_nodes_self h
  simp [Node.decision, Decision.after, hown, Notes.after, notesOf]

end

theorem textsOf_nil (kind : NoteKind) : textsOf kind [] = [] := rfl

@[simp]
theorem Notes.after_nil (notes : Notes) : notes.after [] = notes := by
  simp [Notes.after, textsOf]

/-- A remark is added to the notes. -/
theorem Notes.after_singleton {n : Node} {kind : NoteKind} {text : String}
    (h : n.remark? = some (kind, text)) (notes : Notes) : notes.after [n] = notes.add kind text := by
  cases kind <;> simp [Notes.after, Notes.add, textsOf, h]

/-- The text of a setting is read as its value in the tree. -/
theorem readSetting_yields {n : Node} {setting : Setting} (h : n.kind = .setting setting)
    (grade : Grade Float) :
    Yields (readSetting setting n.text grade) n.Readable (gradeAfter grade [n]) := by
  cases setting with
  | slope | offset | power =>
      refine (Yields.of_option (fun _ => readTriple_eq_ok_iff) ?_).congr (by rw [Node.Readable, h])
      intro x hx
      simp [gradeAfter, triplesOf, saturationsOf, h, hx]
  | saturation =>
      refine (Yields.of_option (fun _ => readValue_trim_eq_ok_iff) ?_).congr
        (by rw [Node.Readable, h])
      intro x hx
      simp [gradeAfter, triplesOf, saturationsOf, h, hx]

/-- Only a setting can fail to be read. -/
theorem Node.readable_of_ne {n : Node} (h : ∀ setting, n.kind ≠ .setting setting) : n.Readable := by
  unfold Node.Readable
  split
  · next heq => exact absurd heq (h _)
  · next heq => exact absurd heq (h _)
  · trivial

theorem Node.remark?_eq_none {n : Node} (h : ¬n.kind.HoldsText) : n.remark? = none := by
  unfold Node.remark?
  cases hkind : n.kind with
  | description | inputDescription | viewingDescription =>
      rw [hkind] at h
      exact absurd trivial h
  | _ => rfl

/-- The element that makes a remark of a kind. -/
def NoteKind.element : NoteKind → Element
  | .description => .description
  | .input => .inputDescription
  | .viewing => .viewingDescription

/-- An element that makes a remark stands for its kind. -/
theorem Node.kind_of_remark? {n : Node} {kind : NoteKind} {text : String}
    (h : n.remark? = some (kind, text)) : n.kind = kind.element := by
  unfold Node.remark? at h
  split at h
  · next hkind =>
    obtain ⟨rfl, -⟩ := Prod.mk.inj (Option.some.inj h)
    exact hkind
  · next hkind =>
    obtain ⟨rfl, -⟩ := Prod.mk.inj (Option.some.inj h)
    exact hkind
  · next hkind =>
    obtain ⟨rfl, -⟩ := Prod.mk.inj (Option.some.inj h)
    exact hkind
  · cases h

end ColorChain.Record
