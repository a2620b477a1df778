import ColorChain.Proofs.Record.Content
import ColorChain.Proofs.Record.Value

/-!
# Records in a tree

What a document holds, by the elements of its tree: each correction and each decision by itself, from
the elements inside it, wherever it stands.
-/

namespace ColorChain.Record

open Markup Text

/-! ### Elements of a tree -/

/-- An element of a tree: what the element around it stands for, what it stands for itself, its
attributes and its content. -/
structure Node where
  parent : Element
  kind : Element
  attributes : List Attribute
  inner : Content

/-- The elements of a content at any depth, in document order. -/
def nodes (parent : Element) : Content → List Node
  | .nil => []
  | .text _ rest => nodes parent rest
  | .element name attributes inner rest =>
    ⟨parent, .ofTagName name, attributes, inner⟩
      :: (nodes (.ofTagName name) inner ++ nodes parent rest)

/-- The elements of a content that are in no other element of it. -/
def outerNodes (parent : Element) : Content → List Node
  | .nil => []
  | .text _ rest => outerNodes parent rest
  | .element name attributes inner rest =>
    ⟨parent, .ofTagName name, attributes, inner⟩ :: outerNodes parent rest

namespace Node

def children (n : Node) : List Node := outerNodes n.kind n.inner

def descendants (n : Node) : List Node := nodes n.kind n.inner

def text (n : Node) : List Char := n.inner.ownText

/-- The remark that an element makes. -/
def remark? (n : Node) : Option (NoteKind × String) :=
  match n.kind with
  | .description => some (.description, String.ofList n.text)
  | .inputDescription => some (.input, String.ofList n.text)
  | .viewingDescription => some (.viewing, String.ofList n.text)
  | _ => none

end Node

/-! ### Settings -/

/-- A setting holds as many numbers as it should. -/
def Node.Readable (n : Node) : Prop :=
  match n.kind with
  | .setting .saturation => ∃ x, scalar? n.text = some x
  | .setting _ => ∃ x, triple? n.text = some x
  | _ => True

/-- The values of the settings of one kind. -/
def triplesOf (setting : Setting) (ns : List Node) : List (Rgb Float) :=
  (ns.filter (·.kind = .setting setting)).filterMap (triple? ·.text)

def saturationsOf (ns : List Node) : List Float :=
  (ns.filter (·.kind = .setting .saturation)).filterMap (scalar? ·.text)

/-- The grade of the last setting of each kind. -/
def gradeOf (ns : List Node) : Grade Float where
  slope := (triplesOf .slope ns).getLast?.getD Grade.neutral.slope
  offset := (triplesOf .offset ns).getLast?.getD Grade.neutral.offset
  power := (triplesOf .power ns).getLast?.getD Grade.neutral.power
  saturation := (saturationsOf ns).getLast?.getD Grade.neutral.saturation

/-! ### Remarks -/

/-- The texts of the remarks of one kind. -/
def textsOf (kind : NoteKind) (ns : List Node) : List String :=
  ((ns.filterMap Node.remark?).filter (·.1 = kind)).map (·.2)

/-- The descriptions in order, and the last of each other kind. -/
def notesOf (ns : List Node) : Notes where
  descriptions := textsOf .description ns
  input? := (textsOf .input ns).getLast?
  viewing? := (textsOf .viewing ns).getLast?

/-- The elements that are directly in an element that stands for `parent`. -/
def directlyIn (parent : Element) (ns : List Node) : List Node := ns.filter (·.parent = parent)

/-! ### Records -/

/-- The correction that an element holds. -/
def Node.correction (n : Node) : Correction where
  id? := attributeValue? n.attributes "id"
  notes := notesOf n.children
  gradeDescription? := (textsOf .description (directlyIn .tone n.descendants)).getLast?
  grade := gradeOf n.descendants

def correctionsOf (ns : List Node) : List Correction :=
  (ns.filter (·.kind = .correction)).map Node.correction

/-- The decision that an element holds, without its medium. -/
def Node.decision (n : Node) : Decision where
  notes := notesOf n.children
  correction := (correctionsOf n.descendants).getLast?.getD {}

def decisionsOf (ns : List Node) : List Decision :=
  (ns.filter (·.kind = .decision)).map Node.decision

/-- What a document with the content holds. -/
def documentOf (c : Content) : Document where
  notes := notesOf (directlyIn .collection (nodes .other c))
  corrections := correctionsOf (nodes .other c)
  decisions := decisionsOf (nodes .other c)

/-- No correction is inside another, no decision inside another, and no element inside one that is
read from its text. -/
structure Flat (ns : List Node) : Prop where
  correction : ∀ n ∈ ns, n.kind = .correction → ∀ m ∈ n.descendants, m.kind ≠ .correction
  decision : ∀ n ∈ ns, n.kind = .decision → ∀ m ∈ n.descendants, m.kind ≠ .decision
  isText : ∀ n ∈ ns, n.kind.HoldsText → n.inner.IsText

/-- The settings in corrections hold as many numbers as they should. -/
def Readable (ns : List Node) : Prop :=
  ∀ n ∈ ns, n.kind = .correction → ∀ m ∈ n.descendants, m.Readable

/-! ### Own elements -/

section

variable {owner parent : Element} {c : Content}

/-- Only elements of its own are directly in an owner: where no owner is around or inside, there are
none. -/
theorem directlyIn_nodes_of_ne (hne : parent ≠ owner) (h : ∀ n ∈ nodes parent c, n.kind ≠ owner) :
    directlyIn owner (nodes parent c) = [] := by
  induction c generalizing parent with
  | nil => rfl
  | text cs rest ih => exact ih hne h
  | element name attributes inner rest ihInner ihRest =>
      simp only [nodes, List.mem_cons, List.mem_append] at h
      have hname : Element.ofTagName name ≠ owner := h _ (.inl rfl)
      have hinner := ihInner hname fun n hn => h n (.inr (.inl hn))
      have hrest := ihRest hne fun n hn => h n (.inr (.inr hn))
      simp only [directlyIn] at hinner hrest ⊢
      rw [nodes, List.filter_cons_of_neg (by simpa using hne), List.filter_append, hinner, hrest]
      rfl

theorem directlyIn_nodes_self (h : ∀ n ∈ nodes owner c, n.kind ≠ owner) :
    directlyIn owner (nodes owner c) = outerNodes owner c := by
  induction c with
  | nil => rfl
  | text cs rest ih => exact ih h
  | element name attributes inner rest ihInner ihRest =>
      simp only [nodes, List.mem_cons, List.mem_append] at h
      have hname : Element.ofTagName name ≠ owner := h _ (.inl rfl)
      have hinner := directlyIn_nodes_of_ne hname fun n hn => h n (.inr (.inl hn))
      have hrest := ihRest fun n hn => h n (.inr (.inr hn))
      simp only [directlyIn] at hinner hrest ⊢
      rw [nodes, List.filter_cons_of_pos (by simp), List.filter_append, hinner, hrest]
      rfl

/-- A content that is text has no elements. -/
theorem nodes_eq_nil_of_isText (h : c.IsText) : nodes parent c = [] := by
  induction c with
  | nil => rfl
  | text cs rest ih => exact ih h
  | element => exact h.elim

end

end ColorChain.Record
