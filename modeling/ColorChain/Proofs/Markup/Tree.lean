import ColorChain.Proofs.Markup.Attribute

/-!
# Documents as trees

A document of start tags, end tags and text, with references in text and attributes, is a tree. The
tree says nothing of how the document was spelled: which quotes and references were used, and which
spaces stand in tags.
-/

namespace ColorChain.Markup

open Text

/-- What stands between two tags, or in a whole document: texts and elements in order. -/
inductive Content where
  | nil
  | text (cs : List Char) (rest : Content)
  | element (name : List Char) (attributes : List Attribute) (inner rest : Content)
deriving Repr

namespace Content

/-- The text that stands in no element of the content. -/
def ownText : Content → List Char
  | nil => []
  | text cs rest => cs ++ rest.ownText
  | element _ _ _ rest => rest.ownText

/-- The text since the last element, after some text before the content. -/
def trailingText : Content → List Char → List Char
  | nil, before => before
  | text cs rest, before => rest.trailingText (before ++ cs)
  | element _ _ _ rest, _ => rest.trailingText []

/-- There is nothing but text. -/
def IsText : Content → Prop
  | nil => True
  | text _ rest => rest.IsText
  | element _ _ _ _ => False

theorem IsText.trailingText_eq {c : Content} (h : c.IsText) (before : List Char) :
    c.trailingText before = before ++ c.ownText := by
  induction c generalizing before with
  | nil => simp [trailingText, ownText]
  | text cs rest ih => rw [trailingText, ih h, ownText, List.append_assoc]
  | element => exact h.elim

end Content

/-- The content may be written so. -/
inductive Spells : Content → List Char → Prop where
  | nil : Spells .nil []
  | text {cs written after : List Char} {rest : Content} (htext : SpellsText ['<', '&'] cs written)
      (hrest : Spells rest after) : Spells (.text cs rest) (written ++ after)
  | element {name written within blanks after : List Char} {attributes : List Attribute}
      {inner rest : Content} (hname : IsTagName name)
      (hattributes : SpellsAttributes attributes written) (hinner : Spells inner within)
      (hblanks : IsBlank blanks) (hrest : Spells rest after) :
    Spells (.element name attributes inner rest)
      ('<' :: name ++ written ++ '>' :: within ++ '<' :: '/' :: name ++ blanks ++ '>' :: after)

/-- The bytes are a document with the content, with or without a byte order mark. -/
def IsDocument (bs : Bytes) (c : Content) : Prop :=
  ∃ written, dropByteOrderMark bs = encode written ∧ Spells c written

/-- The value of an attribute. An empty one counts as none. -/
def attributeValue? (attributes : List Attribute) (name : String) : Option String :=
  match attributes.find? (·.name = name.toList) with
  | some a => if a.value = [] then none else some (String.ofList a.value)
  | none => none

end ColorChain.Markup
