import ColorChain.Markup.Piece

/-!
# Events of a markup document

Tags become the starts and ends of elements. Every end has to carry the name of the innermost element
still open; that all elements are closed at the end of the document is left to the reader of the
events.
-/

namespace ColorChain.Markup

open Text

/-- A start tag: a name and the bytes that hold its attributes. -/
structure Tag where
  name : Bytes
  attributes : Bytes
deriving DecidableEq, Repr

inductive Event where
  | start (tag : Tag)
  /-- An element without content, written as one tag. -/
  | empty (tag : Tag)
  | close (name : Bytes)
  | text (content : Bytes)
  | cdata (content : Bytes)
  | reference (content : Bytes)
deriving DecidableEq, Repr

/-- The part of a name after its first colon, or all of it. -/
def localName (name : Bytes) : Bytes :=
  match name.dropWhile (· != 0x3A) with
  | _ :: rest => rest
  | [] => name

/-- A name as text. -/
def nameText (name : Bytes) : String := String.ofList (decodeLossy (localName name))

/-- A name as faults show it: empty if it is not UTF-8. -/
def faultName (name : Bytes) : List Char :=
  match decode name with
  | .ok name => name
  | .error _ => []

/-- The tag with the given content: the name runs up to the first space. -/
def Tag.ofContent (content : Bytes) : Tag :=
  ⟨content.takeWhile (!isSpace ·), content.dropWhile (!isSpace ·)⟩

/-- The name in an end tag: its content without spaces at the end, unless it is all spaces. -/
def endName (content : Bytes) : Bytes :=
  if content.all isSpace then content else (content.reverse.dropWhile isSpace).reverse

/-- What the content of a tag says. -/
inductive TagKind where
  | start (tag : Tag)
  | empty (tag : Tag)
  | close (name : Bytes)

def TagKind.ofContent (content : Bytes) : TagKind :=
  match content with
  | 0x2F :: rest => .close (endName rest)
  | _ =>
    if content.getLast? = some 0x2F then .empty (.ofContent content.dropLast)
    else .start (.ofContent content)

/-- The events of the pieces inside the elements `open_`, innermost first. -/
def eventsOf (open_ : List Bytes) : List Piece → Reading Event
  | [] => ⟨[], none⟩
  | .text content :: rest => (eventsOf open_ rest).cons (.text content)
  | .cdata content :: rest => (eventsOf open_ rest).cons (.cdata content)
  | .reference content :: rest => (eventsOf open_ rest).cons (.reference content)
  | .skipped :: rest => eventsOf open_ rest
  | .tag content :: rest =>
    match TagKind.ofContent content with
    | .start tag => (eventsOf (tag.name :: open_) rest).cons (.start tag)
    | .empty tag => (eventsOf open_ rest).cons (.empty tag)
    | .close name =>
      match open_ with
      | [] => ⟨[], some (.unmatchedEnd (faultName name))⟩
      | expected :: outer =>
        if name = expected then (eventsOf outer rest).cons (.close name)
        else ⟨[], some (.mismatchedEnd (faultName expected) (faultName name))⟩

/-- The events of a document. A fault among the events comes before one among the pieces. -/
def events (bs : Bytes) : Reading Event :=
  let pieces := pieces (dropByteOrderMark bs)
  let events := eventsOf [] pieces.items
  { events with fault := events.fault <|> pieces.fault }

end ColorChain.Markup
