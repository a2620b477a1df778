import ColorChain.Text.Utf8

/-!
# Pieces of a markup document

A document splits into texts, references, sections of character data, tags, and pieces without
content. The split looks at bytes alone: it knows nothing of names and nesting. Where it cannot go
on, the pieces before that place stand and a fault follows them.
-/

namespace ColorChain.Markup

open Text

/-- A piece of a document, without the marks around it. -/
inductive Piece where
  | text (content : Bytes)
  | reference (content : Bytes)
  | cdata (content : Bytes)
  | tag (content : Bytes)
  /-- A comment, an instruction or a document type. -/
  | skipped
deriving DecidableEq, Repr

/-- Why a document is not well formed. -/
inductive MarkupFault where
  | openReference
  | unknownMarkup
  | openCdata
  | openComment
  | openDoctype
  | namelessDoctype
  | openInstruction
  | openTag
  | mismatchedEnd (expected found : List Char)
  | unmatchedEnd (found : List Char)
deriving DecidableEq, Repr

def MarkupFault.message : MarkupFault → String
  | .openReference =>
    "ill-formed document: entity or character reference not closed: `;` not found before end of input"
  | .unknownMarkup => "syntax error: unknown or missed symbol in markup"
  | .openCdata => "syntax error: CDATA not closed: `]]>` not found before end of input"
  | .openComment => "syntax error: comment not closed: `-->` not found before end of input"
  | .openDoctype => "syntax error: DOCTYPE not closed: `>` not found before end of input"
  | .namelessDoctype =>
    "ill-formed document: `<!DOCTYPE>` declaration does not contain a name of a document type"
  | .openInstruction => "syntax error: processing instruction or xml declaration not closed: `?>`"
      ++ " not found before end of input"
  | .openTag => "syntax error: tag not closed: `>` not found before end of input"
  | .mismatchedEnd expected found => "ill-formed document: expected `</" ++ String.ofList expected
      ++ ">`, but `</" ++ String.ofList found ++ ">` was found"
  | .unmatchedEnd found => "ill-formed document: close tag `</" ++ String.ofList found
      ++ ">` does not match any open tag"

/-- The bytes of an ASCII text. -/
def ascii (s : String) : Bytes := encodeString s

/-- Space, tab, carriage return and line feed. -/
def isSpace (b : UInt8) : Bool := b == 0x20 || b == 0x09 || b == 0x0D || b == 0x0A

/-- Runs a machine until it stops: the bytes before the one it stops on, and those after it. -/
def splitWhere {σ : Type} (step : σ → UInt8 → Option σ) (state : σ) : Bytes → Option (Bytes × Bytes)
  | [] => none
  | b :: bs =>
    match step state b with
    | none => some ([], bs)
    | some next => (splitWhere step next bs).map fun (content, rest) => (b :: content, rest)

theorem length_of_splitWhere {σ : Type} {step : σ → UInt8 → Option σ} {state : σ}
    {bs content rest : Bytes} (h : splitWhere step state bs = some (content, rest)) :
    rest.length < bs.length := by
  induction bs generalizing state content with
  | nil => simp [splitWhere] at h
  | cons b bs ih =>
    unfold splitWhere at h
    split at h
    · cases h; simp
    · obtain ⟨⟨found, rest'⟩, hs, he⟩ := Option.map_eq_some_iff.1 h
      cases he
      have := ih hs
      simp; omega

/-- Stops on a `>` outside quotes. The state is the quote that is open. -/
def tagStep (quote : Option UInt8) (b : UInt8) : Option (Option UInt8) :=
  match quote with
  | some q => if b == q then some none else some (some q)
  | none =>
    if b == 0x3E then none
    else if b == 0x22 || b == 0x27 then some (some b)
    else some none

/-- Stops on a `>` that follows at least `need` bytes equal to `mark`. The state counts them. -/
def closingStep (mark : UInt8) (need : Nat) (count : Nat) (b : UInt8) : Option Nat :=
  if b == mark then some (count + 1)
  else if b == 0x3E && need ≤ count then none
  else some 0

/-- Stops on the `>` that no `<` before it opened. The state counts those that are open. -/
def doctypeStep (depth : Nat) (b : UInt8) : Option Nat :=
  if b == 0x3C then some (depth + 1)
  else if b == 0x3E then (if depth = 0 then none else some (depth - 1))
  else some depth

/-- A piece and the bytes after it. -/
abbrev Split := Except MarkupFault (Piece × Bytes)

/-- Turns the result of a machine into a piece, or into the fault for its not stopping. -/
def closed (fault : MarkupFault) (piece : Bytes → Piece) : Option (Bytes × Bytes) → Split
  | some (content, rest) => .ok (piece content, rest)
  | none => .error fault

/-- A capital ASCII letter as a small one. -/
def lowerByte (b : UInt8) : UInt8 := if 0x41 ≤ b && b ≤ 0x5A then b + 0x20 else b

/-- A document type, from after `<!`. -/
def splitDoctype (bs : Bytes) : Split :=
  match splitWhere doctypeStep 0 bs with
  | none => .error .openDoctype
  | some (content, rest) =>
    if (content.take 7).map lowerByte = ascii "doctype" then
      if (content.drop 7).all isSpace then .error .namelessDoctype else .ok (.skipped, rest)
    else .error .openDoctype

/-- What follows `<!`. -/
def splitDeclaration (bs : Bytes) : Split :=
  match bs with
  | 0x5B :: _ =>
    if (ascii "[CDATA[").isPrefixOf bs then
      closed .openCdata (fun content => .cdata (content.take (content.length - 2)))
        (splitWhere (closingStep 0x5D 2) 0 (bs.drop 7))
    else .error .openCdata
  | 0x2D :: rest =>
    match rest with
    | 0x2D :: rest =>
      closed .openComment (fun _ => .skipped) (splitWhere (closingStep 0x2D 2) 0 rest)
    | _ => .error .openComment
  | b :: _ => if lowerByte b == 0x64 then splitDoctype bs else .error .unknownMarkup
  | [] => .error .unknownMarkup

/-- An instruction, from after `<?`. The question mark that opens it cannot close it. -/
def splitInstruction (bs : Bytes) : Split :=
  match splitWhere (closingStep 0x3F 1) 1 bs with
  | some ([], _) | none => .error .openInstruction
  | some (_, rest) => .ok (.skipped, rest)

/-- What follows `<`. -/
def splitMarkup (bs : Bytes) : Split :=
  match bs with
  | 0x21 :: rest => splitDeclaration rest
  | 0x3F :: rest => splitInstruction rest
  | _ => closed .openTag .tag (splitWhere tagStep none bs)

/-- A reference, from after `&`. -/
def splitReference (bs : Bytes) : Split :=
  let inside (b : UInt8) : Bool := b != 0x3B && b != 0x26 && b != 0x3C
  match bs.dropWhile inside with
  | 0x3B :: rest => .ok (.reference (bs.takeWhile inside), rest)
  | _ => .error .openReference

/-- The bytes of a text: neither `<` nor `&`. -/
def isPlain (b : UInt8) : Bool := b != 0x3C && b != 0x26

/-- The first piece of a non-empty document. -/
def splitFirst (b : UInt8) (bs : Bytes) : Split :=
  if b == 0x3C then splitMarkup bs
  else if b == 0x26 then splitReference bs
  else .ok (.text (b :: bs.takeWhile isPlain), bs.dropWhile isPlain)

theorem length_of_closed {fault : MarkupFault} {piece : Bytes → Piece} {σ : Type}
    {step : σ → UInt8 → Option σ} {state : σ} {bs rest : Bytes} {p : Piece}
    (h : closed fault piece (splitWhere step state bs) = .ok (p, rest)) :
    rest.length < bs.length := by
  unfold closed at h
  split at h
  · next hs => cases h; exact length_of_splitWhere hs
  · cases h

theorem length_of_splitDeclaration {bs rest : Bytes} {p : Piece}
    (h : splitDeclaration bs = .ok (p, rest)) : rest.length ≤ bs.length := by
  unfold splitDeclaration at h
  split at h
  · split at h
    · have := length_of_closed h
      simp only [List.length_drop] at this
      omega
    · cases h
  · split at h
    · have := length_of_closed h
      simp only [List.length_cons]
      omega
    · cases h
  · split at h
    · unfold splitDoctype at h
      split at h
      · cases h
      · next hs =>
        have := length_of_splitWhere hs
        split at h
        · split at h
          · cases h
          · cases h; omega
        · cases h
    · cases h
  · cases h

theorem length_of_splitFirst {b : UInt8} {bs rest : Bytes} {p : Piece}
    (h : splitFirst b bs = .ok (p, rest)) : rest.length ≤ bs.length := by
  unfold splitFirst at h
  split at h
  · unfold splitMarkup at h
    split at h
    · have := length_of_splitDeclaration h
      simp only [List.length_cons]; omega
    · unfold splitInstruction at h
      split at h
      · cases h
      · cases h
      · next hs =>
        have := length_of_splitWhere hs
        cases h
        simp only [List.length_cons]; omega
    · exact Nat.le_of_lt (length_of_closed h)
  · split at h
    · unfold splitReference at h
      dsimp only at h
      split at h
      · next hs =>
        cases h
        have := (List.dropWhile_suffix (p := fun b : UInt8 => b != 0x3B && b != 0x26 && b != 0x3C)
          (l := bs)).length_le
        rw [hs] at this
        simp only [List.length_cons] at this
        omega
      · cases h
    · cases h
      exact (List.dropWhile_suffix _).length_le

/-- What was read of a document, and the fault that ended the reading. -/
structure Reading (α : Type) where
  items : List α
  fault : Option MarkupFault

/-- Puts an item in front of a reading. -/
def Reading.cons {α : Type} (item : α) (reading : Reading α) : Reading α :=
  { reading with items := item :: reading.items }

/-- The pieces of a document. -/
def pieces : Bytes → Reading Piece
  | [] => ⟨[], none⟩
  | b :: bs =>
    match h : splitFirst b bs with
    | .error fault => ⟨[], some fault⟩
    | .ok (piece, rest) =>
      have := length_of_splitFirst h
      (pieces rest).cons piece
termination_by bs => bs.length

/-- The bytes that mark a document as UTF-8. -/
def byteOrderMark : Bytes := [0xEF, 0xBB, 0xBF]

/-- A document without the byte order mark it may begin with. -/
def dropByteOrderMark (bs : Bytes) : Bytes :=
  if byteOrderMark.isPrefixOf bs then bs.drop 3 else bs

end ColorChain.Markup
