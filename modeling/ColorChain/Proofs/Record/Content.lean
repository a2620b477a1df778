import ColorChain.Proofs.Markup.Tree
import ColorChain.Proofs.Record.Document

/-!
# Reading the content of a document

However a content is spelled, the pass over it is the pass over its tree: an element begins, takes in
its content, and ends.
-/

namespace ColorChain.Record

open Markup Text

/-- What an element with the name stands for. -/
def Element.ofTagName (name : List Char) : Element := .ofName (String.ofList (localPart name))

namespace Progress

/-- The progress after the start of an element. -/
def begin (p : Progress) (name : List Char) (attributes : List Attribute) : Progress :=
  let opened : Progress := match Element.ofTagName name with
    | .decision => { p with decision? := some {} }
    | .correction => { p with correction? := some { id? := attributeValue? attributes "id" } }
    | _ => p
  opened.enter (String.ofList (localPart name))

/-- The progress after a content. -/
def absorb : Progress → Content → Except DocumentFault Progress
  | p, .nil => .ok p
  | p, .text cs rest => absorb { p with text := p.text ++ cs } rest
  | p, .element name attributes inner rest =>
    (absorb (p.begin name attributes) inner).bind fun p =>
      (p.finish (.ofTagName name)).bind fun p => absorb p.leave rest

end Progress

section

variable {open_ : List Bytes} {p : Progress}

theorem kind_encode (name : List Char) :
    Element.ofName (nameText (encode name)) = .ofTagName name := by
  rw [nameText_encode, Element.ofTagName]

/-- A written attribute is found under its name, as the text of its value. -/
theorem attributeText?_spells {attributes : List Attribute} {written : List Char}
    (h : SpellsAttributes attributes written) (name : Bytes) (key : String) :
    attributeText? ⟨name, encode written⟩ key = .ok (attributeValue? attributes key) := by
  have hfound := h.attribute?_eq name key
  unfold attributeText? attributeValue?
  cases hbytes : Tag.attribute? ⟨name, encode written⟩ key with
  | none =>
      rw [hbytes] at hfound
      cases hfind : attributes.find? (·.name = key.toList) with
      | none => rfl
      | some a =>
          rw [hfind] at hfound
          cases hfound
  | some bytes =>
      rw [hbytes] at hfound
      cases hfind : attributes.find? (·.name = key.toList) with
      | none =>
          rw [hfind] at hfound
          cases hfound
      | some a =>
          rw [hfind] at hfound
          have hvalue : unescape (decodeLossy bytes) = .ok a.value := Option.some.inj hfound
          simp only [hvalue]

/-- A written start tag begins an element. -/
theorem onStart_spells {attributes : List Attribute} {written : List Char}
    (h : SpellsAttributes attributes written) (name : List Char) :
    p.onStart ⟨encode name, encode written⟩ = .ok (p.begin name attributes) := by
  simp only [Progress.onStart, nameText_encode, attributeText?_spells h, Progress.begin,
    Element.ofTagName]
  cases Element.ofName (String.ofList (localPart name)) <;> rfl

/-- However a content is spelled, it is read as the content. -/
theorem readFrom_content {c : Content} {written : List Char} (h : Spells c written)
    (rest : List Char) :
    readFrom open_ p (encode (written ++ rest))
      = (p.absorb c).bind fun p => readFrom open_ p (encode rest) := by
  induction h generalizing open_ p rest with
  | nil => rfl
  | text htext hrest ih => rw [List.append_assoc, readFrom_spells htext, ih, Progress.absorb]
  | @element name written within blanks after attributes inner after' hname hattributes hinner
      hblanks hrest ihInner ihRest =>
      have htag := hattributes.isTag hname
      have hopen (cs : List Char) : encode ('<' :: cs) = 0x3C :: encode cs := rfl
      have hclose (cs : List Char) : encode ('>' :: cs) = 0x3E :: encode cs := rfl
      have hslash (cs : List Char) : encode ('/' :: cs) = 0x2F :: encode cs := rfl
      have hshape : encode ('<' :: name ++ written ++ '>' :: within ++ '<' :: '/' :: name ++ blanks
          ++ '>' :: after ++ rest)
          = 0x3C :: (encode name ++ encode written ++ 0x3E :: encode (within
            ++ ('<' :: '/' :: name ++ blanks ++ '>' :: (after ++ rest)))) := by
        simp only [List.append_assoc, List.cons_append, encode_append, hopen, hclose, hslash]
      have hend : encode ('<' :: '/' :: name ++ blanks ++ '>' :: (after ++ rest))
          = 0x3C :: (0x2F :: (encode name ++ encode blanks) ++ 0x3E :: encode (after ++ rest)) := by
        simp only [List.append_assoc, List.cons_append, encode_append, hopen, hclose, hslash]
      rw [hshape, readFrom_startTag htag, onStart_spells hattributes, Progress.absorb]
      change readFrom _ _ _ = _
      rw [ihInner]
      cases Progress.absorb (p.begin name attributes) inner with
      | error fault => rfl
      | ok q =>
          change readFrom _ q _ = ((q.finish (.ofTagName name)).bind fun p =>
            p.leave.absorb after').bind fun p => readFrom open_ p (encode rest)
          rw [hend, readFrom_endTag htag (isSpace_of_mem_encode hblanks) (run_tagStep_blank hblanks),
            onClose_eq, kind_encode]
          cases q.finish (.ofTagName name) with
          | error fault => rfl
          | ok q => exact ihRest rest

end

end ColorChain.Record
