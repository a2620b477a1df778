import ColorChain.Markup.Event
import ColorChain.Proofs.Markup.Piece
import ColorChain.Proofs.Text.Ascii
import ColorChain.Proofs.Text.Utf8

/-!
# Tags

What a tag says that is a name and attributes. A name holds none of the characters that have a meaning
in tags, so it ends where the attributes begin, and neither closes the tag nor makes it a declaration.
-/

namespace ColorChain.Markup

open Text

/-- The characters between the parts of a tag. -/
def spaces : List Char := [' ', '\t', '\r', '\n']

/-- A text of spaces. -/
def IsBlank (cs : List Char) : Prop := ∀ c ∈ cs, c ∈ spaces

/-- The characters that have a meaning in tags. -/
def delimiters : List Char := spaces ++ ['<', '>', '/', '=', '&', '\'', '"', '!', '?']

/-- A name of an element or of an attribute. -/
def IsTagName (name : List Char) : Prop := name ≠ [] ∧ ∀ c ∈ name, c ∉ delimiters

theorem isSpace_of_mem_encode {cs : List Char} (h : IsBlank cs) : ∀ b ∈ encode cs, isSpace b := by
  intro b hb
  obtain ⟨c, hc, hmem⟩ := List.mem_flatMap.1 hb
  have hspace := h c hc
  simp only [spaces, List.mem_cons, List.not_mem_nil, or_false] at hspace
  rcases hspace with rfl | rfl | rfl | rfl <;>
  · rw [utf8EncodeChar_ascii (by decide), List.mem_singleton] at hmem
    rw [hmem]
    rfl

/-- Spaces do not end a tag. -/
theorem run_tagStep_blank {cs : List Char} (h : IsBlank cs) :
    (encode cs).foldlM tagStep none = some none := by
  refine run_tagStep_none fun b hb => ?_
  have hspace := isSpace_of_mem_encode h b hb
  refine ⟨?_, ?_, ?_⟩ <;>
  · rintro rfl
    cases hspace

/-- The spaces at the end of an end tag are no part of the name. -/
theorem endName_append {name blanks : Bytes} (hlast : ∀ b ∈ name.getLast?, isSpace b = false)
    (hne : name ≠ []) (hblanks : ∀ b ∈ blanks, isSpace b) : endName (name ++ blanks) = name := by
  have hmem := List.getLast_mem hne
  have hspace : isSpace (name.getLast hne) = false := hlast _ (List.getLast?_eq_some_getLast hne)
  have hall : (name ++ blanks).all isSpace = false := by
    rw [List.all_eq_false]
    refine ⟨name.getLast hne, List.mem_append_left _ hmem, ?_⟩
    simp [hspace]
  have hblanks' : ∀ b ∈ blanks.reverse, isSpace b := fun b hb => hblanks b (List.mem_reverse.1 hb)
  have hdrop : name.reverse.dropWhile isSpace = name.reverse := by
    obtain ⟨b, bs, hcons⟩ := List.exists_cons_of_ne_nil (List.reverse_ne_nil_iff.2 hne)
    have hb : isSpace b = false := hlast b (by simp [List.getLast?_eq_head?_reverse, hcons])
    rw [hcons, List.dropWhile_cons_of_neg (by simp [hb])]
  rw [endName, hall, List.reverse_append, List.dropWhile_append_of_pos hblanks', hdrop,
    List.reverse_reverse]
  rfl

/-- The part of a name after its first colon, or all of it. -/
def localPart (name : List Char) : List Char :=
  match name.dropWhile (· != ':') with
  | _ :: rest => rest
  | [] => name

theorem dropWhile_encode (name : List Char) :
    (encode name).dropWhile (· != 0x3A) = encode (name.dropWhile (· != ':')) := by
  induction name with
  | nil => rfl
  | cons c name ih =>
      by_cases hc : c = ':'
      · subst hc
        rfl
      · have hbytes : ∀ b ∈ String.utf8EncodeChar c, (b != 0x3A) = true := by
          intro b hb
          have hmem : b ∈ encode [c] := by rwa [encode_cons, encode_nil, List.append_nil]
          refine bne_iff_ne.2 (ne_of_mem_encode hmem (by decide) fun h => hc ?_)
          exact (List.mem_singleton.1 h).symm
        rw [encode_cons, List.dropWhile_append_of_pos hbytes, ih,
          List.dropWhile_cons_of_pos (by simp [hc])]

/-- The text of a name is its local part. -/
theorem nameText_encode (name : List Char) :
    nameText (encode name) = String.ofList (localPart name) := by
  have hlocal : localName (encode name) = encode (localPart name) := by
    rw [localName, dropWhile_encode, localPart]
    cases h : name.dropWhile (· != ':') with
    | nil => rfl
    | cons c rest =>
        have hc : c = ':' := by
          have := List.head_dropWhile_not (· != ':') (l := name) (by simp [h])
          simpa [h] using this
        subst hc
        rfl
  rw [nameText, hlocal, decodeLossy_encode]

namespace IsTagName

variable {name : List Char}

/-- The bytes of a name are none of those that have a meaning in tags. -/
theorem ne_of_mem (h : IsTagName name) {b x : UInt8} (hb : b ∈ encode name)
    (hx : x.toNat ≤ 0x7F ∧ Char.ofNat x.toNat ∈ delimiters) : b ≠ x :=
  ne_of_mem_encode hb hx.1 fun hmem => h.2 _ hmem hx.2

theorem encode_ne_nil (h : IsTagName name) : encode name ≠ [] := by
  obtain ⟨c, cs, rfl⟩ := List.exists_cons_of_ne_nil h.1
  rw [encode_cons]
  exact List.append_ne_nil_of_left_ne_nil String.utf8EncodeChar_ne_nil _

theorem isSpace_of_mem (h : IsTagName name) {b : UInt8} (hb : b ∈ encode name) :
    isSpace b = false := by
  have h₁ : b ≠ 0x20 := h.ne_of_mem hb (by decide)
  have h₂ : b ≠ 0x09 := h.ne_of_mem hb (by decide)
  have h₃ : b ≠ 0x0D := h.ne_of_mem hb (by decide)
  have h₄ : b ≠ 0x0A := h.ne_of_mem hb (by decide)
  simp [isSpace, h₁, h₂, h₃, h₄]

theorem run_tagStep (h : IsTagName name) : (encode name).foldlM tagStep none = some none :=
  run_tagStep_none fun _ hb =>
    ⟨h.ne_of_mem hb (by decide), h.ne_of_mem hb (by decide), h.ne_of_mem hb (by decide)⟩

end IsTagName

/-! ### Tags -/

/-- The bytes of a tag: a name and attributes that end where the tag does. -/
structure IsTag (name attributes : Bytes) : Prop where
  ne_nil : name ≠ []
  /-- The tag is no end tag, declaration or instruction. -/
  head : ∀ b ∈ name.head?, b ≠ 0x2F ∧ b ≠ 0x21 ∧ b ≠ 0x3F
  space : ∀ b ∈ name, isSpace b = false
  apart : attributes.takeWhile (!isSpace ·) = []
  run_name : name.foldlM tagStep none = some none
  run_attributes : attributes.foldlM tagStep none = some none
  last : (name ++ attributes).getLast? ≠ some 0x2F

/-- A name is set off from attributes that neither end the tag nor end with a slash. -/
theorem IsTagName.isTag {name : List Char} (h : IsTagName name) {attributes : Bytes}
    (hapart : attributes.takeWhile (!isSpace ·) = [])
    (hrun : attributes.foldlM tagStep none = some none)
    (hlast : attributes.getLast? ≠ some 0x2F) : IsTag (encode name) attributes where
  ne_nil := h.encode_ne_nil
  head b hb := by
    have hmem := List.mem_of_mem_head? hb
    exact ⟨h.ne_of_mem hmem (by decide), h.ne_of_mem hmem (by decide), h.ne_of_mem hmem (by decide)⟩
  space _ hb := h.isSpace_of_mem hb
  apart := hapart
  run_name := h.run_tagStep
  run_attributes := hrun
  last := by
    rw [List.getLast?_append]
    cases hattributes : attributes.getLast? with
    | some x =>
        rw [hattributes] at hlast
        exact hlast
    | none =>
        intro hname
        rw [Option.none_or] at hname
        exact h.ne_of_mem (List.mem_of_getLast? hname) (by decide) rfl

/-- A name alone is a tag. -/
theorem IsTagName.isTag_nil {name : List Char} (h : IsTagName name) : IsTag (encode name) [] :=
  h.isTag rfl rfl (by simp)

namespace IsTag

variable {name attributes : Bytes}

theorem exists_cons (h : IsTag name attributes) :
    ∃ b bs, name = b :: bs ∧ b ≠ 0x2F ∧ b ≠ 0x21 ∧ b ≠ 0x3F := by
  obtain ⟨b, bs, rfl⟩ := List.exists_cons_of_ne_nil h.ne_nil
  exact ⟨b, bs, rfl, h.head b rfl⟩

/-- A tag that begins with a name goes on with its attributes. -/
theorem ofContent_eq (h : IsTag name attributes) :
    Tag.ofContent (name ++ attributes) = ⟨name, attributes⟩ := by
  have hname : ∀ b ∈ name, (!isSpace b) = true := by
    intro b hb
    simp [h.space b hb]
  have hdrop : attributes.dropWhile (!isSpace ·) = attributes := by
    have := List.takeWhile_append_dropWhile (p := fun b => !isSpace b) (l := attributes)
    rwa [h.apart, List.nil_append] at this
  simp only [Tag.ofContent, List.takeWhile_append_of_pos hname, List.dropWhile_append_of_pos hname,
    h.apart, hdrop, List.append_nil]

/-- A tag with a name and attributes starts an element. -/
theorem kind_start (h : IsTag name attributes) :
    TagKind.ofContent (name ++ attributes) = .start ⟨name, attributes⟩ := by
  obtain ⟨b, bs, hcons, hb, -⟩ := h.exists_cons
  unfold TagKind.ofContent
  split
  · next rest heq =>
    rw [hcons] at heq
    exact absurd (List.cons.inj heq).1 hb
  · rw [if_neg h.last, h.ofContent_eq]

/-- A tag with a name, attributes and a slash is an element without content. -/
theorem kind_empty (h : IsTag name attributes) :
    TagKind.ofContent (name ++ attributes ++ [0x2F]) = .empty ⟨name, attributes⟩ := by
  obtain ⟨b, bs, hcons, hb, -⟩ := h.exists_cons
  unfold TagKind.ofContent
  split
  · next rest heq =>
    rw [hcons] at heq
    exact absurd (List.cons.inj heq).1 hb
  · rw [if_pos List.getLast?_concat, List.dropLast_concat, h.ofContent_eq]

/-- A tag with a slash and a name ends an element. Spaces may stand after the name. -/
theorem kind_close (h : IsTag name attributes) {blanks : Bytes}
    (hblanks : ∀ b ∈ blanks, isSpace b) :
    TagKind.ofContent (0x2F :: (name ++ blanks)) = .close name := by
  rw [TagKind.ofContent, endName_append (fun b hb => h.space b (List.mem_of_getLast? hb)) h.ne_nil
    hblanks]

/-- A tag is the first piece of a document that begins with it, and so is one whose attributes go on
without ending it. -/
theorem splitFirst_tag (h : IsTag name attributes) (more : Bytes)
    (hmore : more.foldlM tagStep none = some none) (rest : Bytes) :
    splitFirst 0x3C (name ++ attributes ++ more ++ 0x3E :: rest)
      = .ok (.tag (name ++ attributes ++ more), rest) := by
  obtain ⟨b, bs, hcons, -, hb⟩ := h.exists_cons
  have hcontent : (name ++ attributes ++ more).foldlM tagStep none = some none := by
    simp only [List.foldlM_append, h.run_name, h.run_attributes, hmore, Option.bind_eq_bind,
      Option.bind_some]
  rw [hcons] at hcontent ⊢
  exact Markup.splitFirst_tag rest hb hcontent

/-- An end tag is the first piece of a document that begins with it. -/
theorem splitFirst_close (h : IsTag name attributes) {blanks : Bytes}
    (hblanks : blanks.foldlM tagStep none = some none) (rest : Bytes) :
    splitFirst 0x3C (0x2F :: (name ++ blanks) ++ 0x3E :: rest)
      = .ok (.tag (0x2F :: (name ++ blanks)), rest) := by
  have hslash : tagStep none 0x2F = some none := rfl
  refine Markup.splitFirst_tag rest (by decide) ?_
  simp only [List.foldlM_cons, hslash, List.foldlM_append, h.run_name, hblanks, Option.bind_eq_bind,
    Option.bind_some]

end IsTag

/-- What stands between the marks of a tag that says `kind`. -/
structure SaysTag (content : Bytes) (kind : TagKind) : Prop where
  /-- The tag is no declaration or instruction. -/
  head : ∀ b ∈ content.head?, b ≠ 0x21 ∧ b ≠ 0x3F
  /-- The tag goes on up to its end. -/
  run : content.foldlM tagStep none = some none
  kind_eq : TagKind.ofContent content = kind

/-- A tag is the first piece of a document that begins with it. -/
theorem SaysTag.splitFirst {content : Bytes} {kind : TagKind} (h : SaysTag content kind)
    (rest : Bytes) : splitFirst 0x3C (content ++ 0x3E :: rest) = .ok (.tag content, rest) := by
  cases content with
  | nil => rfl
  | cons b bs => exact splitFirst_tag rest (h.head b rfl) h.run

namespace IsTag

variable {name attributes : Bytes}

/-- A name with attributes starts an element. -/
theorem says_start (h : IsTag name attributes) :
    SaysTag (name ++ attributes) (.start ⟨name, attributes⟩) where
  head b hb := by
    obtain ⟨x, bs, rfl, -, hx⟩ := h.exists_cons
    cases hb
    exact hx
  run := by rw [List.foldlM_append, h.run_name]; exact h.run_attributes
  kind_eq := h.kind_start

/-- A slash and a name end an element. -/
theorem says_close (h : IsTag name attributes) : SaysTag (0x2F :: name) (.close name) where
  head b hb := by
    cases hb
    decide
  run := by
    rw [List.foldlM_cons]
    exact h.run_name
  kind_eq := by
    have hkind := h.kind_close (by simp : ∀ b ∈ ([] : Bytes), isSpace b)
    rwa [List.append_nil] at hkind

end IsTag

/-! ### Names of letters -/

/-- A name made of ASCII letters. -/
def IsName (name : List Char) : Prop := name ≠ [] ∧ ∀ c ∈ name, c.isAlpha

namespace IsName

variable {name : List Char}

/-- The letters have no meaning in tags. -/
theorem isTagName (h : IsName name) : IsTagName name := by
  refine ⟨h.1, fun c hc hmem => ?_⟩
  have halpha := h.2 c hc
  have hnot : ∀ x ∈ delimiters, x.isAlpha = false := by simp [delimiters, spaces]
  rw [hnot c hmem] at halpha
  cases halpha

/-- The text of a name is the name: it has no prefix to leave out. -/
theorem nameText_encode (h : IsName name) : nameText (encode name) = String.ofList name := by
  have hcolon : ∀ c ∈ name, (c != ':') = true := by
    intro c hc
    refine bne_iff_ne.2 ?_
    rintro rfl
    cases h.2 _ hc
  have hdrop : name.dropWhile (· != ':') = [] := by
    rw [← List.append_nil name, List.dropWhile_append_of_pos hcolon]
    rfl
  rw [Markup.nameText_encode, localPart, hdrop]

theorem nameText_toList {name : String} (h : IsName name.toList) :
    nameText (encode name.toList) = name := by
  rw [h.nameText_encode, String.ofList_toList]

end IsName

end ColorChain.Markup
