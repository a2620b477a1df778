import ColorChain.Proofs.Markup.Attribute
import ColorChain.Proofs.Markup.Fragment
import ColorChain.Record.Document

/-!
# Reading on from the middle of a document

A document is read piece by piece, and what remains of the reading depends only on the bytes to come,
the progress so far and the names of the open elements. Each form of markup that a record is written
in has a lemma on how it takes the reading further.
-/

namespace ColorChain.Record

open Markup Text

/-- What the rest of a reading adds up to after some progress. -/
def Progress.conclude (p : Progress) (reading : Reading Event) : Except DocumentFault Document := do
  let p ← reading.items.foldlM Progress.step p
  match reading.fault, p.path with
  | some fault, _ => .error (.markup fault)
  | none, element :: _ => .error (.unclosed element)
  | none, [] => .ok p.document

/-- What a document holds if it goes on with `bs` inside the elements `open_`. -/
def readFrom (open_ : List Bytes) (p : Progress) (bs : Bytes) : Except DocumentFault Document :=
  let pieces := pieces bs
  let events := eventsOf open_ pieces.items
  p.conclude { events with fault := events.fault <|> pieces.fault }

theorem read_eq_readFrom (bs : Bytes) :
    Document.read bs = readFrom [] {} (dropByteOrderMark bs) := rfl

/-! ### Names -/

/-- The elements that have a place in records are named by letters. -/
theorem isName_of_ofName {name : String} (h : Element.ofName name ≠ .other) :
    IsName name.toList := by
  unfold Element.ofName at h
  split at h
  case h_16 => exact absurd rfl h
  all_goals exact ⟨by decide, by simp⟩

theorem isName_correction : IsName "ColorCorrection".toList := isName_of_ofName (by decide)

theorem isName_collection : IsName "ColorCorrectionCollection".toList :=
  isName_of_ofName (by decide)

/-- The attributes that are read or written are named by letters too. -/
theorem isName_key {key : String} (h : key ∈ ["id", "ref", "xmlns"]) : IsName key.toList := by
  simp only [List.mem_cons, List.not_mem_nil, or_false] at h
  rcases h with rfl | rfl | rfl
  all_goals exact ⟨by decide, by simp⟩

/-! ### Starts and ends -/

/-- The element is read from its text. -/
def Element.HoldsText : Element → Prop
  | .setting _ | .description | .inputDescription | .viewingDescription => True
  | _ => False

/-- The progress inside one more element. -/
def Progress.enter (p : Progress) (name : String) : Progress :=
  { p with path := name :: p.path, text := [] }

/-- The progress after the innermost element. -/
def Progress.leave (p : Progress) : Progress :=
  { p with path := p.path.drop 1, text := [] }

section

variable {p : Progress} {tag : Tag}

/-- The start of an element that is no record only adds a name to the path. -/
theorem onStart_eq_enter (hdecision : Element.ofName (nameText tag.name) ≠ .decision)
    (hcorrection : Element.ofName (nameText tag.name) ≠ .correction) :
    p.onStart tag = .ok (p.enter (nameText tag.name)) := by
  simp only [Progress.onStart]
  rfl

theorem onStart_decision (h : Element.ofName (nameText tag.name) = .decision) :
    p.onStart tag = .ok (({ p with decision? := some {} } : Progress).enter (nameText tag.name)) := by
  simp only [Progress.onStart, h]
  rfl

theorem onStart_correction (h : Element.ofName (nameText tag.name) = .correction) :
    p.onStart tag = (attributeText? tag "id").map fun id? =>
      ({ p with correction? := some { id? } } : Progress).enter (nameText tag.name) := by
  simp only [Progress.onStart, h]
  cases attributeText? tag "id" <;> rfl

theorem onClose_eq (p : Progress) (name : Bytes) :
    p.onClose name = (p.finish (.ofName (nameText name))).map (·.leave) := rfl

theorem onStart_of_ne {name : String} {attributes : Bytes} (hname : IsName name.toList)
    (hdecision : Element.ofName name ≠ .decision)
    (hcorrection : Element.ofName name ≠ .correction) :
    p.onStart ⟨encode name.toList, attributes⟩ = .ok (p.enter name) := by
  have htext := hname.nameText_toList
  have h : p.onStart ⟨encode name.toList, attributes⟩ = _ :=
    onStart_eq_enter (by rwa [htext]) (by rwa [htext])
  rwa [htext] at h

theorem onClose_encode {name : String} (hname : IsName name.toList) :
    p.onClose (encode name.toList) = (p.finish (.ofName name)).map (·.leave) := by
  rw [onClose_eq, hname.nameText_toList]

/-- An identifier that was escaped is read back, the empty one as none. -/
theorem attributeText?_escape (name : Bytes) (id : String) :
    attributeText? ⟨name, attributeBytes "id".toList (encode (escape id.toList))⟩ "id"
      = .ok (if id = "" then none else some id) := by
  have hattribute := attribute?_attributeBytes (isName_key (by simp) : IsName "id".toList).isTagName
    (quote_not_mem_encode (quote_not_mem_escape id.toList)) name
  rw [String.ofList_toList] at hattribute
  simp only [attributeText?, hattribute, decodeLossy_encode, unescape_escape, String.ofList_toList,
    String.toList_eq_nil_iff]

end

section

variable {open_ : List Bytes} {p : Progress}

/-- At the end of a document with no element open, what was collected stands. -/
theorem readFrom_nil (hpath : p.path = []) : readFrom open_ p [] = .ok p.document := by
  have hevents : eventsOf open_ [] = ⟨[], none⟩ := by rw [eventsOf]
  simp only [readFrom, pieces_nil, hevents, Progress.conclude, List.foldlM_nil, pure_bind, hpath]
  rfl

/-- A piece that is one event takes the reading one step further. -/
theorem readFrom_cons {open' : List Bytes} {b : UInt8} {bs rest : Bytes} {piece : Piece}
    {event : Event} (hsplit : splitFirst b bs = .ok (piece, rest))
    (hevent : ∀ items, eventsOf open_ (piece :: items) = (eventsOf open' items).cons event) :
    readFrom open_ p (b :: bs) = (p.step event).bind fun p => readFrom open' p rest := by
  simp only [readFrom, pieces_cons hsplit, Reading.cons, hevent, Progress.conclude,
    List.foldlM_cons]
  cases p.step event <;> rfl

/-! ### Text -/

/-- A run of text up to markup or the end is added to the text of the innermost element. -/
theorem readFrom_run {run : List Char} {rest : Bytes} (hrun : ∀ c ∈ run, c ∉ ['<', '&'])
    (hrest : ∀ b ∈ rest.head?, isPlain b = false) :
    readFrom open_ p (encode run ++ rest)
      = readFrom open_ { p with text := p.text ++ run } rest := by
  have hplain : ∀ b ∈ encode run, isPlain b := fun b hb => isPlain_of_mem_encode hrun hb
  cases hbytes : encode run with
  | nil =>
      have hnil : run = [] := by
        have := decode_encode run
        rw [hbytes, decode, decodeFrom] at this
        exact (Except.ok.inj this).symm
      simp [hnil]
  | cons b bs =>
      rw [hbytes] at hplain
      have hb := hplain b List.mem_cons_self
      have hbs : ∀ x ∈ bs, isPlain x := fun x hx => hplain x (List.mem_cons_of_mem b hx)
      have hsplit : splitFirst b (bs ++ rest) = .ok (.text (b :: bs), rest) := by
        cases rest with
        | nil => rw [List.append_nil, splitFirst_text_end hb hbs]
        | cons stop rest => exact splitFirst_text rest hb hbs (hrest stop rfl)
      rw [List.cons_append, readFrom_cons hsplit fun _ => rfl, ← hbytes, Progress.step,
        Progress.onText, decode_encode]
      rfl

/-- A document begins with a run of text up to its first markup or its end. -/
theorem exists_run (cs : List Char) : ∃ run tail, cs = run ++ tail
    ∧ (∀ c ∈ run, c ∉ ['<', '&']) ∧ ∀ b ∈ (encode tail).head?, isPlain b = false := by
  induction cs with
  | nil => exact ⟨[], [], rfl, by simp, by simp⟩
  | cons c cs ih =>
      by_cases hc : c ∈ ['<', '&']
      · refine ⟨[], c :: cs, rfl, by simp, ?_⟩
        simp only [List.mem_cons, List.not_mem_nil, or_false] at hc
        rcases hc with rfl | rfl
        · rintro b ⟨⟩
          rfl
        · rintro b ⟨⟩
          rfl
      · obtain ⟨run, tail, rfl, hrun, htail⟩ := ih
        refine ⟨c :: run, tail, rfl, ?_, htail⟩
        intro x hx
        rcases List.mem_cons.1 hx with rfl | hx
        · exact hc
        · exact hrun x hx

/-- Text is added to the text of the innermost element, whatever it is followed by: a run may be
read in two parts. -/
theorem readFrom_plain {run : List Char} (hrun : ∀ c ∈ run, c ∉ ['<', '&']) (rest : List Char) :
    readFrom open_ p (encode (run ++ rest))
      = readFrom open_ { p with text := p.text ++ run } (encode rest) := by
  obtain ⟨more, tail, rfl, hmore, htail⟩ := exists_run rest
  have hboth : ∀ c ∈ run ++ more, c ∉ ['<', '&'] := by
    intro c hc
    rcases List.mem_append.1 hc with hc | hc
    · exact hrun c hc
    · exact hmore c hc
  rw [← List.append_assoc, encode_append (run ++ more), readFrom_run hboth htail, encode_append more,
    readFrom_run hmore htail, List.append_assoc]

theorem referent_encode {name : List Char} {c : Char} (hname : Refers name c) :
    Progress.referent (encode name) = .ok c := by
  rcases hname.cases_hash with ⟨hnamed, hhash⟩ | ⟨number, rfl, hnumber⟩
  · rw [Progress.referent, decode_encode]
    split
    · next heq => cases heq
    · next heq =>
      cases heq
      exact absurd rfl hhash
    · next heq =>
      cases heq
      simp only [hnamed]
  · simp only [Progress.referent, decode_encode, hnumber]
    rfl

/-- A reference to a character adds the character. -/
theorem readFrom_reference {name : List Char} {c : Char} (rest : Bytes) (hname : Refers name c) :
    readFrom open_ p (0x26 :: (encode name ++ 0x3B :: rest))
      = readFrom open_ { p with text := p.text ++ [c] } rest := by
  rw [readFrom_cons (splitFirst_refers hname rest) fun _ => rfl, Progress.step,
    referent_encode hname]
  rfl

/-- A spelled text is read as the text, although its references split it. -/
theorem readFrom_spells {cs written : List Char} (h : SpellsText ['<', '&'] cs written)
    (rest : List Char) :
    readFrom open_ p (encode (written ++ rest))
      = readFrom open_ { p with text := p.text ++ cs } (encode rest) := by
  induction h generalizing p with
  | nil => simp
  | @plain c cs written hc h ih =>
      have hplain : ∀ x ∈ [c], x ∉ ['<', '&'] := by simpa using hc
      have hshape : c :: written ++ rest = [c] ++ (written ++ rest) := rfl
      rw [hshape, readFrom_plain hplain, ih]
      simp
  | @reference name c cs written hname h ih =>
      have hbytes : encode ('&' :: (name ++ ';' :: written) ++ rest)
          = 0x26 :: (encode name ++ 0x3B :: encode (written ++ rest)) := by
        change 0x26 :: encode (name ++ ';' :: written ++ rest) = _
        rw [List.append_assoc, encode_append]
        rfl
      rw [hbytes, readFrom_reference _ hname, ih]
      simp

/-- An escaped text is read as the text. -/
theorem readFrom_escape (cs rest : List Char) :
    readFrom open_ p (encode (escape cs ++ rest))
      = readFrom open_ { p with text := p.text ++ cs } (encode rest) :=
  readFrom_spells (spellsText_escape (by simp [reserved]) cs) rest

/-! ### Tags -/

section

variable {name attributes : Bytes}

/-- A start tag opens an element. -/
theorem readFrom_startTag (h : IsTag name attributes) (rest : Bytes) :
    readFrom open_ p (0x3C :: (name ++ attributes ++ 0x3E :: rest))
      = (p.onStart ⟨name, attributes⟩).bind fun p => readFrom (name :: open_) p rest := by
  have hsplit := h.splitFirst_tag [] rfl rest
  rw [List.append_nil] at hsplit
  have hevent (items : List Piece) : eventsOf open_ (.tag (name ++ attributes) :: items)
      = (eventsOf (name :: open_) items).cons (.start ⟨name, attributes⟩) := by
    rw [eventsOf, h.kind_start]
  rw [readFrom_cons hsplit hevent]
  rfl

/-- A tag that ends with a slash is an element without content. -/
theorem readFrom_emptyTag (h : IsTag name attributes) (rest : Bytes) :
    readFrom open_ p (0x3C :: (name ++ attributes ++ [0x2F] ++ 0x3E :: rest))
      = (p.onEmpty ⟨name, attributes⟩).bind fun p => readFrom open_ p rest := by
  have hevent (items : List Piece) : eventsOf open_ (.tag (name ++ attributes ++ [0x2F]) :: items)
      = (eventsOf open_ items).cons (.empty ⟨name, attributes⟩) := by
    rw [eventsOf, h.kind_empty]
  rw [readFrom_cons (h.splitFirst_tag [0x2F] rfl rest) hevent]
  rfl

/-- An end tag with the name of the innermost element closes it. -/
theorem readFrom_endTag (h : IsTag name attributes) {blanks : Bytes}
    (hblanks : ∀ b ∈ blanks, isSpace b) (hrun : blanks.foldlM tagStep none = some none)
    (rest : Bytes) :
    readFrom (name :: open_) p (0x3C :: (0x2F :: (name ++ blanks) ++ 0x3E :: rest))
      = (p.onClose name).bind fun p => readFrom open_ p rest := by
  have hevent (items : List Piece) :
      eventsOf (name :: open_) (.tag (0x2F :: (name ++ blanks)) :: items)
        = (eventsOf open_ items).cons (.close name) := by
    rw [eventsOf, h.kind_close hblanks]
    simp
  rw [readFrom_cons (h.splitFirst_close hrun rest) hevent]
  rfl

end

/-! ### Tags of names -/

theorem encode_start (name rest : List Char) :
    encode ('<' :: (name ++ '>' :: rest)) = 0x3C :: (encode name ++ 0x3E :: encode rest) := by
  change 0x3C :: encode (name ++ '>' :: rest) = _
  rw [encode_append]
  rfl

theorem encode_startWith (name key value rest : List Char) :
    encode ('<' :: (name ++ ' ' :: (key ++ '=' :: '"' :: (value ++ '"' :: '>' :: rest))))
      = 0x3C :: (encode name ++ attributeBytes key (encode value) ++ 0x3E :: encode rest) := by
  change 0x3C :: encode (name ++ ' ' :: (key ++ '=' :: '"' :: (value ++ '"' :: '>' :: rest))) = _
  rw [encode_append, encode_attribute, List.append_assoc]
  rfl

theorem encode_close (name rest : List Char) :
    encode ('<' :: '/' :: (name ++ '>' :: rest))
      = 0x3C :: (0x2F :: encode name ++ 0x3E :: encode rest) := by
  change 0x3C :: 0x2F :: encode (name ++ '>' :: rest) = _
  rw [encode_append]
  rfl

/-- A start tag with a name and no attributes opens an element. -/
theorem readFrom_start {name : List Char} (hname : IsName name) (rest : List Char) :
    readFrom open_ p (encode ('<' :: (name ++ '>' :: rest)))
      = (p.onStart ⟨encode name, []⟩).bind fun p =>
          readFrom (encode name :: open_) p (encode rest) := by
  have h : readFrom open_ p (0x3C :: (encode name ++ [] ++ 0x3E :: encode rest)) = _ :=
    readFrom_startTag hname.isTagName.isTag_nil (encode rest)
  rwa [List.append_nil, ← encode_start] at h

/-- A start tag with one attribute opens an element. -/
theorem readFrom_startWith {name key value : List Char} (hname : IsName name) (hkey : IsName key)
    (hvalue : '"' ∉ value) (rest : List Char) :
    readFrom open_ p
        (encode ('<' :: (name ++ ' ' :: (key ++ '=' :: '"' :: (value ++ '"' :: '>' :: rest)))))
      = (p.onStart ⟨encode name, attributeBytes key (encode value)⟩).bind fun p =>
          readFrom (encode name :: open_) p (encode rest) := by
  have htag := hname.isTagName.isTag_attributeBytes hkey.isTagName (quote_not_mem_encode hvalue)
  rw [encode_startWith, readFrom_startTag htag]

/-- An end tag with the name of the innermost element closes it. -/
theorem readFrom_close {name : List Char} (hname : IsName name) (rest : List Char) :
    readFrom (encode name :: open_) p (encode ('<' :: '/' :: (name ++ '>' :: rest)))
      = (p.onClose (encode name)).bind fun p => readFrom open_ p (encode rest) := by
  have h : readFrom (encode name :: open_) p
      (0x3C :: (0x2F :: (encode name ++ []) ++ 0x3E :: encode rest)) = _ :=
    readFrom_endTag hname.isTagName.isTag_nil (by simp) rfl (encode rest)
  rwa [List.append_nil, ← encode_close] at h

end

/-! ### Contents -/

/-- Reading `content` takes the progress from `p` to `q`, wherever the content stands. -/
def Reads (content : List Char) (p q : Progress) : Prop :=
  ∀ open_ rest, readFrom open_ p (encode (content ++ rest)) = readFrom open_ q (encode rest)

namespace Reads

variable {p q r : Progress}

theorem nil (p : Progress) : Reads [] p p := fun _ _ => rfl

theorem append {content content' : List Char} (h : Reads content p q) (h' : Reads content' q r) :
    Reads (content ++ content') p r := by
  intro open_ rest
  rw [List.append_assoc, h, h']

theorem escape (cs : List Char) (p : Progress) :
    Reads (escape cs) p { p with text := p.text ++ cs } := fun _ rest => readFrom_escape cs rest

/-- An element is read by its start tag, its content and its end tag. -/
theorem element {name content : List Char} {p' q' : Progress} (hname : IsName name)
    (hstart : p.onStart ⟨encode name, []⟩ = .ok p') (hcontent : Reads content p' q')
    (hclose : q'.onClose (encode name) = .ok q) :
    Reads ('<' :: name ++ '>' :: content ++ '<' :: '/' :: name ++ ['>']) p q := by
  intro open_ rest
  have hshape : '<' :: name ++ '>' :: content ++ '<' :: '/' :: name ++ ['>'] ++ rest
      = '<' :: (name ++ '>' :: (content ++ '<' :: '/' :: (name ++ '>' :: rest))) := by simp
  rw [hshape, readFrom_start hname, hstart]
  change readFrom (encode name :: open_) p' _ = _
  rw [hcontent, readFrom_close hname, hclose]
  rfl

/-- An element with an attribute is read in the same way. -/
theorem elementWith {name key value content : List Char} {p' q' : Progress} (hname : IsName name)
    (hkey : IsName key) (hvalue : '"' ∉ value)
    (hstart : p.onStart ⟨encode name, attributeBytes key (encode value)⟩ = .ok p')
    (hcontent : Reads content p' q') (hclose : q'.onClose (encode name) = .ok q) :
    Reads ('<' :: name ++ ' ' :: key ++ '=' :: '"' :: value ++ '"' :: '>' :: content
      ++ '<' :: '/' :: name ++ ['>']) p q := by
  intro open_ rest
  have hshape : '<' :: name ++ ' ' :: key ++ '=' :: '"' :: value ++ '"' :: '>' :: content
      ++ '<' :: '/' :: name ++ ['>'] ++ rest
      = '<' :: (name ++ ' ' :: (key ++ '=' :: '"' :: (value ++ '"' :: '>' ::
        (content ++ '<' :: '/' :: (name ++ '>' :: rest))))) := by simp
  rw [hshape, readFrom_startWith hname hkey hvalue, hstart]
  change readFrom (encode name :: open_) p' _ = _
  rw [hcontent, readFrom_close hname, hclose]
  rfl

/-- A document that is one content, read from the start, holds what the content collects. -/
theorem read_eq {content : List Char} (h : Reads content {} p) (hpath : p.path = [])
    (hmark : dropByteOrderMark (encode content) = encode content) :
    Document.read (encode content) = .ok p.document := by
  have hread := h [] []
  rw [List.append_nil, encode_nil, readFrom_nil hpath] at hread
  rw [read_eq_readFrom, hmark, hread]

end Reads

/-! ### Contents among other text

The text since the last tag never outlives the next tag. Between elements only the rest of the
progress matters, so blanks may stand there. -/

/-- Reading `content` takes the progress from `p` to `q`, whatever text was read before it, up to the
text that is left after it. -/
def Passes (content : List Char) (p q : Progress) : Prop :=
  ∀ text, ∃ text', Reads content { p with text := text } { q with text := text' }

namespace Passes

variable {p q r : Progress}

theorem nil (p : Progress) : Passes [] p p := fun text => ⟨text, Reads.nil _⟩

theorem append {content content' : List Char} (h : Passes content p q)
    (h' : Passes content' q r) : Passes (content ++ content') p r := by
  intro text
  obtain ⟨text₁, h₁⟩ := h text
  obtain ⟨text₂, h₂⟩ := h' text₁
  exact ⟨text₂, h₁.append h₂⟩

/-- Text between elements changes nothing else. -/
theorem plain {run : List Char} (hrun : ∀ c ∈ run, c ∉ ['<', '&']) (p : Progress) :
    Passes run p p := fun text => ⟨text ++ run, fun _ rest => readFrom_plain hrun rest⟩

/-- An element begins and ends with tags, which take no part of the text around it. -/
theorem element {name content : List Char} {p' q' : Progress} (hname : IsName name)
    (hstart : ∀ text, ({ p with text := text } : Progress).onStart ⟨encode name, []⟩ = .ok p')
    (hcontent : Passes content p' q')
    (hclose : ∀ text, ({ q' with text := text } : Progress).onClose (encode name) = .ok q) :
    Passes ('<' :: name ++ '>' :: content ++ '<' :: '/' :: name ++ ['>']) p q := by
  intro text
  obtain ⟨text', h⟩ := hcontent p'.text
  exact ⟨q.text, Reads.element hname (hstart text) h (hclose text')⟩

/-- An element with nothing but an escaped text is closed after the text. -/
theorem textElement {name cs : List Char} {p' : Progress} (hname : IsName name)
    (hstart : ∀ text, ({ p with text := text } : Progress).onStart ⟨encode name, []⟩ = .ok p')
    (hclose : ({ p' with text := p'.text ++ cs } : Progress).onClose (encode name) = .ok q) :
    Passes ('<' :: name ++ '>' :: Markup.escape cs ++ '<' :: '/' :: name ++ ['>']) p q :=
  fun text => ⟨q.text, Reads.element hname (hstart text) (Reads.escape cs p') hclose⟩

/-- An element with an attribute does so too. -/
theorem elementWith {name key value content : List Char} {p' q' : Progress} (hname : IsName name)
    (hkey : IsName key) (hvalue : '"' ∉ value)
    (hstart : ∀ text, ({ p with text := text } : Progress).onStart
      ⟨encode name, attributeBytes key (encode value)⟩ = .ok p')
    (hcontent : Passes content p' q')
    (hclose : ∀ text, ({ q' with text := text } : Progress).onClose (encode name) = .ok q) :
    Passes ('<' :: name ++ ' ' :: key ++ '=' :: '"' :: value ++ '"' :: '>' :: content
      ++ '<' :: '/' :: name ++ ['>']) p q := by
  intro text
  obtain ⟨text', h⟩ := hcontent p'.text
  exact ⟨q.text, Reads.elementWith hname hkey hvalue (hstart text) h (hclose text')⟩

/-- Contents in a row are read one by one, if each takes the progress one item further. -/
theorem flatMap {α : Type} {content : α → List Char} (state : List α → Progress)
    (h : ∀ items item, Passes (content item) (state items) (state (items ++ [item])))
    (items : List α) : Passes (items.flatMap content) (state []) (state items) := by
  have hfrom (done : List α) : Passes (items.flatMap content) (state done) (state (done ++ items)) := by
    induction items generalizing done with
    | nil =>
        rw [List.append_nil]
        exact nil _
    | cons item items ih =>
        rw [List.flatMap_cons, List.append_cons]
        exact (h done item).append (ih (done ++ [item]))
  exact hfrom []

/-- A document that is one content holds what the content collects. -/
theorem read_eq {content : List Char} (h : Passes content {} p) (hpath : p.path = [])
    (hmark : dropByteOrderMark (encode content) = encode content) :
    Document.read (encode content) = .ok p.document := by
  obtain ⟨text, hreads⟩ := h []
  exact hreads.read_eq hpath hmark

end Passes

end ColorChain.Record
