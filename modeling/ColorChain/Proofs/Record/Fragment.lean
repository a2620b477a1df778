import ColorChain.Proofs.Markup.Fragment
import ColorChain.Proofs.Record.Passage
import ColorChain.Proofs.Record.Streaming

/-!
# Texts in fragments

The text of an element is collected from its fragments, one after another, so a document holds the
same however the texts of its elements are written. A remark is its text exactly.
-/

namespace ColorChain.Record

open Markup Text

namespace Position

theorem withText_append_nil (s : Position) : s.withText (s.progress.text ++ []) = s := by
  rw [List.append_nil]
  rfl

theorem withText_append (s : Position) (cs ds : List Char) :
    (s.withText (s.progress.text ++ cs)).withText
        ((s.withText (s.progress.text ++ cs)).progress.text ++ ds)
      = s.withText (s.progress.text ++ (cs ++ ds)) := by
  rw [← List.append_assoc]
  rfl

end Position

theorem Position.advance_fragment (f : Fragment) (s : Position) :
    s.advance f.piece = .ok (s.withText (s.progress.text ++ f.data)) := by
  cases f with
  | raw cs h => exact Position.advance_text_eq_ok_iff.2 ⟨cs, decode_encode cs, rfl⟩
  | cdata cs h =>
      simp only [Fragment.piece, advance, take, Progress.step, Progress.onText, decode_encode]
      rfl
  | reference name c h =>
      simp only [Fragment.piece, advance, take, Progress.step, referent_encode h]
      rfl
  | comment cs h => exact congrArg Except.ok s.withText_append_nil.symm
  | instruction cs h => exact congrArg Except.ok s.withText_append_nil.symm

/-- A fragment adds its characters to the text of the innermost element. -/
theorem traverses_fragment (f : Fragment) (s : Position) :
    Traverses (encode f.written) s (s.withText (s.progress.text ++ f.data)) := by
  rcases f.plain_or_splits with ⟨cs, hwritten, hdata, hplain⟩ | ⟨b, bs, hwritten, -, hsplit⟩
  · rw [hwritten, hdata]
    exact Traverses.plain hplain (decode_encode cs) s
  · rw [hwritten]
    exact Traverses.cons hsplit (s.advance_fragment f) (Traverses.nil _)

theorem traverses_fragments (fs : List Fragment) (s : Position) :
    Traverses (encode (fs.flatMap Fragment.written)) s
      (s.withText (s.progress.text ++ fs.flatMap Fragment.data)) := by
  induction fs generalizing s with
  | nil =>
      rw [List.flatMap_nil, List.flatMap_nil, s.withText_append_nil]
      exact Traverses.nil s
  | cons f fs ih =>
      rw [List.flatMap_cons, List.flatMap_cons, encode_append, ← s.withText_append]
      exact (traverses_fragment f s).append (ih _)

/-! ### Elements -/

/-- What follows a passage is read from where the passage ends, if it begins with markup. -/
theorem Traverses.read_append {bs : Bytes} {s t : Position} (h : Traverses bs s t) (rest : Bytes) :
    s.read (bs ++ 0x3C :: rest) = t.read (0x3C :: rest) := by
  rw [Position.read_eq_foldlM, Position.read_eq_foldlM, pieces_append _ h.fault_eq,
    List.foldlM_append, h.run_eq]
  rfl

/-- The document with `content` after the start tag `tag`. What follows it begins with markup. -/
def documentWith (before tag : Bytes) (content : List Char) (rest : Bytes) : Bytes :=
  before ++ 0x3C :: (tag ++ 0x3E :: (encode content ++ 0x3C :: rest))

theorem onStart_text {p q : Progress} {tag : Tag} (h : p.onStart tag = .ok q) : q.text = [] := by
  obtain ⟨p', -, rfl⟩ := map_eq_ok_iff.1 h
  rfl

section

variable {before tag : Bytes} {t : Tag}

/-- An element takes the text of its fragments, whatever they are. -/
theorem read_documentWith (hbefore : (pieces (dropByteOrderMark before)).fault = none)
    (htag : SaysTag tag (.start t)) (fs : List Fragment) (rest : Bytes) :
    Document.read (documentWith before tag (fs.flatMap Fragment.written) rest)
      = ((pieces (dropByteOrderMark before)).items.foldlM Position.advance {}).bind fun s =>
        (s.progress.onStart t).bind fun p =>
          Position.read ⟨t.name :: s.open_, { p with text := fs.flatMap Fragment.data }⟩
            (0x3C :: rest) := by
  rw [documentWith, read_append hbefore]
  congr 1
  funext s
  have hadvance : s.advance (.tag tag) = s.take (.start t) (t.name :: s.open_) := by
    simp only [Position.advance, htag.kind_eq]
  rw [Position.read_cons (htag.splitFirst _), hadvance]
  change ((s.progress.onStart t).map _).bind _ = _
  cases hstart : s.progress.onStart t with
  | error fault => rfl
  | ok p =>
      have htext : p.text = [] := onStart_text hstart
      refine ((traverses_fragments fs ⟨t.name :: s.open_, p⟩).read_append rest).trans ?_
      change Position.read ⟨_, { p with text := p.text ++ _ }⟩ _ = _
      rw [htext, List.nil_append]
      rfl

/-- An element with fragments is read as the one with their escaped text. -/
theorem read_documentWith_escape (hbefore : (pieces (dropByteOrderMark before)).fault = none)
    (htag : SaysTag tag (.start t)) (fs : List Fragment) (rest : Bytes) :
    Document.read (documentWith before tag (fs.flatMap Fragment.written) rest)
      = Document.read (documentWith before tag (escape (fs.flatMap Fragment.data)) rest) := by
  obtain ⟨gs, hwritten, hdata⟩ := Fragment.exists_escape (fs.flatMap Fragment.data)
  rw [← hwritten, read_documentWith hbefore htag, read_documentWith hbefore htag, hdata]

end

/-! ### Remarks -/

namespace Position

/-- The position after a remark in the innermost element. -/
def noted (s : Position) (kind : NoteKind) (text : String) : Position :=
  { s with
    progress := { ({ s.progress with text := text.toList } : Progress).addNote kind
      s.progress.innermost with text := [] } }

/-- The end of a remark adds its text, exactly as it was collected. -/
theorem advance_close_remark {s : Position} {ending name : Bytes} {kind : NoteKind}
    (hkind : Element.ofName (nameText name) = kind.element) (hending : SaysTag ending (.close name))
    (text : List Char) :
    Position.advance ⟨name :: s.open_, { s.progress.enter (nameText name) with text }⟩ (.tag ending)
      = .ok (s.noted kind (String.ofList text)) := by
  have hfinish (p : Progress) : p.finish kind.element = .ok (p.addNote kind p.parent) := by
    cases kind <;> rfl
  have hparent : Progress.parent { s.progress.enter (nameText name) with text }
      = s.progress.innermost := Progress.parent_of_path rfl
  simp only [advance, hending.kind_eq, if_true, take, Progress.step, onClose_eq, hkind, hfinish,
    hparent, noted, String.toList_ofList]
  refine congrArg (fun p => Except.ok (⟨s.open_, p⟩ : Position)) ?_
  unfold Progress.addNote
  cases s.progress.innermost <;> cases kind <;> rfl

end Position

/-- A remark is kept with its text exactly, and reading goes on after it. -/
theorem read_documentWith_remark {before tag ending : Bytes} {t : Tag} {s : Position}
    {kind : NoteKind} (hbefore : Reaches before s) (htag : SaysTag tag (.start t))
    (hkind : Element.ofName (nameText t.name) = kind.element)
    (hending : SaysTag ending (.close t.name)) (fs : List Fragment) (after : Bytes) :
    Document.read (documentWith before tag (fs.flatMap Fragment.written) (ending ++ 0x3E :: after))
      = (s.noted kind (String.ofList (fs.flatMap Fragment.data))).read after := by
  have hdecision : Element.ofName (nameText t.name) ≠ .decision := by
    rw [hkind]
    cases kind <;> simp [NoteKind.element]
  have hcorrection : Element.ofName (nameText t.name) ≠ .correction := by
    rw [hkind]
    cases kind <;> simp [NoteKind.element]
  rw [read_documentWith hbefore.fault_eq htag, hbefore.run_eq]
  change (s.progress.onStart t).bind _ = _
  rw [onStart_eq_enter hdecision hcorrection]
  change Position.read ⟨t.name :: s.open_, { s.progress.enter (nameText t.name) with
    text := fs.flatMap Fragment.data }⟩ _ = _
  rw [Position.read_cons (hending.splitFirst after), Position.advance_close_remark hkind hending]
  rfl

/-- How the text of an element is written is no matter. Where a start tag stands in a document, its
content in fragments and the escaped text give the same record or the same fault, whatever comes after
the content. A remark is kept with its text exactly. -/
theorem read_fragments {before tag : Bytes} {t : Tag} {fs : List Fragment} {text : String}
    (hbefore : (pieces (dropByteOrderMark before)).fault = none) (htag : SaysTag tag (.start t))
    (hdata : fs.flatMap Fragment.data = text.toList) :
    (∀ rest,
      let inFragments := documentWith before tag (fs.flatMap Fragment.written) rest
      let escaped := documentWith before tag (escape text.toList) rest
      Document.readCorrection inFragments = Document.readCorrection escaped ∧
        Document.readCollection inFragments = Document.readCollection escaped ∧
        Document.readDecisions inFragments = Document.readDecisions escaped) ∧
    ∀ (kind : NoteKind) (s : Position) (ending after : Bytes), Reaches before s →
      Element.ofName (nameText t.name) = kind.element → SaysTag ending (.close t.name) →
      Document.read
          (documentWith before tag (fs.flatMap Fragment.written) (ending ++ 0x3E :: after))
        = (s.noted kind text).read after := by
  constructor
  · intro rest inFragments escaped
    have hread : Document.read inFragments = Document.read escaped := by
      have h := read_documentWith_escape hbefore htag fs rest
      rwa [hdata] at h
    simp only [Document.readCorrection, Document.readCollection, Document.readDecisions, hread,
      and_self]
  · intro kind s ending after hreaches hkind hending
    rw [read_documentWith_remark hreaches htag hkind hending, hdata, String.ofList_toList]

theorem read_fragments_padded :
    let before := ascii "<ColorCorrection>"
    let tag := ascii "Description"
    let fs : List Fragment := [.raw [' ', 'a'] (by simp), .cdata ['<', 'b', '>'] (by decide),
      .comment ['-', 'c'] (by decide), .reference ['a', 'm', 'p'] '&' (.named rfl),
      .instruction ['d'] (by decide), .reference ['#', 'x', '2', '0'] ' '
        (.hexadecimal (by decide) (show _ = [2, 0].map some from rfl) rfl (by decide))]
    let text := " a<b>& "
    let document := documentWith before tag (fs.flatMap Fragment.written)
      (ascii "/Description></ColorCorrection>")
    (pieces (dropByteOrderMark before)).fault = none ∧ SaysTag tag (.start ⟨tag, []⟩) ∧
      fs.flatMap Fragment.data = text.toList ∧
      document = ascii ("<ColorCorrection><Description> a<![CDATA[<b>]]><!---c-->&amp;<?d?>&#x20;"
        ++ "</Description></ColorCorrection>") ∧
      Document.readCorrection document = Document.readCorrection
        (documentWith before tag (escape text.toList) (ascii "/Description></ColorCorrection>")) ∧
      ∃ d, Document.read document = .ok d ∧ d.corrections.map (·.notes.descriptions) = [[text]] := by
  intro before tag fs text document
  have hbefore : (pieces (dropByteOrderMark before)).fault = none := by decide +kernel
  have htag : SaysTag tag (.start ⟨tag, []⟩) := ⟨by decide +kernel, by decide +kernel, rfl⟩
  have hdata : fs.flatMap Fragment.data = text.toList := by decide +kernel
  have hending : SaysTag (ascii "/Description") (.close tag) :=
    ⟨by decide +kernel, by decide +kernel, rfl⟩
  have hkind : Element.ofName (nameText tag) = NoteKind.description.element := by decide +kernel
  obtain ⟨hsame, hremark⟩ := read_fragments hbefore htag hdata
  let s : Position := ⟨[ascii "ColorCorrection"],
    { correction? := some {}, path := ["ColorCorrection"] }⟩
  have hreaches : Reaches before s := by
    have htext := isName_correction.nameText_toList
    have hstart : ({} : Progress).onStart ⟨encode "ColorCorrection".toList, []⟩ = .ok s.progress := by
      rw [onStart_correction (congrArg Element.ofName htext), htext]
      rfl
    have h := Reaches.nil.start isName_correction.isTagName.isTag_nil hstart
    have hbytes : [] ++ 0x3C :: (encode "ColorCorrection".toList ++ [] ++ [0x3E]) = before := by
      decide +kernel
    rwa [hbytes] at h
  have hread := hremark .description s (ascii "/Description") (ascii "</ColorCorrection>") hreaches
    hkind hending
  have hrest : ((s.noted .description text).read (ascii "</ColorCorrection>")).map
      (·.corrections.map (·.notes.descriptions)) = .ok [[text]] := by decide +kernel
  obtain ⟨d, hd, hcorrections⟩ := map_eq_ok_iff.1 hrest
  exact ⟨hbefore, htag, hdata, by decide +kernel, (hsame _).1, d, hread.trans hd, hcorrections⟩

end ColorChain.Record
