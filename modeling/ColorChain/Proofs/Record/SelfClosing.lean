import ColorChain.Proofs.Outcome
import ColorChain.Proofs.Record.Position

/-!
# Elements without content

An element without content is written as one tag or as a start and an end tag. A correction and a
medium are added to the record in both forms where no decision is open. Inside a decision the forms
differ: the decision takes a correction only from an end tag and a medium only from a single tag.
-/

namespace ColorChain.Record

open Markup Text

/-! ### Reading without decisions

What else a document holds does not depend on the contents of its decisions. -/

def Document.withoutDecisions (d : Document) : Document := { d with decisions := [] }

theorem Document.exists_of_map_withoutDecisions {x y : Except DocumentFault Document}
    (h : x.map withoutDecisions = y.map withoutDecisions) :
    (∃ fault, x = .error fault ∧ y = .error fault) ∨
      ∃ d decisions, x = .ok d ∧ y = .ok { d with decisions } := by
  rcases map_eq_map_iff.1 h with ⟨fault, hx, hy⟩ | ⟨d, d', hx, hy, hd⟩
  · exact .inl ⟨fault, hx, hy⟩
  · obtain ⟨notes, corrections, decisions⟩ := d
    obtain ⟨notes', corrections', decisions'⟩ := d'
    cases hd
    exact .inr ⟨_, decisions', hx, hy⟩

section

variable {bs bs' : Bytes}

theorem Document.readCorrection_congr
    (h : (read bs).map withoutDecisions = (read bs').map withoutDecisions) :
    readCorrection bs = readCorrection bs' := by
  rcases exists_of_map_withoutDecisions h with ⟨fault, hx, hy⟩ | ⟨d, decisions, hx, hy⟩
  · rw [readCorrection, readCorrection, hx, hy]
  · rw [readCorrection, readCorrection, hx, hy]
    rfl

theorem Document.readCollection_congr
    (h : (read bs).map withoutDecisions = (read bs').map withoutDecisions) :
    readCollection bs = readCollection bs' := by
  rcases exists_of_map_withoutDecisions h with ⟨fault, hx, hy⟩ | ⟨d, decisions, hx, hy⟩
  · rw [readCollection, readCollection, hx, hy]
  · rw [readCollection, readCollection, hx, hy]
    rfl

end

namespace Progress

/-- The progress that knows only whether a decision is open. -/
def withoutDecisions (p : Progress) : Progress :=
  { p with
    document := p.document.withoutDecisions
    decision? := p.decision?.map fun _ => {} }

@[simp]
theorem withoutDecisions_withoutDecisions (p : Progress) :
    p.withoutDecisions.withoutDecisions = p.withoutDecisions := by
  simp [withoutDecisions, Document.withoutDecisions, Function.comp_def]

/-- Of the open decision it only matters whether there is one. -/
theorem withoutDecisions_setDecision (p : Progress) {decision? : Option Decision}
    (h : decision?.isSome = p.decision?.isSome) :
    ({ p with decision? } : Progress).withoutDecisions = p.withoutDecisions := by
  have hmap : (decision?.map fun _ => ({} : Decision)) = p.decision?.map fun _ => {} := by
    cases decision? <;> cases hp : p.decision? <;> simp [hp] at h ⊢
  simp only [withoutDecisions, hmap]

theorem withoutDecisions_addNote (p : Progress) (kind : NoteKind) (parent : Element) :
    (p.withoutDecisions.addNote kind parent).withoutDecisions
      = (p.addNote kind parent).withoutDecisions := by
  unfold addNote
  cases parent with
  | tone =>
      by_cases h : kind = .description <;>
        simp [h, withoutDecisions, Document.withoutDecisions, Function.comp_def]
  | _ => simp [withoutDecisions, Document.withoutDecisions, Function.comp_def]

theorem withoutDecisions_endCorrection (p : Progress) :
    p.withoutDecisions.endCorrection.withoutDecisions = p.endCorrection.withoutDecisions := by
  unfold endCorrection
  cases hcorrection : p.correction? <;>
    simp [withoutDecisions, Document.withoutDecisions, pushCorrection, hcorrection,
      Function.comp_def]

theorem withoutDecisions_endDecision (p : Progress) :
    p.withoutDecisions.endDecision.withoutDecisions = p.endDecision.withoutDecisions := by
  unfold endDecision
  cases hdecision : p.decision? <;>
    simp [withoutDecisions, Document.withoutDecisions, hdecision]

theorem withoutDecisions_finish (p : Progress) (element : Element) :
    (p.withoutDecisions.finish element).map withoutDecisions
      = (p.finish element).map withoutDecisions := by
  have hsame : Except.map (ε := DocumentFault) withoutDecisions (.ok p.withoutDecisions)
      = Except.map withoutDecisions (.ok p) :=
    congrArg Except.ok p.withoutDecisions_withoutDecisions
  cases element with
  | setting setting =>
      have hcorrection : p.withoutDecisions.correction? = p.correction? := rfl
      have htext : p.withoutDecisions.text = p.text := rfl
      simp only [finish, hcorrection, htext]
      cases p.correction? with
      | none => exact hsame
      | some c =>
          dsimp only
          cases readSetting setting p.text c.grade with
          | error fault => rfl
          | ok grade =>
              simp [Except.map, withoutDecisions, Document.withoutDecisions, Function.comp_def]
  | description => exact congrArg Except.ok (withoutDecisions_addNote p .description p.parent)
  | inputDescription => exact congrArg Except.ok (withoutDecisions_addNote p .input p.parent)
  | viewingDescription => exact congrArg Except.ok (withoutDecisions_addNote p .viewing p.parent)
  | correction => exact congrArg Except.ok (withoutDecisions_endCorrection p)
  | decision => exact congrArg Except.ok (withoutDecisions_endDecision p)
  | _ => exact hsame

theorem withoutDecisions_onClose (p : Progress) (name : Bytes) :
    (p.withoutDecisions.onClose name).map withoutDecisions
      = (p.onClose name).map withoutDecisions := by
  have hleave (x : Except DocumentFault Progress) :
      (x.map (·.leave)).map withoutDecisions = (x.map withoutDecisions).map (·.leave) := by
    cases x <;> rfl
  rw [onClose_eq, onClose_eq, hleave, hleave, withoutDecisions_finish]

theorem withoutDecisions_onStart (p : Progress) (tag : Tag) :
    (p.withoutDecisions.onStart tag).map withoutDecisions
      = (p.onStart tag).map withoutDecisions := by
  simp only [onStart]
  cases Element.ofName (nameText tag.name) with
  | correction =>
      cases attributeText? tag "id" with
      | error fault => rfl
      | ok id? => simp [Except.map, withoutDecisions, Document.withoutDecisions, Function.comp_def]
  | _ => simp [Except.map, withoutDecisions, Document.withoutDecisions, Function.comp_def]

theorem withoutDecisions_onEmpty (p : Progress) (tag : Tag) :
    (p.withoutDecisions.onEmpty tag).map withoutDecisions
      = (p.onEmpty tag).map withoutDecisions := by
  unfold onEmpty
  cases Element.ofName (nameText tag.name) with
  | correction =>
      cases attributeText? tag "id" with
      | error fault => rfl
      | ok id? =>
          simp [Except.map, withoutDecisions, Document.withoutDecisions, pushCorrection,
            Function.comp_def]
  | mediaRef =>
      cases hdecision : p.decision? with
      | none => simp [Except.map, withoutDecisions, Document.withoutDecisions, hdecision]
      | some d =>
          cases attributeText? tag "ref" with
          | error fault => simp [Except.map, withoutDecisions, hdecision]
          | ok mediaRef? =>
              simp [Except.map, withoutDecisions, Document.withoutDecisions, hdecision]
  | _ => exact congrArg Except.ok p.withoutDecisions_withoutDecisions

theorem withoutDecisions_onText (p : Progress) (source : TextSource) (content : Bytes) :
    (p.withoutDecisions.onText source content).map withoutDecisions
      = (p.onText source content).map withoutDecisions := by
  unfold onText
  cases decode content with
  | error fault => rfl
  | ok text => simp [Except.map, withoutDecisions, Document.withoutDecisions, Function.comp_def]

/-- One step adds the same without decisions. -/
theorem withoutDecisions_step (p : Progress) (event : Event) :
    (p.withoutDecisions.step event).map withoutDecisions
      = (p.step event).map withoutDecisions := by
  cases event with
  | start tag => exact withoutDecisions_onStart p tag
  | empty tag => exact withoutDecisions_onEmpty p tag
  | close name => exact withoutDecisions_onClose p name
  | text content => exact withoutDecisions_onText p .text content
  | cdata content => exact withoutDecisions_onText p .cdata content
  | reference content =>
      simp only [step]
      cases referent content with
      | error fault => rfl
      | ok c => simp [Except.map, withoutDecisions, Document.withoutDecisions, Function.comp_def]

/-- Two readings that differ in decisions differ in decisions after any events. -/
theorem withoutDecisions_conclude {p q : Progress} (h : p.withoutDecisions = q.withoutDecisions)
    (reading : Reading Event) :
    (p.conclude reading).map Document.withoutDecisions
      = (q.conclude reading).map Document.withoutDecisions := by
  obtain ⟨events, fault⟩ := reading
  induction events generalizing p q with
  | nil =>
      have hpath : p.withoutDecisions.path = q.withoutDecisions.path := by rw [h]
      have hdocument : p.withoutDecisions.document = q.withoutDecisions.document := by rw [h]
      change p.path = q.path at hpath
      simp only [conclude, List.foldlM_nil, pure_bind, hpath]
      cases fault with
      | some fault => rfl
      | none =>
          cases q.path with
          | cons element path => rfl
          | nil => exact congrArg Except.ok hdocument
  | cons event events ih =>
      have hstep : (p.step event).map withoutDecisions = (q.step event).map withoutDecisions := by
        rw [← withoutDecisions_step p, h, withoutDecisions_step]
      simp only [conclude, List.foldlM_cons] at ih ⊢
      rcases map_eq_map_iff.1 hstep with ⟨fault, hp, hq⟩ | ⟨p', q', hp, hq, hnext⟩
      · rw [hp, hq]
      · rw [hp, hq]
        exact ih hnext

end Progress

/-! ### Text that nothing holds

Text inside an element is looked at when the element ends, if it is a setting or a remark. -/

/-- A start tag drops the text before it. -/
theorem Progress.onStart_text (p : Progress) (tag : Tag) (text : List Char) :
    ({ p with text := text } : Progress).onStart tag = p.onStart tag := by
  simp only [onStart]
  cases Element.ofName (nameText tag.name) with
  | correction => cases attributeText? tag "id" <;> rfl
  | _ => rfl

/-- An element written as one tag leaves the text around it. -/
theorem Progress.onEmpty_text (p : Progress) (tag : Tag) (text : List Char) :
    ({ p with text := text } : Progress).onEmpty tag
      = (p.onEmpty tag).map fun p => { p with text := text } := by
  unfold onEmpty
  cases Element.ofName (nameText tag.name) with
  | correction => cases attributeText? tag "id" <;> rfl
  | mediaRef =>
      cases hdecision : p.decision? with
      | none => simp [hdecision, Except.map]
      | some d => cases attributeText? tag "ref" <;> simp [Except.map]
  | _ => rfl

theorem Progress.finish_text {element : Element} (h : ¬element.HoldsText) (p : Progress)
    (text : List Char) :
    ({ p with text := text } : Progress).finish element
      = (p.finish element).map fun p => { p with text := text } := by
  cases element with
  | setting | description | inputDescription | viewingDescription => exact absurd trivial h
  | correction =>
      refine congrArg Except.ok ?_
      unfold endCorrection
      cases hcorrection : p.correction? <;> simp [pushCorrection, hcorrection]
  | decision =>
      refine congrArg Except.ok ?_
      unfold endDecision
      cases hdecision : p.decision? <;> simp [hdecision]
  | _ => rfl

/-- The end of an element that does not hold text drops its text. -/
theorem Progress.onClose_text (p : Progress) {name : Bytes}
    (h : ¬(Element.ofName (nameText name)).HoldsText) (text : List Char) :
    ({ p with text := text } : Progress).onClose name = p.onClose name := by
  rw [onClose, finish_text h, onClose]
  cases p.finish _ <;> rfl

/-- More text only adds to the text before it. -/
theorem Progress.onText_text (p : Progress) (source : TextSource) (content : Bytes)
    (text : List Char) :
    ∃ text', ({ p with text := text } : Progress).onText source content
      = (p.onText source content).map fun p => { p with text := text' } := by
  unfold onText
  cases decode content with
  | error fault => exact ⟨text, rfl⟩
  | ok more => exact ⟨text ++ more, rfl⟩

theorem Progress.reference_text (p : Progress) (content : Bytes) (text : List Char) :
    ∃ text', ({ p with text := text } : Progress).step (.reference content)
      = (p.step (.reference content)).map fun p => { p with text := text' } := by
  simp only [step]
  cases referent content with
  | error fault => exact ⟨text, rfl⟩
  | ok c => exact ⟨text ++ [c], rfl⟩

namespace Position

/-- The text of the innermost element is never looked at. -/
def IgnoresText (s : Position) : Prop :=
  ∀ name ∈ s.open_.head?, ¬(Element.ofName (nameText name)).HoldsText

def withText (s : Position) (text : List Char) : Position :=
  { s with progress := { s.progress with text := text } }

theorem take_withText_of_eq {s : Position} (event : Event) {text : List Char}
    (h : ({ s.progress with text := text } : Progress).step event = s.progress.step event)
    (open_ : List Bytes) : (s.withText text).take event open_ = s.take event open_ :=
  congrArg (Except.map _) h

theorem take_withText_of_map {s : Position} (event : Event) {text text' : List Char}
    (h : ({ s.progress with text := text } : Progress).step event
      = (s.progress.step event).map fun p => { p with text := text' }) (open_ : List Bytes) :
    (s.withText text).take event open_ = (s.take event open_).map (·.withText text') := by
  change Except.map _ (({ s.progress with text := text } : Progress).step event) = _
  rw [h, take]
  cases s.progress.step event <;> rfl

/-- Other text in an element that ignores it is gone with the next tag of an element, or left as
text that the element ignores. -/
theorem advance_withText {s : Position} (h : s.IgnoresText) (piece : Piece) (text : List Char) :
    (s.withText text).advance piece = s.advance piece ∨
      ∃ text', (s.withText text).advance piece = (s.advance piece).map (·.withText text') ∧
        ∀ t, s.advance piece = .ok t → t.IgnoresText := by
  have hsame (event : Event) (t : Position) (ht : s.take event s.open_ = .ok t) : t.IgnoresText := by
    obtain ⟨p, -, rfl⟩ := map_eq_ok_iff.1 ht
    exact h
  cases piece with
  | text content =>
      obtain ⟨text', htext'⟩ := s.progress.onText_text .text content text
      exact .inr ⟨text', take_withText_of_map (.text content) htext' _, hsame _⟩
  | cdata content =>
      obtain ⟨text', htext'⟩ := s.progress.onText_text .cdata content text
      exact .inr ⟨text', take_withText_of_map (.cdata content) htext' _, hsame _⟩
  | reference content =>
      obtain ⟨text', htext'⟩ := s.progress.reference_text content text
      exact .inr ⟨text', take_withText_of_map (.reference content) htext' _, hsame _⟩
  | skipped =>
      refine .inr ⟨text, rfl, fun t ht => ?_⟩
      cases ht
      exact h
  | tag content =>
      simp only [advance]
      cases hkind : TagKind.ofContent content with
      | start tag =>
          exact .inl (take_withText_of_eq (.start tag) (s.progress.onStart_text tag text) _)
      | empty tag =>
          have htag := s.progress.onEmpty_text tag text
          exact .inr ⟨text, take_withText_of_map (.empty tag) htag _, hsame _⟩
      | close name =>
          cases hopen : s.open_ with
          | nil => exact .inl (by simp only [withText, hopen])
          | cons expected outer =>
              have hopen' : (s.withText text).open_ = expected :: outer := hopen
              simp only [hopen']
              by_cases hname : name = expected
              · rw [if_pos hname, if_pos hname]
                have hignores : ¬(Element.ofName (nameText name)).HoldsText :=
                  h name (by rw [hopen, hname]; rfl)
                exact .inl (take_withText_of_eq (.close name)
                  (s.progress.onClose_text hignores text) _)
              · rw [if_neg hname, if_neg hname]
                exact .inl rfl

/-- Other text in an element that ignores it changes nothing. -/
theorem read_withText {s : Position} (h : s.IgnoresText) (text : List Char) (bs : Bytes) :
    (s.withText text).read bs = s.read bs := by
  rw [read_eq_foldlM, read_eq_foldlM]
  generalize (pieces bs).items = items
  induction items generalizing s text with
  | nil => rfl
  | cons piece items ih =>
      rw [List.foldlM_cons, List.foldlM_cons]
      rcases advance_withText h piece text with heq | ⟨text', heq, hnext⟩
      · rw [heq]
      · rw [heq]
        cases hadvance : s.advance piece with
        | error fault => rfl
        | ok t => exact ih (hnext t hadvance) text'

end Position

/-! ### The two forms of an element -/

/-- An element without content, written as one tag. -/
def emptyTag (name attributes : Bytes) : Bytes := 0x3C :: (name ++ attributes ++ [0x2F, 0x3E])

/-- An element without content, written as a start and an end tag. -/
def tagPair (name attributes : Bytes) : Bytes :=
  0x3C :: (name ++ attributes ++ 0x3E :: 0x3C :: 0x2F :: (name ++ [0x3E]))

namespace Position

theorem read_emptyTag {name attributes : Bytes} (h : IsTag name attributes) (s : Position)
    (rest : Bytes) :
    s.read (emptyTag name attributes ++ rest)
      = (s.progress.onEmpty ⟨name, attributes⟩).bind fun p => read ⟨s.open_, p⟩ rest := by
  have hshape : emptyTag name attributes ++ rest
      = 0x3C :: (name ++ attributes ++ [0x2F] ++ 0x3E :: rest) := by simp [emptyTag]
  rw [hshape]
  exact readFrom_emptyTag h rest

theorem read_tagPair {name attributes : Bytes} (h : IsTag name attributes) (s : Position)
    (rest : Bytes) :
    s.read (tagPair name attributes ++ rest)
      = ((s.progress.onStart ⟨name, attributes⟩).bind (·.onClose name)).bind
          fun p => read ⟨s.open_, p⟩ rest := by
  have hshape : tagPair name attributes ++ rest
      = 0x3C :: (name ++ attributes ++ 0x3E :: 0x3C :: (0x2F :: (name ++ []) ++ 0x3E :: rest)) := by
    simp [tagPair]
  rw [hshape, read, readFrom_startTag h]
  cases s.progress.onStart ⟨name, attributes⟩ with
  | error fault => rfl
  | ok p => exact readFrom_endTag h (by simp) rfl rest

/-- The element is a correction that no other is open around, or a medium whose reference can be
read, and the text around it is not looked at later. -/
structure Indifferent (s : Position) (tag : Tag) : Prop where
  kind : Element.ofName (nameText tag.name) = .correction ∧ s.progress.correction? = none ∨
    Element.ofName (nameText tag.name) = .mediaRef ∧ ∃ ref?, attributeText? tag "ref" = .ok ref?
  text : s.progress.text = [] ∨ s.IgnoresText

/-- What the start and the end tag leave is `outcome` without its text, and the single tag leaves
`outcome` too, but for what it adds to an open decision. -/
structure TwoForms (p : Progress) (tag : Tag) (outcome : Except DocumentFault Progress) : Prop where
  pair : (p.onStart tag).bind (·.onClose tag.name) = outcome.map fun q => { q with text := [] }
  text : ∀ q, outcome = .ok q → q.text = p.text
  single : outcome.map Progress.withoutDecisions = (p.onEmpty tag).map Progress.withoutDecisions
  outside : p.decision? = none → outcome = p.onEmpty tag

section

variable {p : Progress} {tag : Tag}

/-- The end tag puts the correction into the open decision. -/
theorem twoForms_correction (hkind : Element.ofName (nameText tag.name) = .correction)
    (hcorrection : p.correction? = none) :
    TwoForms p tag ((attributeText? tag "id").map fun id? =>
      { p.pushCorrection { id? } with
        decision? := p.decision?.map fun d => { d with correction := { id? } } }) where
  pair := by
    simp only [Progress.onStart, Progress.onClose, hkind]
    cases attributeText? tag "id" with
    | error fault => rfl
    | ok id? =>
        simp [Except.map, Except.bind, Progress.finish, Progress.endCorrection,
          Progress.pushCorrection, hcorrection]
  text := by
    intro q hq
    obtain ⟨id?, -, rfl⟩ := map_eq_ok_iff.1 hq
    rfl
  single := by
    simp only [Progress.onEmpty, hkind]
    cases attributeText? tag "id" with
    | error fault => rfl
    | ok id? =>
        refine congrArg Except.ok ((p.pushCorrection { id? }).withoutDecisions_setDecision ?_)
        rw [Option.isSome_map]
        rfl
  outside := by
    intro hnone
    simp only [Progress.onEmpty, hkind, hnone]
    cases attributeText? tag "id" with
    | error fault => rfl
    | ok id? => simp [Except.map, Progress.pushCorrection, hnone]

/-- The single tag puts the medium into the open decision. -/
theorem twoForms_mediaRef (hkind : Element.ofName (nameText tag.name) = .mediaRef)
    {ref? : Option String} (href : attributeText? tag "ref" = .ok ref?) :
    TwoForms p tag (.ok p) where
  pair := by
    simp only [Progress.onStart, Progress.onClose, hkind]
    rfl
  text := by
    rintro q ⟨⟩
    rfl
  single := by
    simp only [Progress.onEmpty, hkind]
    cases hdecision : p.decision? with
    | none => rfl
    | some d =>
        rw [href]
        refine congrArg Except.ok (p.withoutDecisions_setDecision ?_).symm
        rw [hdecision]
        rfl
  outside := by
    intro hnone
    simp only [Progress.onEmpty, hkind, hnone]

end

/-- The two forms leave the same progress up to the text and the open decision, or fail alike. -/
theorem Indifferent.exists_twoForms {s : Position} {tag : Tag} (h : s.Indifferent tag) :
    ∃ outcome, TwoForms s.progress tag outcome := by
  rcases h.kind with ⟨hkind, hcorrection⟩ | ⟨hkind, ref?, href⟩
  · exact ⟨_, twoForms_correction hkind hcorrection⟩
  · exact ⟨_, twoForms_mediaRef hkind href⟩

/-- Where the forms leave the same progress but for the text, documents that go on in the same way
are read alike but for the decisions. -/
theorem read_forms {s : Position} {name attributes : Bytes} (htag : IsTag name attributes)
    (h : s.Indifferent ⟨name, attributes⟩) (rest : Bytes) :
    (s.read (emptyTag name attributes ++ rest)).map Document.withoutDecisions
        = (s.read (tagPair name attributes ++ rest)).map Document.withoutDecisions ∧
      (s.progress.decision? = none →
        s.read (emptyTag name attributes ++ rest) = s.read (tagPair name attributes ++ rest)) := by
  obtain ⟨outcome, hforms⟩ := h.exists_twoForms
  -- The text that only the single tag leaves is not looked at.
  have hpairRead : s.read (tagPair name attributes ++ rest)
      = outcome.bind fun p => read ⟨s.open_, p⟩ rest := by
    rw [read_tagPair htag, hforms.pair]
    cases hout : outcome with
    | error fault => rfl
    | ok p =>
        rcases h.text with htext | hignores
        · have hp : p.text = [] := (hforms.text p hout).trans htext
          change read ⟨s.open_, { p with text := [] }⟩ rest = read ⟨s.open_, p⟩ rest
          rw [← hp]
        · have hp : Position.IgnoresText ⟨s.open_, p⟩ := hignores
          exact read_withText hp [] rest
  rw [read_emptyTag htag, hpairRead]
  constructor
  · rcases map_eq_map_iff.1 hforms.single with ⟨fault, hout, hempty⟩ | ⟨p, q, hout, hempty, hpq⟩
    · rw [hout, hempty]
    · rw [hout, hempty]
      exact Progress.withoutDecisions_conclude hpq.symm _
  · intro hnone
    rw [hforms.outside hnone]

end Position

/-- Whichever form a correction or a medium without content is written in, the document yields the
same corrections, and where no decision is open also the same decisions. -/
theorem readCollection_forms {before name attributes : Bytes} {s : Position}
    (hbefore : Reaches before s) (htag : IsTag name attributes)
    (h : s.Indifferent ⟨name, attributes⟩) (after : Bytes) :
    Document.readCorrection (before ++ emptyTag name attributes ++ after)
        = Document.readCorrection (before ++ tagPair name attributes ++ after) ∧
      Document.readCollection (before ++ emptyTag name attributes ++ after)
        = Document.readCollection (before ++ tagPair name attributes ++ after) ∧
      (s.progress.decision? = none →
        Document.readDecisions (before ++ emptyTag name attributes ++ after)
          = Document.readDecisions (before ++ tagPair name attributes ++ after)) := by
  have hempty : Document.read (before ++ emptyTag name attributes ++ after)
      = s.read (emptyTag name attributes ++ after) := by
    rw [List.append_assoc]
    exact hbefore.read_eq _
  have hpair : Document.read (before ++ tagPair name attributes ++ after)
      = s.read (tagPair name attributes ++ after) := by
    rw [List.append_assoc]
    exact hbefore.read_eq _
  obtain ⟨hdocument, hsame⟩ := Position.read_forms htag h after
  have halike := hempty ▸ hpair ▸ hdocument
  refine ⟨Document.readCorrection_congr halike, Document.readCollection_congr halike, fun hnone => ?_⟩
  rw [Document.readDecisions, Document.readDecisions, hempty, hpair, hsame hnone]

theorem readCollection_forms_collection :
    let before := ascii "<ColorCorrectionCollection>"
    let name := ascii "ColorCorrection"
    let attributes := ascii " id=\"a\""
    let after := ascii "</ColorCorrectionCollection>"
    Document.readCorrection (before ++ emptyTag name attributes ++ after)
        = Document.readCorrection (before ++ tagPair name attributes ++ after) ∧
      Document.readCollection (before ++ emptyTag name attributes ++ after)
        = Document.readCollection (before ++ tagPair name attributes ++ after) ∧
      Document.readDecisions (before ++ emptyTag name attributes ++ after)
        = Document.readDecisions (before ++ tagPair name attributes ++ after) := by
  intro before name attributes after
  have hreach := Reaches.nil.start isName_collection.isTagName.isTag_nil
    (onStart_of_ne isName_collection (by decide) (by decide))
  have htag : IsTag name attributes := isName_correction.isTagName.isTag rfl rfl (by decide)
  have hkind : Element.ofName (nameText name) = .correction :=
    congrArg Element.ofName isName_correction.nameText_toList
  have h := readCollection_forms hreach htag ⟨.inl ⟨hkind, rfl⟩, .inl rfl⟩ after
  exact ⟨h.1, h.2.1, h.2.2 rfl⟩

/-- After the end of a decision and of the list around it, the document holds the decision. -/
theorem read_decisionEnd {p : Progress} {d : Decision} (hd : p.decision? = some d)
    (hpath : p.path = ["ColorDecision", "ColorDecisionList"]) :
    Position.read ⟨[encode "ColorDecision".toList, encode "ColorDecisionList".toList], p⟩
        (ascii "</ColorDecision></ColorDecisionList>")
      = .ok { p.document with decisions := p.document.decisions ++ [d] } := by
  have hlist : IsName "ColorDecisionList".toList := isName_of_ofName (by decide)
  have hdecision : IsName "ColorDecision".toList := isName_of_ofName (by decide)
  have hend : ascii "</ColorDecision></ColorDecisionList>"
      = encode ('<' :: '/' :: ("ColorDecision".toList
        ++ '>' :: '<' :: '/' :: ("ColorDecisionList".toList ++ ['>']))) := by decide +kernel
  have hfinish : p.finish (.ofName "ColorDecision") = .ok p.endDecision := rfl
  rw [hend, Position.read, readFrom_close hdecision, onClose_encode hdecision, hfinish]
  change readFrom _ p.endDecision.leave _ = _
  rw [readFrom_close hlist, onClose_encode hlist]
  change readFrom _ p.endDecision.leave.leave _ = _
  simp [Progress.endDecision, hd, readFrom_nil, Progress.leave, hpath]

/-- The correction of a decision is found if it is written as a start and an end tag, and not if it
is written as one tag. -/
theorem decision_forms_differ :
    let before := ascii "<ColorDecisionList><ColorDecision>"
    let name := ascii "ColorCorrection"
    let attributes := ascii " id=\"a\""
    let after := ascii "</ColorDecision></ColorDecisionList>"
    (Document.readDecisions (before ++ emptyTag name attributes ++ after)).map (·.find? "a")
        = .ok none ∧
      (Document.readDecisions (before ++ tagPair name attributes ++ after)).map (·.find? "a")
        = .ok (some { id? := some "a" }) := by
  intro before name attributes after
  have hlist : IsName "ColorDecisionList".toList := isName_of_ofName (by decide)
  have hdecision : IsName "ColorDecision".toList := isName_of_ofName (by decide)
  have hdecisionKind : Element.ofName (nameText (encode "ColorDecision".toList)) = .decision :=
    congrArg Element.ofName hdecision.nameText_toList
  have hkind : Element.ofName (nameText name) = .correction :=
    congrArg Element.ofName isName_correction.nameText_toList
  have hreach := (Reaches.nil.start hlist.isTagName.isTag_nil
    (onStart_of_ne hlist (by decide) (by decide))).start hdecision.isTagName.isTag_nil
      (onStart_decision hdecisionKind)
  have htag : IsTag name attributes := isName_correction.isTagName.isTag rfl rfl (by decide)
  have hid : attributeText? ⟨name, attributes⟩ "id" = .ok (some "a") := attributeText?_escape name "a"
  have hempty := hreach.read_eq (name ++ attributes ++ [0x2F, 0x3E] ++ after)
  have hpair := hreach.read_eq
    (name ++ attributes ++ 0x3E :: 0x3C :: 0x2F :: (name ++ [0x3E]) ++ after)
  constructor
  · have hread : Document.read (before ++ emptyTag name attributes ++ after) = .ok
        { corrections := [{ id? := some "a" }], decisions := [{}] } := by
      rw [List.append_assoc]
      refine hempty.trans ?_
      refine (Position.read_emptyTag htag _ after).trans ?_
      simp only [Progress.onEmpty, hkind, hid]
      exact read_decisionEnd rfl (congrArg (· :: _) hdecision.nameText_toList)
    rw [Document.readDecisions, hread]
    rfl
  · have hread : Document.read (before ++ tagPair name attributes ++ after) = .ok
        { corrections := [{ id? := some "a" }],
          decisions := [{ correction := { id? := some "a" } }] } := by
      rw [List.append_assoc]
      refine hpair.trans ?_
      refine (Position.read_tagPair htag _ after).trans ?_
      rw [onStart_correction hkind, hid]
      change ((Progress.onClose _ (encode "ColorCorrection".toList)).bind _) = _
      rw [onClose_encode isName_correction]
      exact read_decisionEnd rfl (congrArg (· :: _) hdecision.nameText_toList)
    rw [Document.readDecisions, hread]
    rfl

end ColorChain.Record
