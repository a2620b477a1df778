import ColorChain.Proofs.Record.Collected

/-!
# One pass and the tree

One pass over the events of a document reads what its tree holds. The end of each element adds the
element and what is in it; from one element after another the pass collects the elements of the
whole content.
-/

namespace ColorChain.Record

open Markup Text

/-! ### The end of an element -/

namespace Progress

/-- What the innermost element stands for. -/
def innermost (p : Progress) : Element :=
  match p.path with
  | name :: _ => .ofName name
  | [] => .other

theorem finish_of_plain {element : Element} (hcorrection : element ≠ .correction)
    (hdecision : element ≠ .decision) (htext : ¬element.HoldsText) (p : Progress) :
    p.finish element = .ok p := by
  cases element with
  | correction => exact absurd rfl hcorrection
  | decision => exact absurd rfl hdecision
  | setting | description | inputDescription | viewingDescription => exact absurd trivial htext
  | _ => rfl

section

variable {p : Progress} {name : List Char} {attributes : List Attribute} {inner : Content}

theorem begin_eq_enter (hcorrection : Element.ofTagName name ≠ .correction)
    (hdecision : Element.ofTagName name ≠ .decision) :
    p.begin name attributes = p.enter (String.ofList (localPart name)) := by
  simp only [begin]

/-- An element that is no record, no setting and no remark adds what is in it. -/
theorem finish_plain (hcorrection : Element.ofTagName name ≠ .correction)
    (hdecision : Element.ofTagName name ≠ .decision)
    (htext : ¬(Element.ofTagName name).HoldsText) (text : List Char) :
    let n : Node := ⟨p.innermost, .ofTagName name, attributes, inner⟩
    (((p.begin name attributes).after n.descendants text).finish n.kind).map (·.leave)
      = .ok (p.after (n :: n.descendants) []) := by
  intro n
  have hremark : n.remark? = none := Node.remark?_eq_none htext
  have hsetting (setting : Setting) : n.kind ≠ .setting setting := by
    intro h
    have htext' : ¬n.kind.HoldsText := htext
    rw [h] at htext'
    exact htext' trivial
  have hcorrections : correctionsOf (n :: n.descendants) = _ := correctionsOf_cons_of_ne hcorrection
  have hdecisions : decisionsOf (n :: n.descendants) = _ := decisionsOf_cons_of_ne hdecision
  rw [finish_of_plain hcorrection hdecision htext, begin_eq_enter hcorrection hdecision]
  simp [Except.map, after, leave, enter, Document.after, Decision.after, Correction.after,
    Notes.after_cons hremark, textsOf_directlyIn_cons hremark, gradeAfter_cons hsetting,
    hcorrections, hdecisions]

/-- A correction adds itself, and what is in it adds to what is around it. -/
theorem finish_correction (hkind : Element.ofTagName name = .correction)
    (hopen : p.correction? = none)
    (h : ∀ m ∈ nodes (.ofTagName name) inner, m.kind ≠ .correction) (text : List Char) :
    let n : Node := ⟨p.innermost, .ofTagName name, attributes, inner⟩
    (((p.begin name attributes).after n.descendants text).finish n.kind).map (·.leave)
      = .ok (p.after (n :: n.descendants) []) := by
  intro n
  have hn : n.kind = .correction := hkind
  have hremark : n.remark? = none := Node.remark?_eq_none (by rw [hn]; exact id)
  have hcorrection :
      n.correction = ({ id? := attributeValue? attributes "id" } : Correction).after n.descendants :=
    Node.correction_eq_after hkind h
  have hinside : correctionsOf n.descendants = [] := correctionsOf_eq_nil h
  have hcorrections : correctionsOf (n :: n.descendants) = [n.correction] := by
    have hsplit := correctionsOf_append [n] n.descendants
    rw [hinside] at hsplit
    simpa [correctionsOf, hn] using hsplit
  have hdecisions : decisionsOf (n :: n.descendants) = decisionsOf n.descendants :=
    decisionsOf_cons_of_ne (by rw [hn]; simp)
  simp only [begin, hkind, hn, finish]
  simp [Except.map, after, leave, enter, Document.after, Decision.after, endCorrection,
    pushCorrection, hopen, Notes.after_cons hremark, hcorrections, hdecisions, hinside,
    ← hcorrection, Function.comp_def]

/-- A decision adds itself, and what is in it adds to what is around it. -/
theorem finish_decision (hkind : Element.ofTagName name = .decision) (hopen : p.decision? = none)
    (h : ∀ m ∈ nodes (.ofTagName name) inner, m.kind ≠ .decision) (text : List Char) :
    let n : Node := ⟨p.innermost, .ofTagName name, attributes, inner⟩
    (((p.begin name attributes).after n.descendants text).finish n.kind).map (·.leave)
      = .ok (p.after (n :: n.descendants) []) := by
  intro n
  have hn : n.kind = .decision := hkind
  have hremark : n.remark? = none := Node.remark?_eq_none (by rw [hn]; exact id)
  have hdecision : n.decision = ({} : Decision).after n.descendants :=
    Node.decision_eq_after hkind h
  have hinside : decisionsOf n.descendants = [] := decisionsOf_eq_nil h
  have hdecisions : decisionsOf (n :: n.descendants) = [n.decision] := by
    have hsplit := decisionsOf_append [n] n.descendants
    rw [hinside] at hsplit
    simpa [decisionsOf, hn] using hsplit
  have hcorrections : correctionsOf (n :: n.descendants) = correctionsOf n.descendants :=
    correctionsOf_cons_of_ne (by rw [hn]; simp)
  have hsetting (setting : Setting) : n.kind ≠ .setting setting := by rw [hn]; simp
  simp only [begin, hkind, hn, finish]
  simp [Except.map, after, leave, enter, Document.after, Correction.after, endDecision, hopen,
    Notes.after_cons hremark, textsOf_directlyIn_cons hremark, gradeAfter_cons hsetting,
    hcorrections, hdecisions, hinside, ← hdecision]

theorem parent_of_path {q : Progress} {element : String} (h : q.path = element :: p.path) :
    q.parent = p.innermost := by
  unfold parent innermost
  rw [h]
  cases p.path <;> rfl

/-- A remark adds itself to the record that is directly around it. -/
theorem finish_remark {kind : NoteKind} {text : List Char}
    (hremark : Node.remark? ⟨p.innermost, .ofTagName name, attributes, inner⟩
      = some (kind, String.ofList text)) :
    let n : Node := ⟨p.innermost, .ofTagName name, attributes, inner⟩
    (({ p.begin name attributes with text := text } : Progress).finish n.kind).map (·.leave)
      = .ok (p.after [n] []) := by
  intro n
  have hkind : n.kind = kind.element := Node.kind_of_remark? hremark
  have hcorrection : n.kind ≠ .correction := by rw [hkind]; cases kind <;> simp [NoteKind.element]
  have hdecision : n.kind ≠ .decision := by rw [hkind]; cases kind <;> simp [NoteKind.element]
  have hsetting (setting : Setting) : n.kind ≠ .setting setting := by
    rw [hkind]
    cases kind <;> simp [NoteKind.element]
  have hbegin : p.begin name attributes = _ := begin_eq_enter hcorrection hdecision
  have hfinish (q : Progress) : q.finish n.kind = .ok (q.addNote kind q.parent) := by
    rw [hkind]
    cases kind <;> rfl
  have hcorrections : correctionsOf [n] = [] := correctionsOf_cons_of_ne hcorrection
  have hdecisions : decisionsOf [n] = [] := decisionsOf_cons_of_ne hdecision
  have hgrade (grade : Grade Float) : gradeAfter grade [n] = grade := by
    rw [gradeAfter_cons hsetting]
    simp [gradeAfter, triplesOf, saturationsOf]
  have htexts : textsOf .description [n]
      = if kind = .description then [String.ofList text] else [] := by
    have hremark' : n.remark? = some (kind, String.ofList text) := hremark
    by_cases hdescription : kind = .description <;> simp [textsOf, hremark', hdescription]
  have hnotes (notes : Notes) : notes.after [n] = notes.add kind (String.ofList text) :=
    Notes.after_singleton hremark notes
  have hdirectly (owner : Element) :
      directlyIn owner [n] = if p.innermost = owner then [n] else [] := by
    by_cases howner : p.innermost = owner <;> simp [directlyIn, n, howner]
  rw [hfinish, parent_of_path (p := p) (by rw [hbegin]; rfl), hbegin]
  refine congrArg Except.ok ?_
  -- Only the owner is different after it.
  cases howner : p.innermost with
  | tone =>
      by_cases hdescription : kind = .description <;>
        simp [addNote, after, leave, enter, Document.after, Decision.after, Correction.after,
          hdirectly, howner, hcorrections, hdecisions, hgrade, htexts, hdescription]
  | _ =>
      simp [addNote, after, leave, enter, Document.after, Decision.after, Correction.after,
        hdirectly, howner, hcorrections, hdecisions, hgrade, hnotes, textsOf_nil]

/-- A setting adds itself to the correction around it, if there is one. -/
theorem finish_setting {setting : Setting} (hkind : Element.ofTagName name = .setting setting) :
    let n : Node := ⟨p.innermost, .ofTagName name, attributes, inner⟩
    Yields ((({ p.begin name attributes with text := n.text } : Progress).finish n.kind).map (·.leave))
      (p.correction?.isSome → n.Readable) (p.after [n] []) := by
  intro n
  have hn : n.kind = .setting setting := hkind
  have hremark : n.remark? = none := by simp only [Node.remark?, hn]
  have hcorrections : correctionsOf [n] = [] := correctionsOf_cons_of_ne (by rw [hn]; simp)
  have hdecisions : decisionsOf [n] = [] := decisionsOf_cons_of_ne (by rw [hn]; simp)
  have hbegin : p.begin name attributes = _ :=
    begin_eq_enter (by rw [hkind]; simp) (by rw [hkind]; simp)
  have hnone (owner : Element) (notes : Notes) : notes.after (directlyIn owner [n]) = notes := by
    rw [Notes.after_cons hremark]
    exact notes.after_nil
  have htexts (kind : NoteKind) (owner : Element) : textsOf kind (directlyIn owner [n]) = [] :=
    textsOf_directlyIn_cons hremark kind owner
  rw [hbegin, hn]
  cases hcorrection : p.correction? with
  | none =>
      refine Yields.of_ok ?_ nofun
      simp [finish, Except.map, after, leave, enter, Document.after, Decision.after, hcorrection,
        hcorrections, hdecisions, hnone]
  | some c =>
      have hafter : p.after [n] [] = ({ p with
          correction? := some { c with grade := gradeAfter c.grade [n] }
          text := [] } : Progress) := by
        simp [after, Document.after, Decision.after, Correction.after, hcorrection, hcorrections,
          hdecisions, hnone, htexts]
      have hfinish : ((({ p.enter (String.ofList (localPart name)) with text := n.text } :
            Progress).finish (.setting setting)).map (·.leave))
          = (readSetting setting n.text c.grade).map fun grade =>
            ({ p with correction? := some { c with grade }, text := [] } : Progress) := by
        simp only [finish, enter, hcorrection]
        cases readSetting setting n.text c.grade <;> rfl
      rw [hfinish, hafter]
      exact (readSetting_yields hn c.grade).map.congr ⟨fun h _ => h, fun h => h rfl⟩

/-- The end of an element adds the element and what is in it, unless it is a setting of an open
correction that cannot be read. -/
theorem finish_yields
    (hcorrection : Element.ofTagName name = .correction →
      p.correction? = none ∧ ∀ m ∈ nodes (.ofTagName name) inner, m.kind ≠ .correction)
    (hdecision : Element.ofTagName name = .decision →
      p.decision? = none ∧ ∀ m ∈ nodes (.ofTagName name) inner, m.kind ≠ .decision)
    (htext : (Element.ofTagName name).HoldsText → inner.IsText) :
    let n : Node := ⟨p.innermost, .ofTagName name, attributes, inner⟩
    Yields ((((p.begin name attributes).after n.descendants (inner.trailingText [])).finish
        n.kind).map (·.leave))
      (p.correction?.isSome → n.Readable) (p.after (n :: n.descendants) []) := by
  intro n
  -- An element that is read from its text has no other element in it.
  have hleaf (h : (Element.ofTagName name).HoldsText) :
      n.descendants = [] ∧ inner.trailingText [] = n.text :=
    ⟨nodes_eq_nil_of_isText (htext h), (htext h).trailingText_eq []⟩
  have hremark {kind : NoteKind} (h : n.remark? = some (kind, String.ofList n.text))
      (hholds : (Element.ofTagName name).HoldsText) :
      Yields ((((p.begin name attributes).after n.descendants (inner.trailingText [])).finish
          n.kind).map (·.leave))
        (p.correction?.isSome → n.Readable) (p.after (n :: n.descendants) []) := by
    rw [(hleaf hholds).1, (hleaf hholds).2, after_nil]
    refine Yields.of_ok (finish_remark h) fun _ => Node.readable_of_ne fun setting hsetting => ?_
    rw [Node.remark?, hsetting] at h
    cases h
  cases hkind : Element.ofTagName name with
  | correction =>
      obtain ⟨hopen, hinside⟩ := hcorrection hkind
      refine Yields.of_ok (finish_correction hkind hopen hinside _) fun h => ?_
      rw [hopen] at h
      cases h
  | decision =>
      obtain ⟨hopen, hinside⟩ := hdecision hkind
      refine Yields.of_ok (finish_decision hkind hopen hinside _) fun _ =>
        Node.readable_of_ne fun setting h => ?_
      cases hkind.symm.trans h
  | setting setting =>
      have hholds : (Element.ofTagName name).HoldsText := by rw [hkind]; trivial
      rw [(hleaf hholds).1, (hleaf hholds).2, after_nil]
      exact finish_setting hkind
  | description | inputDescription | viewingDescription =>
      exact hremark (by simp only [Node.remark?, n, hkind]; rfl) (by rw [hkind]; trivial)
  | _ =>
      refine Yields.of_ok (finish_plain (by rw [hkind]; simp) (by rw [hkind]; simp)
        (by rw [hkind]; exact id) _) fun _ => Node.readable_of_ne fun setting h => ?_
      cases hkind.symm.trans h

end

end Progress

/-! ### The whole content -/

/-- The settings among the elements that are in a correction hold as many numbers as they should,
also in the correction that is open around all of them if there is one. -/
def CanRead (inside : Bool) (ns : List Node) : Prop :=
  (inside = true → ∀ n ∈ ns, n.Readable) ∧ Readable ns

/-- No correction is among the elements if one is open around them, and so for decisions. -/
structure Admits (inCorrection inDecision : Bool) (ns : List Node) : Prop where
  flat : Flat ns
  correction : inCorrection = true → ∀ n ∈ ns, n.kind ≠ .correction
  decision : inDecision = true → ∀ n ∈ ns, n.kind ≠ .decision

section

variable {inCorrection inDecision : Bool} {n : Node} {ns : List Node}

theorem Flat.of_subset {ms : List Node} (h : Flat ns) (hsub : ∀ n ∈ ms, n ∈ ns) : Flat ms where
  correction n hn := h.correction n (hsub n hn)
  decision n hn := h.decision n (hsub n hn)
  isText n hn := h.isText n (hsub n hn)

/-- What is admitted around an element is admitted in it, with the element open. -/
theorem Admits.inner (h : Admits inCorrection inDecision (n :: (n.descendants ++ ns))) :
    Admits (decide (n.kind = .correction) || inCorrection)
      (decide (n.kind = .decision) || inDecision) n.descendants where
  flat := h.flat.of_subset fun _ hm => List.mem_cons_of_mem n (List.mem_append_left ns hm)
  correction hopen m hm := by
    rw [Bool.or_eq_true, decide_eq_true_iff] at hopen
    rcases hopen with hn | hopen
    · exact h.flat.correction n List.mem_cons_self hn m hm
    · exact h.correction hopen m (List.mem_cons_of_mem n (List.mem_append_left ns hm))
  decision hopen m hm := by
    rw [Bool.or_eq_true, decide_eq_true_iff] at hopen
    rcases hopen with hn | hopen
    · exact h.flat.decision n List.mem_cons_self hn m hm
    · exact h.decision hopen m (List.mem_cons_of_mem n (List.mem_append_left ns hm))

theorem Admits.rest (h : Admits inCorrection inDecision (n :: (n.descendants ++ ns))) :
    Admits inCorrection inDecision ns where
  flat := h.flat.of_subset fun _ hm => List.mem_cons_of_mem n (List.mem_append_right _ hm)
  correction hopen _ hm := h.correction hopen _ (List.mem_cons_of_mem n (List.mem_append_right _ hm))
  decision hopen _ hm := h.decision hopen _ (List.mem_cons_of_mem n (List.mem_append_right _ hm))

/-- Elements can be read if what is in the first can, the first itself, and what is after it. -/
theorem canRead_iff : CanRead inCorrection (n :: (n.descendants ++ ns)) ↔
    CanRead (decide (n.kind = .correction) || inCorrection) n.descendants ∧
      (inCorrection = true → n.Readable) ∧ CanRead inCorrection ns := by
  simp only [CanRead, Readable, List.forall_mem_cons, List.forall_mem_append, Bool.or_eq_true,
    decide_eq_true_iff]
  tauto

end

namespace Progress

section

variable {p : Progress} {name : List Char} {attributes : List Attribute}

theorem isSome_correction_begin : (p.begin name attributes).correction?.isSome
    = (decide (Element.ofTagName name = .correction) || p.correction?.isSome) := by
  unfold begin
  cases Element.ofTagName name <;> simp [enter]

theorem isSome_decision_begin : (p.begin name attributes).decision?.isSome
    = (decide (Element.ofTagName name = .decision) || p.decision?.isSome) := by
  unfold begin
  cases Element.ofTagName name <;> simp [enter]

/-- An element begins, takes in its content and ends before what follows it. -/
theorem absorb_element (inner rest : Content) :
    p.absorb (.element name attributes inner rest)
      = ((p.begin name attributes).absorb inner).bind fun q =>
        ((q.finish (.ofTagName name)).map (·.leave)).bind (·.absorb rest) := by
  rw [absorb]
  congr 1
  funext q
  cases q.finish _ <;> rfl

end

/-- After a content the progress has what its elements add. -/
theorem absorb_yields (c : Content) (p : Progress)
    (h : Admits p.correction?.isSome p.decision?.isSome (nodes p.innermost c)) :
    Yields (p.absorb c) (CanRead p.correction?.isSome (nodes p.innermost c))
      (p.after (nodes p.innermost c) (c.trailingText p.text)) := by
  induction c generalizing p with
  | nil =>
      refine Yields.of_ok ?_ ⟨fun _ _ hn => (List.not_mem_nil hn).elim,
        fun _ hn => (List.not_mem_nil hn).elim⟩
      rw [nodes, after_nil]
      rfl
  | text cs rest ih => exact ih { p with text := p.text ++ cs } h
  | element name attributes inner rest ihInner ihRest =>
      let n : Node := ⟨p.innermost, .ofTagName name, attributes, inner⟩
      change Admits _ _ (n :: (n.descendants ++ nodes p.innermost rest)) at h
      have hn : n ∈ n :: (n.descendants ++ nodes p.innermost rest) := List.mem_cons_self
      have hinner := ihInner (p.begin name attributes) (by
        rw [isSome_correction_begin, isSome_decision_begin]
        exact h.inner)
      rw [isSome_correction_begin] at hinner
      have hfinish : Yields _ (p.correction?.isSome → n.Readable) (p.after (n :: n.descendants) []) :=
        finish_yields
          (fun hkind => ⟨by simpa using mt h.correction fun hnone => hnone n hn hkind,
            h.flat.correction n hn hkind⟩)
          (fun hkind => ⟨by simpa using mt h.decision fun hnone => hnone n hn hkind,
            h.flat.decision n hn hkind⟩)
          (h.flat.isText n hn)
      have hrest := ihRest (p.after (n :: n.descendants) []) (by
        simp only [after, Option.isSome_map]
        exact h.rest)
      have hsame : (p.after (n :: n.descendants) []).correction?.isSome = p.correction?.isSome :=
        Option.isSome_map
      rw [hsame] at hrest
      have hcontent : p.after (n :: (n.descendants ++ nodes p.innermost rest)) (rest.trailingText [])
          = (p.after (n :: n.descendants) []).after (nodes p.innermost rest) (rest.trailingText []) :=
        after_append (n :: n.descendants) _ p [] _
      rw [absorb_element]
      change Yields _ (CanRead _ (n :: (n.descendants ++ nodes p.innermost rest)))
        (p.after (n :: (n.descendants ++ nodes p.innermost rest)) (rest.trailingText []))
      rw [hcontent]
      have hcondition : CanRead p.correction?.isSome
          (n :: (n.descendants ++ nodes p.innermost rest)) ↔ _ := canRead_iff
      exact (hinner.bind fun _ => hfinish.bind fun _ => hrest).congr hcondition.symm

end Progress

/-! ### The whole document -/

/-- A document is read exactly if its settings can be, and then as the records in its tree. -/
theorem read_yields {bs : Bytes} {c : Content} (h : IsDocument bs c) (hflat : Flat (nodes .other c)) :
    Yields (Document.read bs) (Readable (nodes .other c)) (documentOf c) := by
  obtain ⟨written, hbytes, hspells⟩ := h
  have habsorb := Progress.absorb_yields c {} ⟨hflat, nofun, nofun⟩
  have hread : Document.read bs = (({} : Progress).absorb c).bind fun p => readFrom [] p [] := by
    have hcontent : readFrom [] {} (encode (written ++ [])) = _ := readFrom_content hspells []
    rw [List.append_nil] at hcontent
    rw [read_eq_readFrom, hbytes, hcontent]
    rfl
  have hend : ∀ text, Yields (readFrom [] (({} : Progress).after (nodes .other c) text) []) True
      (documentOf c) := by
    intro text
    refine Yields.of_ok ?_ trivial
    rw [readFrom_nil rfl]
    simp [Progress.after, Document.after, documentOf, Notes.after, notesOf]
  rw [hread]
  refine (habsorb.bind fun _ => hend _).congr ?_
  simp [CanRead, Progress.innermost]

def Decision.withoutMedia (d : Decision) : Decision := { d with mediaRef? := none }

/-- The document without the media of its decisions. -/
def Document.withoutMedia (d : Document) : Document :=
  { d with decisions := d.decisions.map Decision.withoutMedia }

/-- One pass over a document reads what its tree holds. -/
theorem read_eq_documentOf {bs : Bytes} {c : Content} (h : IsDocument bs c)
    (hflat : Flat (nodes .other c)) :
    ((∃ d, Document.read bs = .ok d) ↔ Readable (nodes .other c)) ∧
      ∀ d, Document.read bs = .ok d → d.withoutMedia = documentOf c := by
  have hread := read_yields h hflat
  refine ⟨hread.exists_iff, fun d hd => ?_⟩
  rw [hread.eq_of_ok hd]
  simp [Document.withoutMedia, documentOf, decisionsOf, Node.decision, Decision.withoutMedia,
    Function.comp_def]

theorem read_eq_documentOf_description :
    let bs := ascii "<ColorCorrection id=\"a\"><Description>x&amp;y</Description></ColorCorrection>"
    (∃ d, Document.read bs = .ok d) ∧ ∀ d, Document.read bs = .ok d →
      d.withoutMedia
        = { corrections := [{ id? := some "a", notes := { descriptions := ["x&y"] } }] } := by
  intro bs
  let remark : Content := .element "Description".toList [] (.text ['x', '&', 'y'] .nil) .nil
  let c : Content := .element "ColorCorrection".toList [⟨"id".toList, ['a']⟩] remark .nil
  have hremark : IsName "Description".toList := isName_of_ofName (by decide)
  have hkey : IsName "id".toList := isName_key (by simp)
  have hid : SpellsText ['<', '&', '"'] ['a'] ['a'] := .plain (by decide) .nil
  have htext : SpellsText ['<', '&'] ['x', '&', 'y']
      ('x' :: '&' :: (['a', 'm', 'p'] ++ ';' :: ['y'])) :=
    .plain (by decide) (.reference (.named rfl) (.plain (by decide) .nil))
  have hspace : IsBlank [' '] := by simp [IsBlank, spaces]
  have hnone : IsBlank [] := by simp [IsBlank]
  have hattributes : SpellsAttributes [⟨"id".toList, ['a']⟩]
      ([' '] ++ "id".toList ++ [] ++ '=' :: [] ++ '"' :: ['a'] ++ '"' :: []) :=
    .cons (by simp) hspace hkey.isTagName hnone hnone (.inl rfl) hid (by simp) (.nil hnone)
  have hdocument : IsDocument bs c := by
    refine ⟨_, ?_, .element isName_correction.isTagName hattributes
      (.element hremark.isTagName (.nil hnone) (.text htext .nil) hnone .nil) hnone .nil⟩
    decide +kernel
  have hflat : Flat (nodes .other c) := by
    constructor
    · decide
    · decide
    · intro n hn hholds
      simp only [c, remark, nodes, List.mem_cons, List.mem_append, List.not_mem_nil, or_false] at hn
      rcases hn with rfl | rfl
      · exact absurd hholds id
      · trivial
  have hreadable : Readable (nodes .other c) := by
    intro n hn hkind m hm
    simp only [c, remark, nodes, List.mem_cons, List.mem_append, List.not_mem_nil, or_false] at hn
    rcases hn with rfl | rfl
    · simp only [Node.descendants, nodes, List.append_nil, List.mem_singleton] at hm
      rw [hm]
      trivial
    · cases hkind
  obtain ⟨hiff, heq⟩ := read_eq_documentOf hdocument hflat
  refine ⟨hiff.2 hreadable, fun d hd => ?_⟩
  rw [heq d hd]
  rfl

end ColorChain.Record
