import ColorChain.Proofs.Record.Within
import Mathlib.Data.List.Perm.Basic

/-!
# Documents gathered in one

Documents that can be read on their own may be put one after another into the element of a collection.
The corrections and the decisions of the whole are those of the parts in order: whatever the parts
hold, no record of one has an effect on a record of another.
-/

namespace ColorChain.Record

open Markup Text

namespace Document

/-- The corrections of a document, none if it cannot be read. -/
def correctionsIn (bs : Bytes) : List Correction :=
  match readCollection bs with
  | .ok c => c.corrections
  | .error _ => []

/-- The decisions of a document, none if it cannot be read. -/
def decisionsIn (bs : Bytes) : List Decision :=
  match readDecisions bs with
  | .ok l => l.decisions
  | .error _ => []

/-- The document that has the given documents one after another in the element of a collection, with
`blanks` around each. -/
def gathered (blanks : Bytes) (fragments : List Bytes) : Bytes :=
  ascii "<ColorCorrectionCollection>" ++ blanks ++ fragments.flatMap (· ++ blanks)
    ++ ascii "</ColorCorrectionCollection>"

/-- The records of documents in order. -/
def collected (fragments : List Bytes) : Document where
  corrections := fragments.flatMap correctionsIn
  decisions := fragments.flatMap decisionsIn

/-- A document with the records of another after its own. -/
def followedBy (before d : Document) : Document :=
  { before with
    corrections := before.corrections ++ d.corrections
    decisions := before.decisions ++ d.decisions }

theorem followedBy_collected_nil (before : Document) :
    before.followedBy (collected []) = before := by
  simp [followedBy, collected]

theorem followedBy_collected_cons {f : Bytes} {d : Document} (h : read f = .ok d)
    (before : Document) (fragments : List Bytes) :
    (before.followedBy d).followedBy (collected fragments)
      = before.followedBy (collected (f :: fragments)) := by
  have hcorrections : correctionsIn f = d.corrections := by
    rw [correctionsIn, readCollection, h]
    rfl
  have hdecisions : decisionsIn f = d.decisions := by
    rw [decisionsIn, readDecisions, h]
    rfl
  simp [followedBy, collected, hcorrections, hdecisions]

end Document

/-! ### Bytes around documents -/

theorem decode_blanks {blanks : Bytes} (h : ∀ b ∈ blanks, isSpace b) :
    ∃ cs, decode blanks = .ok cs := by
  induction blanks with
  | nil => exact ⟨[], decode_encode []⟩
  | cons b blanks ih =>
      obtain ⟨cs, hcs⟩ := ih fun x hx => h x (List.mem_cons_of_mem b hx)
      have hb : ∃ c, decode [b] = .ok [c] := by
        have hspace := h b List.mem_cons_self
        simp only [isSpace, Bool.or_eq_true, beq_iff_eq] at hspace
        rcases hspace with ((rfl | rfl) | rfl) | rfl
        exacts [⟨' ', decode_encode [' ']⟩, ⟨'\t', decode_encode ['\t']⟩,
          ⟨'\r', decode_encode ['\r']⟩, ⟨'\n', decode_encode ['\n']⟩]
      obtain ⟨c, hc⟩ := hb
      exact ⟨[c] ++ cs, decode_append hc hcs⟩

theorem isPlain_of_isSpace {b : UInt8} (h : isSpace b) : isPlain b := by
  simp only [isSpace, Bool.or_eq_true, beq_iff_eq] at h
  rcases h with ((rfl | rfl) | rfl) | rfl <;> rfl

/-- A document is a byte order mark, if it has one, and what is read of it. -/
theorem exists_mark (bs : Bytes) :
    ∃ mark cs, bs = mark ++ dropByteOrderMark bs ∧ (∀ b ∈ mark, isPlain b) ∧
      decode mark = .ok cs := by
  rw [dropByteOrderMark]
  split
  · next hprefix =>
    obtain ⟨rest, rfl⟩ := List.isPrefixOf_iff_prefix.1 hprefix
    have hmark : ∀ b ∈ byteOrderMark, isPlain b := by simp [byteOrderMark, isPlain]
    exact ⟨byteOrderMark, [Char.ofNat 0xFEFF], rfl, hmark, decode_encode [Char.ofNat 0xFEFF]⟩
  · exact ⟨[], [], rfl, by simp, decode_encode []⟩

namespace Position.Within

variable {outer : Bytes} {before : Document} {s t : Position}

/-- Text that no inner element holds may be added. -/
theorem withText (h : Within outer before {} t) (text : List Char) :
    Within outer before {} (t.withText text) where
  open_eq := h.open_eq
  path_eq := h.path_eq
  follows := h.follows.enter _ _ _ _
  text_eq hne := absurd rfl hne

theorem plain (h : Within outer before {} t) {bs : Bytes} {cs : List Char}
    (hbs : ∀ b ∈ bs, isPlain b) (hcs : decode bs = .ok cs) :
    ∃ t', Traverses bs t t' ∧ Within outer before {} t' :=
  ⟨_, Traverses.plain hbs hcs t, h.withText _⟩

/-- When all elements of a document are closed, nothing is left of it but its records. -/
theorem restart (h : Within outer before s t) (hs : s.Enclosed) (hpath : s.progress.path = []) :
    Within outer (before.followedBy s.progress.document) {} t := by
  have hopen : s.open_ = [] := List.map_eq_nil_iff.1 (hs.path_eq.symm.trans hpath)
  have hcorrection : s.progress.correction? = none := by
    rw [← Option.not_isSome_iff_eq_none]
    intro hsome
    obtain ⟨name, hname, -⟩ := hs.correction hsome
    rw [hpath] at hname
    cases hname
  have hdecision : s.progress.decision? = none := by
    rw [← Option.not_isSome_iff_eq_none]
    intro hsome
    obtain ⟨name, hname, -⟩ := hs.decision hsome
    rw [hpath] at hname
    cases hname
  constructor
  · rw [h.open_eq, hopen]
  · rw [h.path_eq, hpath]
  · constructor
    · exact h.follows.correction_eq.trans hcorrection
    · exact h.follows.decision_eq.trans hdecision
    · exact h.follows.corrections_eq.trans (List.append_nil _).symm
    · exact h.follows.decisions_eq.trans (List.append_nil _).symm
  · exact fun hne => absurd rfl hne

end Position.Within

namespace Position.Within

variable {outer : Bytes} {before : Document} {t : Position}

/-- A document that can be read adds its records, and leaves nothing else. -/
theorem fragment (h : Within outer before {} t)
    (houter : Element.ofName (nameText outer) = .collection) {bs : Bytes} {d : Document}
    (hread : Document.read bs = .ok d) :
    ∃ t', Traverses bs t t' ∧ Within outer (before.followedBy d) {} t' := by
  have hpassage : Position.read {} (dropByteOrderMark bs) = .ok d := hread
  obtain ⟨s, hs, hpath, rfl⟩ := Traverses.read_eq_ok_iff.1 hpassage
  obtain ⟨mark, cs, hbs, hmark, hcs⟩ := exists_mark bs
  obtain ⟨t₁, ht₁, hwithin⟩ := h.plain hmark hcs
  obtain ⟨t', ht', hend, hclosed⟩ := hwithin.run houter enclosed_start hs.run_eq
  refine ⟨t', ?_, hend.restart hclosed hpath⟩
  rw [hbs]
  exact ht₁.append ⟨hs.fault_eq, ht'⟩

/-- Documents one after another add their records in order. -/
theorem fragments (h : Within outer before {} t)
    (houter : Element.ofName (nameText outer) = .collection) {blanks : Bytes}
    (hblanks : ∀ b ∈ blanks, isSpace b) {fragments : List Bytes}
    (hread : ∀ f ∈ fragments, ∃ d, Document.read f = .ok d) :
    ∃ t', Traverses (fragments.flatMap (· ++ blanks)) t t' ∧
      Within outer (before.followedBy (Document.collected fragments)) {} t' := by
  induction fragments generalizing before t with
  | nil =>
      rw [Document.followedBy_collected_nil]
      exact ⟨t, Traverses.nil t, h⟩
  | cons f fragments ih =>
      obtain ⟨d, hd⟩ := hread f List.mem_cons_self
      obtain ⟨cs, hcs⟩ := decode_blanks hblanks
      obtain ⟨t₁, ht₁, hf⟩ := h.fragment houter hd
      obtain ⟨t₂, ht₂, hblank⟩ := hf.plain (fun b hb => isPlain_of_isSpace (hblanks b hb)) hcs
      obtain ⟨t', ht', hend⟩ := ih hblank fun x hx => hread x (List.mem_cons_of_mem f hx)
      rw [Document.followedBy_collected_cons hd] at hend
      refine ⟨t', ?_, hend⟩
      rw [List.flatMap_cons]
      exact (ht₁.append ht₂).append ht'

end Position.Within

/-! ### The element around them -/

section

private theorem ofName_collection :
    Element.ofName (nameText (encode "ColorCorrectionCollection".toList)) = .collection :=
  congrArg Element.ofName isName_collection.nameText_toList

/-- Inside a collection that begins a document nothing has been collected. -/
theorem exists_within_start : ∃ t, Traverses (ascii "<ColorCorrectionCollection>") {} t ∧
    Position.Within (encode "ColorCorrectionCollection".toList) {} {} t := by
  have htag : IsTag (encode "ColorCorrectionCollection".toList) [] :=
    isName_collection.isTagName.isTag_nil
  have hstart : ({} : Progress).onStart ⟨encode "ColorCorrectionCollection".toList, []⟩
      = .ok (({} : Progress).enter "ColorCorrectionCollection") :=
    onStart_of_ne isName_collection (by decide) (by decide)
  refine ⟨⟨[_], _⟩, Traverses.start (s := {}) htag hstart, rfl, ?_, ⟨rfl, rfl, rfl, rfl⟩,
    fun hne => absurd rfl hne⟩
  rw [isName_collection.nameText_toList]
  rfl

/-- The end of the collection ends the document, with the records that were collected. -/
theorem Position.Within.read_close {before : Document} {t : Position}
    (h : Position.Within (encode "ColorCorrectionCollection".toList) before {} t) :
    ∃ u notes, Traverses (ascii "</ColorCorrectionCollection>") t u ∧ u.progress.path = [] ∧
      u.progress.document = { before with notes } := by
  have htag : IsTag (encode "ColorCorrectionCollection".toList) [] :=
    isName_collection.isTagName.isTag_nil
  obtain ⟨open_, p⟩ := t
  obtain rfl : open_ = [encode "ColorCorrectionCollection".toList] := h.open_eq
  have hpath : p.path = [nameText (encode "ColorCorrectionCollection".toList)] := h.path_eq
  have hclose : p.onClose (encode "ColorCorrectionCollection".toList) = .ok p.leave :=
    onClose_encode isName_collection
  refine ⟨⟨[], p.leave⟩, p.document.notes, Traverses.close htag hclose, ?_, ?_⟩
  · simp [Progress.leave, hpath]
  · have hcorrections := h.follows.corrections_eq
    have hdecisions := h.follows.decisions_eq
    obtain ⟨⟨notes, corrections, decisions⟩, _⟩ := p
    simp_all [Progress.leave]

end

/-! ### The whole -/

namespace Document

variable {blanks : Bytes} {fragments : List Bytes}

/-- The records of a gathered document are those of its parts in order. -/
theorem read_gathered (hblanks : ∀ b ∈ blanks, isSpace b)
    (hread : ∀ f ∈ fragments, ∃ d, read f = .ok d) :
    ∃ notes, read (gathered blanks fragments) = .ok { collected fragments with notes } := by
  obtain ⟨t₁, hstart, hwithin⟩ := exists_within_start
  obtain ⟨cs, hcs⟩ := decode_blanks hblanks
  obtain ⟨t₂, hblank, hwithin⟩ :=
    hwithin.plain (fun b hb => isPlain_of_isSpace (hblanks b hb)) hcs
  obtain ⟨t₃, hparts, hwithin⟩ := hwithin.fragments ofName_collection hblanks hread
  obtain ⟨u, notes, hend, hpath, hdocument⟩ := hwithin.read_close
  have hmark : dropByteOrderMark (gathered blanks fragments) = gathered blanks fragments :=
    dropByteOrderMark_append [] _
  refine ⟨notes, ?_⟩
  change Position.read {} (dropByteOrderMark (gathered blanks fragments)) = _
  rw [hmark]
  refine Traverses.read_eq_ok_iff.2 ⟨u, ((hstart.append hblank).append hparts).append hend, hpath, ?_⟩
  rw [hdocument]
  rfl

/-- Documents that can each be read can be read one after another in a collection. The corrections
and the decisions of the whole are those of the parts in order, so that in another order they are the
same in that order. -/
theorem readCollection_gathered (hblanks : ∀ b ∈ blanks, isSpace b)
    (hread : ∀ f ∈ fragments, ∃ c, readCollection f = .ok c) :
    ∃ c l, readCollection (gathered blanks fragments) = .ok c ∧
      readDecisions (gathered blanks fragments) = .ok l ∧
      c.corrections = fragments.flatMap correctionsIn ∧
      l.decisions = fragments.flatMap decisionsIn ∧
      ∀ fragments', fragments'.Perm fragments →
        ∃ c' l', readCollection (gathered blanks fragments') = .ok c' ∧
          readDecisions (gathered blanks fragments') = .ok l' ∧
          c'.corrections = fragments'.flatMap correctionsIn ∧
          l'.decisions = fragments'.flatMap decisionsIn ∧
          c'.corrections.Perm c.corrections ∧ l'.decisions.Perm l.decisions := by
  have hall (fragments' : List Bytes) (hperm : fragments'.Perm fragments) :
      ∃ notes, read (gathered blanks fragments') = .ok { collected fragments' with notes } := by
    refine read_gathered hblanks fun f hf => ?_
    obtain ⟨c, hc⟩ := hread f (hperm.mem_iff.1 hf)
    obtain ⟨d, hd, -⟩ := map_eq_ok_iff.1 hc
    exact ⟨d, hd⟩
  obtain ⟨notes, hwhole⟩ := hall fragments (List.Perm.refl _)
  refine ⟨_, _, map_eq_ok_iff.2 ⟨_, hwhole, rfl⟩, map_eq_ok_iff.2 ⟨_, hwhole, rfl⟩, rfl, rfl, ?_⟩
  intro fragments' hperm
  obtain ⟨notes', hother⟩ := hall fragments' hperm
  exact ⟨_, _, map_eq_ok_iff.2 ⟨_, hother, rfl⟩, map_eq_ok_iff.2 ⟨_, hother, rfl⟩, rfl, rfl,
    hperm.flatMap_right _, hperm.flatMap_right _⟩

theorem readCollection_gathered_pair :
    let blanks := ascii "\n"
    let fragments := [ascii "<ColorCorrection id=\"a\"/> stray",
      ascii "<ColorDecision><ColorCorrection id=\"b\"><x/></ColorCorrection></ColorDecision>"]
    (∀ b ∈ blanks, isSpace b) ∧ (∀ f ∈ fragments, ∃ c, readCollection f = .ok c) ∧
      ∃ c l, readCollection (gathered blanks fragments) = .ok c ∧
        readDecisions (gathered blanks fragments) = .ok l ∧
        c.corrections.map (·.id?) = [some "a", some "b"] ∧
        l.decisions.map (·.correction.id?) = [some "b"] := by
  intro blanks fragments
  have hblanks : ∀ b ∈ blanks, isSpace b := by decide +kernel
  have hsome : ∀ f ∈ fragments, (readCollection f).toBool := by decide +kernel
  have hread : ∀ f ∈ fragments, ∃ c, readCollection f = .ok c :=
    fun f hf => exists_eq_ok_of_toBool (hsome f hf)
  obtain ⟨c, l, hc, hl, hcorrections, hdecisions, -⟩ := readCollection_gathered hblanks hread
  refine ⟨hblanks, hread, c, l, hc, hl, ?_, ?_⟩
  · rw [hcorrections]
    decide +kernel
  · rw [hdecisions]
    decide +kernel

end Document

end ColorChain.Record
