import ColorChain.Proofs.Markup.Balance
import ColorChain.Proofs.Record.File
import ColorChain.Proofs.Record.Within

/-!
# Truncated records

A written record is one element. Where it is cut short, either a piece of it is not complete or an
element is still open, and nothing is read from it: not even the records that stand whole before the
cut.
-/

namespace ColorChain.Record

open Markup Text

/-! ### Open elements -/

namespace Position

variable {s t : Position}

theorem open_of_take {event : Event} {open_ : List Bytes} (h : s.take event open_ = .ok t) :
    t.open_ = open_ := by
  obtain ⟨p, -, rfl⟩ := map_eq_ok_iff.1 h
  rfl

/-- A piece opens and closes as many elements as its rise says. -/
theorem length_open_of_advance {piece : Piece} (h : s.advance piece = .ok t) :
    (t.open_.length : Int) = s.open_.length + piece.rise := by
  cases piece with
  | text | cdata | reference => simp [open_of_take h, Piece.rise]
  | skipped =>
      cases h
      simp [Piece.rise]
  | tag content =>
      simp only [advance] at h
      cases hkind : TagKind.ofContent content with
      | start tag =>
          rw [hkind] at h
          simp [open_of_take h, Piece.rise, hkind]
      | empty tag =>
          rw [hkind] at h
          simp [open_of_take h, Piece.rise, hkind]
      | close name =>
          rw [hkind] at h
          cases hopen : s.open_ with
          | nil =>
              rw [hopen] at h
              cases h
          | cons expected outer =>
              simp only [hopen] at h
              split at h
              · simp [open_of_take h, Piece.rise, hkind]
              · cases h

theorem length_open_of_run {items : List Piece} (h : items.foldlM advance s = .ok t) :
    (t.open_.length : Int) = s.open_.length + totalRise items := by
  induction items generalizing s with
  | nil =>
      cases h
      exact (Int.add_zero _).symm
  | cons piece items ih =>
      rw [List.foldlM_cons] at h
      obtain ⟨s', hadvance, hrest⟩ := do_eq_ok_iff.1 h
      rw [ih hrest, length_open_of_advance hadvance, totalRise, Int.add_assoc]

end Position

/-- A document that can be read is whole and closes all elements that it opens. -/
theorem height_of_read {bs : Bytes} {d : Document} (h : Document.read bs = .ok d) :
    IsWhole (dropByteOrderMark bs) ∧ height (dropByteOrderMark bs) = 0 := by
  have hread : Position.read {} (dropByteOrderMark bs) = .ok d := h
  obtain ⟨t, ht, hpath, -⟩ := Traverses.read_eq_ok_iff.1 hread
  have hopen : t.open_ = [] :=
    List.map_eq_nil_iff.1 ((Position.enclosed_start.run ht.run_eq).path_eq.symm.trans hpath)
  have hlength : (t.open_.length : Int) = 0 + height (dropByteOrderMark bs) :=
    Position.length_open_of_run ht.run_eq
  rw [hopen, Int.zero_add] at hlength
  exact ⟨ht.fault_eq, hlength.symm⟩

/-- An element that is cut short cannot be read. -/
theorem exists_fault_of_cut {kept cut : Bytes} (h : IsElement (kept ++ cut)) (hkept : kept ≠ [])
    (hcut : cut ≠ []) : ∃ fault, Document.read kept = .error fault := by
  have hmark : dropByteOrderMark kept = kept := by
    obtain ⟨b, bs, rfl⟩ := List.exists_cons_of_ne_nil hkept
    have hhead := h.head_eq
    rw [List.cons_append, List.head?_cons, Option.some.injEq] at hhead
    rw [hhead]
    exact dropByteOrderMark_append [] bs
  cases hread : Document.read kept with
  | error fault => exact ⟨fault, rfl⟩
  | ok d =>
      obtain ⟨hwhole, hheight⟩ := height_of_read hread
      rw [hmark] at hwhole hheight
      rcases h.height_pos (List.prefix_append kept cut) hwhole with hnil | hall | hpos
      · exact absurd hnil hkept
      · exact absurd (List.self_eq_append_right.1 hall) hcut
      · rw [hheight] at hpos
        exact absurd hpos (Int.lt_irrefl 0)

/-! ### Written elements -/

section

variable {name content : List Char}

theorem isElement_element (hname : IsName name) (hcontent : Balanced (encode content)) :
    IsElement (encode ('<' :: name ++ '>' :: content ++ '<' :: '/' :: name ++ ['>'])) := by
  have hshape : '<' :: name ++ '>' :: content ++ '<' :: '/' :: name ++ ['>']
      = '<' :: (name ++ '>' :: (content ++ '<' :: '/' :: (name ++ '>' :: []))) := by simp
  have hbytes : encode ('<' :: name ++ '>' :: content ++ '<' :: '/' :: name ++ ['>'])
      = 0x3C :: (encode name ++ [] ++ [0x3E])
        ++ (encode content ++ 0x3C :: (0x2F :: encode name ++ [0x3E])) := by
    rw [hshape, encode_start, encode_append, encode_close]
    simp
  rw [hbytes]
  exact hname.isTagName.isTag_nil.isElement hcontent

theorem isElement_elementWith {key value : List Char} (hname : IsName name) (hkey : IsName key)
    (hvalue : '"' ∉ value) (hcontent : Balanced (encode content)) :
    IsElement (encode ('<' :: name ++ ' ' :: key ++ '=' :: '"' :: value ++ '"' :: '>' :: content
      ++ '<' :: '/' :: name ++ ['>'])) := by
  have htag := hname.isTagName.isTag_attributeBytes hkey.isTagName (quote_not_mem_encode hvalue)
  have hshape : '<' :: name ++ ' ' :: key ++ '=' :: '"' :: value ++ '"' :: '>' :: content
      ++ '<' :: '/' :: name ++ ['>']
      = '<' :: (name ++ ' ' :: (key ++ '=' :: '"' :: (value ++ '"' :: '>' ::
        (content ++ '<' :: '/' :: (name ++ '>' :: []))))) := by simp
  have hbytes : encode ('<' :: name ++ ' ' :: key ++ '=' :: '"' :: value ++ '"' :: '>' :: content
      ++ '<' :: '/' :: name ++ ['>'])
      = 0x3C :: (encode name ++ attributeBytes key (encode value) ++ [0x3E])
        ++ (encode content ++ 0x3C :: (0x2F :: encode name ++ [0x3E])) := by
    rw [hshape, encode_startWith, encode_append, encode_close]
    simp
  rw [hbytes]
  exact htag.isElement hcontent

end

/-- An element with an escaped text. -/
theorem balanced_textElement {name : String} (hname : IsName name.toList) (cs : List Char) :
    Balanced (encode (element name (escape cs))) :=
  (isElement_element hname (Balanced.escape cs)).balanced

theorem balanced_settingElement (setting : Setting) (grade : Grade Float) :
    Balanced (encode (settingElement setting grade)) := by
  rw [settingElement_eq, ← escape_settingText]
  exact balanced_textElement (isName_setting setting) _

theorem balanced_descriptionElement (text : String) :
    Balanced (encode (descriptionElement text)) :=
  balanced_textElement (isName_of_ofName (by decide)) _

theorem balanced_plain {run : List Char} (h : ∀ c ∈ run, c ∉ ['<', '&']) :
    Balanced (encode run) := Balanced.plain fun _ hb => isPlain_of_mem_encode h hb

theorem balanced_blanks (n : Nat) : Balanced (encode (List.replicate n ' ')) := by
  refine balanced_plain fun c hc => ?_
  rw [List.eq_of_mem_replicate hc]
  decide

theorem balanced_append {cs ds : List Char} (hcs : Balanced (encode cs))
    (hds : Balanced (encode ds)) : Balanced (encode (cs ++ ds)) := by
  rw [encode_append]
  exact hcs.append hds

theorem balanced_newline {cs : List Char} (h : Balanced (encode cs)) :
    Balanced (encode ('\n' :: cs)) :=
  balanced_append (balanced_plain (by simp) : Balanced (encode ['\n'])) h

theorem balanced_flatMap {α : Type} {f : α → List Char} {items : List α}
    (h : ∀ x ∈ items, Balanced (encode (f x))) : Balanced (encode (items.flatMap f)) := by
  have hbytes : encode (items.flatMap f) = items.flatMap fun x => encode (f x) :=
    List.flatMap_assoc
  rw [hbytes]
  exact Balanced.flatMap h

/-- Lines that close what they open do so together: the blanks around them are text. -/
theorem balanced_textOfLines (n : Nat) {lines : List (List Char)}
    (h : ∀ line ∈ lines, Balanced (encode line)) : Balanced (encode (textOfLines n lines)) :=
  balanced_flatMap fun line hline =>
    balanced_append (balanced_append (balanced_blanks n) (h line hline)) (balanced_newline .nil)

theorem balanced_descriptions (n : Nat) (texts : List String) :
    Balanced (encode (textOfLines n (texts.map descriptionElement))) := by
  refine balanced_textOfLines n fun line hline => ?_
  obtain ⟨text, -, rfl⟩ := List.mem_map.1 hline
  exact balanced_descriptionElement text

/-! ### Written records -/

theorem balanced_compactTone (c : Correction) : Balanced (encode (compactTone c)) := by
  have hdescription : Balanced (encode (compactDescription c)) := by
    unfold compactDescription
    cases c.description? with
    | none => exact .nil
    | some text =>
        dsimp only
        split
        · exact .nil
        · exact balanced_descriptionElement text
  have hsetting (setting : Setting) := balanced_settingElement setting c.grade
  exact balanced_append hdescription
    (balanced_append (balanced_append (hsetting .slope) (hsetting .offset)) (hsetting .power))

/-- A compact record is one element. -/
theorem isElement_compact (c : Correction) : IsElement (encode c.compact) := by
  rw [compact_eq]
  refine isElement_elementWith isName_correction (isName_key (by simp)) (quote_not_mem_escape _)
    (balanced_append ?_ ?_)
  · exact (isElement_element (isName_of_ofName (by decide)) (balanced_compactTone c)).balanced
  · exact (isElement_element (isName_of_ofName (by decide)) (balanced_settingElement _ _)).balanced

/-- The lines of a correction are one element among blanks. -/
theorem exists_isElement_lines (n : Nat) (c : Correction) : ∃ root,
    textOfLines n c.lines = List.replicate n ' ' ++ root ++ ['\n'] ∧ IsElement (encode root) := by
  have hsettings (settings : List Setting) : Balanced (encode (textOfLines (n + 4)
      (settings.map fun setting => settingElement setting c.grade))) := by
    refine balanced_textOfLines _ fun line hline => ?_
    obtain ⟨setting, -, rfl⟩ := List.mem_map.1 hline
    exact balanced_settingElement setting c.grade
  have htone : Balanced (encode (toneLines n c)) :=
    balanced_append (balanced_append (balanced_newline (balanced_descriptions _ _))
      (hsettings [.slope, .offset, .power])) (balanced_blanks _)
  have hsaturation : Balanced (encode (saturationLines n c)) :=
    balanced_append (balanced_newline (hsettings [.saturation])) (balanced_blanks _)
  have hgroups : Balanced (encode (textOfLines (n + 2) [element "SOPNode" (toneLines n c),
      element "SatNode" (saturationLines n c)])) := by
    refine balanced_textOfLines _ ?_
    rw [List.forall_mem_cons, List.forall_mem_singleton]
    exact ⟨(isElement_element (isName_of_ofName (by decide)) htone).balanced,
      (isElement_element (isName_of_ofName (by decide)) hsaturation).balanced⟩
  refine ⟨_, textOfLines_lines n c, ?_⟩
  exact isElement_elementWith isName_correction (isName_key (by simp)) (quote_not_mem_escape _)
    (balanced_append (balanced_append (balanced_newline (balanced_descriptions _ _)) hgroups)
      (balanced_blanks _))

/-- The file of a correction is one element and a line feed. -/
theorem exists_isElement_correction (c : Correction) :
    ∃ root, c.fileText = root ++ ['\n'] ∧ IsElement (encode root) := by
  obtain ⟨root, hroot, h⟩ := exists_isElement_lines 0 c
  exact ⟨root, hroot, h⟩

/-- So is the file of a collection. -/
theorem exists_isElement_collection (c : Collection) :
    ∃ root, c.fileText = root ++ ['\n'] ∧ IsElement (encode root) := by
  have hcorrections : Balanced (encode
      (c.corrections.flatMap fun correction => '\n' :: textOfLines 2 correction.lines)) := by
    refine balanced_flatMap fun correction _ => balanced_newline ?_
    obtain ⟨root, hroot, h⟩ := exists_isElement_lines 2 correction
    rw [hroot]
    exact balanced_append (balanced_append (balanced_blanks 2) h.balanced) (balanced_newline .nil)
  refine ⟨_, collection_fileText_eq c, ?_⟩
  exact isElement_elementWith isName_collection (isName_key (by simp)) (by simp)
    (balanced_append (balanced_append (balanced_newline (balanced_descriptions _ _)) hcorrections)
      (balanced_newline .nil))

/-- A file that stops before the end of its root end tag cannot be read. -/
theorem exists_fault_of_file {text : List Char} {kept cut : Bytes}
    (htext : ∃ root, text = root ++ ['\n'] ∧ IsElement (encode root))
    (h : kept ++ cut ++ ascii ">\n" = encode text) (hkept : kept ≠ []) :
    ∃ fault, Document.read kept = .error fault := by
  obtain ⟨root, rfl, hroot⟩ := htext
  have hend : ascii ">\n" = [0x3E] ++ encode ['\n'] := by decide +kernel
  rw [hend, encode_append, ← List.append_assoc, List.append_assoc kept] at h
  rw [← List.append_cancel_right h] at hroot
  exact exists_fault_of_cut hroot hkept (by simp)

/-! ### Readers -/

theorem readCorrection_of_fault {bs : Bytes} (h : bs ≠ [] → ∃ fault, Document.read bs = .error fault) :
    ∃ fault, Document.readCorrection bs = .error fault := by
  by_cases hbs : bs = []
  · subst hbs
    have hread : Document.read [] = .ok {} := Traverses.read_eq_ok_iff.2 ⟨{}, .nil _, rfl, rfl⟩
    exact ⟨.noCorrection, by rw [Document.readCorrection, hread]; rfl⟩
  · obtain ⟨fault, hfault⟩ := h hbs
    exact ⟨fault, by rw [Document.readCorrection, hfault]; rfl⟩

/-- Nothing is read from a written record that was cut short, wherever the cut is: from a compact
record without its last bytes, or from a file that stops before the end of its root end tag. -/
theorem exists_fault_of_truncated (correction : Correction) (collection : Collection)
    (kept cut : Bytes) :
    (kept ++ cut = encode correction.compact → cut ≠ [] →
      ∃ fault, Document.readCorrection kept = .error fault) ∧
    (kept ++ cut ++ ascii ">\n" = encode correction.fileText →
      ∃ fault, Document.readCorrection kept = .error fault) ∧
    (kept ++ cut ++ ascii ">\n" = encode collection.fileText → kept ≠ [] →
      ∃ fault, Document.readCollection kept = .error fault) := by
  refine ⟨fun h hcut => ?_, fun h => ?_, fun h hkept => ?_⟩
  · have hroot := isElement_compact correction
    rw [← h] at hroot
    exact readCorrection_of_fault fun hkept => exists_fault_of_cut hroot hkept hcut
  · exact readCorrection_of_fault fun hkept =>
      exists_fault_of_file (exists_isElement_correction correction) h hkept
  · obtain ⟨fault, hfault⟩ :=
      exists_fault_of_file (exists_isElement_collection collection) h hkept
    exact ⟨fault, by rw [Document.readCollection, hfault]; rfl⟩

/-- Records that stand whole before the cut are not read either. -/
theorem exists_fault_of_truncated_complete :
    let correction : Correction := { id? := some "a" }
    let collection : Collection := { corrections := [correction] }
    let compact := encode correction.compact
    let file := encode correction.fileText
    let collectionFile := encode collection.fileText
    let compactKept := compact.take (compact.length - 1)
    let fileKept := file.take (file.length - 2)
    let collectionKept := collectionFile.take (collectionFile.length - 29)
    compactKept ++ ascii ">" = compact ∧ fileKept ++ [] ++ ascii ">\n" = file ∧
      collectionKept ++ ascii "</ColorCorrectionCollection" ++ ascii ">\n" = collectionFile ∧
      (∃ fault, Document.readCorrection compactKept = .error fault) ∧
      (∃ fault, Document.readCorrection fileKept = .error fault) ∧
      ∃ fault, Document.readCollection collectionKept = .error fault := by
  intro correction collection compact file collectionFile compactKept fileKept collectionKept
  have hcompact : compactKept ++ ascii ">" = compact := by decide +kernel
  have hfile : fileKept ++ [] ++ ascii ">\n" = file := by decide +kernel
  have hcollection : collectionKept ++ ascii "</ColorCorrectionCollection" ++ ascii ">\n"
      = collectionFile := by decide +kernel
  have htruncated := exists_fault_of_truncated correction collection
  exact ⟨hcompact, hfile, hcollection, (htruncated compactKept _).1 hcompact (by decide +kernel),
    (htruncated fileKept _).2.1 hfile,
    (htruncated collectionKept _).2.2 hcollection (by decide +kernel)⟩

end ColorChain.Record
