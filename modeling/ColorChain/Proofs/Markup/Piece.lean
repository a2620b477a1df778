import ColorChain.Markup.Piece

/-!
# The first piece of a document

Which piece a document begins with, by how it is put together: a text before markup, a reference, or
a tag whose content passes through the quotes without stopping.
-/

namespace ColorChain.Markup

open Text

/-- A machine that passes through `content` and stops on the byte after it splits there. -/
theorem splitWhere_append {σ : Type} {step : σ → UInt8 → Option σ} {s s' : σ} {content : Bytes}
    {b : UInt8} (rest : Bytes) (hrun : content.foldlM step s = some s') (hstop : step s' b = none) :
    splitWhere step s (content ++ b :: rest) = some (content, rest) := by
  induction content generalizing s with
  | nil =>
      obtain rfl : s = s' := Option.some.inj hrun
      simp [splitWhere, hstop]
  | cons a content ih =>
      rw [List.foldlM_cons] at hrun
      obtain ⟨next, hnext, hrun⟩ := Option.bind_eq_some_iff.1 hrun
      simp [splitWhere, hnext, ih hrun]

/-! ### Contents of tags -/

/-- Outside quotes a tag goes on over all bytes but the quotes and `>`. -/
theorem run_tagStep_none {bs : Bytes} (h : ∀ b ∈ bs, b ≠ 0x3E ∧ b ≠ 0x22 ∧ b ≠ 0x27) :
    bs.foldlM tagStep none = some none := by
  induction bs with
  | nil => rfl
  | cons b bs ih =>
      obtain ⟨hclose, hdouble, hsingle⟩ := h b List.mem_cons_self
      have hstep : tagStep none b = some none := by simp [tagStep, hclose, hdouble, hsingle]
      rw [List.foldlM_cons, hstep]
      exact ih fun x hx => h x (List.mem_cons_of_mem b hx)

/-- Inside quotes a tag goes on until the quote comes again. -/
theorem run_tagStep_some {q : UInt8} {bs : Bytes} (h : q ∉ bs) :
    bs.foldlM tagStep (some q) = some (some q) := by
  induction bs with
  | nil => rfl
  | cons b bs ih =>
      have hb : b ≠ q := fun hb => h (hb ▸ List.mem_cons_self)
      have hstep : tagStep (some q) b = some (some q) := by simp [tagStep, hb]
      rw [List.foldlM_cons, hstep]
      exact ih fun hq => h (List.mem_cons_of_mem b hq)

/-- A value in double quotes leaves a tag outside quotes. -/
theorem run_tagStep_quoted {bs : Bytes} (h : 0x22 ∉ bs) :
    (0x22 :: bs ++ [0x22]).foldlM tagStep none = some none := by
  have hopen : tagStep none 0x22 = some (some 0x22) := rfl
  rw [List.cons_append, List.foldlM_cons, hopen, Option.bind_eq_bind, Option.bind_some,
    List.foldlM_append, run_tagStep_some h]
  rfl

/-! ### First pieces -/

/-- A byte that begins no markup begins a text. -/
theorem splitFirst_plain {b : UInt8} (hb : isPlain b) (bs : Bytes) :
    splitFirst b bs = .ok (.text (b :: bs.takeWhile isPlain), bs.dropWhile isPlain) := by
  simp only [isPlain, Bool.and_eq_true, bne_iff_ne] at hb
  simp [splitFirst, hb.1, hb.2]

/-- A text goes on up to a byte that begins markup. -/
theorem splitFirst_text {b stop : UInt8} {bs : Bytes} (rest : Bytes) (hb : isPlain b)
    (hbs : ∀ x ∈ bs, isPlain x) (hstop : isPlain stop = false) :
    splitFirst b (bs ++ stop :: rest) = .ok (.text (b :: bs), stop :: rest) := by
  rw [splitFirst_plain hb, List.takeWhile_append_of_pos hbs, List.dropWhile_append_of_pos hbs,
    List.takeWhile_cons_of_neg (by simp [hstop]), List.dropWhile_cons_of_neg (by simp [hstop]),
    List.append_nil]

theorem takeWhile_isPlain_eq_self {bs : Bytes} (h : bs.dropWhile isPlain = []) :
    bs.takeWhile isPlain = bs := by
  have hall := List.takeWhile_append_dropWhile (p := isPlain) (l := bs)
  rwa [h, List.append_nil] at hall

/-- A text goes on up to the end of a document without markup. -/
theorem splitFirst_text_end {b : UInt8} {bs : Bytes} (hb : isPlain b) (hbs : ∀ x ∈ bs, isPlain x) :
    splitFirst b bs = .ok (.text (b :: bs), []) := by
  have hdrop : bs.dropWhile isPlain = [] := by
    rw [← List.append_nil bs, List.dropWhile_append_of_pos hbs]
    rfl
  rw [splitFirst_plain hb, takeWhile_isPlain_eq_self hdrop, hdrop]

/-- A reference goes on up to its semicolon. -/
theorem splitFirst_reference {name : Bytes} (rest : Bytes)
    (hname : ∀ b ∈ name, b ≠ 0x3B ∧ b ≠ 0x26 ∧ b ≠ 0x3C) :
    splitFirst 0x26 (name ++ 0x3B :: rest) = .ok (.reference name, rest) := by
  have hinside : ∀ b ∈ name, (b != 0x3B && b != 0x26 && b != 0x3C) = true := by
    intro b hb
    obtain ⟨hend, hreference, hmarkup⟩ := hname b hb
    simp [hend, hreference, hmarkup]
  have hfirst : splitFirst 0x26 (name ++ 0x3B :: rest) = splitReference (name ++ 0x3B :: rest) := rfl
  simp [hfirst, splitReference, List.takeWhile_append_of_pos hinside,
    List.dropWhile_append_of_pos hinside]

/-- A tag goes on up to the `>` outside quotes. A content that begins with `!` or `?` would be a
declaration or an instruction. -/
theorem splitFirst_tag {b : UInt8} {bs : Bytes} (rest : Bytes)
    (hb : b ≠ 0x21 ∧ b ≠ 0x3F) (hrun : (b :: bs).foldlM tagStep none = some none) :
    splitFirst 0x3C (b :: bs ++ 0x3E :: rest) = .ok (.tag (b :: bs), rest) := by
  have hstop : tagStep none 0x3E = none := rfl
  have hsplit := splitWhere_append rest hrun hstop
  have hfirst : splitFirst 0x3C (b :: bs ++ 0x3E :: rest) = splitMarkup (b :: bs ++ 0x3E :: rest) :=
    rfl
  rw [hfirst]
  unfold splitMarkup
  split
  · next heq => exact absurd (List.cons.inj heq).1 hb.1
  · next heq => exact absurd (List.cons.inj heq).1 hb.2
  · rw [hsplit]
    rfl

/-! ### Documents that go on

A piece that ends before markup ends there whatever follows, so the pieces of a document's beginning
are the first pieces of the document. -/

/-- A machine that stops inside a document does so before any more of it. -/
theorem splitWhere_append_right {σ : Type} {step : σ → UInt8 → Option σ} {s : σ}
    {bs content rest : Bytes} (more : Bytes) (h : splitWhere step s bs = some (content, rest)) :
    splitWhere step s (bs ++ more) = some (content, rest ++ more) := by
  induction bs generalizing s content with
  | nil => cases h
  | cons b bs ih =>
      rw [List.cons_append]
      unfold splitWhere at h ⊢
      cases hstep : step s b with
      | none =>
          rw [hstep] at h
          cases h
          rfl
      | some next =>
          rw [hstep] at h
          obtain ⟨⟨found, rest'⟩, hfound, heq⟩ := Option.map_eq_some_iff.1 h
          cases heq
          simp only [ih hfound, Option.map_some]

section

variable {bs rest : Bytes} {piece : Piece}

theorem closed_append {fault : MarkupFault} {make : Bytes → Piece} {σ : Type}
    {step : σ → UInt8 → Option σ} {s : σ} (more : Bytes)
    (h : closed fault make (splitWhere step s bs) = .ok (piece, rest)) :
    closed fault make (splitWhere step s (bs ++ more)) = .ok (piece, rest ++ more) := by
  cases hsplit : splitWhere step s bs with
  | none =>
      rw [hsplit] at h
      cases h
  | some found =>
      rw [hsplit] at h
      cases h
      rw [splitWhere_append_right more hsplit]
      rfl

theorem splitDoctype_append (more : Bytes) (h : splitDoctype bs = .ok (piece, rest)) :
    splitDoctype (bs ++ more) = .ok (piece, rest ++ more) := by
  unfold splitDoctype at h ⊢
  cases hsplit : splitWhere doctypeStep 0 bs with
  | none =>
      rw [hsplit] at h
      cases h
  | some found =>
      rw [hsplit] at h
      rw [splitWhere_append_right more hsplit]
      dsimp only at h ⊢
      split at h
      · next hname =>
        split at h
        · cases h
        · next hspace =>
          cases h
          rw [if_pos hname, if_neg hspace]
      · cases h

theorem splitInstruction_append (more : Bytes) (h : splitInstruction bs = .ok (piece, rest)) :
    splitInstruction (bs ++ more) = .ok (piece, rest ++ more) := by
  unfold splitInstruction at h ⊢
  cases hsplit : splitWhere (closingStep 0x3F 1) 1 bs with
  | none =>
      rw [hsplit] at h
      cases h
  | some found =>
      obtain ⟨content, rest'⟩ := found
      rw [hsplit] at h
      rw [splitWhere_append_right more hsplit]
      cases content with
      | nil => cases h
      | cons b content =>
          cases h
          rfl

theorem splitDeclaration_append (more : Bytes) (h : splitDeclaration bs = .ok (piece, rest)) :
    splitDeclaration (bs ++ more) = .ok (piece, rest ++ more) := by
  unfold splitDeclaration at h
  split at h
  · next bs' =>
    split at h
    · next hcdata =>
      obtain ⟨content, hcontent⟩ := List.isPrefixOf_iff_prefix.1 hcdata
      have hdrop : (0x5B :: bs').drop 7 = content := by
        rw [← hcontent]
        rfl
      have hall : (ascii "[CDATA[").isPrefixOf (0x5B :: (bs' ++ more)) := by
        refine List.isPrefixOf_iff_prefix.2 ⟨content ++ more, ?_⟩
        rw [← List.cons_append, ← hcontent, List.append_assoc]
      have hdrop' : (0x5B :: (bs' ++ more)).drop 7 = content ++ more := by
        rw [← List.cons_append, ← hcontent]
        rfl
      rw [hdrop] at h
      rw [List.cons_append, splitDeclaration, if_pos hall, hdrop']
      exact closed_append more h
    · cases h
  · split at h
    · exact closed_append more h
    · cases h
  · next b bs' hcdata hcomment =>
    split at h
    · next hdoctype =>
      have hfirst : splitDeclaration (b :: bs' ++ more) = splitDoctype (b :: bs' ++ more) := by
        rw [List.cons_append]
        unfold splitDeclaration
        split
        · next heq => exact absurd (List.cons.inj heq).1 hcdata
        · next heq => exact absurd (List.cons.inj heq).1 hcomment
        · next heq =>
          cases heq
          rw [if_pos hdoctype]
        · next heq => cases heq
      rw [hfirst]
      exact splitDoctype_append more h
    · cases h
  · cases h

theorem splitMarkup_append (more : Bytes) (h : splitMarkup bs = .ok (piece, rest)) :
    splitMarkup (bs ++ more) = .ok (piece, rest ++ more) := by
  unfold splitMarkup at h
  split at h
  · exact splitDeclaration_append more h
  · exact splitInstruction_append more h
  · next hdeclaration hinstruction =>
    cases bs with
    | nil => cases h
    | cons b bs =>
        have hmarkup : splitMarkup (b :: bs ++ more)
            = closed .openTag .tag (splitWhere tagStep none (b :: bs ++ more)) := by
          unfold splitMarkup
          split
          · next heq => exact (hdeclaration _ (congrArg (· :: bs) (List.cons.inj heq).1)).elim
          · next heq => exact (hinstruction _ (congrArg (· :: bs) (List.cons.inj heq).1)).elim
          · rfl
        rw [hmarkup]
        exact closed_append more h

theorem splitReference_append (more : Bytes) (h : splitReference bs = .ok (piece, rest)) :
    splitReference (bs ++ more) = .ok (piece, rest ++ more) := by
  unfold splitReference at h ⊢
  dsimp only at h ⊢
  split at h
  · next rest hdrop =>
    cases h
    have hall := List.takeWhile_append_dropWhile
      (p := fun b : UInt8 => b != 0x3B && b != 0x26 && b != 0x3C) (l := bs)
    rw [hdrop] at hall
    have hdrop' : (bs ++ more).dropWhile (fun b => b != 0x3B && b != 0x26 && b != 0x3C)
        = 0x3B :: rest ++ more := by
      rw [List.dropWhile_append, hdrop]
      rfl
    have htake : (bs ++ more).takeWhile (fun b => b != 0x3B && b != 0x26 && b != 0x3C)
        = bs.takeWhile (fun b => b != 0x3B && b != 0x26 && b != 0x3C) := by
      rw [List.takeWhile_append, if_neg]
      intro hlength
      have := congrArg List.length hall
      simp only [List.length_append, List.length_cons, hlength] at this
      omega
    rw [hdrop', htake]
    rfl
  · cases h

/-- A piece is the same whatever follows, if a text that ends with the document does not go on. -/
theorem splitFirst_append_of_stop {b : UInt8} {more : Bytes}
    (h : splitFirst b bs = .ok (piece, rest))
    (hstop : isPlain b → rest = [] → ∀ x ∈ more.head?, isPlain x = false) :
    splitFirst b (bs ++ more) = .ok (piece, rest ++ more) := by
  cases hb : isPlain b with
  | true =>
      rw [splitFirst_plain hb] at h ⊢
      cases h
      cases hdrop : bs.dropWhile isPlain with
      | nil =>
          -- The text ended with the document: it ends before `more`.
          have hmore : more.takeWhile isPlain = [] ∧ more.dropWhile isPlain = more := by
            cases more with
            | nil => exact ⟨rfl, rfl⟩
            | cons x more =>
                have hx : ¬isPlain x := by simp [hstop hb hdrop x rfl]
                exact ⟨List.takeWhile_cons_of_neg hx, List.dropWhile_cons_of_neg hx⟩
          rw [List.takeWhile_append, List.dropWhile_append, hdrop, takeWhile_isPlain_eq_self hdrop,
            hmore.1, hmore.2]
          simp
      | cons x rest =>
          have hlength : (bs.takeWhile isPlain).length ≠ bs.length := by
            have hall := congrArg List.length
              (List.takeWhile_append_dropWhile (p := isPlain) (l := bs))
            rw [List.length_append, hdrop, List.length_cons] at hall
            omega
          rw [List.takeWhile_append, if_neg hlength, List.dropWhile_append, hdrop]
          rfl
  | false =>
      unfold splitFirst at h ⊢
      split at h
      · next hmarkup =>
        rw [if_pos hmarkup]
        exact splitMarkup_append _ h
      · next hmarkup =>
        rw [if_neg hmarkup]
        split at h
        · next hreference =>
          rw [if_pos hreference]
          exact splitReference_append _ h
        · next hreference => simp [isPlain, bne, hmarkup, hreference] at hb

theorem splitFirst_append {b : UInt8} (more : Bytes) (h : splitFirst b bs = .ok (piece, rest)) :
    splitFirst b (bs ++ 0x3C :: more) = .ok (piece, rest ++ 0x3C :: more) := by
  refine splitFirst_append_of_stop h fun _ _ x hx => ?_
  cases hx
  rfl

end

theorem pieces_nil : pieces [] = ⟨[], none⟩ := by rw [pieces]

theorem pieces_cons {b : UInt8} {bs rest : Bytes} {piece : Piece}
    (h : splitFirst b bs = .ok (piece, rest)) : pieces (b :: bs) = (pieces rest).cons piece := by
  rw [pieces]
  split
  · next h' => cases h.symm.trans h'
  · next h' =>
    obtain ⟨rfl, rfl⟩ := Prod.mk.inj (Except.ok.inj (h.symm.trans h'))
    rfl

/-- A document whose pieces have no fault keeps them when markup follows. -/
theorem pieces_append {bs : Bytes} (more : Bytes) (h : (pieces bs).fault = none) :
    pieces (bs ++ 0x3C :: more) =
      ⟨(pieces bs).items ++ (pieces (0x3C :: more)).items, (pieces (0x3C :: more)).fault⟩ := by
  induction hlength : bs.length using Nat.strongRecOn generalizing bs with
  | ind n ih =>
      cases bs with
      | nil =>
          rw [pieces_nil]
          rfl
      | cons b bs =>
          cases hsplit : splitFirst b bs with
          | error fault =>
              rw [pieces] at h
              split at h
              · cases h
              · next h' => cases hsplit.symm.trans h'
          | ok found =>
              obtain ⟨piece, rest⟩ := found
              have hle := length_of_splitFirst hsplit
              have hlt : rest.length < n := by
                rw [← hlength, List.length_cons]
                omega
              rw [pieces_cons hsplit] at h ⊢
              rw [List.cons_append, pieces_cons (splitFirst_append more hsplit), ih _ hlt h rfl]
              rfl

/-- A byte order mark is no matter of what follows it. -/
theorem dropByteOrderMark_append (bs more : Bytes) :
    dropByteOrderMark (bs ++ 0x3C :: more) = dropByteOrderMark bs ++ 0x3C :: more := by
  have hmark : byteOrderMark.isPrefixOf (bs ++ 0x3C :: more) = byteOrderMark.isPrefixOf bs := by
    match bs with
    | [] => rfl
    | [_] => simp [byteOrderMark, List.isPrefixOf]
    | [_, _] => simp [byteOrderMark, List.isPrefixOf]
    | _ :: _ :: _ :: _ => simp [byteOrderMark, List.isPrefixOf]
  rw [dropByteOrderMark, dropByteOrderMark, hmark]
  split
  · next hprefix =>
    have hle : 3 ≤ bs.length := (List.isPrefixOf_iff_prefix.1 hprefix).length_le
    rw [List.drop_append_of_le_length hle]
  · rfl

end ColorChain.Markup
