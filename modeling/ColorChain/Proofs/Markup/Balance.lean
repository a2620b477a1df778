import ColorChain.Proofs.Markup.Event
import ColorChain.Proofs.Markup.Fragment

/-!
# Balanced markup

The height of bytes is the number of elements that they open and do not close. In balanced bytes every
beginning closes at most what it opened, so an element that holds them is open up to its end tag: a
cut inside a piece is a fault, and after any other cut the height is not zero.
-/

namespace ColorChain.Markup

open Text

/-- How many more elements are open after a piece than before it. -/
def Piece.rise : Piece → Int
  | .tag content =>
    match TagKind.ofContent content with
    | .start _ => 1
    | .empty _ => 0
    | .close _ => -1
  | _ => 0

/-- How many more elements are open after pieces in a row than before them. -/
def totalRise : List Piece → Int
  | [] => 0
  | piece :: pieces => piece.rise + totalRise pieces

/-- How many elements the bytes open and do not close. -/
def height (bs : Bytes) : Int := totalRise (pieces bs).items

/-- The bytes end between two pieces or in a text. -/
def IsWhole (bs : Bytes) : Prop := (pieces bs).fault = none

theorem isWhole_nil : IsWhole [] := by rw [IsWhole, pieces_nil]

@[simp]
theorem height_nil : height [] = 0 := by rw [height, pieces_nil]; rfl

section

variable {b : UInt8} {bs rest : Bytes} {piece : Piece}

theorem isWhole_cons_iff (h : splitFirst b bs = .ok (piece, rest)) :
    IsWhole (b :: bs) ↔ IsWhole rest := by
  rw [IsWhole, pieces_cons h]
  rfl

theorem height_cons (h : splitFirst b bs = .ok (piece, rest)) :
    height (b :: bs) = piece.rise + height rest := by
  rw [height, pieces_cons h]
  rfl

/-- Whole bytes that are not empty begin with a piece. -/
theorem IsWhole.exists_piece (h : IsWhole (b :: bs)) :
    ∃ piece rest, splitFirst b bs = .ok (piece, rest) := by
  cases hsplit : splitFirst b bs with
  | ok found => exact ⟨found.1, found.2, rfl⟩
  | error fault =>
      rw [IsWhole, pieces] at h
      split at h
      · cases h
      · next h' => cases hsplit.symm.trans h'

/-- The text that bytes begin with opens and closes nothing. -/
theorem isWhole_dropWhile_and_height (bs : Bytes) :
    (IsWhole (bs.dropWhile isPlain) ↔ IsWhole bs) ∧ height (bs.dropWhile isPlain) = height bs := by
  cases bs with
  | nil => exact ⟨Iff.rfl, rfl⟩
  | cons b bs =>
      cases hb : isPlain b with
      | false =>
          rw [List.dropWhile_cons_of_neg (by simp [hb])]
          exact ⟨Iff.rfl, rfl⟩
      | true =>
          have hsplit := splitFirst_plain hb bs
          rw [List.dropWhile_cons_of_pos hb, isWhole_cons_iff hsplit, height_cons hsplit]
          exact ⟨Iff.rfl, (Int.zero_add _).symm⟩

/-- A text in front of bytes changes nothing, even if it goes on in them. -/
theorem isWhole_plain_append_and_height (hbs : ∀ b ∈ bs, isPlain b) (more : Bytes) :
    (IsWhole (bs ++ more) ↔ IsWhole more) ∧ height (bs ++ more) = height more := by
  obtain ⟨hboth, hbothHeight⟩ := isWhole_dropWhile_and_height (bs ++ more)
  obtain ⟨hmore, hmoreHeight⟩ := isWhole_dropWhile_and_height more
  have hskip : (bs ++ more).dropWhile isPlain = more.dropWhile isPlain :=
    List.dropWhile_append_of_pos hbs
  rw [hskip] at hboth hbothHeight
  exact ⟨hboth.symm.trans hmore, hbothHeight.symm.trans hmoreHeight⟩

/-- A text is whole and opens and closes nothing. -/
theorem isWhole_plain_and_height (hbs : ∀ b ∈ bs, isPlain b) : IsWhole bs ∧ height bs = 0 := by
  have h := isWhole_plain_append_and_height hbs []
  rw [List.append_nil, height_nil] at h
  exact ⟨h.1.2 isWhole_nil, h.2⟩

end

/-- After whole bytes the pieces go on as if they began there: a text that they end in may go on, and
opens and closes nothing. -/
theorem isWhole_append_and_height {bs : Bytes} (h : IsWhole bs) (more : Bytes) :
    (IsWhole (bs ++ more) ↔ IsWhole more) ∧ height (bs ++ more) = height bs + height more := by
  induction hlength : bs.length using Nat.strongRecOn generalizing bs with
  | ind n ih =>
      cases bs with
      | nil =>
          rw [List.nil_append, height_nil, Int.zero_add]
          exact ⟨Iff.rfl, rfl⟩
      | cons b bs =>
          obtain ⟨piece, rest, hsplit⟩ := h.exists_piece
          rw [List.length_cons] at hlength
          by_cases hplain : isPlain b ∧ rest = []
          · obtain ⟨hb, hnil⟩ := hplain
            rw [splitFirst_plain hb] at hsplit
            obtain ⟨-, hdrop⟩ := Prod.mk.inj (Except.ok.inj hsplit)
            rw [hnil] at hdrop
            have hrest : ∀ x ∈ bs, isPlain x := by
              rw [← takeWhile_isPlain_eq_self hdrop]
              exact List.all_eq_true.1 List.all_takeWhile
            have hall : ∀ x ∈ b :: bs, isPlain x := List.forall_mem_cons.2 ⟨hb, hrest⟩
            rw [(isWhole_plain_and_height hall).2, Int.zero_add]
            exact isWhole_plain_append_and_height hall more
          · have hle := length_of_splitFirst hsplit
            have hstop : isPlain b → rest = [] → ∀ x ∈ more.head?, isPlain x = false :=
              fun hb hnil => absurd ⟨hb, hnil⟩ hplain
            have hsplit' := splitFirst_append_of_stop hsplit hstop
            rw [isWhole_cons_iff hsplit] at h
            obtain ⟨hwhole, hheight⟩ := ih _ (by omega) h rfl
            rw [List.cons_append, isWhole_cons_iff hsplit', height_cons hsplit', height_cons hsplit,
              hwhole, hheight, Int.add_assoc]
            exact ⟨Iff.rfl, rfl⟩

theorem IsWhole.append_iff {bs : Bytes} (h : IsWhole bs) (more : Bytes) :
    IsWhole (bs ++ more) ↔ IsWhole more := (isWhole_append_and_height h more).1

theorem IsWhole.height_append {bs : Bytes} (h : IsWhole bs) (more : Bytes) :
    height (bs ++ more) = height bs + height more := (isWhole_append_and_height h more).2

/-! ### Beginnings -/

/-- A beginning of two parts ends in the first or in the second. -/
theorem prefix_of_append {kept as bs : Bytes} (h : kept <+: as ++ bs) :
    kept <+: as ∨ ∃ rest, rest <+: bs ∧ kept = as ++ rest := by
  obtain ⟨cut, hcut⟩ := h
  rcases List.append_eq_append_iff.1 hcut with ⟨rest, rfl, -⟩ | ⟨rest, rfl, rfl⟩
  · exact .inl (List.prefix_append kept rest)
  · exact .inr ⟨rest, List.prefix_append rest cut, rfl⟩

/-- Markup that one piece fills is whole only as a whole: what is cut off it is needed to end the
piece. -/
theorem eq_of_prefix_of_isWhole {b : UInt8} {bs kept : Bytes} {piece : Piece}
    (hb : isPlain b = false) (hsplit : splitFirst b bs = .ok (piece, []))
    (h : kept <+: b :: bs) (hkept : IsWhole kept) : kept = [] ∨ kept = b :: bs := by
  cases kept with
  | nil => exact .inl rfl
  | cons x kept =>
      obtain ⟨cut, hcut⟩ := h
      obtain ⟨rfl, rfl⟩ : x = b ∧ kept ++ cut = bs := List.cons.inj hcut
      obtain ⟨piece', rest, hkeptSplit⟩ := hkept.exists_piece
      have hstop : isPlain x → rest = [] → ∀ y ∈ cut.head?, isPlain y = false := by
        intro hx
        rw [hb] at hx
        cases hx
      have hwhole := splitFirst_append_of_stop hkeptSplit hstop
      have hnil : rest ++ cut = [] := by
        have heq := hsplit.symm.trans hwhole
        exact (Prod.mk.inj (Except.ok.inj heq)).2.symm
      have hcutNil : cut = [] := (List.append_eq_nil_iff.1 hnil).2
      rw [hcutNil, List.append_nil]
      exact .inr rfl

/-- The bytes close what they open, and each beginning of them closes no more than it opened. -/
structure Balanced (bs : Bytes) : Prop where
  isWhole : IsWhole bs
  height_eq : height bs = 0
  le_height : ∀ kept, kept <+: bs → IsWhole kept → 0 ≤ height kept

namespace Balanced

theorem nil : Balanced [] where
  isWhole := isWhole_nil
  height_eq := height_nil
  le_height kept h _ := by simp [List.prefix_nil.1 h]

theorem append {as bs : Bytes} (ha : Balanced as) (hb : Balanced bs) : Balanced (as ++ bs) where
  isWhole := (ha.isWhole.append_iff bs).2 hb.isWhole
  height_eq := by rw [ha.isWhole.height_append, ha.height_eq, hb.height_eq, Int.add_zero]
  le_height kept h hkept := by
    rcases prefix_of_append h with hfirst | ⟨rest, hrest, rfl⟩
    · exact ha.le_height kept hfirst hkept
    · rw [ha.isWhole.append_iff] at hkept
      rw [ha.isWhole.height_append, ha.height_eq, Int.zero_add]
      exact hb.le_height rest hrest hkept

theorem flatMap {α : Type} {f : α → Bytes} {items : List α} (h : ∀ x ∈ items, Balanced (f x)) :
    Balanced (items.flatMap f) := by
  induction items with
  | nil => exact nil
  | cons x items ih =>
      rw [List.flatMap_cons]
      exact (h x List.mem_cons_self).append (ih fun y hy => h y (List.mem_cons_of_mem x hy))

/-- A text opens and closes nothing. -/
theorem plain {bs : Bytes} (h : ∀ b ∈ bs, isPlain b) : Balanced bs where
  isWhole := (isWhole_plain_and_height h).1
  height_eq := (isWhole_plain_and_height h).2
  le_height kept hbegins _ := by
    have hkept : ∀ b ∈ kept, isPlain b := fun b hb => h b (hbegins.subset hb)
    exact Int.le_of_eq (isWhole_plain_and_height hkept).2.symm

/-- Markup that is one piece opens and closes nothing, unless it is a start tag or an end tag. -/
theorem piece {b : UInt8} {bs : Bytes} {piece : Piece} (hb : isPlain b = false)
    (hsplit : splitFirst b bs = .ok (piece, [])) (hrise : piece.rise = 0) : Balanced (b :: bs) := by
  have hheight : height (b :: bs) = 0 := by
    rw [height_cons hsplit, hrise, height_nil]
    rfl
  refine ⟨(isWhole_cons_iff hsplit).2 isWhole_nil, hheight, fun kept h hkept => ?_⟩
  rcases eq_of_prefix_of_isWhole hb hsplit h hkept with rfl | rfl
  · exact Int.le_of_eq height_nil.symm
  · exact Int.le_of_eq hheight.symm

theorem fragment (f : Fragment) : Balanced (encode f.written) := by
  rcases f.plain_or_splits with ⟨cs, hwritten, -, hplain⟩ | ⟨b, bs, hwritten, hb, hsplit⟩
  · rw [hwritten]
    exact plain hplain
  · rw [hwritten]
    exact piece hb hsplit (by cases f <;> rfl)

/-- An escaped text opens and closes nothing. -/
theorem escape (cs : List Char) : Balanced (encode (escape cs)) := by
  obtain ⟨fs, hwritten, -⟩ := Fragment.exists_escape cs
  have hbytes : encode (fs.flatMap Fragment.written) = fs.flatMap (encode ·.written) :=
    List.flatMap_assoc
  rw [← hwritten, hbytes]
  exact flatMap fun f _ => fragment f

end Balanced

/-! ### Elements -/

theorem SaysTag.isWhole {content : Bytes} {kind : TagKind} (h : SaysTag content kind) :
    IsWhole (0x3C :: (content ++ [0x3E])) := (isWhole_cons_iff (h.splitFirst [])).2 isWhole_nil

theorem SaysTag.height_start {content : Bytes} {t : Tag} (h : SaysTag content (.start t)) :
    height (0x3C :: (content ++ [0x3E])) = 1 := by
  simp [height_cons (h.splitFirst []), Piece.rise, h.kind_eq]

theorem SaysTag.height_close {content name : Bytes} (h : SaysTag content (.close name)) :
    height (0x3C :: (content ++ [0x3E])) = -1 := by
  simp [height_cons (h.splitFirst []), Piece.rise, h.kind_eq]

/-- The bytes are one element with a balanced content. -/
inductive IsElement : Bytes → Prop where
  | mk {tag content ending name : Bytes} {t : Tag} (htag : SaysTag tag (.start t))
      (hcontent : Balanced content) (hending : SaysTag ending (.close name)) :
      IsElement (0x3C :: (tag ++ [0x3E]) ++ (content ++ 0x3C :: (ending ++ [0x3E])))

namespace IsElement

variable {bs : Bytes}

theorem head_eq (h : IsElement bs) : bs.head? = some 0x3C := by
  cases h
  rfl

/-- An element is open from its start tag up to the end of its end tag. -/
theorem height_pos (h : IsElement bs) {kept : Bytes} (hbegins : kept <+: bs) (hkept : IsWhole kept) :
    kept = [] ∨ kept = bs ∨ 0 < height kept := by
  obtain ⟨htag, hcontent, hending⟩ := h
  -- The beginning ends in the start tag, in the content or in the end tag.
  rcases prefix_of_append hbegins with hopen | ⟨inner, hinner, rfl⟩
  · rcases eq_of_prefix_of_isWhole rfl (htag.splitFirst []) hopen hkept with rfl | rfl
    · exact .inl rfl
    · rw [htag.height_start]
      exact .inr (.inr Int.one_pos)
  rw [htag.isWhole.append_iff] at hkept
  rw [htag.isWhole.height_append, htag.height_start]
  rcases prefix_of_append hinner with hbelow | ⟨last, hlast, rfl⟩
  · have hle := hcontent.le_height inner hbelow hkept
    exact .inr (.inr (by omega))
  rw [hcontent.isWhole.append_iff] at hkept
  rw [hcontent.isWhole.height_append, hcontent.height_eq]
  rcases eq_of_prefix_of_isWhole rfl (hending.splitFirst []) hlast hkept with rfl | rfl
  · rw [height_nil]
    exact .inr (.inr (by decide))
  · exact .inr (.inl rfl)

theorem balanced (h : IsElement bs) : Balanced bs := by
  have hwhole : IsWhole bs ∧ height bs = 0 := by
    obtain ⟨htag, hcontent, hending⟩ := h
    rw [htag.isWhole.append_iff, hcontent.isWhole.append_iff, htag.isWhole.height_append,
      hcontent.isWhole.height_append, htag.height_start, hcontent.height_eq, hending.height_close]
    exact ⟨hending.isWhole, rfl⟩
  refine ⟨hwhole.1, hwhole.2, fun kept hbegins hkept => ?_⟩
  rcases h.height_pos hbegins hkept with rfl | rfl | hpos
  · exact Int.le_of_eq height_nil.symm
  · exact Int.le_of_eq hwhole.2.symm
  · exact Int.le_of_lt hpos

end IsElement

/-- A name with attributes begins an element that ends with the name. -/
theorem IsTag.isElement {name attributes content : Bytes} (h : IsTag name attributes)
    (hcontent : Balanced content) :
    IsElement (0x3C :: (name ++ attributes ++ [0x3E])
      ++ (content ++ 0x3C :: (0x2F :: name ++ [0x3E]))) :=
  .mk h.says_start hcontent h.says_close

end ColorChain.Markup
