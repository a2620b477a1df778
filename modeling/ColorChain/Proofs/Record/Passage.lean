import ColorChain.Proofs.Record.SelfClosing

/-!
# Passages of a document

A passage is a run of bytes that takes the reading from one position to another. Passages in a row
are a passage: a tag or a reference ends inside its passage, and a text may go on in the next one,
where its two parts are read as one text.
-/

namespace ColorChain.Record

open Markup Text

/-- Going over the bytes takes the reading from the position `s` to the position `t`. -/
structure Traverses (bs : Bytes) (s t : Position) : Prop where
  /-- The bytes end between two pieces or in a text. -/
  fault_eq : (pieces bs).fault = none
  run_eq : (pieces bs).items.foldlM Position.advance s = .ok t

namespace Position

theorem advance_text_eq_ok_iff {s t : Position} {content : Bytes} :
    s.advance (.text content) = .ok t ↔
      ∃ cs, decode content = .ok cs ∧ t = s.withText (s.progress.text ++ cs) := by
  simp only [advance, take, Progress.step, Progress.onText]
  cases decode content with
  | error fault =>
      constructor
      · intro h
        cases h
      · rintro ⟨cs, hcs, -⟩
        cases hcs
  | ok cs =>
      constructor
      · intro h
        cases h
        exact ⟨cs, rfl, rfl⟩
      · rintro ⟨cs', hcs, rfl⟩
        cases hcs
        rfl

/-- A document may end where its pieces have no fault and no element is open. -/
theorem stop_eq_ok_iff {s : Position} {fault : Option MarkupFault} {d : Document} :
    s.stop fault = .ok d ↔ fault = none ∧ s.progress.path = [] ∧ s.progress.document = d := by
  simp only [stop, Progress.conclude, List.foldlM_nil, pure_bind]
  cases fault with
  | some fault => simp
  | none =>
      cases s.progress.path with
      | nil => simp
      | cons element path => simp

end Position

namespace Traverses

variable {bs more : Bytes} {s t u : Position}

theorem nil (s : Position) : Traverses [] s s where
  fault_eq := by rw [pieces_nil]
  run_eq := by
    rw [pieces_nil]
    rfl

theorem cons {b : UInt8} {rest : Bytes} {piece : Piece}
    (hsplit : splitFirst b bs = .ok (piece, rest)) (hadvance : s.advance piece = .ok t)
    (hrest : Traverses rest t u) : Traverses (b :: bs) s u where
  fault_eq := by
    rw [pieces_cons hsplit]
    exact hrest.fault_eq
  run_eq := by
    rw [pieces_cons hsplit, Reading.cons, List.foldlM_cons, hadvance]
    exact hrest.run_eq

/-- A passage that is not empty begins with a piece. -/
theorem exists_of_cons {b : UInt8} (h : Traverses (b :: bs) s u) : ∃ piece rest t,
    splitFirst b bs = .ok (piece, rest) ∧ s.advance piece = .ok t ∧ Traverses rest t u := by
  obtain ⟨hfault, hrun⟩ := h
  cases hsplit : splitFirst b bs with
  | error fault =>
      rw [pieces] at hfault
      split at hfault
      · cases hfault
      · next h' => cases hsplit.symm.trans h'
  | ok found =>
      obtain ⟨piece, rest⟩ := found
      rw [pieces_cons hsplit] at hfault hrun
      rw [Reading.cons, List.foldlM_cons] at hrun
      obtain ⟨t, hadvance, hrest⟩ := do_eq_ok_iff.1 hrun
      exact ⟨piece, rest, t, rfl, hadvance, hfault, hrest⟩

theorem eq_of_nil (h : Traverses [] s t) : s = t := by
  have hrun := h.run_eq
  rw [pieces_nil] at hrun
  exact Except.ok.inj hrun

/-! ### Text -/

/-- A text adds its characters to the text of the innermost element. -/
theorem plain {cs : List Char} (hbs : ∀ b ∈ bs, isPlain b) (hcs : decode bs = .ok cs)
    (s : Position) : Traverses bs s (s.withText (s.progress.text ++ cs)) := by
  cases bs with
  | nil =>
      rw [decode, decodeFrom] at hcs
      cases hcs
      rw [List.append_nil]
      exact nil s
  | cons b bs =>
      have hb := hbs b List.mem_cons_self
      have hrest : ∀ x ∈ bs, isPlain x := fun x hx => hbs x (List.mem_cons_of_mem b hx)
      exact cons (splitFirst_text_end hb hrest)
        (Position.advance_text_eq_ok_iff.2 ⟨cs, hcs, rfl⟩) (nil _)

/-- A text may go on in the passage after it: what the passage begins with then belongs to it. -/
theorem plain_append {cs : List Char} {b : UInt8} (hb : isPlain b) (hbs : ∀ x ∈ bs, isPlain x)
    (hcs : decode (b :: bs) = .ok cs)
    (hmore : Traverses more (s.withText (s.progress.text ++ cs)) u) :
    Traverses (b :: bs ++ more) s u := by
  have hadvance : s.advance (.text (b :: bs)) = .ok (s.withText (s.progress.text ++ cs)) :=
    Position.advance_text_eq_ok_iff.2 ⟨cs, hcs, rfl⟩
  cases more with
  | nil =>
      rw [List.append_nil]
      exact cons (splitFirst_text_end hb hbs) hadvance hmore
  | cons c more =>
      cases hc : isPlain c with
      | false => exact cons (splitFirst_text more hb hbs hc) hadvance hmore
      | true =>
          obtain ⟨piece, rest, t, hsplit, hnext, hrest⟩ := hmore.exists_of_cons
          rw [splitFirst_plain hc] at hsplit
          cases hsplit
          obtain ⟨ds, hds, rfl⟩ := Position.advance_text_eq_ok_iff.1 hnext
          have hboth : s.advance (.text (b :: bs ++ c :: more.takeWhile isPlain))
              = .ok (s.withText (s.progress.text ++ cs ++ ds)) :=
            Position.advance_text_eq_ok_iff.2
              ⟨cs ++ ds, decode_append hcs hds, by rw [List.append_assoc]⟩
          have hlong : splitFirst b (bs ++ c :: more)
              = .ok (.text (b :: bs ++ c :: more.takeWhile isPlain), more.dropWhile isPlain) := by
            rw [splitFirst_plain hb, List.takeWhile_append_of_pos hbs,
              List.dropWhile_append_of_pos hbs, List.takeWhile_cons_of_pos hc,
              List.dropWhile_cons_of_pos hc]
            rfl
          exact cons hlong hboth hrest

/-- Passages in a row are a passage. -/
theorem append (h : Traverses bs s t) (hmore : Traverses more t u) :
    Traverses (bs ++ more) s u := by
  induction hlength : bs.length using Nat.strongRecOn generalizing bs s with
  | ind n ih =>
      cases bs with
      | nil =>
          obtain rfl := h.eq_of_nil
          exact hmore
      | cons b bs =>
          obtain ⟨piece, rest, t', hsplit, hadvance, hrest⟩ := h.exists_of_cons
          have hle := length_of_splitFirst hsplit
          rw [List.length_cons] at hlength
          -- Only a text that ends its passage may go on in the next one.
          by_cases hplain : isPlain b ∧ rest = []
          · obtain ⟨hb, hnil⟩ := hplain
            rw [splitFirst_plain hb] at hsplit
            obtain ⟨rfl, hdrop⟩ := Prod.mk.inj (Except.ok.inj hsplit)
            subst hnil
            obtain rfl := hrest.eq_of_nil
            have hbs : ∀ x ∈ bs.takeWhile isPlain, isPlain x := List.all_eq_true.1 List.all_takeWhile
            rw [takeWhile_isPlain_eq_self hdrop] at hadvance hbs
            obtain ⟨cs, hcs, rfl⟩ := Position.advance_text_eq_ok_iff.1 hadvance
            exact plain_append hb hbs hcs hmore
          · have hstop : isPlain b → rest = [] → ∀ x ∈ more.head?, isPlain x = false :=
              fun hb hnil => absurd ⟨hb, hnil⟩ hplain
            exact cons (splitFirst_append_of_stop hsplit hstop) hadvance
              (ih _ (by omega) hrest rfl)

/-! ### Tags -/

/-- A start tag opens an element. -/
theorem start {name attributes : Bytes} {p : Progress} (htag : IsTag name attributes)
    (hstart : s.progress.onStart ⟨name, attributes⟩ = .ok p) :
    Traverses (0x3C :: (name ++ attributes ++ [0x3E])) s ⟨name :: s.open_, p⟩ := by
  have hsplit := htag.splitFirst_tag [] rfl []
  rw [List.append_nil] at hsplit
  have hadvance : s.advance (.tag (name ++ attributes)) = .ok ⟨name :: s.open_, p⟩ := by
    have hstep : s.progress.step (.start ⟨name, attributes⟩) = .ok p := hstart
    simp only [Position.advance, htag.kind_start, Position.take, hstep]
    rfl
  exact cons hsplit hadvance (nil _)

/-- An end tag with the name of the innermost element closes it. -/
theorem close {name attributes : Bytes} {open_ : List Bytes} {p q : Progress}
    (htag : IsTag name attributes) (hclose : p.onClose name = .ok q) :
    Traverses (0x3C :: (0x2F :: name ++ [0x3E])) ⟨name :: open_, p⟩ ⟨open_, q⟩ := by
  have hsplit := htag.splitFirst_close (rfl : ([] : Bytes).foldlM tagStep none = some none) []
  have hkind := htag.kind_close (by simp : ∀ b ∈ ([] : Bytes), isSpace b)
  rw [List.append_nil] at hsplit hkind
  have hadvance : Position.advance ⟨name :: open_, p⟩ (.tag (0x2F :: name)) = .ok ⟨open_, q⟩ := by
    have hstep : p.step (.close name) = .ok q := hclose
    simp only [Position.advance, hkind, if_pos, Position.take, hstep]
    rfl
  exact cons hsplit hadvance (nil _)

/-! ### Whole documents -/

/-- What is left of a document is read as a passage to where no element is open. -/
theorem read_eq_ok_iff {d : Document} : s.read bs = .ok d ↔
    ∃ t, Traverses bs s t ∧ t.progress.path = [] ∧ t.progress.document = d := by
  rw [Position.read_eq_foldlM, bind_eq_ok_iff]
  constructor
  · rintro ⟨t, hrun, hstop⟩
    obtain ⟨hfault, hpath, hdocument⟩ := Position.stop_eq_ok_iff.1 hstop
    exact ⟨t, ⟨hfault, hrun⟩, hpath, hdocument⟩
  · rintro ⟨t, ⟨hfault, hrun⟩, hpath, hdocument⟩
    exact ⟨t, hrun, Position.stop_eq_ok_iff.2 ⟨hfault, hpath, hdocument⟩⟩

end Traverses

end ColorChain.Record
