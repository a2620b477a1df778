import ColorChain.Proofs.Record.Document

/-!
# Positions in a document

A document is read by going over its pieces from the left. A position is what is known between two of
them. Documents that begin alike come to one position, if the beginning ends before markup, and what
follows is read from there.
-/

namespace ColorChain.Record

open Markup Text

/-- The names of the open elements, innermost first, and the progress. -/
structure Position where
  open_ : List Bytes := []
  progress : Progress := {}

namespace Position

/-- The position after one more event, with the elements `open_` open after it. -/
def take (s : Position) (event : Event) (open_ : List Bytes) : Except DocumentFault Position :=
  (s.progress.step event).map fun p => ⟨open_, p⟩

/-- The position after one more piece. -/
def advance (s : Position) (piece : Piece) : Except DocumentFault Position :=
  match piece with
  | .text content => s.take (.text content) s.open_
  | .cdata content => s.take (.cdata content) s.open_
  | .reference content => s.take (.reference content) s.open_
  | .skipped => .ok s
  | .tag content =>
    match TagKind.ofContent content with
    | .start tag => s.take (.start tag) (tag.name :: s.open_)
    | .empty tag => s.take (.empty tag) s.open_
    | .close name =>
      match s.open_ with
      | [] => .error (.markup (.unmatchedEnd (faultName name)))
      | expected :: outer =>
        if name = expected then s.take (.close name) outer
        else .error (.markup (.mismatchedEnd (faultName expected) (faultName name)))

/-- What a document holds that goes on with `bs` from a position. -/
def read (s : Position) (bs : Bytes) : Except DocumentFault Document :=
  readFrom s.open_ s.progress bs

/-- What a document holds that ends at a position, with the fault of its pieces. -/
def stop (s : Position) (fault : Option MarkupFault) : Except DocumentFault Document :=
  s.progress.conclude ⟨[], fault⟩

theorem conclude_take (s : Position) (event : Event) (open_ : List Bytes) (reading : Reading Event)
    (rest : Position → Except DocumentFault Document)
    (h : ∀ p, p.conclude reading = rest ⟨open_, p⟩) :
    s.progress.conclude (reading.cons event) = (s.take event open_).bind rest := by
  simp only [take, Reading.cons, Progress.conclude, List.foldlM_cons]
  cases s.progress.step event with
  | error fault => rfl
  | ok p => exact h p

/-- The events of pieces are read as the pieces are gone over. -/
theorem conclude_eventsOf (items : List Piece) (fault : Option MarkupFault) (s : Position) :
    s.progress.conclude
        { eventsOf s.open_ items with fault := (eventsOf s.open_ items).fault <|> fault }
      = (items.foldlM advance s).bind (stop · fault) := by
  induction items generalizing s with
  | nil => rfl
  | cons piece items ih =>
      rw [List.foldlM_cons]
      have hevent (event : Event) (open_ : List Bytes) :
          s.progress.conclude
              { (eventsOf open_ items).cons event with
                fault := ((eventsOf open_ items).cons event).fault <|> fault }
            = ((s.take event open_).bind fun s => items.foldlM advance s).bind (stop · fault) := by
        have h := conclude_take s event open_
          { eventsOf open_ items with fault := (eventsOf open_ items).fault <|> fault }
          (fun s => (items.foldlM advance s).bind (stop · fault)) fun p => ih ⟨open_, p⟩
        refine h.trans ?_
        cases s.take event open_ <;> rfl
      cases piece with
      | text content => exact hevent (.text content) s.open_
      | cdata content => exact hevent (.cdata content) s.open_
      | reference content => exact hevent (.reference content) s.open_
      | skipped => exact ih s
      | tag content =>
          simp only [eventsOf, advance]
          cases hkind : TagKind.ofContent content with
          | start tag => exact hevent (.start tag) (tag.name :: s.open_)
          | empty tag => exact hevent (.empty tag) s.open_
          | close name =>
              cases hopen : s.open_ with
              | nil => rfl
              | cons expected outer =>
                  dsimp only
                  by_cases hname : name = expected
                  · rw [if_pos hname, if_pos hname]
                    exact hevent (.close name) outer
                  · rw [if_neg hname, if_neg hname]
                    rfl

/-- Reading on from a position goes over the pieces that are left. -/
theorem read_eq_foldlM (s : Position) (bs : Bytes) :
    s.read bs = ((pieces bs).items.foldlM advance s).bind (stop · (pieces bs).fault) :=
  conclude_eventsOf _ _ s

/-- Reading on from a position goes over the next piece first. -/
theorem read_cons {b : UInt8} {bs rest : Bytes} {piece : Piece}
    (hsplit : splitFirst b bs = .ok (piece, rest)) (s : Position) :
    s.read (b :: bs) = (s.advance piece).bind (·.read rest) := by
  simp only [read_eq_foldlM, pieces_cons hsplit, Reading.cons, List.foldlM_cons]
  cases s.advance piece <;> rfl

end Position

/-- What follows a beginning without a fault is read from where the beginning ends. -/
theorem read_append {before : Bytes} (h : (pieces (dropByteOrderMark before)).fault = none)
    (rest : Bytes) : Document.read (before ++ 0x3C :: rest)
      = ((pieces (dropByteOrderMark before)).items.foldlM Position.advance {}).bind
        (·.read (0x3C :: rest)) := by
  have hread (bs : Bytes) : Document.read bs = ({} : Position).read (dropByteOrderMark bs) := rfl
  simp only [hread, dropByteOrderMark_append, Position.read_eq_foldlM, pieces_append _ h,
    List.foldlM_append]
  cases (pieces (dropByteOrderMark before)).items.foldlM Position.advance {} <;> rfl

/-- A document that begins with `before` is at the position when markup follows. -/
structure Reaches (before : Bytes) (s : Position) : Prop where
  /-- The beginning ends between two pieces. -/
  fault_eq : (pieces (dropByteOrderMark before)).fault = none
  run_eq : (pieces (dropByteOrderMark before)).items.foldlM Position.advance {} = .ok s

namespace Reaches

/-- Before anything is read nothing is open. -/
theorem nil : Reaches [] {} := by
  have hpieces : pieces (dropByteOrderMark []) = ⟨[], none⟩ := pieces_nil
  constructor
  · rw [hpieces]
  · rw [hpieces]
    rfl

/-- A start tag after a beginning opens an element. -/
theorem start {before name attributes : Bytes} {s : Position} {p : Progress}
    (h : Reaches before s) (htag : IsTag name attributes)
    (hstart : s.progress.onStart ⟨name, attributes⟩ = .ok p) :
    Reaches (before ++ 0x3C :: (name ++ attributes ++ [0x3E])) ⟨name :: s.open_, p⟩ := by
  have hsplit := htag.splitFirst_tag [] rfl []
  rw [List.append_nil] at hsplit
  have htagPieces : pieces (0x3C :: (name ++ attributes ++ [0x3E]))
      = ⟨[.tag (name ++ attributes)], none⟩ := by
    rw [pieces_cons hsplit, pieces_nil]
    rfl
  have hpieces := pieces_append (name ++ attributes ++ [0x3E]) h.fault_eq
  rw [← dropByteOrderMark_append, htagPieces] at hpieces
  have hadvance : s.advance (.tag (name ++ attributes)) = .ok ⟨name :: s.open_, p⟩ := by
    have hstep : s.progress.step (.start ⟨name, attributes⟩) = .ok p := hstart
    simp only [Position.advance, htag.kind_start, Position.take, hstep]
    rfl
  constructor
  · rw [hpieces]
  · rw [hpieces, List.foldlM_append, h.run_eq]
    change s.advance _ >>= _ = _
    rw [hadvance]
    rfl

/-- What follows a beginning is read from the position that it reaches. -/
theorem read_eq {before : Bytes} {s : Position} (h : Reaches before s) (rest : Bytes) :
    Document.read (before ++ 0x3C :: rest) = s.read (0x3C :: rest) := by
  rw [read_append h.fault_eq, h.run_eq]
  rfl

end Reaches

end ColorChain.Record
