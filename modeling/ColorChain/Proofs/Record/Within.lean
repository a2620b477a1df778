import ColorChain.Proofs.Record.Passage

/-!
# Reading inside a collection

What is read of a document is read in the same way inside the element of a collection, after other
records. A correction and a decision are open only inside elements of their kind, so none is open when
all elements are closed, and the text that is left belongs to the collection, whose end does not look
at it.
-/

namespace ColorChain.Record

open Markup Text

/-! ### Open records

A correction or a decision is open only inside an element of its kind. -/

namespace Progress

/-- A remark opens and closes nothing. -/
theorem addNote_open (p : Progress) (kind : NoteKind) (parent : Element) :
    (p.addNote kind parent).path = p.path ∧
      (p.addNote kind parent).correction?.isSome = p.correction?.isSome ∧
      (p.addNote kind parent).decision?.isSome = p.decision?.isSome := by
  cases parent with
  | tone => by_cases h : kind = .description <;> simp [addNote, h]
  | _ => simp [addNote]

/-- The end of an element closes the record of its kind and opens nothing. -/
theorem finish_open {p q : Progress} {element : Element} (h : p.finish element = .ok q) :
    q.path = p.path ∧ (q.correction?.isSome → p.correction?.isSome ∧ element ≠ .correction) ∧
      (q.decision?.isSome → p.decision?.isSome ∧ element ≠ .decision) := by
  cases element with
  | setting setting =>
      simp only [finish] at h
      cases hcorrection : p.correction? with
      | none =>
          rw [hcorrection] at h
          cases h
          simp [hcorrection]
      | some c =>
          rw [hcorrection] at h
          obtain ⟨grade, -, rfl⟩ := map_eq_ok_iff.1 h
          simp
  | description | inputDescription | viewingDescription =>
      cases h
      simp [addNote_open]
  | correction =>
      cases h
      unfold endCorrection
      cases hcorrection : p.correction? <;> simp [pushCorrection, hcorrection]
  | decision =>
      cases h
      unfold endDecision
      cases hdecision : p.decision? <;> simp [hdecision]
  | collection | tone | saturation | mediaRef | other =>
      cases h
      simp

/-- What a start tag does to the path and the text. A record that it opens is of its kind. -/
theorem onStart_open {p q : Progress} {tag : Tag} (h : p.onStart tag = .ok q) :
    q.path = nameText tag.name :: p.path ∧
      (q.correction?.isSome → p.correction?.isSome ∨
        Element.ofName (nameText tag.name) = .correction) ∧
      (q.decision?.isSome → p.decision?.isSome ∨
        Element.ofName (nameText tag.name) = .decision) := by
  by_cases hcorrection : Element.ofName (nameText tag.name) = .correction
  · rw [onStart_correction hcorrection] at h
    obtain ⟨id?, -, rfl⟩ := map_eq_ok_iff.1 h
    exact ⟨rfl, fun _ => .inr hcorrection, .inl⟩
  by_cases hdecision : Element.ofName (nameText tag.name) = .decision
  · rw [onStart_decision hdecision] at h
    cases h
    exact ⟨rfl, .inl, fun _ => .inr hdecision⟩
  · rw [onStart_eq_enter hdecision hcorrection] at h
    cases h
    exact ⟨rfl, .inl, .inl⟩

theorem onEmpty_open {p q : Progress} {tag : Tag} (h : p.onEmpty tag = .ok q) :
    q.path = p.path ∧ q.correction?.isSome = p.correction?.isSome ∧
      q.decision?.isSome = p.decision?.isSome := by
  unfold onEmpty at h
  split at h
  · next hdecision =>
    obtain ⟨ref?, -, rfl⟩ := map_eq_ok_iff.1 h
    simp [hdecision]
  · obtain ⟨id?, -, rfl⟩ := map_eq_ok_iff.1 h
    exact ⟨rfl, rfl, rfl⟩
  · cases h
    exact ⟨rfl, rfl, rfl⟩

end Progress

namespace Position

/-- The path names the open elements, and an open correction or decision is inside an element of its
kind. -/
structure Enclosed (s : Position) : Prop where
  path_eq : s.progress.path = s.open_.map nameText
  correction : s.progress.correction?.isSome →
    ∃ name ∈ s.progress.path, Element.ofName name = .correction
  decision : s.progress.decision?.isSome →
    ∃ name ∈ s.progress.path, Element.ofName name = .decision

theorem enclosed_start : Enclosed {} where
  path_eq := rfl
  correction hsome := by cases hsome
  decision hsome := by cases hsome

namespace Enclosed

variable {s t : Position}

/-- What leaves the open elements and records as they are keeps a position enclosed. -/
theorem of_eq (h : s.Enclosed) (hopen : t.open_ = s.open_)
    (hpath : t.progress.path = s.progress.path)
    (hcorrection : t.progress.correction?.isSome = s.progress.correction?.isSome)
    (hdecision : t.progress.decision?.isSome = s.progress.decision?.isSome) : t.Enclosed where
  path_eq := by rw [hpath, hopen, h.path_eq]
  correction := by rw [hpath, hcorrection]; exact h.correction
  decision := by rw [hpath, hdecision]; exact h.decision

theorem start (h : s.Enclosed) {tag : Tag} {p : Progress} (hp : s.progress.onStart tag = .ok p) :
    Enclosed ⟨tag.name :: s.open_, p⟩ := by
  obtain ⟨hpath, hcorrection, hdecision⟩ := Progress.onStart_open hp
  constructor
  · rw [hpath, h.path_eq]
    rfl
  · intro hsome
    rw [hpath, List.exists_mem_cons_iff]
    exact (hcorrection hsome).symm.imp_right h.correction
  · intro hsome
    rw [hpath, List.exists_mem_cons_iff]
    exact (hdecision hsome).symm.imp_right h.decision

theorem close {name : Bytes} {outer : List Bytes} {p q : Progress}
    (h : Enclosed ⟨name :: outer, p⟩) (hq : p.onClose name = .ok q) : Enclosed ⟨outer, q⟩ := by
  obtain ⟨r, hr, rfl⟩ := map_eq_ok_iff.1 hq
  obtain ⟨hpath, hcorrection, hdecision⟩ := Progress.finish_open hr
  have hp : p.path = nameText name :: outer.map nameText := h.path_eq
  have hrest : r.path.drop 1 = outer.map nameText := by rw [hpath, hp]; rfl
  constructor
  · exact hrest
  · intro hsome
    obtain ⟨hopen, hne⟩ := hcorrection hsome
    obtain hhead | htail := (List.exists_mem_cons_iff _ _ _).1 (hp ▸ h.correction hopen)
    · exact absurd hhead hne
    · exact hrest ▸ htail
  · intro hsome
    obtain ⟨hopen, hne⟩ := hdecision hsome
    obtain hhead | htail := (List.exists_mem_cons_iff _ _ _).1 (hp ▸ h.decision hopen)
    · exact absurd hhead hne
    · exact hrest ▸ htail

/-- One more piece keeps a position enclosed. -/
theorem advance (h : s.Enclosed) {piece : Piece} (ht : s.advance piece = .ok t) : t.Enclosed := by
  have htext {source : TextSource} {content : Bytes} {p : Progress}
      (hp : s.progress.onText source content = .ok p) : Enclosed ⟨s.open_, p⟩ := by
    unfold Progress.onText at hp
    split at hp
    · cases hp
    · cases hp
      exact h.of_eq rfl rfl rfl rfl
  cases piece with
  | text content =>
      obtain ⟨p, hp, rfl⟩ := map_eq_ok_iff.1 ht
      exact htext hp
  | cdata content =>
      obtain ⟨p, hp, rfl⟩ := map_eq_ok_iff.1 ht
      exact htext hp
  | reference content =>
      obtain ⟨p, hp, rfl⟩ := map_eq_ok_iff.1 ht
      obtain ⟨c, -, rfl⟩ := map_eq_ok_iff.1 hp
      exact h.of_eq rfl rfl rfl rfl
  | skipped =>
      cases ht
      exact h
  | tag content =>
      simp only [Position.advance] at ht
      split at ht
      · obtain ⟨p, hp, rfl⟩ := map_eq_ok_iff.1 ht
        exact h.start hp
      · obtain ⟨p, hp, rfl⟩ := map_eq_ok_iff.1 ht
        obtain ⟨hpath, hcorrection, hdecision⟩ := Progress.onEmpty_open hp
        exact h.of_eq rfl hpath hcorrection hdecision
      · split at ht
        · cases ht
        · next hopen =>
          split at ht
          · next hname =>
            obtain ⟨p, hp, rfl⟩ := map_eq_ok_iff.1 ht
            obtain ⟨open_, progress⟩ := s
            subst hname hopen
            exact h.close hp
          · cases ht

theorem run (h : s.Enclosed) {items : List Piece}
    (hrun : items.foldlM Position.advance s = .ok t) : t.Enclosed := by
  induction items generalizing s with
  | nil =>
      cases hrun
      exact h
  | cons piece items ih =>
      rw [List.foldlM_cons] at hrun
      obtain ⟨s', hadvance, hrest⟩ := do_eq_ok_iff.1 hrun
      exact ih (h.advance hadvance) hrest

end Enclosed

end Position

/-! ### Reading inside a collection -/

namespace Progress

/-- Two readings have the same records open, and what the second has collected is what was there
before and then what the first has collected. -/
structure Follows (before : Document) (p q : Progress) : Prop where
  correction_eq : q.correction? = p.correction?
  decision_eq : q.decision? = p.decision?
  corrections_eq : q.document.corrections = before.corrections ++ p.document.corrections
  decisions_eq : q.document.decisions = before.decisions ++ p.document.decisions

namespace Follows

variable {before : Document} {p p' q : Progress}

/-- Nothing but the text and the path is changed. -/
theorem enter (h : Follows before p q) (path path' : List String) (text text' : List Char) :
    Follows before { p with path := path, text := text } { q with path := path', text := text' } :=
  ⟨h.correction_eq, h.decision_eq, h.corrections_eq, h.decisions_eq⟩

/-- A remark outside all elements of the first reading may be one on the collection. -/
theorem addNote (h : Follows before p q) (htext : q.text = p.text) (kind : NoteKind)
    {parent parent' : Element}
    (hparent : parent' = parent ∨ parent = .other ∧ parent' = .collection) :
    Follows before (p.addNote kind parent) (q.addNote kind parent') := by
  obtain ⟨hcorrection, hdecision, hcorrections, hdecisions⟩ := h
  rcases hparent with rfl | ⟨rfl, rfl⟩
  · cases parent' with
    | tone =>
        by_cases hkind : kind = .description <;> constructor <;>
          simp [Progress.addNote, hkind, htext, hcorrection, hdecision, hcorrections, hdecisions]
    | _ =>
        constructor <;>
          simp [Progress.addNote, htext, hcorrection, hdecision, hcorrections, hdecisions]
  · exact ⟨hcorrection, hdecision, hcorrections, hdecisions⟩

theorem endCorrection (h : Follows before p q) : Follows before p.endCorrection q.endCorrection := by
  obtain ⟨hcorrection, hdecision, hcorrections, hdecisions⟩ := h
  unfold Progress.endCorrection
  rw [hcorrection]
  cases hopen : p.correction? with
  | none => exact ⟨hcorrection, hdecision, hcorrections, hdecisions⟩
  | some c => constructor <;> simp [pushCorrection, hdecision, hcorrections, hdecisions]

theorem endDecision (h : Follows before p q) : Follows before p.endDecision q.endDecision := by
  obtain ⟨hcorrection, hdecision, hcorrections, hdecisions⟩ := h
  unfold Progress.endDecision
  rw [hdecision]
  cases hopen : p.decision? with
  | none => exact ⟨hcorrection, hdecision, hcorrections, hdecisions⟩
  | some d => constructor <;> simp [hcorrection, hcorrections, hdecisions]

/-- The end of an element does the same to both. -/
theorem finish (h : Follows before p q) (htext : q.text = p.text)
    (hparent : q.parent = p.parent ∨ p.parent = .other ∧ q.parent = .collection)
    {element : Element} (hp : p.finish element = .ok p') :
    ∃ q', q.finish element = .ok q' ∧ Follows before p' q' := by
  cases element with
  | setting setting =>
      simp only [Progress.finish] at hp ⊢
      rw [h.correction_eq, htext]
      cases hopen : p.correction? with
      | none =>
          rw [hopen] at hp
          cases hp
          exact ⟨q, rfl, h⟩
      | some c =>
          rw [hopen] at hp
          obtain ⟨grade, hgrade, rfl⟩ := map_eq_ok_iff.1 hp
          exact ⟨_, map_eq_ok_iff.2 ⟨grade, hgrade, rfl⟩,
            ⟨rfl, h.decision_eq, h.corrections_eq, h.decisions_eq⟩⟩
  | description =>
      cases hp
      exact ⟨_, rfl, h.addNote htext .description hparent⟩
  | inputDescription =>
      cases hp
      exact ⟨_, rfl, h.addNote htext .input hparent⟩
  | viewingDescription =>
      cases hp
      exact ⟨_, rfl, h.addNote htext .viewing hparent⟩
  | correction =>
      cases hp
      exact ⟨_, rfl, h.endCorrection⟩
  | decision =>
      cases hp
      exact ⟨_, rfl, h.endDecision⟩
  | collection | tone | saturation | mediaRef | other =>
      cases hp
      exact ⟨q, rfl, h⟩

theorem onStart (h : Follows before p q) {tag : Tag} (hp : p.onStart tag = .ok p') :
    ∃ q', q.onStart tag = .ok q' ∧ Follows before p' q' ∧ q'.text = p'.text := by
  obtain ⟨hcorrection, hdecision, hcorrections, hdecisions⟩ := h
  by_cases hcorrectionKind : Element.ofName (nameText tag.name) = .correction
  · rw [onStart_correction hcorrectionKind] at hp ⊢
    obtain ⟨id?, hid, rfl⟩ := map_eq_ok_iff.1 hp
    exact ⟨_, map_eq_ok_iff.2 ⟨id?, hid, rfl⟩, ⟨rfl, hdecision, hcorrections, hdecisions⟩, rfl⟩
  by_cases hdecisionKind : Element.ofName (nameText tag.name) = .decision
  · rw [onStart_decision hdecisionKind] at hp ⊢
    cases hp
    exact ⟨_, rfl, ⟨hcorrection, rfl, hcorrections, hdecisions⟩, rfl⟩
  · rw [onStart_eq_enter hdecisionKind hcorrectionKind] at hp ⊢
    cases hp
    exact ⟨_, rfl, ⟨hcorrection, hdecision, hcorrections, hdecisions⟩, rfl⟩

theorem onEmpty (h : Follows before p q) {tag : Tag} (hp : p.onEmpty tag = .ok p') :
    ∃ q', q.onEmpty tag = .ok q' ∧ Follows before p' q' ∧ p'.text = p.text ∧ q'.text = q.text := by
  obtain ⟨hcorrection, hdecision, hcorrections, hdecisions⟩ := h
  unfold Progress.onEmpty at hp ⊢
  rw [hdecision]
  split at hp
  · obtain ⟨ref?, href, rfl⟩ := map_eq_ok_iff.1 hp
    exact ⟨_, map_eq_ok_iff.2 ⟨ref?, href, rfl⟩, ⟨hcorrection, rfl, hcorrections, hdecisions⟩, rfl, rfl⟩
  · obtain ⟨id?, hid, rfl⟩ := map_eq_ok_iff.1 hp
    refine ⟨_, map_eq_ok_iff.2 ⟨id?, hid, rfl⟩, ⟨hcorrection, hdecision, ?_, hdecisions⟩, rfl, rfl⟩
    simp [pushCorrection, hcorrections]
  · cases hp
    exact ⟨q, rfl, ⟨hcorrection, hdecision, hcorrections, hdecisions⟩, rfl, rfl⟩

end Follows

end Progress

namespace Position

/-- The second position is the first inside one more element and after what `before` collects. Only
the text of that element may be another. -/
structure Within (outer : Bytes) (before : Document) (s t : Position) : Prop where
  open_eq : t.open_ = s.open_ ++ [outer]
  path_eq : t.progress.path = s.progress.path ++ [nameText outer]
  follows : Progress.Follows before s.progress t.progress
  text_eq : s.open_ ≠ [] → t.progress.text = s.progress.text

namespace Within

variable {outer : Bytes} {before : Document} {s s' t : Position}

theorem parent_eq (h : Within outer before s t)
    (houter : Element.ofName (nameText outer) = .collection) :
    t.progress.parent = s.progress.parent ∨
      s.progress.parent = .other ∧ t.progress.parent = .collection := by
  simp only [Progress.parent, h.path_eq]
  match s.progress.path with
  | [] => exact .inl rfl
  | [_] => exact .inr ⟨rfl, houter⟩
  | _ :: _ :: _ => exact .inl rfl

/-- More text is the same text in both where the text was the same. -/
theorem onText (h : Within outer before s t) {source : TextSource} {content : Bytes}
    {p : Progress} (hp : s.progress.onText source content = .ok p) :
    ∃ q, t.progress.onText source content = .ok q ∧
      Within outer before ⟨s.open_, p⟩ ⟨t.open_, q⟩ := by
  unfold Progress.onText at hp ⊢
  split at hp
  · cases hp
  · next cs _ =>
    cases hp
    refine ⟨_, rfl, h.open_eq, h.path_eq, h.follows.enter _ _ _ _, fun hne => ?_⟩
    exact congrArg (· ++ cs) (h.text_eq hne)

theorem reference (h : Within outer before s t) {content : Bytes} {p : Progress}
    (hp : s.progress.step (.reference content) = .ok p) :
    ∃ q, t.progress.step (.reference content) = .ok q ∧
      Within outer before ⟨s.open_, p⟩ ⟨t.open_, q⟩ := by
  obtain ⟨c, hc, rfl⟩ := map_eq_ok_iff.1 hp
  refine ⟨_, map_eq_ok_iff.2 ⟨c, hc, rfl⟩, h.open_eq, h.path_eq, h.follows.enter _ _ _ _,
    fun hne => ?_⟩
  exact congrArg (· ++ [c]) (h.text_eq hne)

theorem start (h : Within outer before s t) {tag : Tag} {p : Progress}
    (hp : s.progress.onStart tag = .ok p) :
    ∃ q, t.progress.onStart tag = .ok q ∧
      Within outer before ⟨tag.name :: s.open_, p⟩ ⟨tag.name :: t.open_, q⟩ := by
  obtain ⟨q, hq, hfollows, htext⟩ := h.follows.onStart hp
  refine ⟨q, hq, congrArg _ h.open_eq, ?_, hfollows, fun _ => htext⟩
  rw [(Progress.onStart_open hq).1, (Progress.onStart_open hp).1, h.path_eq]
  rfl

theorem empty (h : Within outer before s t) {tag : Tag} {p : Progress}
    (hp : s.progress.onEmpty tag = .ok p) :
    ∃ q, t.progress.onEmpty tag = .ok q ∧ Within outer before ⟨s.open_, p⟩ ⟨t.open_, q⟩ := by
  obtain ⟨q, hq, hfollows, hptext, hqtext⟩ := h.follows.onEmpty hp
  refine ⟨q, hq, h.open_eq, ?_, hfollows, fun hne => ?_⟩
  · rw [(Progress.onEmpty_open hq).1, (Progress.onEmpty_open hp).1, h.path_eq]
  · rw [hqtext, hptext, h.text_eq hne]

theorem close {name : Bytes} {inner inner' : List Bytes} {p p' q : Progress}
    (h : Within outer before ⟨name :: inner, p⟩ ⟨name :: inner', q⟩)
    (houter : Element.ofName (nameText outer) = .collection)
    (hpath : p.path ≠ []) (hp : p.onClose name = .ok p') :
    ∃ q', q.onClose name = .ok q' ∧ Within outer before ⟨inner, p'⟩ ⟨inner', q'⟩ := by
  obtain ⟨r, hr, rfl⟩ := map_eq_ok_iff.1 hp
  have htext : q.text = p.text := h.text_eq (List.cons_ne_nil _ _)
  obtain ⟨r', hr', hfollows⟩ := h.follows.finish htext (h.parent_eq houter) hr
  refine ⟨_, map_eq_ok_iff.2 ⟨r', hr', rfl⟩, (List.cons.inj h.open_eq).2, ?_,
    hfollows.enter _ _ _ _, fun _ => rfl⟩
  have hq : q.path = p.path ++ [nameText outer] := h.path_eq
  simp only [(Progress.finish_open hr).1, (Progress.finish_open hr').1, hq]
  exact List.drop_append_of_le_length (List.length_pos_iff.2 hpath)

/-- One more piece is gone over in the same way inside the element. -/
theorem advance (h : Within outer before s t)
    (houter : Element.ofName (nameText outer) = .collection) (hs : s.Enclosed) {piece : Piece}
    (hadvance : s.advance piece = .ok s') :
    ∃ t', t.advance piece = .ok t' ∧ Within outer before s' t' := by
  cases piece with
  | text content =>
      obtain ⟨p, hp, rfl⟩ := map_eq_ok_iff.1 hadvance
      obtain ⟨q, hq, hwithin⟩ := h.onText hp
      exact ⟨_, map_eq_ok_iff.2 ⟨q, hq, rfl⟩, hwithin⟩
  | cdata content =>
      obtain ⟨p, hp, rfl⟩ := map_eq_ok_iff.1 hadvance
      obtain ⟨q, hq, hwithin⟩ := h.onText hp
      exact ⟨_, map_eq_ok_iff.2 ⟨q, hq, rfl⟩, hwithin⟩
  | reference content =>
      obtain ⟨p, hp, rfl⟩ := map_eq_ok_iff.1 hadvance
      obtain ⟨q, hq, hwithin⟩ := h.reference hp
      exact ⟨_, map_eq_ok_iff.2 ⟨q, hq, rfl⟩, hwithin⟩
  | skipped =>
      cases hadvance
      exact ⟨t, rfl, h⟩
  | tag content =>
      simp only [Position.advance] at hadvance ⊢
      cases hkind : TagKind.ofContent content with
      | start tag =>
          rw [hkind] at hadvance
          obtain ⟨p, hp, rfl⟩ := map_eq_ok_iff.1 hadvance
          obtain ⟨q, hq, hwithin⟩ := h.start hp
          exact ⟨_, map_eq_ok_iff.2 ⟨q, hq, rfl⟩, hwithin⟩
      | empty tag =>
          rw [hkind] at hadvance
          obtain ⟨p, hp, rfl⟩ := map_eq_ok_iff.1 hadvance
          obtain ⟨q, hq, hwithin⟩ := h.empty hp
          exact ⟨_, map_eq_ok_iff.2 ⟨q, hq, rfl⟩, hwithin⟩
      | close name =>
          obtain ⟨open_, p⟩ := s
          obtain ⟨open', q⟩ := t
          rw [hkind] at hadvance
          cases open_ with
          | nil => cases hadvance
          | cons expected inner =>
              obtain rfl : open' = expected :: (inner ++ [outer]) := h.open_eq
              dsimp only at hadvance ⊢
              split at hadvance
              · next hname =>
                subst hname
                obtain ⟨p', hp, rfl⟩ := map_eq_ok_iff.1 hadvance
                have hpath : p.path ≠ [] := by
                  rw [show p.path = _ from hs.path_eq]
                  exact List.cons_ne_nil _ _
                obtain ⟨q', hq, hwithin⟩ := h.close houter hpath hp
                rw [if_pos rfl]
                exact ⟨_, map_eq_ok_iff.2 ⟨q', hq, rfl⟩, hwithin⟩
              · cases hadvance

/-- Pieces are gone over in the same way inside the element. -/
theorem run {items : List Piece} (h : Within outer before s t)
    (houter : Element.ofName (nameText outer) = .collection) (hs : s.Enclosed)
    (hrun : items.foldlM Position.advance s = .ok s') :
    ∃ t', items.foldlM Position.advance t = .ok t' ∧ Within outer before s' t' ∧ s'.Enclosed := by
  induction items generalizing s t with
  | nil =>
      cases hrun
      exact ⟨t, rfl, h, hs⟩
  | cons piece items ih =>
      rw [List.foldlM_cons] at hrun
      obtain ⟨s₁, hadvance, hrest⟩ := do_eq_ok_iff.1 hrun
      obtain ⟨t₁, ht₁, hwithin⟩ := h.advance houter hs hadvance
      obtain ⟨t', ht', hend⟩ := ih hwithin (hs.advance hadvance) hrest
      refine ⟨t', ?_, hend⟩
      rw [List.foldlM_cons, ht₁]
      exact ht'

end Within

end Position

end ColorChain.Record
