import ColorChain.Proofs.Number.Special
import ColorChain.Proofs.Text.Utf8
import ColorChain.Proofs.Transform.Compilable
import ColorChain.Proofs.Transform.Document

/-!
# Well-formed trees

What makes a node well formed is said of the node alone. One walk over the tree, through the children of
groups and the parts of displays, finds it valid exactly if every node in it is well formed. Documents
are read without a look at the number of variables, so it is this walk that keeps an allocation with a
wrong number of them from being taken for one without any.
-/

namespace ColorChain

universe u

section

variable {α : Type u} [OfScientific α] [Zero α] [One α] [Neg α] [BEq α] [LT α] [DecidableLT α]

theorem checkVarCount_eq_ok_iff {α : Type u} {count : Nat} :
    (checkVarCount count : Except (Defect α) Unit) = .ok () ↔ count = 0 ∨ count = 3 := by
  by_cases h : count = 0 ∨ count = 3 <;> simp [checkVarCount, h]

omit [LT α] [DecidableLT α] in
theorem Allocation.validate_eq_ok_iff {a : Allocation α} : a.validate = .ok () ↔
    (a.vars.length = 0 ∨ a.vars.length = 3) ∧ (a.span.least == a.span.greatest) = false := by
  rw [validate, bind_eq_ok_iff, exists_and_right, exists_unit_eq_ok_iff, checkVarCount_eq_ok_iff]
  cases a.span.least == a.span.greatest <;> simp

theorem validateBase_iff {α : Type u} [Zero α] [One α] [BEq α] [LT α] [DecidableLT α] {base : α} :
    validateBase base = .ok () ↔ 0 < base ∧ (base == 1) = false := by
  simp [validateBase]

end

/-- The span that the allocation uses is what its variables say, or that of its encoding if there are
none. -/
def Allocation.HasOwnSpan (a : Allocation Float) : Prop :=
  a.vars = [] ∧ a.span = a.encoding.defaultSpan ∨
    a.vars = [a.span.least, a.span.greatest, a.span.offset]

theorem Allocation.hasOwnSpan_of_length {a : Allocation Float}
    (h : a.vars.length = 0 ∨ a.vars.length = 3) : a.HasOwnSpan := by
  obtain ⟨encoding, vars⟩ := a
  rcases h with h | h
  · exact .inl ⟨List.length_eq_zero_iff.mp h, by rw [span, List.length_eq_zero_iff.mp h]⟩
  · obtain ⟨least, greatest, offset, rfl⟩ := List.length_eq_three.mp h
    exact .inr rfl

namespace Transform

/-- What is asked of a node by itself: a known direction, and of an allocation none or three variables
and a span that is not empty, of a logarithm a base that is a number above zero other than one. -/
structure IsWellFormed (s : Transform Float) : Prop where
  direction : s.direction ≠ .unknown
  allocation : ∀ own a, s = .atom own (.allocation a) →
    (a.vars.length = 0 ∨ a.vars.length = 3) ∧ (a.span.least == a.span.greatest) = false
  log : ∀ own base, s = .atom own (.log base) →
    base.isNaN = false ∧ 0 < base ∧ (base == 1) = false

/-- The checks on a node find it well formed. -/
theorem isWellFormed_iff {s : Transform Float} : s.IsWellFormed ↔
    s.direction ≠ .unknown ∧ ∀ own a, s = .atom own a → a.validate = .ok () := by
  constructor
  · intro h
    refine ⟨h.direction, fun own a hs => ?_⟩
    cases a with
    | allocation a => exact Allocation.validate_eq_ok_iff.mpr (h.allocation own a hs)
    | log base => exact validateBase_iff.mpr (h.log own base hs).2
    | _ => rfl
  · rintro ⟨hdirection, hatom⟩
    refine ⟨hdirection, fun own a hs => ?_, fun own base hs => ?_⟩
    · exact Allocation.validate_eq_ok_iff.mp (hatom own _ hs)
    · have hbase := validateBase_iff.mp (hatom own _ hs)
      exact ⟨Number.isNaN_of_zero_lt hbase.1, hbase⟩

/-- A tree is valid if every node in it is well formed, by induction on the tree. -/
theorem validate_iff_occurs (t : Transform Float) :
    t.validate = .ok () ↔ ∀ s, Occurs s t → s.IsWellFormed := by
  induction t using induction_on_parts with
  | step t ih =>
      rw [validate_iff_parts, ← isWellFormed_iff]
      constructor
      · rintro ⟨hroot, hparts⟩ s hs
        rcases occurs_iff.mp hs with rfl | ⟨part, hpart, inner⟩
        · exact hroot
        · exact (ih part hpart).mp (hparts part hpart) s inner
      · intro h
        refine ⟨h t .root, fun part hpart => (ih part hpart).mpr fun s hs => ?_⟩
        exact h s (.part hpart hs)

theorem validate_of_ofText {cs : List Char} {t : Transform Float} (h : ofText cs = .ok t) :
    t.validate = .ok () := by
  unfold ofText at h
  split at h
  · cases h
  · split at h
    · cases h
    · next hvalid =>
      cases h
      exact hvalid

theorem validate_of_ofFile {directory : Storage.Directory} {path : List Char} {t : Transform Float}
    (h : ofFile directory path = .ok t) : t.validate = .ok () := by
  unfold ofFile at h
  split at h
  · cases h
  · exact validate_of_ofText h

theorem validate_of_chain {resolve : Resolver Float} {d : Direction} {effort : Effort}
    {t : Transform Float} {chain : Chain Float Float32} (h : t.chain resolve d effort = .ok chain) :
    t.validate = .ok () := by
  obtain ⟨stages, hstages, -⟩ := map_eq_ok_iff.mp h
  obtain ⟨hd, hlower⟩ := compile_eq_ok_iff.mp hstages
  exact ((lowers_schedule_iff hd t).mp (exists_lower_iff.mp ⟨stages, hlower⟩)).valid

theorem IsWellFormed.hasOwnSpan {own : Direction} {a : Allocation Float}
    (h : (atom own (.allocation a)).IsWellFormed) : a.HasOwnSpan :=
  Allocation.hasOwnSpan_of_length (h.allocation own a rfl).1

/-- A tree is valid exactly if every node in it is well formed, and every tree read from a text or a
file is. No allocation in a tree that is valid or compiles has a wrong number of variables taken for
none. -/
theorem validate_iff_isWellFormed (t : Transform Float) :
    (t.validate = .ok () ↔ ∀ s, Occurs s t → s.IsWellFormed) ∧
      (∀ cs, ofText cs = .ok t → ∀ s, Occurs s t → s.IsWellFormed) ∧
      (∀ directory path, ofFile directory path = .ok t → ∀ s, Occurs s t → s.IsWellFormed) ∧
      ∀ own a, Occurs (.atom own (.allocation a)) t →
        (t.validate = .ok () → a.HasOwnSpan) ∧
          ∀ (resolve : Resolver Float) d effort (chain : Chain Float Float32),
            t.chain resolve d effort = .ok chain → a.HasOwnSpan := by
  have hnode : t.validate = .ok () → ∀ s, Occurs s t → s.IsWellFormed := (validate_iff_occurs t).mp
  refine ⟨validate_iff_occurs t, fun cs h => hnode (validate_of_ofText h),
    fun directory path h => hnode (validate_of_ofFile h), fun own a ha => ⟨fun h => ?_, ?_⟩⟩
  · exact (hnode h _ ha).hasOwnSpan
  · intro resolve d effort chain h
    exact (hnode (validate_of_chain h) _ ha).hasOwnSpan

/-- An allocation in a group, in a part of a display, in a group, is found well formed when it is
read, from the text or from a file with it, and has the span that it says. With a variable missing the
tree is not valid. The inner group compiles with that span. -/
theorem validate_iff_isWellFormed_nested :
    let a : Allocation Float := { encoding := .lg2, vars := [-8, 5, 0.25] }
    let short : Allocation Float := { encoding := .lg2, vars := [-8, 5] }
    let inner (a : Allocation Float) : Transform Float :=
      .group .inverse [.atom .inverse (.allocation a)]
    let t (a : Allocation Float) : Transform Float := .group .forward [.atom .inverse (.log 10),
      .display .forward { inputSpace := "ACES" } none (some (inner a)) none none]
    let directory : Storage.Directory := ⟨[(["shot.yaml".toList], Text.encode (t a).text)]⟩
    let resolve : Resolver Float := fun _ => .error .document
    (ofText (t a).text = .ok (t a) ∧ ∀ s, Occurs s (t a) → s.IsWellFormed) ∧
      (ofFile directory "shot.yaml".toList = .ok (t a) ∧ ∀ s, Occurs s (t a) → s.IsWellFormed) ∧
      ((t a).validate = .ok () ∧ a.HasOwnSpan) ∧ (t short).validate ≠ .ok () ∧
      ∃ chain : Chain Float Float32,
        (inner a).chain resolve .forward .lossless = .ok chain ∧ a.HasOwnSpan := by
  intro a short inner t directory resolve
  have htext : Yaml.Value.ofText? (t a).text = some (t a).toValue := by decide +kernel
  have hvalid : (t a).validate = .ok () :=
    exists_unit_eq_ok_iff.mp (exists_eq_ok_of_toBool (by decide +kernel))
  have hread : ofText (t a).text = .ok (t a) := by
    rw [ofText, htext, Option.bind_some, ofDocument?_toValue]
    simp only [hvalid]
  have hfile : directory.readText "shot.yaml".toList = .ok (t a).text := by
    have hcontent : directory.read "shot.yaml".toList = .ok (Text.encode (t a).text) := rfl
    simp only [Storage.Directory.readText, hcontent, Text.decode_encode]
  have hopen : ofFile directory "shot.yaml".toList = .ok (t a) := by
    simp only [ofFile, hfile, hread]
  have hinner (a : Allocation Float) : Occurs (.atom .inverse (.allocation a)) (inner a) :=
    .part List.mem_cons_self .root
  have houter (a : Allocation Float) : Occurs (.atom .inverse (.allocation a)) (t a) :=
    .part (List.mem_cons_of_mem _ List.mem_cons_self) (.part List.mem_cons_self (hinner a))
  obtain ⟨chain, hchain⟩ : ∃ chain : Chain Float Float32,
      (inner a).chain resolve .forward .lossless = .ok chain :=
    exists_eq_ok_of_toBool (by decide +kernel)
  obtain ⟨-, htexts, hfiles, hspans⟩ := validate_iff_isWellFormed (t a)
  obtain ⟨-, -, -, hspans'⟩ := validate_iff_isWellFormed (inner a)
  refine ⟨⟨hread, htexts _ hread⟩, ⟨hopen, hfiles _ _ hopen⟩,
    ⟨hvalid, (hspans _ a (houter a)).1 hvalid⟩, fun h => ?_,
    chain, hchain, (hspans' _ a (hinner a)).2 _ _ _ _ hchain⟩
  have hshort := (validate_iff_isWellFormed (t short)).1.mp h _ (houter short)
  exact absurd (hshort.allocation _ short rfl).1 (by decide)

end Transform

end ColorChain
