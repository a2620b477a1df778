import ColorChain.Transform.Tree

/-!
# Induction over transforms

A transform is built from the transforms directly below its root. What holds of a transform whenever
it holds of those holds of every transform, however deep the tree. Nodes and leaves are found by
going down the tree, leaves with the product of the directions on the way.
-/

namespace ColorChain.Transform

universe u

variable {α : Type u}

theorem sizeOf_lt_of_mem_parts {t part : Transform α} (h : part ∈ t.parts) :
    sizeOf part < sizeOf t := by
  cases t with
  | atom d a => simp [parts] at h
  | display d settings linear colorTiming channelView displayed =>
      simp only [parts, List.mem_filterMap, List.mem_cons, List.not_mem_nil, or_false, id_eq] at h
      obtain ⟨slot, hslot, rfl⟩ := h
      rcases hslot with rfl | rfl | rfl | rfl <;> simp +arith
  | group d children =>
      have hc : sizeOf part < sizeOf children := List.sizeOf_lt_of_mem h
      simp only [group.sizeOf_spec]
      omega

/-- Induction on the parts of a transform. -/
theorem induction_on_parts {motive : Transform α → Prop}
    (step : ∀ t, (∀ part ∈ t.parts, motive part) → motive t) (t : Transform α) : motive t :=
  step t fun part h =>
    have := sizeOf_lt_of_mem_parts h
    induction_on_parts step part
termination_by sizeOf t

/-- The node `s` stands in the tree: it is the root, or stands in one of the parts. -/
inductive Occurs (s : Transform α) : Transform α → Prop where
  | root : Occurs s s
  | part {part t : Transform α} (h : part ∈ t.parts) (inner : Occurs s part) : Occurs s t

/-- The leaf `a` stands in the tree, and the directions on the way down to it, from `d` on, combine
to `e`. -/
inductive LeafAt (a : Atom α) (e : Direction) : Direction → Transform α → Prop where
  | leaf {d own : Direction} (h : d.combine own = e) : LeafAt a e d (.atom own a)
  | part {d : Direction} {part t : Transform α} (h : part ∈ t.parts)
      (inner : LeafAt a e (d.combine t.direction) part) : LeafAt a e d t

theorem occurs_iff {s t : Transform α} : Occurs s t ↔ s = t ∨ ∃ part ∈ t.parts, Occurs s part := by
  constructor
  · intro h
    cases h with
    | root => exact .inl rfl
    | part hpart inner => exact .inr ⟨_, hpart, inner⟩
  · rintro (rfl | ⟨part, hpart, inner⟩)
    · exact .root
    · exact .part hpart inner

theorem occurs_atom_iff {s : Transform α} {d : Direction} {a : Atom α} :
    Occurs s (.atom d a) ↔ s = .atom d a := by
  rw [occurs_iff]
  simp [parts]

theorem occurs_group_iff {s : Transform α} {d : Direction} {children : List (Transform α)} :
    Occurs s (.group d children) ↔ s = .group d children ∨ ∃ t ∈ children, Occurs s t :=
  occurs_iff

theorem LeafAt.exists_occurs {a : Atom α} {e d : Direction} {t : Transform α}
    (h : LeafAt a e d t) : ∃ own, Occurs (.atom own a) t := by
  induction h with
  | leaf => exact ⟨_, .root⟩
  | part hpart _ ih =>
      obtain ⟨own, hoccurs⟩ := ih
      exact ⟨own, .part hpart hoccurs⟩

theorem leafAt_atom_iff {a b : Atom α} {d e own : Direction} :
    LeafAt a e d (.atom own b) ↔ a = b ∧ d.combine own = e := by
  constructor
  · intro h
    cases h with
    | leaf h => exact ⟨rfl, h⟩
    | part hpart => simp [parts] at hpart
  · rintro ⟨rfl, h⟩
    exact .leaf h

theorem leafAt_group_iff {a : Atom α} {d e own : Direction} {children : List (Transform α)} :
    LeafAt a e d (.group own children) ↔ ∃ t ∈ children, LeafAt a e (d.combine own) t := by
  constructor
  · intro h
    cases h with
    | part hpart inner => exact ⟨_, hpart, inner⟩
  · rintro ⟨t, ht, inner⟩
    exact .part ht inner

end ColorChain.Transform
