import ColorChain.Proofs.Transform.Reversal
import ColorChain.Proofs.Transform.Validity

/-!
# When a transform compiles

Validity is a walk over the whole tree, compiling another one, and whether a leaf has to be undone
depends on all directions above it. Both walks are taken one level at a time: for a leaf and for a
group, what makes the schedule lower is what makes the tree compilable, so the two agree on every
tree.
-/

namespace ColorChain

universe u v

/-- The kinds of transforms that only a configuration could give a meaning. -/
def Kind.NeedsConfig (kind : Kind) : Prop := kind = .colorSpace ∨ kind = .look ∨ kind = .display

variable {α : Type u} {β : Type v}
variable [OfScientific α] [Zero α] [One α] [Add α] [Sub α] [Neg α] [Mul α] [Div α] [BEq α] [LT α]
variable [DecidableLT α] [LE α] [DecidableLE α] [Elementary α]

/-- Whether an atom can be undone: a file, if the grade that it resolves to can. -/
def Atom.Invertible (resolve : Resolver α) : Atom α → Prop
  | .matrix map => map.matrix.inverse?.isSome
  | .exponent value => ∀ x ∈ value.toList, (x == 0) = false
  | .cdl c => c.grade.checkInvertible = .ok ()
  | .file reference => ∀ c, resolve reference = .ok c → c.grade.checkInvertible = .ok ()
  | _ => True

/-- What a transform needs in order to compile in the direction `d`. -/
structure Transform.Compilable (resolve : Resolver α) (d : Direction) (t : Transform α) : Prop where
  valid : t.validate = .ok ()
  configured : ∀ s, Occurs s t → ¬s.kind.NeedsConfig
  resolved : ∀ own reference, Occurs (.atom own (.file reference)) t →
    ∃ c, resolve reference = .ok c
  invertible : ∀ a, LeafAt a .inverse d t → a.Invertible resolve

/-! ## Leaves -/

section Leaves

variable {resolve : Resolver α} {inverted : Bool}

omit [LE α] [DecidableLE α] in
theorem Affine.exists_inverse_iff {f : Affine α} :
    (∃ g, f.inverse = .ok g) ↔ f.matrix.inverse?.isSome := by
  unfold Affine.inverse inverse?
  cases f.matrix.inverse? <;> simp

theorem exists_invertExponent_iff {α : Type u} [Zero α] [One α] [Div α] [BEq α] {value : Rgba α} :
    (∃ back, invertExponent value = .ok back) ↔ ∀ x ∈ value.toList, (x == 0) = false := by
  have hany : value.toList.any (· == 0) = false ↔ ∀ x ∈ value.toList, (x == 0) = false := by
    simp [List.any_eq_false]
  rw [← hany, invertExponent]
  cases value.toList.any (· == 0) <;> simp

/-- The operations of a grade exist unless it has to be undone and cannot be. -/
theorem Cdl.exists_chain_iff {α : Type u} [Zero α] [BEq α] [LE α] [DecidableLE α] [Precision α β]
    {c : Cdl α} : (∃ block : Chain α β, c.chain inverted = .ok block) ↔
      (inverted = true → c.grade.checkInvertible = .ok ()) := by
  cases inverted with
  | false => simp [chain]
  | true => simp [chain]

/-- The operations of a leaf exist if its parameters are valid, it has a meaning by itself, and it can
be undone where it has to be. -/
theorem Atom.exists_chain_iff [Precision α β] {a : Atom α} :
    (∃ block : Chain α β, a.chain resolve inverted = .ok block) ↔
      a.validate = .ok () ∧ ¬a.kind.NeedsConfig ∧
        (∀ reference, a = .file reference → ∃ c, resolve reference = .ok c) ∧
        (inverted = true → a.Invertible resolve) := by
  cases a with
  | allocation a => simp [chain, validate, kind, Kind.NeedsConfig, Invertible]
  | cdl c => simp [chain, validate, kind, Kind.NeedsConfig, Invertible, Cdl.exists_chain_iff]
  | colorSpace conversion => simp [chain, kind, Kind.NeedsConfig]
  | exponent value =>
      cases inverted with
      | false => simp [chain, validate, kind, Kind.NeedsConfig]
      | true =>
          simp only [Invertible, ← exists_invertExponent_iff]
          simp [chain, validate, kind, Kind.NeedsConfig]
  | file reference =>
      simp only [chain, exists_bind_eq_ok_iff, mapError_eq_ok_iff, Cdl.exists_chain_iff, validate,
        kind, Kind.NeedsConfig, Invertible, reduceCtorEq, or_self, not_false_eq_true, true_and,
        file.injEq, forall_eq']
      constructor
      · rintro ⟨c, hc, hcheck⟩
        refine ⟨⟨c, hc⟩, fun hinverted c' hc' => ?_⟩
        cases Except.ok.inj (hc.symm.trans hc')
        exact hcheck hinverted
      · rintro ⟨⟨c, hc⟩, hcheck⟩
        exact ⟨c, hc, fun hinverted => hcheck hinverted c hc⟩
  | log base => simp [chain, validate, kind, Kind.NeedsConfig, Invertible]
  | look reference => simp [chain, kind, Kind.NeedsConfig]
  | matrix map =>
      cases inverted with
      | false => simp [chain, validate, kind, Kind.NeedsConfig]
      | true => simp [chain, validate, kind, Kind.NeedsConfig, Invertible, ← Affine.exists_inverse_iff]

end Leaves

/-! ## Trees -/

namespace Transform

section Compilable

variable {resolve : Resolver α} {d own : Direction}

/-- A leaf is compilable if it is valid, has a meaning by itself, and can be undone where it has to
be. -/
theorem compilable_atom_iff {a : Atom α} :
    Compilable resolve d (.atom own a) ↔ own ≠ .unknown ∧ a.validate = .ok () ∧
      ¬a.kind.NeedsConfig ∧ (∀ reference, a = .file reference → ∃ c, resolve reference = .ok c) ∧
      (d.combine own = .inverse → a.Invertible resolve) := by
  constructor
  · rintro ⟨valid, configured, resolved, invertible⟩
    obtain ⟨hown, hvalid⟩ := validate_atom_iff.mp valid
    refine ⟨hown, hvalid, configured _ .root, ?_, fun h => invertible a (.leaf h)⟩
    rintro reference rfl
    exact resolved own reference .root
  · rintro ⟨hown, hvalid, hconfig, hresolve, hinvert⟩
    constructor
    · exact validate_atom_iff.mpr ⟨hown, hvalid⟩
    · intro s hs
      rw [occurs_atom_iff.mp hs]
      exact hconfig
    · intro own' reference hs
      cases occurs_atom_iff.mp hs
      exact hresolve reference rfl
    · intro b hb
      obtain ⟨rfl, h⟩ := leafAt_atom_iff.mp hb
      exact hinvert h

/-- A group is compilable if its children are, in the direction that the group gives them. -/
theorem compilable_group_iff {children : List (Transform α)} :
    Compilable resolve d (.group own children) ↔
      own ≠ .unknown ∧ ∀ t ∈ children, Compilable resolve (d.combine own) t := by
  constructor
  · rintro ⟨valid, configured, resolved, invertible⟩
    obtain ⟨hown, hvalid⟩ := validate_group_iff.mp valid
    refine ⟨hown, fun t ht => ?_⟩
    constructor
    · exact hvalid t ht
    · exact fun s hs => configured s (.part ht hs)
    · exact fun own' reference hs => resolved own' reference (.part ht hs)
    · exact fun a ha => invertible a (.part ht ha)
  · rintro ⟨hown, hchildren⟩
    constructor
    · exact validate_group_iff.mpr ⟨hown, fun t ht => (hchildren t ht).valid⟩
    · intro s hs
      rcases occurs_group_iff.mp hs with rfl | ⟨t, ht, inner⟩
      · simp [kind, Kind.NeedsConfig]
      · exact (hchildren t ht).configured s inner
    · intro own' reference hs
      rcases occurs_group_iff.mp hs with h | ⟨t, ht, inner⟩
      · cases h
      · exact (hchildren t ht).resolved own' reference inner
    · intro a ha
      obtain ⟨t, ht, inner⟩ := leafAt_group_iff.mp ha
      exact (hchildren t ht).invertible a inner

/-- A display is not compilable: it has a meaning only within a configuration. -/
theorem not_compilable_display {settings : DisplaySettings}
    {linear colorTiming channelView displayed : Option (Transform α)} :
    ¬Compilable resolve d (.display own settings linear colorTiming channelView displayed) :=
  fun h => h.configured _ .root (.inr (.inr rfl))

end Compilable

section Schedule

variable [Precision α β] {resolve : Resolver α} {d own : Direction}

/-- Every entry of a schedule can be lowered. -/
def Lowers (β : Type v) [Precision α β] (resolve : Resolver α) (steps : List (Step α)) : Prop :=
  ∀ step ∈ steps, ∃ block : Chain α β, step.chain resolve = .ok block

theorem exists_lower_iff {steps : List (Step α)} :
    (∃ chain : Chain α β, lower resolve steps = .ok chain) ↔ Lowers β resolve steps := by
  induction steps with
  | nil => simp [lower, Lowers]
  | cons step steps ih =>
      simp only [Lowers, List.forall_mem_cons] at ih ⊢
      rw [← ih]
      simp only [lower, do_eq_ok_iff]
      constructor
      · rintro ⟨chain, first, hfirst, rest, hrest, -⟩
        exact ⟨⟨first, hfirst⟩, rest, hrest⟩
      · rintro ⟨⟨first, hfirst⟩, rest, hrest⟩
        exact ⟨_, first, hfirst, rest, hrest, rfl⟩

theorem lowers_flatMap {ts : List (Transform α)} {f : Transform α → List (Step α)} :
    Lowers β resolve (ts.flatMap f) ↔ ∀ t ∈ ts, Lowers β resolve (f t) := by
  simp only [Lowers, List.mem_flatMap]
  constructor
  · intro h t ht step hstep
    exact h step ⟨t, ht, hstep⟩
  · rintro h step ⟨t, ht, hstep⟩
    exact h t ht step hstep

theorem not_lowers_stuck {obstacle : Obstacle} : ¬Lowers β resolve [.stuck obstacle] := by
  simp [Lowers, Step.chain]

/-- The schedule of a leaf lowers if the leaf has operations in its direction. -/
theorem lowers_atom_iff (hd : d ≠ .unknown) {a : Atom α} :
    Lowers β resolve ((atom own a).schedule d) ↔ own ≠ .unknown ∧
      ∃ block : Chain α β, a.chain resolve (d.combine own = .inverse) = .ok block := by
  cases d with
  | unknown => exact absurd rfl hd
  | forward =>
      cases own <;>
        simp [schedule, Direction.combine, oriented, Lowers, Step.chain]
  | inverse =>
      cases own <;>
        simp [schedule, Direction.combine, oriented, Lowers, Step.chain]

/-- The schedule of a group lowers if those of its children do, in the direction of the group. -/
theorem lowers_group_iff (hd : d ≠ .unknown) {children : List (Transform α)} :
    Lowers β resolve ((group own children).schedule d) ↔
      own ≠ .unknown ∧ ∀ t ∈ children, Lowers β resolve (t.schedule (d.combine own)) := by
  have hdo : Lowers β resolve (doAll children) ↔
      ∀ t ∈ children, Lowers β resolve (t.schedule .forward) := by
    rw [doAll_eq_flatMap, lowers_flatMap]
  have hundo : Lowers β resolve (undoAll children) ↔
      ∀ t ∈ children, Lowers β resolve (t.schedule .inverse) := by
    rw [undoAll_eq_flatMap, lowers_flatMap]
    simp
  cases d with
  | unknown => exact absurd rfl hd
  | forward =>
      cases own <;>
        simp [schedule, Direction.combine, oriented, hdo, hundo, not_lowers_stuck]
  | inverse =>
      cases own <;>
        simp [schedule, Direction.combine, oriented, hdo, hundo, not_lowers_stuck]

theorem not_lowers_display {settings : DisplaySettings}
    {linear colorTiming channelView displayed : Option (Transform α)} : ¬Lowers β resolve
      ((display own settings linear colorTiming channelView displayed).schedule d) := by
  simp only [schedule]
  cases d.combine own <;> exact not_lowers_stuck

/-- The schedule of a transform lowers if the transform is compilable, by induction on the tree. -/
theorem lowers_schedule_iff (hd : d ≠ .unknown) (t : Transform α) :
    Lowers β resolve (t.schedule d) ↔ Compilable resolve d t := by
  induction t using induction_on_parts generalizing d with
  | step t ih =>
      cases t with
      | atom own a =>
          rw [lowers_atom_iff hd, compilable_atom_iff, Atom.exists_chain_iff, decide_eq_true_iff]
      | display own settings linear colorTiming channelView displayed =>
          exact iff_of_false not_lowers_display not_compilable_display
      | group own children =>
          rw [lowers_group_iff hd, compilable_group_iff]
          refine and_congr_right fun hown => forall₂_congr fun t ht => ?_
          have hknown : d.combine own ≠ .unknown := by
            cases d <;> cases own <;> simp_all [Direction.combine]
          exact ih t ht hknown

end Schedule

/-- A transform compiles, with whatever effort its chain is simplified, exactly if the direction asked
for is known, the tree is valid, no node needs a configuration, every file resolves, and every leaf
that the directions above it turn round can be undone. -/
theorem exists_chain_iff_compilable [Precision α β] [One β] [BEq β] (resolve : Resolver α) (d : Direction)
    (effort : Effort) (t : Transform α) :
    (∃ chain : Chain α β, t.chain resolve d effort = .ok chain) ↔
      d ≠ .unknown ∧ t.Compilable resolve d := by
  rw [chain, exists_map_eq_ok_iff]
  simp only [compile_eq_ok_iff, exists_and_left, exists_lower_iff]
  exact and_congr_right fun hd => lowers_schedule_iff hd t

end Transform

end ColorChain
