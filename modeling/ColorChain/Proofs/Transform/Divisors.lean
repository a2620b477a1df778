import ColorChain.Proofs.Number.Reciprocal
import ColorChain.Proofs.Transform.Leaves

/-!
# What a compiled inverse divides by

Whether a grade or exponents can be undone is checked on the parameters, in double precision; the
operations hold the parameters in single precision. A parameter that passes the check can become zero
on the way, and a reciprocal can become zero or infinite. This says for which parameters it does not.
-/

namespace ColorChain

open Number.BinaryFloat

universe u v

/-! ## Stored operations -/

/-- The numbers that undoing a grade divides by. -/
def Grade.divisors {β : Type v} (g : Grade β) : List β :=
  g.saturation :: (g.power.toList ++ g.slope.toList)

/-- Undoing a grade divides by its divisors only: another division that agrees on them undoes the grade
alike. -/
theorem Grade.unapply_eq_of_agree {α : Type u} {β : Type v} [OfScientific α] [Precision α β] [Zero β]
    [One β] [Add β] [Sub β] [Mul β] [Div β] [Elementary β] (g : Grade β) (p : Rgb β)
    (quotient : β → β → β) (h : ∀ x ∈ g.divisors, ∀ y, quotient y x = y / x) :
    @unapply α β _ _ _ _ _ _ _ ⟨quotient⟩ _ g p = g.unapply α p := by
  simp only [divisors, Rgb.toList, List.mem_cons, List.mem_append, List.not_mem_nil, or_false,
    or_imp, forall_and, forall_eq] at h
  obtain ⟨hsaturation, ⟨hpr, hpg, hpb⟩, hsr, hsg, hsb⟩ := h
  have hquotient (x y : β) : @HDiv.hDiv β β β (@instHDiv β ⟨quotient⟩) x y = quotient x y := rfl
  simp only [unapply, untone, desaturate, Rgb.zip, Rgb.map, hquotient, hsaturation, hpr, hpg, hpb,
    hsr, hsg, hsb]

/-- The numbers that undoing a grade divides by are not zero: slope and power are even positive. -/
structure Grade.HasDivisors (g : Grade Float32) : Prop where
  slope : ∀ x ∈ g.slope.toList, 0 < x
  power : ∀ x ∈ g.power.toList, 0 < x
  saturation : (g.saturation == 0) = false

theorem Grade.HasDivisors.beq_zero {g : Grade Float32} (h : g.HasDivisors) :
    ∀ x ∈ g.divisors, (x == 0) = false := by
  intro x hx
  rcases List.mem_cons.mp hx with rfl | hx
  · exact h.saturation
  · rcases List.mem_append.mp hx with hx | hx
    · exact Number.beq_zero_of_zero_lt (h.power x hx)
    · exact Number.beq_zero_of_zero_lt (h.slope x hx)

/-- Every exponent is finite and not zero. -/
def Rgba.AreExponents (value : Rgba Float32) : Prop :=
  ∀ x ∈ value.toList, x.isFinite = true ∧ (x == 0) = false

/-- No operation of a chain divides by zero: those that undo a grade have divisors, and those that
undo the exponents of a leaf are exponents. -/
structure Transform.DividesByNoZero (resolve : Resolver Float) (d : Direction) (t : Transform Float)
    (chain : Chain Float Float32) : Prop where
  ungrade : ∀ g, .ungrade g ∈ chain → g.HasDivisors
  exponent : ∀ a block value, LeafAt a .inverse d t → a.chain resolve true = .ok block →
    .exponent value ∈ block → .exponent value ∈ chain → value.AreExponents

/-! ## Parameters -/

/-- The settings of a grade that are still divisors in single precision: slope and power above half the
least positive number, and a saturation that is not within it. -/
structure Grade.Narrows (g : Grade Float) : Prop where
  slope : ∀ x ∈ g.slope.toList, IsAbove (2 ^ (-150 : ℤ)) x
  power : ∀ x ∈ g.power.toList, IsAbove (2 ^ (-150 : ℤ)) x
  saturation : ¬(g.saturation.isFinite = true ∧ |value g.saturation| ≤ 2 ^ (-150 : ℤ))

/-- The exponents whose reciprocals are still exponents in single precision. -/
def Rgba.ReciprocalsNarrow (exponents : Rgba Float) : Prop :=
  ∀ x ∈ exponents.toList, x.isFinite = true ∧
    2 ^ (-128 : ℤ) * (1 + 2 ^ (-25 : ℤ) + 2 ^ (-50 : ℤ)) < |value x| ∧ |value x| < 2 ^ 150

namespace Atom

/-- The correction that a leaf applies: its own, or the one that its file resolves to. -/
def Applies (resolve : Resolver Float) (c : Cdl Float) : Atom Float → Prop
  | .cdl own => own = c
  | .file reference => resolve reference = .ok c
  | _ => False

/-- The parameters that undoing a leaf divides by are not lost in single precision. -/
structure Narrows (resolve : Resolver Float) (a : Atom Float) : Prop where
  grade : ∀ c, a.Applies resolve c → c.grade.Narrows
  exponent : ∀ exponents, a = .exponent exponents → exponents.ReciprocalsNarrow

end Atom

/-! ## Narrowing the parameters of a leaf -/

theorem Grade.hasDivisors_map_iff {g : Grade Float} : (g.map narrow).HasDivisors ↔ g.Narrows := by
  have hall (p : Rgb Float) : (∀ y ∈ (p.map narrow : Rgb Float32).toList, 0 < y) ↔
      ∀ x ∈ p.toList, IsAbove (2 ^ (-150 : ℤ)) x := by
    change (∀ y ∈ p.toList.map narrow, (0 : Float32) < y) ↔ _
    rw [List.forall_mem_map]
    exact forall₂_congr fun x _ => Number.zero_lt_narrow_iff x
  have hsaturation : ((narrow g.saturation : Float32) == 0) = false ↔
      ¬(g.saturation.isFinite = true ∧ |value g.saturation| ≤ 2 ^ (-150 : ℤ)) := by
    rw [← Bool.not_eq_true, Number.narrow_beq_zero_iff]
  constructor
  · rintro ⟨hslope, hpower, hsat⟩
    exact ⟨(hall _).mp hslope, (hall _).mp hpower, hsaturation.mp hsat⟩
  · rintro ⟨hslope, hpower, hsat⟩
    exact ⟨(hall _).mpr hslope, (hall _).mpr hpower, hsaturation.mpr hsat⟩

theorem Rgba.areExponents_reciprocals_iff {exponents : Rgba Float} :
    ((exponents.map (1 / ·)).map narrow : Rgba Float32).AreExponents ↔
      exponents.ReciprocalsNarrow := by
  change (∀ y ∈ (exponents.toList.map (1 / ·)).map narrow,
    (y : Float32).isFinite = true ∧ (y == 0) = false) ↔ _
  rw [List.forall_mem_map, List.forall_mem_map]
  exact forall₂_congr fun x _ => Number.narrow_reciprocal_iff x

/-- Exponents that are all one are exponents. -/
theorem Rgba.areExponents_of_beq_fill {value : Rgba Float32} (h : (value == fill 1) = true) :
    value.AreExponents := by
  obtain ⟨r, g, b, a⟩ := value
  change (r == 1 && (g == 1 && (b == 1 && a == 1))) = true at h
  simp only [Bool.and_eq_true] at h
  obtain ⟨hr, hg, hb, ha⟩ := h
  intro x hx
  simp only [toList, List.mem_cons, List.not_mem_nil, or_false] at hx
  rcases hx with rfl | rfl | rfl | rfl
  · exact Number.of_beq_one hr
  · exact Number.of_beq_one hg
  · exact Number.of_beq_one hb
  · exact Number.of_beq_one ha

/-! ## The operations of a leaf -/

section Leaves

variable {resolve : Resolver Float} {inverted : Bool} {block : Chain Float Float32}

theorem Cdl.chain_eq_ok_iff {c : Cdl Float} : c.chain inverted = .ok block ↔
    (inverted = true → c.grade.checkInvertible = .ok ()) ∧
      block = if inverted then [.ungrade (c.grade.map narrow)] else [.grade (c.grade.map narrow)] := by
  cases inverted with
  | false => simp [chain, eq_comm]
  | true =>
    simp only [chain, if_true, map_eq_ok_iff, forall_const]
    constructor
    · rintro ⟨u, hcheck, rfl⟩
      exact ⟨hcheck, rfl⟩
    · rintro ⟨hcheck, rfl⟩
      exact ⟨(), hcheck, rfl⟩

theorem of_invertExponent {exponents back : Rgba Float} (h : invertExponent exponents = .ok back) :
    back = exponents.map (1 / ·) := by
  unfold invertExponent at h
  split at h
  · cases h
  · exact (Except.ok.inj h).symm

namespace Atom

/-- A leaf that can be lowered applies one correction, or raises to exponents, or does neither. -/
theorem block_cases {a : Atom Float} (h : a.chain resolve inverted = .ok block) :
    (∃ c, (∀ c', a.Applies resolve c' ↔ c' = c) ∧ (∀ exponents, a ≠ .exponent exponents) ∧
      block = if inverted then [.ungrade (c.grade.map narrow)] else [.grade (c.grade.map narrow)]) ∨
    (∃ exponents, a = .exponent exponents ∧
      block = [.exponent ((if inverted then exponents.map (1 / ·) else exponents).map narrow)]) ∨
    (∀ c, ¬a.Applies resolve c) ∧ (∀ exponents, a ≠ .exponent exponents) ∧
      ∀ op ∈ block, (∀ g, op ≠ .ungrade g) ∧ ∀ stored, op ≠ .exponent stored := by
  cases a with
  | cdl c =>
    simp only [chain, mapError_eq_ok_iff, Cdl.chain_eq_ok_iff] at h
    exact .inl ⟨c, fun c' => eq_comm, by simp, h.2⟩
  | file reference =>
    simp only [chain, bind_eq_ok_iff, mapError_eq_ok_iff, Cdl.chain_eq_ok_iff] at h
    obtain ⟨c, hc, -, hblock⟩ := h
    exact .inl ⟨c, by simp [Applies, hc, eq_comm], by simp, hblock⟩
  | exponent exponents =>
    refine .inr (.inl ⟨exponents, rfl, ?_⟩)
    cases inverted with
    | false => exact (Except.ok.inj h).symm
    | true =>
      simp only [chain, if_true, map_eq_ok_iff, mapError_eq_ok_iff] at h
      obtain ⟨back, hback, rfl⟩ := h
      rw [of_invertExponent hback, if_pos rfl]
  | allocation a =>
    simp only [chain, map_eq_ok_iff] at h
    obtain ⟨-, -, rfl⟩ := h
    refine .inr (.inr ⟨fun _ => id, by simp, ?_⟩)
    cases hencoding : a.encoding <;> cases inverted <;> simp [Allocation.chain, hencoding]
  | colorSpace conversion => cases h
  | look reference => cases h
  | log base =>
    simp only [chain, map_eq_ok_iff] at h
    obtain ⟨-, -, rfl⟩ := h
    refine .inr (.inr ⟨fun _ => id, by simp, ?_⟩)
    cases inverted <;> simp
  | matrix map =>
    refine .inr (.inr ⟨fun _ => id, by simp, ?_⟩)
    cases inverted with
    | false =>
      cases h
      simp
    | true =>
      simp only [chain, if_true, map_eq_ok_iff] at h
      obtain ⟨back, -, rfl⟩ := h
      simp

/-- Only a leaf that applies a correction backwards undoes a grade, and then the narrowed one. -/
theorem ungrade_mem_iff {a : Atom Float} (h : a.chain resolve inverted = .ok block)
    {g : Grade Float32} : .ungrade g ∈ block ↔
      inverted = true ∧ ∃ c, a.Applies resolve c ∧ g = c.grade.map narrow := by
  rcases block_cases h with ⟨c, hc, -, rfl⟩ | ⟨exponents, rfl, rfl⟩ | ⟨hc, -, hops⟩
  · cases inverted <;> simp [hc]
  · simp [Applies]
  · constructor
    · exact fun hop => absurd rfl ((hops _ hop).1 g)
    · rintro ⟨-, c, happlies, -⟩
      exact absurd happlies (hc c)

/-- Only a leaf of exponents undoes exponents, and then by the narrowed reciprocals. -/
theorem exponent_mem_iff {a : Atom Float} (h : a.chain resolve true = .ok block)
    {stored : Rgba Float32} : .exponent stored ∈ block ↔
      ∃ exponents, a = .exponent exponents ∧ stored = (exponents.map (1 / ·)).map narrow := by
  rcases block_cases h with ⟨c, -, hexponent, rfl⟩ | ⟨exponents, rfl, rfl⟩ | ⟨-, hexponent, hops⟩
  · simp [hexponent]
  · simp
  · constructor
    · exact fun hop => absurd rfl ((hops _ hop).2 stored)
    · rintro ⟨exponents, ha, -⟩
      exact absurd ha (hexponent exponents)

end Atom

end Leaves

/-! ## Trees -/

namespace Transform

/-- In a transform that compiles, no operation divides by zero exactly if no leaf that is undone loses
a divisor in single precision. -/
theorem dividesByNoZero_iff_narrows {resolve : Resolver Float} {d : Direction} {effort : Effort}
    {t : Transform Float} {chain : Chain Float Float32} (h : t.chain resolve d effort = .ok chain) :
    (t.DividesByNoZero resolve d chain ↔ ∀ a, LeafAt a .inverse d t → a.Narrows resolve) ∧
      (t.DividesByNoZero resolve d chain →
        ∀ g, .ungrade g ∈ chain → ∀ x ∈ g.divisors, (x == 0) = false) := by
  obtain ⟨compiled, hcompiled, -⟩ := map_eq_ok_iff.mp h
  refine ⟨?_, fun hdivides g hg => (hdivides.ungrade g hg).beq_zero⟩
  constructor
  · rintro ⟨hungrade, hexponent⟩ a hleaf
    obtain ⟨block, hblock⟩ := exists_block_of_leafAt hcompiled hleaf
    constructor
    · intro c hc
      have hop := (Atom.ungrade_mem_iff hblock).mpr ⟨rfl, c, hc, rfl⟩
      have hchain := (mem_chain_iff h rfl).mpr ⟨⟨a, .inverse, block, hleaf, hblock, hop⟩, fun _ => rfl⟩
      exact Grade.hasDivisors_map_iff.mp (hungrade _ hchain)
    · rintro exponents rfl
      have hop := (Atom.exponent_mem_iff hblock).mpr ⟨exponents, rfl, rfl⟩
      apply Rgba.areExponents_reciprocals_iff.mp
      -- Exponents that are dropped from the chain are all one.
      cases hidentity : (Op.exponent ((exponents.map (1 / ·)).map narrow) :
          Op Float Float32).isIdentity with
      | true => exact Rgba.areExponents_of_beq_fill hidentity
      | false =>
        apply hexponent _ block _ hleaf hblock hop
        exact (mem_chain_iff h rfl).mpr
          ⟨⟨_, .inverse, block, hleaf, hblock, hop⟩, fun _ => hidentity⟩
  · intro hnarrows
    constructor
    · intro g hg
      obtain ⟨⟨a, e, block, hleaf, hblock, hop⟩, -⟩ := (mem_chain_iff h rfl).mp hg
      obtain ⟨he, c, hc, rfl⟩ := (Atom.ungrade_mem_iff hblock).mp hop
      cases of_decide_eq_true he
      exact Grade.hasDivisors_map_iff.mpr ((hnarrows a hleaf).grade c hc)
    · intro a block value hleaf hblock hop _
      obtain ⟨exponents, rfl, rfl⟩ := (Atom.exponent_mem_iff hblock).mp hop
      exact Rgba.areExponents_reciprocals_iff.mpr ((hnarrows _ hleaf).exponent _ rfl)

/-- Exponents, a grade and a file inside a group that is undone, none of which loses a divisor. -/
theorem dividesByNoZero_group :
    let grade : Grade Float := ⟨Rgb.fill 2, Rgb.fill 0, Rgb.fill 2, 2⟩
    let resolve : Resolver Float := fun _ => .ok { grade := grade }
    let t : Transform Float := .group .inverse [.atom .forward (.exponent (Rgba.fill 2)),
      .atom .forward (.cdl { grade := grade }), .atom .forward (.file { source := "dusk.cc" })]
    ∃ chain : Chain Float Float32, t.chain resolve .forward .lossless = .ok chain ∧
      t.DividesByNoZero resolve .forward chain ∧
        ∀ g, .ungrade g ∈ chain → ∀ x ∈ g.divisors, (x == 0) = false := by
  intro grade resolve t
  obtain ⟨chain, h⟩ : ∃ chain : Chain Float Float32,
      t.chain resolve .forward .lossless = .ok chain := exists_eq_ok_of_toBool (by decide +kernel)
  have htwo : Number.BinaryFloat.datum (2 : Float) = .finite false (2 ^ 52) (-51) := by
    decide +kernel
  have hvalue : value (2 : Float) = 2 := by
    rw [value, htwo, Number.Datum.value]
    norm_num
  have hfinite : (2 : Float).isFinite = true := Number.isFinite_iff.mpr ⟨_, _, _, htwo⟩
  have habove : IsAbove (2 ^ (-150 : ℤ)) (2 : Float) := by
    rw [IsAbove, htwo, hvalue]
    norm_num
  have hfill : ∀ x ∈ (Rgb.fill (2 : Float)).toList, IsAbove (2 ^ (-150 : ℤ)) x := by
    simpa [Rgb.fill, Rgb.toList] using habove
  have hgrade : grade.Narrows := ⟨hfill, hfill, by norm_num [grade, hvalue]⟩
  have hexponents : (Rgba.fill (2 : Float)).ReciprocalsNarrow := by
    norm_num [Rgba.ReciprocalsNarrow, Rgba.fill, Rgba.toList, hfinite, hvalue]
  have hnarrows : ∀ a, LeafAt a .inverse .forward t → a.Narrows resolve := by
    intro a hleaf
    simp only [t, leafAt_group_iff, List.mem_cons, List.not_mem_nil, or_false, exists_eq_or_imp,
      exists_eq_left, leafAt_atom_iff] at hleaf
    rcases hleaf with ⟨rfl, -⟩ | ⟨rfl, -⟩ | ⟨rfl, -⟩
    · exact ⟨fun c hc => hc.elim, fun exponents h => Atom.exponent.inj h ▸ hexponents⟩
    · exact ⟨fun c hc => hc ▸ hgrade, by simp⟩
    · exact ⟨fun c hc => Except.ok.inj hc ▸ hgrade, by simp⟩
  have hdivides := (dividesByNoZero_iff_narrows h).1.mpr hnarrows
  exact ⟨chain, h, hdivides, (dividesByNoZero_iff_narrows h).2 hdivides⟩

/-- A slope of `1e-50` passes the check of the inverse and is zero in the operation that undoes it. -/
theorem ungrade_slope_zero :
    let grade : Grade Float := ⟨⟨1e-50, 1, 1⟩, Rgb.fill 0, Rgb.fill 1, 1⟩
    let t : Transform Float := .atom .forward (.cdl { grade := grade })
    let stored : Grade Float32 := grade.map narrow
    (∀ x ∈ grade.saturation :: grade.toList, x.isFinite = true) ∧
      t.chain (fun _ => .error .document) .inverse .lossless = .ok [.ungrade stored] ∧
      ¬0 < stored.slope.r ∧ (stored.slope.r == 0) = true := by
  intro grade t stored
  have hcheck : grade.checkInvertible = .ok () :=
    exists_unit_eq_ok_iff.1 (exists_eq_ok_of_toBool (by decide +kernel))
  have hleaf : (Atom.cdl { grade := grade }).chain (fun _ => .error .document) true =
      .ok [.ungrade stored] :=
    mapError_eq_ok_iff.mpr (Cdl.chain_eq_ok_iff.mpr ⟨fun _ => hcheck, rfl⟩)
  have hcompile : t.compile (fun _ => .error .document) .inverse = .ok [.ungrade stored] :=
    compile_eq_ok_iff.mpr ⟨nofun, lower_eq_ok_iff.mpr ⟨_, .cons hleaf .nil, rfl⟩⟩
  exact ⟨by decide +kernel, map_eq_ok_iff.mpr ⟨_, hcompile, rfl⟩, by decide +kernel,
    by decide +kernel⟩

end Transform

end ColorChain
