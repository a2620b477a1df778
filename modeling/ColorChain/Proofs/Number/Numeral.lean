import ColorChain.Number.Text
import ColorChain.Proofs.Number.Text
import ColorChain.Proofs.Outcome
import ColorChain.Proofs.Text.Ascii
import ColorChain.Text.Blank

/-!
# The characters of numbers

A written number holds letters, digits, points and minus signs only: none of its characters is white
space, and none has a meaning for markup. A text that is read as a number holds no white space either.
-/

namespace ColorChain.Number

open Text

/-- A letter, a digit, a point or a minus sign. -/
def IsNumeral (c : Char) : Prop := c.isAlphanum ∨ c = '.' ∨ c = '-'

theorem IsNumeral.of_isDigit {c : Char} (h : c.isDigit) : IsNumeral c :=
  .inl (isAlphanum_iff.2 (.inr h))

/-- The characters of numbers are ASCII, and no control characters. -/
theorem IsNumeral.toNat_bounds {c : Char} (h : IsNumeral c) :
    45 ≤ c.toNat ∧ c.toNat ≤ 46 ∨ 48 ≤ c.toNat ∧ c.toNat ≤ 57 ∨ 65 ≤ c.toNat ∧ c.toNat ≤ 90
      ∨ 97 ≤ c.toNat ∧ c.toNat ≤ 122 := by
  rcases h with h | rfl | rfl
  · rw [isAlphanum_iff, isAlpha_iff, isDigit_iff] at h
    omega
  · exact .inl (by decide)
  · exact .inl (by decide)

namespace Layout

variable (l : Layout)

theorem isNumeral_of_mem_sign {negative : Bool} {c : Char} (h : c ∈ sign negative) :
    IsNumeral c := by
  cases negative with
  | true => exact .inr (.inr (List.mem_singleton.1 h))
  | false => cases h

theorem isNumeral_of_mem_placed {ds : List Char} (hds : ∀ c ∈ ds, c.isDigit) {point : ℤ} {c : Char}
    (h : c ∈ l.placed ds point) : IsNumeral c := by
  have hzero : IsNumeral '0' := .inl rfl
  have hdot : IsNumeral '.' := .inr (.inl rfl)
  have hzeros {n : ℕ} (hc : c ∈ zeros n) : IsNumeral c := .of_isDigit (isDigit_of_mem_zeros n c hc)
  have hdigit (hc : c ∈ ds) : IsNumeral c := .of_isDigit (hds c hc)
  unfold placed at h
  split at h
  · simp only [List.mem_cons, List.mem_append] at h
    rcases h with rfl | rfl | hc | hc
    · exact hzero
    · exact hdot
    · exact hzeros hc
    · exact hdigit hc
  · split at h
    · simp only [List.mem_append] at h
      rcases h with (hc | hc) | hc
      · exact hdigit hc
      · exact hzeros hc
      · split at hc
        · simp only [List.mem_cons, List.not_mem_nil, or_false] at hc
          rcases hc with rfl | rfl
          · exact hdot
          · exact hzero
        · cases hc
    · simp only [List.mem_append, List.mem_cons] at h
      rcases h with hc | rfl | hc
      · exact hdigit (List.mem_of_mem_take hc)
      · exact hdot
      · exact hdigit (List.mem_of_mem_drop hc)

theorem isNumeral_of_mem_scientific {ds : List Char} (hds : ∀ c ∈ ds, c.isDigit) {point : ℤ}
    {c : Char} (h : c ∈ scientific ds point) : IsNumeral c := by
  have hdigit (hc : c ∈ ds) : IsNumeral c := .of_isDigit (hds c hc)
  have hnat {n : ℕ} (hc : c ∈ digits n) : IsNumeral c := .of_isDigit (isDigit_of_mem_digits n c hc)
  simp only [scientific, integer, List.mem_append, List.mem_cons] at h
  rcases h with hc | rfl | hc
  · split at hc
    · exact hdigit hc
    · simp only [List.mem_append, List.mem_cons] at hc
      rcases hc with hc | rfl | hc
      · exact hdigit (List.mem_of_mem_take hc)
      · exact .inr (.inl rfl)
      · exact hdigit (List.mem_of_mem_drop hc)
  · exact .inl rfl
  · split at hc
    · rcases List.mem_cons.1 hc with rfl | hc
      · exact .inr (.inr rfl)
      · exact hnat hc
    · exact hnat hc

/-- The text of a number holds letters, digits, points and minus signs only. -/
theorem isNumeral_of_mem_chars {F : Type} [BinaryFloat F] (hinfinity : l.infinity = ['i', 'n', 'f'])
    (hnan : l.nan = ['N', 'a', 'N']) {x : F} {c : Char} (h : c ∈ l.chars x) : IsNumeral c := by
  simp only [chars, ofBits] at h
  split at h
  · rw [hnan] at h
    simp only [List.mem_cons, List.not_mem_nil, or_false] at h
    rcases h with rfl | rfl | rfl <;> exact .inl rfl
  · rcases List.mem_append.1 h with h | h
    · exact isNumeral_of_mem_sign h
    · rw [hinfinity] at h
      simp only [List.mem_cons, List.not_mem_nil, or_false] at h
      rcases h with rfl | rfl | rfl <;> exact .inl rfl
  · split at h
    · rcases List.mem_append.1 h with h | h
      · exact isNumeral_of_mem_sign h
      · exact l.isNumeral_of_mem_placed (by simp) h
    · rcases List.mem_append.1 h with h | h
      · exact isNumeral_of_mem_sign h
      · simp only [decimal] at h
        split at h
        · exact l.isNumeral_of_mem_placed (isDigit_of_mem_digits _) h
        · exact isNumeral_of_mem_scientific (isDigit_of_mem_digits _) h

end Layout

/-! ### Numbers that are read -/

theorem isBlank_of_isNumeral {c : Char} (h : IsNumeral c) : isBlank c = false := by
  have hbounds := h.toNat_bounds
  simp only [isBlank, Bool.or_eq_false_iff, Bool.and_eq_false_iff, decide_eq_false_iff_not,
    beq_eq_false_iff_ne, ne_eq]
  omega

theorem isBlank_of_isDigit {c : Char} (h : c.isDigit) : isBlank c = false :=
  isBlank_of_isNumeral (.of_isDigit h)

/-- White space is no letter, in either case. -/
theorem toLower_of_isBlank {c : Char} (h : isBlank c) : c.toLower = c := by
  refine dif_neg fun hupper => ?_
  have halnum : c.isAlphanum := isAlphanum_iff.2 (.inl (isAlpha_iff.2 (.inl hupper)))
  rw [isBlank_of_isNumeral (.inl halnum)] at h
  cases h

theorem isBlank_of_readExponent {cs : List Char} {e : ℤ} (h : readExponent cs = some e) :
    ∀ c ∈ cs, isBlank c = false := by
  have hdigits {ds : List Char} {value : ℤ}
      (h : (if ds ≠ [] ∧ ds.all Char.isDigit then some value else none) = some e) :
      ∀ c ∈ ds, isBlank c = false := by
    split at h
    · next hds =>
      intro c hc
      exact isBlank_of_isDigit (List.all_eq_true.1 hds.2 c hc)
    · cases h
  cases cs with
  | nil => simp
  | cons mark cs =>
      simp only [readExponent] at h
      split at h
      · next hmark =>
        intro c hc
        rcases List.mem_cons.1 hc with rfl | hc
        · rcases hmark with rfl | rfl <;> rfl
        · split at h
          · next ds =>
            rcases List.mem_cons.1 hc with rfl | hc
            · rfl
            · exact hdigits h c hc
          · next ds =>
            rcases List.mem_cons.1 hc with rfl | hc
            · rfl
            · exact hdigits h c hc
          · exact hdigits h c hc
      · cases h

theorem isBlank_of_readDecimal {cs : List Char} {d : Decimal} (h : readDecimal cs = some d) :
    ∀ c ∈ cs, isBlank c = false := by
  have hdigits (ds : List Char) : ∀ c ∈ ds.takeWhile Char.isDigit, isBlank c = false :=
    fun c hc => isBlank_of_isDigit (List.all_eq_true.1 List.all_takeWhile c hc)
  have hparts {whole fraction rest : List Char}
      (h : (if whole ++ fraction = [] then none
        else (readExponent rest).map fun e =>
          (⟨ofDigits (whole ++ fraction), e - fraction.length⟩ : Decimal)) = some d) :
      ∀ c ∈ rest, isBlank c = false := by
    split at h
    · cases h
    · obtain ⟨e, he, -⟩ := Option.map_eq_some_iff.1 h
      exact isBlank_of_readExponent he
  intro c hc
  rw [← List.takeWhile_append_dropWhile (p := Char.isDigit) (l := cs)] at hc
  rcases List.mem_append.1 hc with hc | hc
  · exact hdigits cs c hc
  · unfold readDecimal at h
    dsimp only at h
    split at h
    · next rest hrest =>
      rw [hrest] at hc
      rcases List.mem_cons.1 hc with rfl | hc
      · rfl
      rw [← List.takeWhile_append_dropWhile (p := Char.isDigit) (l := rest)] at hc
      rcases List.mem_append.1 hc with hc | hc
      · exact hdigits rest c hc
      · exact hparts h c hc
    · exact hparts h c hc

theorem isBlank_of_readUnsigned {negative : Bool} {cs : List Char} {literal : Literal}
    (h : readUnsigned negative cs = some literal) : ∀ c ∈ cs, isBlank c = false := by
  have hword {word : String} (hblank : ∀ c ∈ word.toList, isBlank c = false)
      (heq : String.ofList (cs.map Char.toLower) = word) : ∀ c ∈ cs, isBlank c = false := by
    intro c hc
    rw [← heq, String.toList_ofList] at hblank
    by_contra hc'
    have hc' : isBlank c = true := by simpa using hc'
    have := hblank c.toLower (List.mem_map_of_mem hc)
    rw [toLower_of_isBlank hc', hc'] at this
    cases this
  unfold readUnsigned at h
  dsimp only at h
  split at h
  · next heq =>
    rcases heq with heq | heq
    · exact hword (by simp [isBlank]) heq
    · exact hword (by simp [isBlank]) heq
  split at h
  · next heq => exact hword (by simp [isBlank]) heq
  · obtain ⟨d, hd, -⟩ := Option.map_eq_some_iff.1 h
    exact isBlank_of_readDecimal hd

/-- A text that is read as a number is one word. -/
theorem isWord_of_read {F : Type} [BinaryFloat F] {cs : List Char} {x : F} (h : read cs = .ok x) :
    cs ≠ [] ∧ ∀ c ∈ cs, isBlank c = false := by
  obtain ⟨literal, h, -⟩ := map_eq_ok_iff.1 h
  unfold readLiteral at h
  split at h
  · cases h
  · next hne =>
    refine ⟨hne, ?_⟩
    dsimp only at h
    split at h
    · next found hfound =>
      intro c hc
      split at hfound
      · rcases List.mem_cons.1 hc with rfl | hc
        · rfl
        · exact isBlank_of_readUnsigned hfound c hc
      · rcases List.mem_cons.1 hc with rfl | hc
        · rfl
        · exact isBlank_of_readUnsigned hfound c hc
      · exact isBlank_of_readUnsigned hfound c hc
    · cases h

end ColorChain.Number
