import ColorChain.Number.Text
import ColorChain.Proofs.Number.Bits
import ColorChain.Proofs.Number.Shortest
import ColorChain.Proofs.Text.Ascii

/-!
# Numbers read back

Every form in which a layout writes a decimal is read as a decimal of the same value, so that the
text of a number reads back as the number itself.
-/

namespace ColorChain.Number

open Text

/-! ### Digits -/

theorem isDigit_of_mem_digits (n : ℕ) : ∀ c ∈ digits n, c.isDigit := by
  intro c hc
  exact Nat.isDigit_of_mem_toDigits (by decide) (by decide) hc

theorem isDigit_of_mem_zeros (n : ℕ) : ∀ c ∈ zeros n, c.isDigit := by
  intro c hc
  rw [List.eq_of_mem_replicate hc]
  rfl

theorem isDigit_of_mem_append {ds es : List Char} (hds : ∀ c ∈ ds, c.isDigit)
    (hes : ∀ c ∈ es, c.isDigit) : ∀ c ∈ ds ++ es, c.isDigit := by
  intro c hc
  rcases List.mem_append.1 hc with hc | hc
  · exact hds c hc
  · exact hes c hc

theorem digits_ne_nil (n : ℕ) : digits n ≠ [] := Nat.toDigits_ne_nil

@[simp]
theorem length_zeros (n : ℕ) : (zeros n).length = n := List.length_replicate

@[simp]
theorem ofDigits_digits (n : ℕ) : ofDigits (digits n) = n := Nat.ofDigitChars_ten_toDigits

theorem ofDigits_append_zeros (ds : List Char) (n : ℕ) :
    ofDigits (ds ++ zeros n) = ofDigits ds * 10 ^ n := by
  rw [ofDigits, Nat.ofDigitChars_append, zeros, Nat.ofDigitChars_replicate_zero, Nat.mul_comm]
  rfl

theorem ofDigits_zeros_append (n : ℕ) (ds : List Char) : ofDigits (zeros n ++ ds) = ofDigits ds := by
  rw [ofDigits, Nat.ofDigitChars_append, zeros, Nat.ofDigitChars_replicate_zero, Nat.mul_zero]
  rfl

theorem ofDigits_zero_cons (ds : List Char) : ofDigits ('0' :: ds) = ofDigits ds :=
  ofDigits_zeros_append 1 ds

/-! ### Reading digits -/

/-- What follows the digits of a decimal begins with no digit and no point. -/
theorem head_of_readExponent {suffix : List Char} {e : ℤ} (h : readExponent suffix = some e) :
    suffix.takeWhile Char.isDigit = [] ∧ suffix.dropWhile Char.isDigit = suffix
      ∧ suffix.head? ≠ some '.' := by
  cases suffix with
  | nil => exact ⟨rfl, rfl, by simp⟩
  | cons c cs =>
      have hc : c = 'e' ∨ c = 'E' := by
        by_contra hc
        simp [readExponent, hc] at h
      rcases hc with rfl | rfl <;> simp

theorem readDecimal_point (whole fraction : List Char) {suffix : List Char} {e : ℤ}
    (hwhole : ∀ c ∈ whole, c.isDigit) (hfraction : ∀ c ∈ fraction, c.isDigit)
    (hne : whole ++ fraction ≠ []) (he : readExponent suffix = some e) :
    readDecimal (whole ++ '.' :: (fraction ++ suffix))
      = some ⟨ofDigits (whole ++ fraction), e - fraction.length⟩ := by
  obtain ⟨htake, hdrop, -⟩ := head_of_readExponent he
  have hdot : Char.isDigit '.' = false := rfl
  simp [readDecimal, List.takeWhile_append_of_pos hwhole, List.dropWhile_append_of_pos hwhole,
    List.takeWhile_append_of_pos hfraction, List.dropWhile_append_of_pos hfraction, hdot, htake,
    hdrop, he]
  simpa using hne

theorem readDecimal_whole {whole suffix : List Char} {e : ℤ}
    (hwhole : ∀ c ∈ whole, c.isDigit) (hne : whole ≠ []) (he : readExponent suffix = some e) :
    readDecimal (whole ++ suffix) = some ⟨ofDigits whole, e⟩ := by
  obtain ⟨htake, hdrop, hhead⟩ := head_of_readExponent he
  simp only [readDecimal, List.takeWhile_append_of_pos hwhole, List.dropWhile_append_of_pos hwhole,
    htake, hdrop, List.append_nil]
  split
  · exact absurd rfl hhead
  · simp [hne, he]

theorem readExponent_integer (n : ℤ) : readExponent ('e' :: Layout.integer n) = some n := by
  unfold Layout.integer
  rcases hds : digits n.natAbs with - | ⟨c, cs⟩
  · exact absurd hds (digits_ne_nil _)
  have hall : ∀ x ∈ c :: cs, x.isDigit := by
    rw [← hds]
    exact isDigit_of_mem_digits n.natAbs
  have hvalue : ofDigits (c :: cs) = n.natAbs := hds ▸ ofDigits_digits n.natAbs
  have hc : c.isDigit := hall c List.mem_cons_self
  have hdigits : (c :: cs).all Char.isDigit := List.all_eq_true.2 hall
  have hfound : (c :: cs) ≠ [] ∧ (c :: cs).all Char.isDigit := ⟨by simp, hdigits⟩
  split
  · simp only [readExponent, true_or, if_true]
    rw [if_pos hfound, hvalue]
    congr 1
    omega
  · have hminus : c ≠ '-' := by rintro rfl; exact absurd hc (by decide)
    have hplus : c ≠ '+' := by rintro rfl; exact absurd hc (by decide)
    simp only [readExponent, true_or, if_true, List.cons.injEq, hminus, hplus, false_and,
      imp_self, implies_true]
    rw [if_pos hfound, hvalue, if_neg (by decide)]
    congr 1
    omega

/-! ### Written decimals -/

namespace Layout

variable (l : Layout)

/-- A decimal below one is read as itself. -/
theorem readDecimal_fraction {d : Decimal} (hpoint : d.point ≤ 0) :
    readDecimal ('0' :: '.' :: (zeros (-d.point).toNat ++ digits d.coefficient)) = some d := by
  have hnone : readExponent [] = some 0 := rfl
  have hlength : d.point = d.exponent + (digits d.coefficient).length := rfl
  have hfraction := isDigit_of_mem_append (isDigit_of_mem_zeros (-d.point).toNat)
    (isDigit_of_mem_digits d.coefficient)
  have hread := readDecimal_point ['0'] _ (by simp) hfraction (by simp) hnone
  have hexponent :
      (0 : ℤ) - ((-d.point).toNat + (digits d.coefficient).length : ℕ) = d.exponent := by
    omega
  simpa only [List.append_nil, List.cons_append, List.nil_append, ofDigits_zero_cons,
    ofDigits_zeros_append, ofDigits_digits, List.length_append, length_zeros, hexponent] using hread

/-- A decimal with its point among its digits is read as itself. -/
theorem readDecimal_mixed {d : Decimal} (hpos : 0 < d.point)
    (hlt : d.point.toNat < (digits d.coefficient).length) :
    readDecimal ((digits d.coefficient).take d.point.toNat
      ++ '.' :: (digits d.coefficient).drop d.point.toNat) = some d := by
  have hnone : readExponent [] = some 0 := rfl
  have hlength : d.point = d.exponent + (digits d.coefficient).length := rfl
  have hds := isDigit_of_mem_digits d.coefficient
  have hwhole : ∀ c ∈ (digits d.coefficient).take d.point.toNat, c.isDigit := by
    intro c hc
    exact hds c (List.mem_of_mem_take hc)
  have hfraction : ∀ c ∈ (digits d.coefficient).drop d.point.toNat, c.isDigit := by
    intro c hc
    exact hds c (List.mem_of_mem_drop hc)
  have hread := readDecimal_point _ _ hwhole hfraction (by simp [digits_ne_nil]) hnone
  have hexponent : (0 : ℤ) - ((digits d.coefficient).length - d.point.toNat : ℕ) = d.exponent := by
    omega
  simpa only [List.append_nil, List.take_append_drop, ofDigits_digits, List.length_drop,
    hexponent] using hread

/-- A whole number is read with the zeros of its power of ten in its coefficient, and one more if
it was written with a fraction. -/
theorem readDecimal_whole_number {d : Decimal} {k : ℕ} (hk : d.exponent = k) (pointZero : Bool) :
    ∃ d', readDecimal (digits d.coefficient ++ zeros k ++ (if pointZero then ['.', '0'] else []))
      = some d' ∧ d'.value = d.value := by
  have hnone : readExponent [] = some 0 := rfl
  have hwhole := isDigit_of_mem_append (isDigit_of_mem_digits d.coefficient)
    (isDigit_of_mem_zeros k)
  cases pointZero with
  | true =>
      have hone : (['0'] : List Char) = zeros 1 := rfl
      refine ⟨_, readDecimal_point _ ['0'] hwhole (by simp) (by simp) hnone, ?_⟩
      simp only [Decimal.value, hone, ofDigits_append_zeros, ofDigits_digits, length_zeros, hk]
      push_cast
      rw [zpow_natCast]
      norm_num
      ring
  | false =>
      have hne : digits d.coefficient ++ zeros k ≠ [] := by simp [digits_ne_nil]
      refine ⟨_, readDecimal_whole hwhole hne hnone, ?_⟩
      simp only [Decimal.value, ofDigits_append_zeros, ofDigits_digits, hk]
      push_cast
      rw [zpow_natCast, mul_one]

/-- Digits with a point at the place of a decimal are read as a decimal of its value. -/
theorem readDecimal_placed (d : Decimal) :
    ∃ d', readDecimal (l.placed (digits d.coefficient) d.point) = some d' ∧ d'.value = d.value := by
  have hlength : d.point = d.exponent + (digits d.coefficient).length := rfl
  unfold placed
  split
  · next hle => exact ⟨d, readDecimal_fraction hle, rfl⟩
  · next hpos =>
    split
    · next hlen =>
      obtain ⟨k, hk⟩ : ∃ k : ℕ, d.exponent = k := ⟨d.exponent.toNat, by omega⟩
      have hzeros : d.point.toNat - (digits d.coefficient).length = k := by omega
      rw [hzeros]
      exact readDecimal_whole_number hk l.pointZero
    · next hlen => exact ⟨d, readDecimal_mixed (by omega) (by omega), rfl⟩

/-- Digits with a power of ten are read as the decimal itself. -/
theorem readDecimal_scientific (d : Decimal) :
    readDecimal (scientific (digits d.coefficient) d.point) = some d := by
  have hds := isDigit_of_mem_digits d.coefficient
  have hpoint : d.point = d.exponent + (digits d.coefficient).length := rfl
  have hlength : 0 < (digits d.coefficient).length := Nat.length_toDigits_pos
  have he := readExponent_integer (d.point - 1)
  simp only [scientific]
  split
  · next hle =>
    rw [readDecimal_whole hds (digits_ne_nil _) he, ofDigits_digits]
    congr 2
    omega
  · next hlt =>
    have hwhole : ∀ c ∈ (digits d.coefficient).take 1, c.isDigit := by
      intro c hc
      exact hds c (List.mem_of_mem_take hc)
    have hfraction : ∀ c ∈ (digits d.coefficient).drop 1, c.isDigit := by
      intro c hc
      exact hds c (List.mem_of_mem_drop hc)
    rw [List.append_assoc, List.cons_append,
      readDecimal_point _ _ hwhole hfraction (by simp [digits_ne_nil]) he, List.take_append_drop,
      ofDigits_digits, List.length_drop]
    congr 2
    omega

theorem readDecimal_decimal (d : Decimal) :
    ∃ d', readDecimal (l.decimal d) = some d' ∧ d'.value = d.value := by
  simp only [decimal]
  split
  · exact l.readDecimal_placed d
  · exact ⟨d, readDecimal_scientific d, rfl⟩

/-- A written decimal begins with a digit. -/
theorem exists_digit_cons_placed {ds : List Char} (hds : ∀ c ∈ ds, c.isDigit) (hne : ds ≠ [])
    (point : ℤ) : ∃ c cs, l.placed ds point = c :: cs ∧ c.isDigit := by
  obtain ⟨c, cs, rfl⟩ := List.exists_cons_of_ne_nil hne
  have hc := hds c List.mem_cons_self
  unfold placed
  split
  · exact ⟨'0', _, rfl, by decide⟩
  · next hpos =>
    split
    · exact ⟨c, _, rfl, hc⟩
    · obtain ⟨k, hk⟩ : ∃ k : ℕ, point.toNat = k + 1 := ⟨point.toNat - 1, by omega⟩
      exact ⟨c, cs.take k ++ '.' :: (c :: cs).drop point.toNat, by rw [hk]; rfl, hc⟩

theorem exists_digit_cons_decimal (d : Decimal) :
    ∃ c cs, l.decimal d = c :: cs ∧ c.isDigit := by
  have hds := isDigit_of_mem_digits d.coefficient
  have hne := digits_ne_nil d.coefficient
  simp only [decimal]
  split
  · exact l.exists_digit_cons_placed hds hne _
  · obtain ⟨c, cs, heq⟩ := List.exists_cons_of_ne_nil hne
    have hc := hds c (heq ▸ List.mem_cons_self)
    simp only [scientific, heq]
    split
    · exact ⟨c, _, rfl, hc⟩
    · exact ⟨c, _, rfl, hc⟩

end Layout

/-! ### Numbers -/

/-- A text that begins with a digit is none of the words for infinity and NaN. -/
theorem readUnsigned_digit (negative : Bool) {c : Char} (cs : List Char) (hc : c.isDigit) :
    readUnsigned negative (c :: cs) = (readDecimal (c :: cs)).map (.decimal negative) := by
  have hlower : c.toLower.isDigit := by
    rw [toLower_of_isDigit hc]
    exact hc
  have hword (word : List Char) (hw : ∀ x ∈ word.head?, ¬ x.isDigit) :
      String.ofList ((c :: cs).map Char.toLower) ≠ String.ofList word := by
    intro h
    rw [String.ofList_inj] at h
    exact hw c.toLower (by rw [← h]; rfl) hlower
  have hinf := hword ['i', 'n', 'f'] (by simp)
  have hinfinity := hword ['i', 'n', 'f', 'i', 'n', 'i', 't', 'y'] (by simp)
  have hnan := hword ['n', 'a', 'n'] (by simp)
  simp only [readUnsigned]
  rw [if_neg, if_neg hnan]
  rintro (h | h)
  · exact hinf h
  · exact hinfinity h

/-- The sign in front of a text that begins with a digit is read as the sign of its decimal. -/
theorem readLiteral_sign (negative : Bool) {c : Char} {cs : List Char} (hc : c.isDigit) {d : Decimal}
    (h : readDecimal (c :: cs) = some d) :
    readLiteral (Layout.sign negative ++ c :: cs) = .ok (.decimal negative d) := by
  have hread : readUnsigned negative (c :: cs) = some (.decimal negative d) := by
    rw [readUnsigned_digit negative cs hc, h]
    rfl
  cases negative with
  | true => simp [Layout.sign, readLiteral, hread]
  | false =>
      have hminus : c ≠ '-' := by rintro rfl; exact absurd hc (by decide)
      have hplus : c ≠ '+' := by rintro rfl; exact absurd hc (by decide)
      simp [Layout.sign, readLiteral, hread, hminus, hplus]

namespace Layout

variable (l : Layout) {F : Type} [BinaryFloat F] [LawfulBinaryFloat F]

/-- A written decimal with its sign is read as a literal of the same value. -/
theorem readLiteral_text (negative : Bool) {text : List Char} {d : Decimal}
    (hcons : ∃ c cs, text = c :: cs ∧ c.isDigit)
    (hread : ∃ d', readDecimal text = some d' ∧ d'.value = d.value) :
    ∃ d', readLiteral (sign negative ++ text) = .ok (.decimal negative d') ∧ d'.value = d.value := by
  obtain ⟨c, cs, rfl, hc⟩ := hcons
  obtain ⟨d', hread, hvalue⟩ := hread
  exact ⟨d', readLiteral_sign negative hc hread, hvalue⟩

/-- The text of a finite pattern is read as a literal whose nearest pattern it is. -/
theorem nearest_readLiteral_finite (f : Format) (negative : Bool) {rest significand : ℕ}
    {exponent : ℤ} (hfinite : rest < f.infinityBits)
    (hmagnitude : f.magnitude rest = (significand, exponent)) :
    ∃ literal, readLiteral (if significand = 0 then sign negative ++ l.placed ['0'] 1
        else sign negative ++ l.decimal (f.shortest l.tie rest)) = .ok literal
      ∧ literal.nearest f = f.signed negative rest := by
  have hzero := f.significand_eq_zero_iff hfinite hmagnitude
  obtain ⟨d', hliteral, hnearest⟩ : ∃ d',
      readLiteral (if significand = 0 then sign negative ++ l.placed ['0'] 1
        else sign negative ++ l.decimal (f.shortest l.tie rest)) = .ok (.decimal negative d')
      ∧ d'.nearest f = rest := by
    split
    · next hs =>
      have hcons : ∃ c cs, l.placed ['0'] 1 = c :: cs ∧ c.isDigit :=
        l.exists_digit_cons_placed (by simp) (by simp) 1
      obtain ⟨d', hliteral, hvalue⟩ := readLiteral_text negative hcons (l.readDecimal_placed ⟨0, 0⟩)
      refine ⟨d', hliteral, ?_⟩
      rw [Decimal.nearest_eq_of_value_eq f hvalue, hzero.1 hs]
      rfl
    · next hs =>
      obtain ⟨d', hliteral, hvalue⟩ := readLiteral_text negative (l.exists_digit_cons_decimal _)
        (l.readDecimal_decimal (f.shortest l.tie rest))
      have hpos : 0 < rest := by
        rw [Nat.pos_iff_ne_zero, ne_eq, ← hzero]
        exact hs
      refine ⟨d', hliteral, ?_⟩
      rw [Decimal.nearest_eq_of_value_eq f hvalue, f.nearest_shortest l.tie hpos hfinite]
  refine ⟨.decimal negative d', hliteral, ?_⟩
  rw [Literal.nearest, hnearest]

/-- The text of a pattern is read as the nearest literal to it, if the words for infinity and NaN
are the ones that are read. -/
theorem nearest_readLiteral_ofBits (f : Format) (hinfinity : l.infinity = ['i', 'n', 'f'])
    (hnan : l.nan = ['N', 'a', 'N']) {bits : ℕ} (hbits : bits < 2 * f.signWeight)
    (hcanonical : f.datum bits = .nan → bits = f.nanBits) :
    ∃ literal, readLiteral (l.ofBits f bits) = .ok literal ∧ literal.nearest f = bits := by
  have hrest := f.signed_rest hbits
  simp only [ofBits]
  split
  · next h =>
    refine ⟨.nan, by rw [hnan]; rfl, ?_⟩
    exact (hcanonical h).symm
  · next negative h =>
    obtain ⟨hnegative, hinfinite⟩ := f.of_datum_infinity h
    refine ⟨.infinity negative, ?_, ?_⟩
    · rw [hinfinity]
      cases negative <;> rfl
    · rw [← hnegative, hinfinite] at hrest
      exact hrest
  · next negative significand exponent h =>
    obtain ⟨hnegative, hfinite, hmagnitude⟩ := f.of_datum_finite h
    rw [← hnegative] at hrest
    obtain ⟨literal, hread, hnearest⟩ := l.nearest_readLiteral_finite f negative hfinite hmagnitude
    exact ⟨literal, hread, hnearest.trans hrest⟩

/-- The text of a number reads back as the number. -/
theorem read_chars (hinfinity : l.infinity = ['i', 'n', 'f']) (hnan : l.nan = ['N', 'a', 'N'])
    (x : F) : read (l.chars x) = .ok x := by
  obtain ⟨literal, hread, hnearest⟩ := l.nearest_readLiteral_ofBits (BinaryFloat.format F)
    hinfinity hnan (LawfulBinaryFloat.toBits_lt x) (LawfulBinaryFloat.toBits_of_nan x)
  rw [read, chars, hread]
  change Except.ok (BinaryFloat.ofBits (literal.nearest (BinaryFloat.format F))) = _
  rw [hnearest, LawfulBinaryFloat.ofBits_toBits]

@[simp]
theorem read_plain_chars (x : F) : read (plain.chars x) = .ok x := plain.read_chars rfl rfl x

end Layout

end ColorChain.Number
