import ColorChain.Proofs.Text.Ascii
import ColorChain.Text.LowerCase
import Mathlib.Data.List.Basic

/-!
# Lower case and ASCII

The lower-case form of an ASCII text is that of ASCII. Other letters may become ASCII letters, as
the Kelvin sign becomes a k, so that a word in lower case may come from a text that is not ASCII. The
letters c, d and l come from ASCII letters only. A capital sigma at the end of a text has the final
form after a letter.
-/

namespace ColorChain.Text

/-- The text holds ASCII characters only. -/
def IsAscii (cs : List Char) : Prop := ∀ c ∈ cs, c.toNat < 128

/-- The letters of the extensions of record files. -/
def recordLetters : List Char := ['c', 'd', 'l']

/-- A lower-case form that is the one of ASCII on ASCII texts, and leads to nothing but record letters
from ASCII texts only. -/
structure IsLowerCase (fold : List Char → List Char) : Prop where
  ascii : ∀ cs, IsAscii cs → fold cs = cs.map Char.toLower
  letters : ∀ cs, (∀ c ∈ fold cs, c ∈ recordLetters) → IsAscii cs

theorem toNat_mem_of_mem_recordLetters {c : Char} (h : c ∈ recordLetters) :
    c.toNat ∈ [99, 100, 108] :=
  List.mem_map_of_mem h

theorem toNat_of_mem_recordLetters {c : Char} (h : c ∈ recordLetters) :
    c.toNat = 99 ∨ c.toNat = 100 ∨ c.toNat = 108 := by
  simpa only [List.mem_cons, List.not_mem_nil, or_false] using toNat_mem_of_mem_recordLetters h

/-- The form of ASCII, character by character. -/
theorem isLowerCase_map_toLower : IsLowerCase (List.map Char.toLower) where
  ascii _ _ := rfl
  letters cs h c hc := by
    by_contra hlarge
    have hsame := toLower_of_le (Nat.le_of_not_lt hlarge)
    have hletter := toNat_of_mem_recordLetters (h _ (List.mem_map_of_mem hc))
    rw [hsame] at hletter
    omega

/-! ### The rows of capitals -/

/-- The row of the capitals of ASCII. -/
def capitals : CaseRow := ⟨0x41, 0x5A, 1, 32⟩

/-- The other rows begin beyond ASCII. -/
theorem le_first_of_mem_tail : ∀ row ∈ caseRows.tail, 128 ≤ row.first := by
  decide +kernel

theorem find?_caseRows_of_lt {n : Nat} (h : n < 128) :
    caseRows.find? (·.covers n) = if capitals.covers n then some capitals else none := by
  have htail : caseRows.tail.find? (·.covers n) = none := by
    refine List.find?_eq_none.mpr fun row hrow => ?_
    have hfirst := le_first_of_mem_tail row hrow
    simp only [CaseRow.covers, Bool.and_eq_true, decide_eq_true_eq]
    omega
  change (capitals :: caseRows.tail).find? (·.covers n) = _
  rw [List.find?_cons, htail]
  cases capitals.covers n <;> rfl

/-- What the row of ASCII says is what ASCII says. -/
theorem lower_capitals : ∀ n < 128,
    (if capitals.covers n then Char.ofNat (n + capitals.offset).toNat else Char.ofNat n) =
      (Char.ofNat n).toLower := by
  decide

theorem lowerChar_of_lt {c : Char} (h : c.toNat < 128) : lowerChar c = c.toLower := by
  have hlower := lower_capitals c.toNat h
  rw [Char.ofNat_toNat] at hlower
  rw [← hlower, lowerChar, find?_caseRows_of_lt h]
  cases capitals.covers c.toNat <;> rfl

/-- No row beyond ASCII leads to a record letter. -/
theorem lt_of_covers : ∀ row ∈ caseRows, ∀ letter ∈ ([99, 100, 108] : List Nat),
    row.covers (letter - row.offset).toNat → (letter - row.offset).toNat < 128 := by
  decide +kernel

theorem toNat_lt_of_lowerChar {c : Char} (h : lowerChar c ∈ recordLetters) : c.toNat < 128 := by
  have hletter := toNat_of_mem_recordLetters h
  cases hrow : caseRows.find? (·.covers c.toNat) with
  | none =>
    simp only [lowerChar, hrow] at hletter
    omega
  | some row =>
    have hcovers := List.find?_some hrow
    have hbound := lt_of_covers row (List.mem_of_find?_eq_some hrow) _
      (toNat_mem_of_mem_recordLetters h)
    have hlower : lowerChar c = Char.ofNat (c.toNat + row.offset).toNat := by
      rw [lowerChar, hrow]
    have hvalid : (c.toNat + row.offset).toNat.isValidChar := by
      by_contra hinvalid
      rw [hlower, Char.ofNat, dif_neg hinvalid] at hletter
      exact absurd hletter (by decide)
    have hnat : (lowerChar c).toNat = (c.toNat + row.offset).toNat := by
      rw [hlower, Char.ofNat, dif_pos hvalid]
      rfl
    rw [hnat] at hbound hletter
    have hback : (((c.toNat + row.offset).toNat : Int) - row.offset).toNat = c.toNat := by
      omega
    rw [hback] at hbound
    exact hbound hcovers

/-! ### Texts -/

theorem lowerFrom_of_isAscii (before : List Char) {cs : List Char} (h : IsAscii cs) :
    lowerFrom before cs = cs.map Char.toLower := by
  induction cs generalizing before with
  | nil => rfl
  | cons c cs ih =>
    obtain ⟨hc, hcs⟩ := List.forall_mem_cons.mp h
    have hdotted : c ≠ Char.ofNat 0x130 := by
      rintro rfl
      exact absurd hc (by decide)
    have hsigma : c ≠ Char.ofNat 0x3A3 := by
      rintro rfl
      exact absurd hc (by decide)
    simp only [lowerFrom, hdotted, hsigma, if_false, lowerChar_of_lt hc, ih _ hcs, List.map_cons]

theorem isAscii_of_lowerFrom (before : List Char) {cs : List Char}
    (h : ∀ c ∈ lowerFrom before cs, c ∈ recordLetters) : IsAscii cs := by
  induction cs generalizing before with
  | nil => exact fun _ => nofun
  | cons c cs ih =>
    simp only [lowerFrom] at h
    split at h
    · exact absurd (h 'i' List.mem_cons_self) (by decide)
    · split at h
      · have hfirst := h _ List.mem_cons_self
        split at hfirst <;> exact absurd hfirst (by decide)
      · obtain ⟨hc, hcs⟩ := List.forall_mem_cons.mp h
        exact List.forall_mem_cons.mpr ⟨toNat_lt_of_lowerChar hc, ih _ hcs⟩

theorem isLowerCase_lower : IsLowerCase lower where
  ascii _ h := lowerFrom_of_isAscii [] h
  letters _ h := isAscii_of_lowerFrom [] h

/-! ### Sigma at the end of a word -/

theorem beginsCased_append {skipped : List Char} (h : ∀ c ∈ skipped, isCaseIgnorable c)
    (cs : List Char) : beginsCased (skipped ++ cs) = beginsCased cs := by
  rw [beginsCased, List.dropWhile_append_of_pos h, beginsCased]

/-- The form of the rest of a text depends on what stands before the rest, not on its form. -/
theorem exists_lowerFrom_append (before cs rest : List Char) :
    ∃ form, lowerFrom before (cs ++ rest) = form ++ lowerFrom (cs.reverse ++ before) rest := by
  induction cs generalizing before with
  | nil => exact ⟨[], rfl⟩
  | cons c cs ih =>
    obtain ⟨form, hform⟩ := ih (c :: before)
    simp only [List.cons_append, lowerFrom, hform, List.reverse_cons, List.append_assoc,
      List.nil_append]
    split
    · exact ⟨_ :: _ :: form, rfl⟩
    · split <;> exact ⟨_ :: form, rfl⟩

theorem getLast?_lower_sigma (cs : List Char) :
    (lower (cs ++ ['Σ'])).getLast? = some (if beginsCased cs.reverse then 'ς' else 'σ') := by
  obtain ⟨form, hform⟩ := exists_lowerFrom_append [] cs ['Σ']
  have hsigma : lowerFrom (cs.reverse ++ []) ['Σ']
      = [if beginsCased cs.reverse then 'ς' else 'σ'] := by
    have hnext : beginsCased [] = false := rfl
    rw [List.append_nil]
    simp only [lowerFrom, hnext, Bool.not_false, Bool.and_true]
    cases beginsCased cs.reverse <;> rfl
  rw [lower, hform, hsigma, List.getLast?_concat]

/-- A capital sigma that ends a text is a final one after a letter that has a case, whatever
case-ignorable characters stand between the two. -/
theorem getLast?_lower_final_sigma {letter : Char} {skipped : List Char} (hletter : isCased letter)
    (hword : isCaseIgnorable letter = false) (hskipped : ∀ c ∈ skipped, isCaseIgnorable c)
    (cs : List Char) : (lower (cs ++ letter :: skipped ++ ['Σ'])).getLast? = some 'ς' := by
  have hcased : beginsCased (cs ++ letter :: skipped).reverse := by
    rw [List.reverse_append, List.reverse_cons, List.append_assoc,
      beginsCased_append fun c hc => hskipped c (List.mem_reverse.mp hc)]
    simp [beginsCased, hword, hletter]
  rw [getLast?_lower_sigma, if_pos hcased]

example : lower "a'Σ".toList = "a'ς".toList := by decide +kernel

end ColorChain.Text
