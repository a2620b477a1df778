import ColorChain.Markup.Escape
import ColorChain.Proofs.Text.Ascii

/-!
# Spelled texts

A text may be spelled in many ways: every character that markup leaves alone as itself, and any
character as a reference to its name or to its number. Whatever the spelling, it is read as the text.
Escaping is one way to spell a text.
-/

namespace ColorChain.Markup

/-- The characters that markup reserves. -/
def reserved : List Char := ['<', '>', '&', '\'', '"']

@[simp]
theorem escape_nil : escape [] = [] := rfl

theorem escape_cons (c : Char) (cs : List Char) : escape (c :: cs) = escapeChar c ++ escape cs := rfl

theorem escapeChar_of_not_mem {c : Char} (h : c ∉ reserved) : escapeChar c = [c] := by
  unfold escapeChar
  split <;> first | rfl | exact absurd (by decide) h

/-- A reserved character is escaped as a reference to its name. -/
theorem escapeChar_of_mem {c : Char} (h : c ∈ reserved) :
    ∃ name, namedChar? name = some c ∧ escapeChar c = '&' :: (name ++ [';']) := by
  simp only [reserved, List.mem_cons, List.not_mem_nil, or_false] at h
  rcases h with rfl | rfl | rfl | rfl | rfl
  · exact ⟨['l', 't'], rfl, rfl⟩
  · exact ⟨['g', 't'], rfl, rfl⟩
  · exact ⟨['a', 'm', 'p'], rfl, rfl⟩
  · exact ⟨['a', 'p', 'o', 's'], rfl, rfl⟩
  · exact ⟨['q', 'u', 'o', 't'], rfl, rfl⟩

/-- The names of characters are made of letters. -/
theorem isAlpha_of_namedChar? {name : List Char} {c : Char} (h : namedChar? name = some c) :
    ∀ x ∈ name, x.isAlpha := by
  unfold namedChar? at h
  split at h <;> cases h <;> simp

/-- A text without reserved characters is its own escaped form. -/
theorem escape_eq_self {cs : List Char} (h : ∀ c ∈ cs, c ∉ reserved) : escape cs = cs := by
  induction cs with
  | nil => rfl
  | cons c cs ih =>
      rw [escape_cons, escapeChar_of_not_mem (h c List.mem_cons_self),
        ih fun x hx => h x (List.mem_cons_of_mem c hx)]
      rfl

/-- Of the reserved characters an escaped text holds only ampersands. -/
theorem eq_ampersand_of_mem_escape {cs : List Char} {c : Char} (h : c ∈ escape cs)
    (hc : c ∈ reserved) : c = '&' := by
  obtain ⟨x, -, hmem⟩ := List.mem_flatMap.1 h
  by_cases hx : x ∈ reserved
  · obtain ⟨name, hname, heq⟩ := escapeChar_of_mem hx
    rw [heq] at hmem
    simp only [List.mem_cons, List.mem_append, List.not_mem_nil, or_false] at hmem
    rcases hmem with rfl | hmem | rfl
    · rfl
    · have halpha := isAlpha_of_namedChar? hname c hmem
      simp only [reserved, List.mem_cons, List.not_mem_nil, or_false] at hc
      rcases hc with rfl | rfl | rfl | rfl | rfl <;> cases halpha
    · exact absurd hc (by decide)
  · rw [escapeChar_of_not_mem hx, List.mem_singleton] at hmem
    exact absurd (hmem ▸ hc) hx

theorem quote_not_mem_escape (cs : List Char) : '"' ∉ escape cs := by
  intro h
  cases eq_ampersand_of_mem_escape h (by decide)

/-! ### References -/

/-- The value of digits, from the left. -/
def positional (base : Nat) (digits : List Nat) : Nat :=
  digits.foldl (fun value digit => value * base + digit) 0

/-- What stands between `&` and `;` stands for the character: it is the name of the character, or `#`
and its number, in base sixteen after an `x`. -/
inductive Refers : List Char → Char → Prop where
  | named {name : List Char} {c : Char} (h : namedChar? name = some c) : Refers name c
  | decimal {ds : List Char} {digits : List Nat} {c : Char} (hne : ds ≠ [])
      (hdigits : ds.map (digitValue? 10) = digits.map some)
      (hvalue : positional 10 digits = c.toNat) (hc : c.toNat ≠ 0) : Refers ('#' :: ds) c
  | hexadecimal {ds : List Char} {digits : List Nat} {c : Char} (hne : ds ≠ [])
      (hdigits : ds.map (digitValue? 16) = digits.map some)
      (hvalue : positional 16 digits = c.toNat) (hc : c.toNat ≠ 0) : Refers ('#' :: 'x' :: ds) c

theorem isAlphanum_of_digitValue? {base value : Nat} {c : Char}
    (h : digitValue? base c = some value) : c.isAlphanum := by
  obtain ⟨h, -⟩ := Option.filter_eq_some_iff.1 h
  rw [Text.isAlphanum_iff]
  split at h
  · next hdigit => exact .inr hdigit
  split at h
  · next hlower =>
    refine .inl (Text.isAlpha_iff.2 (.inr ⟨hlower.1, Nat.le_trans hlower.2 ?_⟩))
    decide
  split at h
  · next hupper =>
    refine .inl (Text.isAlpha_iff.2 (.inl ⟨hupper.1, Nat.le_trans hupper.2 ?_⟩))
    decide
  · cases h

theorem isAlphanum_of_digits {base : Nat} {ds : List Char} {digits : List Nat}
    (h : ds.map (digitValue? base) = digits.map some) : ∀ d ∈ ds, d.isAlphanum := by
  intro d hd
  obtain ⟨value, -, hvalue⟩ := List.mem_map.1 (h ▸ List.mem_map_of_mem hd)
  exact isAlphanum_of_digitValue? hvalue.symm

theorem le_foldl_positional {base : Nat} (hbase : 0 < base) (digits : List Nat) (start : Nat) :
    start ≤ digits.foldl (fun value digit => value * base + digit) start := by
  induction digits generalizing start with
  | nil => exact Nat.le_refl start
  | cons digit digits ih =>
      calc
        start ≤ start * base := Nat.le_mul_of_pos_right start hbase
        _ ≤ start * base + digit := Nat.le_add_right _ _
        _ ≤ _ := ih _

/-- Digits are read as their value, if it fits 32 bits: then so do the values of all beginnings. -/
theorem readDigits_eq {base : Nat} (hbase : 0 < base) {ds : List Char} {digits : List Nat}
    (hdigits : ds.map (digitValue? base) = digits.map some) (start : Nat)
    (hfits : digits.foldl (fun value digit => value * base + digit) start < 0x100000000) :
    readDigits base start ds
      = .ok (digits.foldl (fun value digit => value * base + digit) start) := by
  induction ds generalizing digits start with
  | nil =>
      obtain rfl : digits = [] := by simpa using hdigits.symm
      rfl
  | cons d ds ih =>
      obtain ⟨digit, digits, rfl⟩ : ∃ digit rest, digits = digit :: rest :=
        List.exists_cons_of_ne_nil fun h => by simp [h] at hdigits
      simp only [List.map_cons, List.cons.injEq] at hdigits
      have hle := le_foldl_positional hbase digits (start * base + digit)
      have hfit : ¬0x100000000 ≤ start * base + digit := by
        rw [List.foldl_cons] at hfits
        omega
      simp only [readDigits, hdigits.1, if_neg hfit]
      exact ih hdigits.2 _ hfits

/-- The number of a character is read as its number. -/
theorem readNumber_eq {base : Nat} (hbase : 0 < base) {ds : List Char} {digits : List Nat} {c : Char}
    (hne : ds ≠ []) (hdigits : ds.map (digitValue? base) = digits.map some)
    (hvalue : positional base digits = c.toNat) : readNumber base ds = .ok c.toNat := by
  obtain ⟨d, rest, rfl⟩ := List.exists_cons_of_ne_nil hne
  have halnum := isAlphanum_of_digits hdigits d List.mem_cons_self
  have hsign : ¬(d = '+' ∨ d = '-') := by
    rintro (rfl | rfl) <;> cases halnum
  have hfits : c.toNat < 0x100000000 := c.val.toNat_lt
  rw [← hvalue] at hfits ⊢
  simp only [readNumber, if_neg hsign]
  exact readDigits_eq hbase hdigits 0 hfits

theorem numberedChar_bind {c : Char} (hc : c.toNat ≠ 0) :
    (Except.ok c.toNat : Except NumberFault Nat).bind (fun n =>
      if n = 0 then .error .zero
      else if n.isValidChar then .ok (Char.ofNat n)
      else .error (.notACharacter n)) = .ok c := by
  have hvalid : c.toNat.isValidChar := c.valid
  simp [Except.bind, hc, hvalid, Char.ofNat_toNat]

namespace Refers

variable {name : List Char} {c : Char}

/-- None of the characters of markup stands inside a reference. -/
theorem isAlphanum_or (h : Refers name c) : ∀ x ∈ name, x.isAlphanum ∨ x = '#' := by
  intro x hx
  cases h with
  | named h => exact .inl (Text.isAlphanum_iff.2 (.inl (isAlpha_of_namedChar? h x hx)))
  | decimal hne hdigits =>
      rcases List.mem_cons.1 hx with rfl | hx
      · exact .inr rfl
      · exact .inl (isAlphanum_of_digits hdigits x hx)
  | hexadecimal hne hdigits =>
      rcases List.mem_cons.1 hx with rfl | hx
      · exact .inr rfl
      rcases List.mem_cons.1 hx with rfl | hx
      · exact .inl rfl
      · exact .inl (isAlphanum_of_digits hdigits x hx)

theorem ne_of_mem (h : Refers name c) {x y : Char} (hx : x ∈ name) (hy : y.isAlphanum = false)
    (hy' : y ≠ '#') : x ≠ y := by
  rintro rfl
  rcases h.isAlphanum_or x hx with h | h
  · rw [hy] at h
    cases h
  · exact hy' h

/-- A reference is to a name that does not begin with `#`, or to a number after it. -/
theorem cases_hash (h : Refers name c) :
    (namedChar? name = some c ∧ name.head? ≠ some '#') ∨
      ∃ number, name = '#' :: number ∧ numberedChar number = .ok c := by
  cases h with
  | named h =>
      refine .inl ⟨h, fun hhash => ?_⟩
      have := isAlpha_of_namedChar? h '#' (List.mem_of_mem_head? hhash)
      cases this
  | @decimal ds digits _ hne hdigits hvalue hc =>
      refine .inr ⟨ds, rfl, ?_⟩
      have hx : ∀ rest, ds ≠ 'x' :: rest := by
        rintro rest rfl
        cases digits with
        | nil => cases hdigits
        | cons digit digits => cases (List.cons.inj hdigits).1
      unfold numberedChar
      split
      · next rest => exact absurd rfl (hx rest)
      · rw [readNumber_eq (by decide) hne hdigits hvalue, numberedChar_bind hc]
  | @hexadecimal ds digits _ hne hdigits hvalue hc =>
      refine .inr ⟨'x' :: ds, rfl, ?_⟩
      simp only [numberedChar, readNumber_eq (by decide) hne hdigits hvalue, numberedChar_bind hc]

end Refers

/-! ### Spelled texts -/

/-- The text may be written so where the characters in `stop` have a meaning. -/
inductive SpellsText (stop : List Char) : List Char → List Char → Prop where
  | nil : SpellsText stop [] []
  | plain {c : Char} {cs written : List Char} (hc : c ∉ stop) (h : SpellsText stop cs written) :
    SpellsText stop (c :: cs) (c :: written)
  | reference {name : List Char} {c : Char} {cs written : List Char} (hname : Refers name c)
      (h : SpellsText stop cs written) :
    SpellsText stop (c :: cs) ('&' :: (name ++ ';' :: written))

/-- An escaped text spells the text wherever only reserved characters have a meaning. -/
theorem spellsText_escape {stop : List Char} (hstop : ∀ c ∈ stop, c ∈ reserved) (cs : List Char) :
    SpellsText stop cs (escape cs) := by
  induction cs with
  | nil => exact .nil
  | cons c cs ih =>
      rw [escape_cons]
      by_cases hc : c ∈ reserved
      · obtain ⟨name, hname, heq⟩ := escapeChar_of_mem hc
        rw [heq, List.cons_append, List.append_assoc]
        exact .reference (.named hname) ih
      · rw [escapeChar_of_not_mem hc]
        exact .plain (fun h => hc (hstop c h)) ih

/-- A character with a meaning stands nowhere in a spelled text, if it has no part in references. -/
theorem SpellsText.not_mem {stop cs written : List Char} (h : SpellsText stop cs written) {c : Char}
    (hc : c ∈ stop) (hmarks : c ∉ ['&', '#', ';']) (halnum : c.isAlphanum = false) :
    c ∉ written := by
  simp only [List.mem_cons, List.not_mem_nil, or_false, not_or] at hmarks
  obtain ⟨hampersand, hhash, hsemicolon⟩ := hmarks
  induction h with
  | nil => exact List.not_mem_nil
  | @plain x cs written hx h ih =>
      intro hmem
      rcases List.mem_cons.1 hmem with rfl | hmem
      · exact hx hc
      · exact ih hmem
  | @reference name x cs written hname h ih =>
      intro hmem
      rcases List.mem_cons.1 hmem with rfl | hmem
      · exact hampersand rfl
      rcases List.mem_append.1 hmem with hmem | hmem
      · exact hname.ne_of_mem hmem halnum hhash rfl
      rcases List.mem_cons.1 hmem with rfl | hmem
      · exact hsemicolon rfl
      · exact ih hmem

theorem unescapeWith_plain {fuel total index : Nat} {c : Char} (cs : List Char) (hc : c ≠ '&') :
    unescapeWith (fuel + 1) total index (c :: cs)
      = (unescapeWith fuel total (index + c.utf8Size) cs).map (c :: ·) := by
  rw [unescapeWith]
  exact fun h => hc h

/-- A reference is read as the character that it stands for. -/
theorem unescapeWith_reference {fuel total index : Nat} {c : Char} {name : List Char}
    (cs : List Char) (hname : Refers name c) :
    unescapeWith (fuel + 1) total index ('&' :: (name ++ ';' :: cs))
      = (unescapeWith fuel total (index + 1 + byteLength name + 1) cs).map (c :: ·) := by
  have hinside : ∀ x ∈ name, (decide (x ≠ ';' ∧ x ≠ '&')) = true := by
    intro x hx
    exact decide_eq_true ⟨hname.ne_of_mem hx rfl (by decide), hname.ne_of_mem hx rfl (by decide)⟩
  rw [unescapeWith]
  simp only [List.takeWhile_append_of_pos hinside, List.dropWhile_append_of_pos hinside]
  simp only [ne_eq, not_true_eq_false, false_and, decide_false, Bool.false_eq_true,
    not_false_eq_true, List.takeWhile_cons_of_neg, List.dropWhile_cons_of_neg, List.append_nil]
  rcases hname.cases_hash with ⟨hnamed, hhash⟩ | ⟨number, rfl, hnumber⟩
  · split
    · next number => exact absurd rfl hhash
    · rw [hnamed]
      rfl
  · simp only [hnumber]
    rfl

theorem unescapeWith_spells {stop cs written : List Char} (hstop : '&' ∈ stop)
    (h : SpellsText stop cs written) {fuel : Nat} (total index : Nat)
    (hfuel : written.length ≤ fuel) : unescapeWith fuel total index written = .ok cs := by
  induction h generalizing fuel index with
  | nil => cases fuel <;> rfl
  | @plain c cs written hc h ih =>
      have hne : c ≠ '&' := by
        rintro rfl
        exact hc hstop
      rw [List.length_cons] at hfuel
      obtain ⟨fuel, rfl⟩ := Nat.exists_eq_add_of_lt (Nat.lt_of_lt_of_le (Nat.succ_pos _) hfuel)
      rw [Nat.zero_add, unescapeWith_plain _ hne, ih _ (by omega)]
      rfl
  | reference hname h ih =>
      simp only [List.length_cons, List.length_append] at hfuel
      obtain ⟨fuel, rfl⟩ := Nat.exists_eq_add_of_lt (Nat.lt_of_lt_of_le (Nat.succ_pos _) hfuel)
      rw [Nat.zero_add, unescapeWith_reference _ hname, ih _ (by omega)]
      rfl

/-- Every spelling of a text stands for the text. -/
theorem unescape_spells {stop cs written : List Char} (hstop : '&' ∈ stop)
    (h : SpellsText stop cs written) : unescape written = .ok cs :=
  unescapeWith_spells hstop h _ 0 (Nat.le_refl _)

/-- An escaped text stands for the text. -/
@[simp]
theorem unescape_escape (cs : List Char) : unescape (escape cs) = .ok cs := by
  have h : SpellsText ['&'] cs (escape cs) := spellsText_escape (by simp [reserved]) cs
  exact unescape_spells List.mem_cons_self h

end ColorChain.Markup
