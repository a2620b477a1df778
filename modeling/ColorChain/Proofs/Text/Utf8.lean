import ColorChain.Text.Utf8

/-!
# Encoded text reads back

The bytes of a character are split off as that character, so that decoding an encoded text gives the
text.
-/

namespace ColorChain.Text

/-! ### The first character by the range of its first byte -/

theorem head_one {a : UInt8} (rest : Bytes) (ha : a.toNat < 0x80) :
    head a rest = .char (Char.ofNat a.toNat) rest := by
  have h : a < 0x80 := ha
  simp only [head, if_pos h]

theorem not_lt_of_le {a b : UInt8} {n : Nat} (ha : n ≤ a.toNat) (hb : b.toNat ≤ n) : ¬ a < b :=
  UInt8.not_lt.2 (Nat.le_trans hb ha)

theorem isTail_of_bounds {b : UInt8} (hb : 0x80 ≤ b.toNat ∧ b.toNat ≤ 0xBF) : isTail b := by
  have hlow : (0x80 : UInt8) ≤ b := hb.1
  have hhigh : b ≤ (0xBF : UInt8) := hb.2
  simp [isTail, hlow, hhigh]

theorem head_two {a b : UInt8} (rest : Bytes) (ha : 0xC2 ≤ a.toNat ∧ a.toNat < 0xE0)
    (hb : 0x80 ≤ b.toNat ∧ b.toNat ≤ 0xBF) :
    head a (b :: rest) = .char (Char.ofNat ((a.toNat - 0xC0) * 64 + tailValue b)) rest := by
  have h₁ : ¬ a < 0x80 := not_lt_of_le ha.1 (by decide)
  have h₂ : ¬ a < 0xC2 := not_lt_of_le ha.1 (by decide)
  have h₃ : a < 0xE0 := ha.2
  simp only [head, if_neg h₁, if_neg h₂, if_pos h₃, isTail_of_bounds hb, if_true]

theorem head_three {a b c : UInt8} (rest : Bytes) (ha : 0xE0 ≤ a.toNat ∧ a.toNat < 0xF0)
    (hb : isSecondOfThree a b) (hc : 0x80 ≤ c.toNat ∧ c.toNat ≤ 0xBF) :
    head a (b :: c :: rest) = .char (Char.ofNat ((a.toNat - 0xE0) * 4096 + tailValue b * 64
      + tailValue c)) rest := by
  have h₁ : ¬ a < 0x80 := not_lt_of_le ha.1 (by decide)
  have h₂ : ¬ a < 0xC2 := not_lt_of_le ha.1 (by decide)
  have h₃ : ¬ a < 0xE0 := not_lt_of_le ha.1 (by decide)
  have h₄ : a < 0xF0 := ha.2
  simp only [head, if_neg h₁, if_neg h₂, if_neg h₃, if_pos h₄, hb, isTail_of_bounds hc, if_true]

theorem head_four {a b c d : UInt8} (rest : Bytes) (ha : 0xF0 ≤ a.toNat ∧ a.toNat < 0xF5)
    (hb : isSecondOfFour a b) (hc : 0x80 ≤ c.toNat ∧ c.toNat ≤ 0xBF)
    (hd : 0x80 ≤ d.toNat ∧ d.toNat ≤ 0xBF) :
    head a (b :: c :: d :: rest) = .char (Char.ofNat ((a.toNat - 0xF0) * 262144
      + tailValue b * 4096 + tailValue c * 64 + tailValue d)) rest := by
  have h₁ : ¬ a < 0x80 := not_lt_of_le ha.1 (by decide)
  have h₂ : ¬ a < 0xC2 := not_lt_of_le ha.1 (by decide)
  have h₃ : ¬ a < 0xE0 := not_lt_of_le ha.1 (by decide)
  have h₄ : ¬ a < 0xF0 := not_lt_of_le ha.1 (by decide)
  have h₅ : a < 0xF5 := ha.2
  simp only [head, if_neg h₁, if_neg h₂, if_neg h₃, if_neg h₄, if_pos h₅, hb, isTail_of_bounds hc,
    isTail_of_bounds hd, if_true]

theorem isSecondOfThree_of_bounds {a b : UInt8} (hb : 0x80 ≤ b.toNat ∧ b.toNat ≤ 0xBF)
    (hlow : a.toNat = 0xE0 → 0xA0 ≤ b.toNat) (hhigh : a.toNat = 0xED → b.toNat ≤ 0x9F) :
    isSecondOfThree a b := by
  unfold isSecondOfThree
  split
  · next h =>
    have h₁ : (0xA0 : UInt8) ≤ b := hlow (congrArg UInt8.toNat h)
    have h₂ : b ≤ (0xBF : UInt8) := hb.2
    simp [h₁, h₂]
  · split
    · next h =>
      have h₁ : (0x80 : UInt8) ≤ b := hb.1
      have h₂ : b ≤ (0x9F : UInt8) := hhigh (congrArg UInt8.toNat h)
      simp [h₁, h₂]
    · exact isTail_of_bounds hb

theorem isSecondOfFour_of_bounds {a b : UInt8} (hb : 0x80 ≤ b.toNat ∧ b.toNat ≤ 0xBF)
    (hlow : a.toNat = 0xF0 → 0x90 ≤ b.toNat) (hhigh : a.toNat = 0xF4 → b.toNat ≤ 0x8F) :
    isSecondOfFour a b := by
  unfold isSecondOfFour
  split
  · next h =>
    have h₁ : (0x90 : UInt8) ≤ b := hlow (congrArg UInt8.toNat h)
    have h₂ : b ≤ (0xBF : UInt8) := hb.2
    simp [h₁, h₂]
  · split
    · next h =>
      have h₁ : (0x80 : UInt8) ≤ b := hb.1
      have h₂ : b ≤ (0x8F : UInt8) := hhigh (congrArg UInt8.toNat h)
      simp [h₁, h₂]
    · exact isTail_of_bounds hb

/-! ### Encoded characters -/

theorem toNat_ofNat {n : Nat} (h : n < 256) : (UInt8.ofNat n).toNat = n :=
  UInt8.toNat_ofNat_of_lt' h

theorem tailValue_ofNat {n : Nat} (h : n < 64) : tailValue (UInt8.ofNat (n + 128)) = n := by
  unfold tailValue
  rw [toNat_ofNat (by omega)]
  omega

theorem tail_bounds {n : Nat} (h : n < 64) : 0x80 ≤ (UInt8.ofNat (n + 128)).toNat
    ∧ (UInt8.ofNat (n + 128)).toNat ≤ 0xBF := by
  rw [toNat_ofNat (by omega)]
  omega

/-- The bytes of a character by its size. -/
theorem utf8EncodeChar_eq (c : Char) : String.utf8EncodeChar c =
    if c.toNat ≤ 0x7F then [UInt8.ofNat c.toNat]
    else if c.toNat ≤ 0x7FF then
      [UInt8.ofNat (c.toNat / 64 % 32 + 192), UInt8.ofNat (c.toNat % 64 + 128)]
    else if c.toNat ≤ 0xFFFF then
      [UInt8.ofNat (c.toNat / 4096 % 16 + 224), UInt8.ofNat (c.toNat / 64 % 64 + 128),
        UInt8.ofNat (c.toNat % 64 + 128)]
    else
      [UInt8.ofNat (c.toNat / 262144 % 8 + 240), UInt8.ofNat (c.toNat / 4096 % 64 + 128),
        UInt8.ofNat (c.toNat / 64 % 64 + 128), UInt8.ofNat (c.toNat % 64 + 128)] := rfl

section

variable {c : Char} (rest : Bytes)

theorem char_ofNat_eq {n : Nat} (h : n = c.toNat) : Head.char (Char.ofNat n) rest = .char c rest := by
  rw [h, Char.ofNat_toNat]

theorem head_of_le_7F (h : c.toNat ≤ 0x7F) : head (UInt8.ofNat c.toNat) rest = .char c rest := by
  have ha : (UInt8.ofNat c.toNat).toNat = c.toNat := toNat_ofNat (by omega)
  exact (head_one rest (by omega)).trans (char_ofNat_eq rest ha)

theorem head_of_le_7FF (hlow : 0x7F < c.toNat) (hhigh : c.toNat ≤ 0x7FF) :
    head (UInt8.ofNat (c.toNat / 64 % 32 + 192)) (UInt8.ofNat (c.toNat % 64 + 128) :: rest)
      = .char c rest := by
  have ha : (UInt8.ofNat (c.toNat / 64 % 32 + 192)).toNat = c.toNat / 64 % 32 + 192 :=
    toNat_ofNat (by omega)
  have hb : c.toNat % 64 < 64 := Nat.mod_lt _ (by decide)
  refine (head_two rest (by omega) (tail_bounds hb)).trans (char_ofNat_eq rest ?_)
  rw [ha, tailValue_ofNat hb]
  omega

/-- Surrogates are no characters, so the second byte is in its range also after `0xED`. -/
theorem head_of_le_FFFF (hlow : 0x7FF < c.toNat) (hhigh : c.toNat ≤ 0xFFFF) :
    head (UInt8.ofNat (c.toNat / 4096 % 16 + 224)) (UInt8.ofNat (c.toNat / 64 % 64 + 128)
      :: UInt8.ofNat (c.toNat % 64 + 128) :: rest) = .char c rest := by
  have hvalid : c.toNat < 0xD800 ∨ 0xDFFF < c.toNat ∧ c.toNat < 0x110000 := c.valid
  have ha : (UInt8.ofNat (c.toNat / 4096 % 16 + 224)).toNat = c.toNat / 4096 % 16 + 224 :=
    toNat_ofNat (by omega)
  have hb : c.toNat / 64 % 64 < 64 := Nat.mod_lt _ (by decide)
  have hc : c.toNat % 64 < 64 := Nat.mod_lt _ (by decide)
  have hb' : (UInt8.ofNat (c.toNat / 64 % 64 + 128)).toNat = c.toNat / 64 % 64 + 128 :=
    toNat_ofNat (by omega)
  have hsecond : isSecondOfThree (UInt8.ofNat (c.toNat / 4096 % 16 + 224))
      (UInt8.ofNat (c.toNat / 64 % 64 + 128)) := by
    apply isSecondOfThree_of_bounds (tail_bounds hb)
    · omega
    · omega
  refine (head_three rest (by omega) hsecond (tail_bounds hc)).trans (char_ofNat_eq rest ?_)
  rw [ha, tailValue_ofNat hb, tailValue_ofNat hc]
  omega

theorem head_of_lt_toNat (hlow : 0xFFFF < c.toNat) :
    head (UInt8.ofNat (c.toNat / 262144 % 8 + 240)) (UInt8.ofNat (c.toNat / 4096 % 64 + 128)
      :: UInt8.ofNat (c.toNat / 64 % 64 + 128) :: UInt8.ofNat (c.toNat % 64 + 128) :: rest)
      = .char c rest := by
  have hvalid : c.toNat < 0xD800 ∨ 0xDFFF < c.toNat ∧ c.toNat < 0x110000 := c.valid
  have ha : (UInt8.ofNat (c.toNat / 262144 % 8 + 240)).toNat = c.toNat / 262144 % 8 + 240 :=
    toNat_ofNat (by omega)
  have hb : c.toNat / 4096 % 64 < 64 := Nat.mod_lt _ (by decide)
  have hc : c.toNat / 64 % 64 < 64 := Nat.mod_lt _ (by decide)
  have hd : c.toNat % 64 < 64 := Nat.mod_lt _ (by decide)
  have hb' : (UInt8.ofNat (c.toNat / 4096 % 64 + 128)).toNat = c.toNat / 4096 % 64 + 128 :=
    toNat_ofNat (by omega)
  have hsecond : isSecondOfFour (UInt8.ofNat (c.toNat / 262144 % 8 + 240))
      (UInt8.ofNat (c.toNat / 4096 % 64 + 128)) := by
    apply isSecondOfFour_of_bounds (tail_bounds hb)
    · omega
    · omega
  refine (head_four rest (by omega) hsecond (tail_bounds hc) (tail_bounds hd)).trans
    (char_ofNat_eq rest ?_)
  rw [ha, tailValue_ofNat hb, tailValue_ofNat hc, tailValue_ofNat hd]
  omega

end

/-- The bytes of a character are split off as the character. -/
theorem head_utf8EncodeChar (c : Char) (rest : Bytes) :
    ∃ a tail, String.utf8EncodeChar c = a :: tail ∧ head a (tail ++ rest) = .char c rest := by
  rw [utf8EncodeChar_eq]
  split
  · next h => exact ⟨_, _, rfl, head_of_le_7F rest h⟩
  split
  · next hlow hhigh => exact ⟨_, _, rfl, head_of_le_7FF rest (Nat.lt_of_not_le hlow) hhigh⟩
  split
  · next hlow hhigh => exact ⟨_, _, rfl, head_of_le_FFFF rest (Nat.lt_of_not_le hlow) hhigh⟩
  · next hlow => exact ⟨_, _, rfl, head_of_lt_toNat rest (Nat.lt_of_not_le hlow)⟩

/-- The byte of an ASCII character is its number. -/
theorem utf8EncodeChar_ascii {c : Char} (h : c.toNat ≤ 0x7F) :
    String.utf8EncodeChar c = [UInt8.ofNat c.toNat] := by
  rw [utf8EncodeChar_eq, if_pos h]

/-- No byte of another character is ASCII. -/
theorem high_of_mem_utf8EncodeChar {c : Char} (hc : 0x7F < c.toNat) :
    ∀ b ∈ String.utf8EncodeChar c, 0x7F < b.toNat := by
  have high {n m : Nat} (hm : 0x7F < m) (hlt : n + m < 256) :
      0x7F < (UInt8.ofNat (n + m)).toNat := by
    rw [toNat_ofNat hlt]
    omega
  have tail (n : Nat) : 0x7F < (UInt8.ofNat (n % 64 + 128)).toNat := high (by decide) (by omega)
  rw [utf8EncodeChar_eq, if_neg (Nat.not_le_of_lt hc)]
  split
  · rw [List.forall_mem_cons, List.forall_mem_singleton]
    exact ⟨high (by decide) (by omega), tail _⟩
  split
  · rw [List.forall_mem_cons, List.forall_mem_cons, List.forall_mem_singleton]
    exact ⟨high (by decide) (by omega), tail _, tail _⟩
  · rw [List.forall_mem_cons, List.forall_mem_cons, List.forall_mem_cons,
      List.forall_mem_singleton]
    exact ⟨high (by decide) (by omega), tail _, tail _, tail _⟩

/-! ### Encoded texts -/

@[simp]
theorem encode_nil : encode [] = [] := rfl

theorem encode_cons (c : Char) (cs : List Char) :
    encode (c :: cs) = String.utf8EncodeChar c ++ encode cs := rfl

@[simp]
theorem encode_append (cs ds : List Char) : encode (cs ++ ds) = encode cs ++ encode ds :=
  List.flatMap_append

theorem decodeFrom_cons (index : Nat) {a : UInt8} {bs rest : Bytes} {c : Char}
    (h : head a bs = .char c rest) :
    decodeFrom index (a :: bs)
      = (decodeFrom (index + (bs.length - rest.length) + 1) rest).map (c :: ·) := by
  rw [decodeFrom]
  split
  · next c' rest' h' =>
    obtain ⟨rfl, rfl⟩ := Head.char.inj (h.symm.trans h')
    rfl
  · next h' => cases h.symm.trans h'
  · next h' => cases h.symm.trans h'

theorem decodeLossy_cons {a : UInt8} {bs rest : Bytes} {c : Char} (h : head a bs = .char c rest) :
    decodeLossy (a :: bs) = c :: decodeLossy rest := by
  rw [decodeLossy]
  split
  · next c' rest' h' =>
    obtain ⟨rfl, rfl⟩ := Head.char.inj (h.symm.trans h')
    rfl
  · next h' => cases h.symm.trans h'
  · next h' => cases h.symm.trans h'

theorem decodeFrom_encode (index : Nat) (cs : List Char) :
    decodeFrom index (encode cs) = .ok cs := by
  induction cs generalizing index with
  | nil => rw [encode_nil, decodeFrom]
  | cons c cs ih =>
      obtain ⟨a, tail, hbytes, hhead⟩ := head_utf8EncodeChar c (encode cs)
      rw [encode_cons, hbytes, List.cons_append, decodeFrom_cons index hhead, ih]
      rfl

/-- An encoded text decodes to itself. -/
@[simp]
theorem decode_encode (cs : List Char) : decode (encode cs) = .ok cs := decodeFrom_encode 0 cs

/-- Lenient decoding has nothing to replace in an encoded text. -/
@[simp]
theorem decodeLossy_encode (cs : List Char) : decodeLossy (encode cs) = cs := by
  induction cs with
  | nil => rw [encode_nil, decodeLossy]
  | cons c cs ih =>
      obtain ⟨a, tail, hbytes, hhead⟩ := head_utf8EncodeChar c (encode cs)
      rw [encode_cons, hbytes, List.cons_append, decodeLossy_cons hhead, ih]

/-- An ASCII byte of an encoded text is one of its characters. -/
theorem exists_char_of_mem_encode {cs : List Char} {b : UInt8} (hb : b ∈ encode cs)
    (hascii : b.toNat ≤ 0x7F) : ∃ c ∈ cs, c.toNat = b.toNat := by
  obtain ⟨c, hc, hmem⟩ := List.mem_flatMap.1 hb
  have hlow : c.toNat ≤ 0x7F := by
    apply Nat.le_of_not_lt
    intro hhigh
    exact Nat.not_lt_of_le hascii (high_of_mem_utf8EncodeChar hhigh b hmem)
  rw [utf8EncodeChar_ascii hlow, List.mem_singleton] at hmem
  refine ⟨c, hc, ?_⟩
  rw [hmem, toNat_ofNat (by omega)]

/-- The byte of an ASCII character that does not occur in a text does not occur in its bytes. -/
theorem ne_of_mem_encode {cs : List Char} {b x : UInt8} (hb : b ∈ encode cs)
    (hascii : x.toNat ≤ 0x7F) (hx : Char.ofNat x.toNat ∉ cs) : b ≠ x := by
  rintro rfl
  obtain ⟨c, hc, hnat⟩ := exists_char_of_mem_encode hb hascii
  rw [← hnat, Char.ofNat_toNat] at hx
  exact hx hc

theorem encode_injective {cs ds : List Char} (h : encode cs = encode ds) : cs = ds := by
  have hdecode := congrArg decode h
  rw [decode_encode, decode_encode] at hdecode
  exact Except.ok.inj hdecode

/-! ### Texts in a row -/

/-- The first character of a byte sequence is its first character whatever follows. -/
theorem head_append {a : UInt8} {bs rest : Bytes} {c : Char} (more : Bytes)
    (h : head a bs = .char c rest) : head a (bs ++ more) = .char c (rest ++ more) := by
  fun_cases head a bs <;> simp only [head, *, if_true, if_false, Bool.false_eq_true] at h
  -- In every class the bytes after the last one of the character are not looked at.
  all_goals first
    | exact Head.noConfusion h
    | (obtain ⟨rfl, rfl⟩ := Head.char.inj h
       clear h
       simp only [head, List.cons_append, *, if_true, if_false])

/-- The characters of bytes do not depend on where counting begins. -/
theorem decodeFrom_eq_ok {bs : Bytes} {cs : List Char} (i j : Nat) (h : decodeFrom i bs = .ok cs) :
    decodeFrom j bs = .ok cs := by
  fun_induction decodeFrom i bs generalizing j cs with
  | case1 =>
    rw [decodeFrom]
    exact h
  | case2 i a bs c rest hhead _ ih =>
    rw [decodeFrom_cons j hhead]
    cases hrest : decodeFrom (i + (bs.length - rest.length) + 1) rest with
    | error fault =>
      rw [hrest] at h
      cases h
    | ok ds =>
      rw [hrest] at h
      rw [ih _ hrest]
      exact h
  | case3 => cases h
  | case4 => cases h

theorem decodeFrom_append {bs more : Bytes} {cs ds : List Char} (i : Nat)
    (h : decodeFrom i bs = .ok cs) (hmore : decode more = .ok ds) :
    decodeFrom i (bs ++ more) = .ok (cs ++ ds) := by
  fun_induction decodeFrom i bs generalizing cs with
  | case1 i =>
    cases h
    exact decodeFrom_eq_ok 0 i hmore
  | case2 i a bs c rest hhead _ ih =>
    cases hrest : decodeFrom (i + (bs.length - rest.length) + 1) rest with
    | error fault =>
      rw [hrest] at h
      cases h
    | ok tail =>
      rw [hrest] at h
      cases h
      rw [List.cons_append, decodeFrom_cons i (head_append more hhead),
        decodeFrom_eq_ok _ _ (ih hrest)]
      rfl
  | case3 => cases h
  | case4 => cases h

/-- Bytes that are texts are a text in a row. -/
theorem decode_append {bs more : Bytes} {cs ds : List Char} (h : decode bs = .ok cs)
    (hmore : decode more = .ok ds) : decode (bs ++ more) = .ok (cs ++ ds) :=
  decodeFrom_append 0 h hmore

end ColorChain.Text
