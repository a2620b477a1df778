import Mathlib.Data.List.Forall2
import ColorChain.Markup.Attribute
import ColorChain.Proofs.Markup.Escape
import ColorChain.Proofs.Markup.Event

/-!
# Attributes

The attributes of a tag as they may be written, and what is found under a name among them. A tag that
was given one attribute, with its value in double quotes, is a case of that.
-/

namespace ColorChain.Markup

open Text

theorem quote_not_mem_encode {cs : List Char} (h : '"' ∉ cs) : 0x22 ∉ encode cs :=
  fun hmem => ne_of_mem_encode (x := 0x22) hmem (by decide) h rfl

theorem attributesWith_nil (fuel : Nat) (seen : List Bytes) : attributesWith fuel seen [] = [] := by
  cases fuel <;> rfl

/-- Spaces at the end of a tag are no attribute. -/
theorem attributesWith_blank (fuel : Nat) (seen : List Bytes) {blanks : Bytes}
    (h : ∀ b ∈ blanks, isSpace b) : attributesWith fuel seen blanks = [] := by
  cases fuel with
  | zero => rfl
  | succ fuel =>
      have hdrop : blanks.dropWhile isSpace = [] := by
        rw [← List.append_nil blanks, List.dropWhile_append_of_pos h]
        rfl
      rw [attributesWith, hdrop]

/-- Spaces are skipped up to the first byte that is none. -/
theorem dropWhile_isSpace {blanks : Bytes} {b : UInt8} (h : ∀ x ∈ blanks, isSpace x)
    (hb : isSpace b = false) (rest : Bytes) :
    (blanks ++ b :: rest).dropWhile isSpace = b :: rest := by
  rw [List.dropWhile_append_of_pos h, List.dropWhile_cons_of_neg (by simp [hb])]

/-- A name ends at the equals sign or at the spaces before it. -/
theorem span_key {key afterKey : Bytes} (hkey : ∀ b ∈ key, b ≠ 0x3D ∧ isSpace b = false)
    (hafter : ∀ b ∈ afterKey, isSpace b) (rest : Bytes) :
    (key ++ (afterKey ++ 0x3D :: rest)).takeWhile (fun b => b != 0x3D && !isSpace b) = key ∧
      (key ++ (afterKey ++ 0x3D :: rest)).dropWhile (fun b => b != 0x3D && !isSpace b)
        = afterKey ++ 0x3D :: rest := by
  have hinside : ∀ b ∈ key, (b != 0x3D && !isSpace b) = true := by
    intro b hb
    obtain ⟨hequals, hspace⟩ := hkey b hb
    simp [hequals, hspace]
  rw [List.takeWhile_append_of_pos hinside, List.dropWhile_append_of_pos hinside]
  cases afterKey with
  | nil => simp
  | cons x xs =>
      have hx : isSpace x = true := hafter x List.mem_cons_self
      simp [hx]

/-- A value ends at its quote. -/
theorem span_value {value : Bytes} {quote : UInt8} (h : quote ∉ value) (rest : Bytes) :
    (value ++ quote :: rest).takeWhile (· != quote) = value ∧
      (value ++ quote :: rest).dropWhile (· != quote) = quote :: rest := by
  have hinside : ∀ b ∈ value, (b != quote) = true := fun b hb => bne_iff_ne.2 fun heq => h (heq ▸ hb)
  rw [List.takeWhile_append_of_pos hinside, List.dropWhile_append_of_pos hinside]
  simp

/-- An attribute with a new name is read up to its closing quote. -/
theorem attributesWith_cons {before key afterKey beforeValue value : Bytes} {quote : UInt8}
    (fuel : Nat) {seen : List Bytes} (rest : Bytes) (hbefore : ∀ b ∈ before, isSpace b)
    (hne : key ≠ []) (hkey : ∀ b ∈ key, b ≠ 0x3D ∧ isSpace b = false)
    (hafter : ∀ b ∈ afterKey, isSpace b) (hbeforeValue : ∀ b ∈ beforeValue, isSpace b)
    (hquote : isQuote quote = true) (hvalue : quote ∉ value) (hseen : key ∉ seen) :
    attributesWith (fuel + 1) seen
        (before ++ key ++ afterKey ++ 0x3D :: beforeValue ++ quote :: value ++ quote :: rest)
      = (key, value) :: attributesWith fuel (key :: seen) rest := by
  obtain ⟨b, bs, rfl⟩ := List.exists_cons_of_ne_nil hne
  have hquoteSpace : isSpace quote = false := by
    simp only [isQuote, Bool.or_eq_true, beq_iff_eq] at hquote
    rcases hquote with rfl | rfl <;> rfl
  let afterEquals := beforeValue ++ quote :: (value ++ quote :: rest)
  have hall : before ++ b :: bs ++ afterKey ++ 0x3D :: beforeValue ++ quote :: value ++ quote :: rest
      = before ++ b :: (bs ++ (afterKey ++ 0x3D :: afterEquals)) := by
    simp [afterEquals]
  have hstart := dropWhile_isSpace hbefore (hkey b List.mem_cons_self).2
    (bs ++ (afterKey ++ 0x3D :: afterEquals))
  obtain ⟨htake, hdrop⟩ := span_key (fun x hx => hkey x (List.mem_cons_of_mem b hx)) hafter afterEquals
  have hequals := dropWhile_isSpace hafter (b := 0x3D) rfl afterEquals
  have hopen : afterEquals.dropWhile isSpace = quote :: (value ++ quote :: rest) :=
    dropWhile_isSpace hbeforeValue hquoteSpace _
  obtain ⟨hcontent, hclose⟩ := span_value hvalue rest
  have hnew : seen.contains (b :: bs) = false := by simpa using hseen
  rw [hall, attributesWith, hstart]
  simp only [htake, hdrop, hequals, hopen, hquote, hcontent, hclose, hnew, if_true,
    Bool.false_eq_true, if_false, List.drop_one, List.tail_cons, reduceCtorEq]

/-! ### One attribute -/

/-- The bytes of an attribute after the name of a tag. -/
def attributeBytes (key : List Char) (value : Bytes) : Bytes :=
  0x20 :: (encode key ++ 0x3D :: 0x22 :: value ++ [0x22])

/-- A written attribute. -/
theorem encode_attribute (key value rest : List Char) :
    encode (' ' :: (key ++ '=' :: '"' :: (value ++ '"' :: rest)))
      = attributeBytes key (encode value) ++ encode rest := by
  change 0x20 :: encode (key ++ '=' :: '"' :: (value ++ '"' :: rest)) = _
  rw [encode_append]
  change 0x20 :: (encode key ++ 0x3D :: 0x22 :: encode (value ++ '"' :: rest)) = _
  rw [encode_append]
  change 0x20 :: (encode key ++ 0x3D :: 0x22 :: (encode value ++ 0x22 :: encode rest)) = _
  simp [attributeBytes]

theorem IsTagName.attribute_of_mem {name : List Char} (h : IsTagName name) {b : UInt8}
    (hb : b ∈ encode name) : b ≠ 0x3D ∧ isSpace b = false :=
  ⟨h.ne_of_mem hb (by decide), h.isSpace_of_mem hb⟩

section

variable {key : List Char} {value : Bytes}

theorem attributesWith_attributeBytes (hkey : IsTagName key) (hvalue : 0x22 ∉ value) (fuel : Nat) :
    attributesWith (fuel + 1) [] (attributeBytes key value) = [(encode key, value)] := by
  have hspace : ∀ b ∈ [(0x20 : UInt8)], isSpace b := by simp [isSpace]
  have hnone : ∀ b ∈ ([] : Bytes), isSpace b := by simp
  have hquote : isQuote 0x22 = true := rfl
  have h := attributesWith_cons fuel [] hspace hkey.encode_ne_nil (fun _ => hkey.attribute_of_mem)
    hnone hnone hquote hvalue List.not_mem_nil
  rw [attributesWith_nil] at h
  rw [← h]
  simp [attributeBytes]

/-- The one attribute is found under its name. -/
theorem attribute?_attributeBytes (hkey : IsTagName key) (hvalue : 0x22 ∉ value) (name : Bytes) :
    Tag.attribute? ⟨name, attributeBytes key value⟩ (String.ofList key) = some value := by
  have hascii : ascii (String.ofList key) = encode key := by
    rw [ascii, encodeString, String.toList_ofList]
  have hlist : Tag.attributeList ⟨name, attributeBytes key value⟩ = [(encode key, value)] :=
    attributesWith_attributeBytes hkey hvalue _
  simp [Tag.attribute?, hlist, hascii]

theorem run_attributeBytes (hkey : IsTagName key) (hvalue : 0x22 ∉ value) :
    (attributeBytes key value).foldlM tagStep none = some none := by
  have hspace : tagStep none 0x20 = some none := rfl
  have hequals : tagStep none 0x3D = some none := rfl
  have hquoted : (0x22 :: value ++ [0x22]).foldlM tagStep none = some none :=
    run_tagStep_quoted hvalue
  rw [attributeBytes, List.foldlM_cons, hspace, Option.bind_eq_bind, Option.bind_some,
    List.append_assoc, List.foldlM_append, hkey.run_tagStep, Option.bind_eq_bind, Option.bind_some,
    List.cons_append, List.foldlM_cons, hequals]
  exact hquoted

/-- An attribute belongs to the tag that its name follows, and does not end it. -/
theorem IsTagName.isTag_attributeBytes {name : List Char} (hname : IsTagName name)
    (hkey : IsTagName key) (hvalue : 0x22 ∉ value) :
    IsTag (encode name) (attributeBytes key value) :=
  hname.isTag rfl (run_attributeBytes hkey hvalue) (by simp [attributeBytes, List.getLast?_cons])

end

/-! ### Written attributes -/

/-- An attribute: a name and the text of its value. -/
structure Attribute where
  name : List Char
  value : List Char
deriving DecidableEq, Repr

/-- The attributes may be written so between the name of a tag and its end. -/
inductive SpellsAttributes : List Attribute → List Char → Prop where
  | nil {blanks : List Char} (hblanks : IsBlank blanks) : SpellsAttributes [] blanks
  | cons {a : Attribute} {as : List Attribute} {quote : Char}
      {before afterName beforeValue written rest : List Char} (hne : before ≠ [])
      (hbefore : IsBlank before) (hname : IsTagName a.name) (hafter : IsBlank afterName)
      (hbeforeValue : IsBlank beforeValue) (hquote : quote = '"' ∨ quote = '\'')
      (hvalue : SpellsText ['<', '&', quote] a.value written) (hnew : a.name ∉ as.map (·.name))
      (h : SpellsAttributes as rest) :
    SpellsAttributes (a :: as) (before ++ a.name ++ afterName ++ '=' :: beforeValue
      ++ quote :: written ++ quote :: rest)

/-- The byte of a quote. -/
theorem exists_quote {quote : Char} (h : quote = '"' ∨ quote = '\'') :
    ∃ q, isQuote q = true ∧ (∀ cs, encode (quote :: cs) = q :: encode cs) ∧
      ∀ cs, quote ∉ cs → q ∉ encode cs := by
  rcases h with rfl | rfl
  · exact ⟨0x22, rfl, fun _ => rfl, fun _ h => quote_not_mem_encode h⟩
  · exact ⟨0x27, rfl, fun _ => rfl, fun _ h hmem => ne_of_mem_encode (x := 0x27) hmem (by decide) h rfl⟩

namespace SpellsAttributes

variable {as : List Attribute} {written : List Char}

/-- The bytes of a value up to its quote, as the rules on tags need them. -/
theorem exists_bytes {quote : Char} {value written : List Char} (hquote : quote = '"' ∨ quote = '\'')
    (hvalue : SpellsText ['<', '&', quote] value written) :
    ∃ q, isQuote q = true ∧ (∀ cs, encode (quote :: cs) = q :: encode cs) ∧ q ∉ encode written := by
  obtain ⟨q, hq, hencode, hmem⟩ := exists_quote hquote
  refine ⟨q, hq, hencode, hmem written ?_⟩
  rcases hquote with rfl | rfl
  · exact hvalue.not_mem (by decide) (by decide) rfl
  · exact hvalue.not_mem (by decide) (by decide) rfl

theorem encode_cons {a : Attribute} {quote : Char} {q : UInt8}
    {before afterName beforeValue written rest : List Char}
    (hencode : ∀ cs, encode (quote :: cs) = q :: encode cs) :
    encode (before ++ a.name ++ afterName ++ '=' :: beforeValue ++ quote :: written ++ quote :: rest)
      = encode before ++ encode a.name ++ encode afterName ++ 0x3D :: encode beforeValue
        ++ q :: encode written ++ q :: encode rest := by
  have hequals (cs : List Char) : encode ('=' :: cs) = 0x3D :: encode cs := rfl
  simp only [encode_append, hencode, hequals]

/-- The attributes are read in order, each with the text of its value. -/
theorem attributesWith_forall₂ (h : SpellsAttributes as written) {fuel : Nat} {seen : List Bytes}
    (hfuel : (encode written).length ≤ fuel) (hseen : ∀ a ∈ as, encode a.name ∉ seen) :
    List.Forall₂ (fun a found => found.1 = encode a.name ∧
        unescape (decodeLossy found.2) = .ok a.value)
      as (attributesWith fuel seen (encode written)) := by
  induction h generalizing fuel seen with
  | nil hblanks =>
      rw [attributesWith_blank fuel seen (isSpace_of_mem_encode hblanks)]
      exact .nil
  | @cons a as quote before afterName beforeValue written rest hne hbefore hname hafter
      hbeforeValue hquote hvalue hnew h ih =>
      obtain ⟨q, hq, hencode, hmem⟩ := exists_bytes hquote hvalue
      rw [encode_cons hencode] at hfuel ⊢
      simp only [List.length_append, List.length_cons] at hfuel
      obtain ⟨fuel, rfl⟩ : ∃ n, fuel = n + 1 := ⟨fuel - 1, by omega⟩
      rw [attributesWith_cons fuel _ (isSpace_of_mem_encode hbefore) hname.encode_ne_nil
        (fun _ => hname.attribute_of_mem) (isSpace_of_mem_encode hafter)
        (isSpace_of_mem_encode hbeforeValue) hq hmem (hseen a List.mem_cons_self)]
      refine .cons ⟨rfl, ?_⟩ (ih (by omega) ?_)
      · rw [decodeLossy_encode]
        exact unescape_spells (by simp) hvalue
      · intro a' ha' hmem'
        rcases List.mem_cons.1 hmem' with heq | hmem'
        · exact hnew (encode_injective heq ▸ List.mem_map_of_mem ha')
        · exact hseen a' (List.mem_cons_of_mem a ha') hmem'

/-- What is found under a name is the value of the attribute with that name. -/
theorem attribute?_eq (h : SpellsAttributes as written) (name : Bytes) (key : String) :
    (Tag.attribute? ⟨name, encode written⟩ key).map (fun bytes => unescape (decodeLossy bytes))
      = (as.find? (·.name = key.toList)).map fun a => .ok a.value := by
  have hseen : ∀ a ∈ as, encode a.name ∉ ([] : List Bytes) := fun _ _ => List.not_mem_nil
  have hfound := h.attributesWith_forall₂ (Nat.le_refl _) hseen
  rw [Tag.attribute?, Tag.attributeList]
  clear h
  generalize attributesWith _ [] (encode written) = found at hfound ⊢
  induction hfound with
  | nil => rfl
  | @cons a found as rest hhead htail ih =>
      have hkey : found.1 = ascii key ↔ a.name = key.toList := by
        rw [hhead.1, ascii, encodeString]
        exact ⟨encode_injective, congrArg encode⟩
      by_cases heq : a.name = key.toList
      · simp [hkey.2 heq, heq, hhead.2]
      · have hne := mt hkey.1 heq
        simpa [hne, heq] using ih

/-- Attributes are set off from the name before them. -/
theorem takeWhile_encode (h : SpellsAttributes as written) :
    (encode written).takeWhile (!isSpace ·) = [] := by
  have hstart : ∀ b ∈ (encode written).head?, isSpace b := by
    cases h with
    | nil hblanks =>
        exact fun b hb => isSpace_of_mem_encode hblanks b (List.mem_of_mem_head? hb)
    | @cons a as quote before afterName beforeValue written rest hne hbefore =>
        obtain ⟨c, cs, rfl⟩ := List.exists_cons_of_ne_nil hne
        intro b hb
        have hbytes := isSpace_of_mem_encode hbefore
        simp only [List.cons_append, Text.encode_cons, List.append_assoc] at hb hbytes
        obtain ⟨x, xs, hx⟩ := List.exists_cons_of_ne_nil (String.utf8EncodeChar_ne_nil (c := c))
        simp only [hx, List.cons_append, List.head?_cons, Option.mem_some_iff] at hb hbytes
        exact hbytes b (hb ▸ List.mem_cons_self)
  cases hcons : encode written with
  | nil => rfl
  | cons b bs =>
      have hb : isSpace b = true := hstart b (by simp [hcons])
      simp [hb]

/-- Attributes end with a quote or a space. -/
theorem getLast?_encode (h : SpellsAttributes as written) :
    (encode written).getLast? ≠ some 0x2F := by
  induction h with
  | nil hblanks =>
      intro hlast
      cases isSpace_of_mem_encode hblanks _ (List.mem_of_getLast? hlast)
  | cons hne hbefore hname hafter hbeforeValue hquote hvalue hnew h ih =>
      obtain ⟨q, hq, hencode, -⟩ := exists_bytes hquote hvalue
      rw [encode_cons hencode, List.getLast?_append, List.getLast?_cons]
      intro hlast
      simp only [Option.some_or, Option.some.injEq] at hlast
      cases hrest : (encode _).getLast? with
      | none =>
          rw [hrest] at hlast
          obtain rfl : q = 0x2F := hlast
          cases hq
      | some x =>
          rw [hrest] at hlast
          obtain rfl : x = 0x2F := hlast
          exact ih hrest

/-- Attributes neither end a tag nor leave a quote open. -/
theorem run_encode (h : SpellsAttributes as written) :
    (encode written).foldlM tagStep none = some none := by
  induction h with
  | nil hblanks => exact run_tagStep_blank hblanks
  | @cons a as quote before afterName beforeValue written rest hne hbefore hname hafter
      hbeforeValue hquote hvalue hnew h ih =>
      obtain ⟨q, hq, hencode, hmem⟩ := exists_bytes hquote hvalue
      have hequals : tagStep none 0x3D = some none := rfl
      have hopen : tagStep none q = some (some q) := by
        simp only [isQuote, Bool.or_eq_true, beq_iff_eq] at hq
        rcases hq with rfl | rfl <;> rfl
      have hclose : tagStep (some q) q = some none := by simp [tagStep]
      rw [encode_cons hencode]
      simp only [List.foldlM_append, List.foldlM_cons, run_tagStep_blank hbefore, hname.run_tagStep,
        run_tagStep_blank hafter, hequals, run_tagStep_blank hbeforeValue, hopen,
        run_tagStep_some hmem, hclose, ih, Option.bind_eq_bind, Option.bind_some]

/-- A name with written attributes is a tag. -/
theorem isTag (h : SpellsAttributes as written) {name : List Char} (hname : IsTagName name) :
    IsTag (encode name) (encode written) :=
  hname.isTag h.takeWhile_encode h.run_encode h.getLast?_encode

end SpellsAttributes

end ColorChain.Markup
