import ColorChain.Proofs.Markup.Escape
import ColorChain.Proofs.Markup.Piece
import ColorChain.Proofs.Text.Utf8

/-!
# Fragments of a text

The text of an element may be written in fragments: characters as they are, sections of character
data, and references; comments and instructions may stand between them and add nothing. Each kind of
markup goes on up to its closing mark, so the mark must not come earlier.
-/

namespace ColorChain.Markup

open Text

/-- A fragment of a text, with what keeps it from ending early. -/
inductive Fragment where
  | raw (cs : List Char) (h : ∀ c ∈ cs, c ∉ ['<', '&'])
  | cdata (cs : List Char) (h : ¬[']', ']', '>'] <:+: cs)
  | reference (name : List Char) (c : Char) (h : Refers name c)
  | comment (cs : List Char) (h : ¬['-', '-', '>'] <:+: cs)
  /-- The question mark that opens an instruction cannot close it. -/
  | instruction (cs : List Char) (h : ¬['?', '>'] <:+: '?' :: cs)

namespace Fragment

/-- The fragment as it stands in a document. -/
def written : Fragment → List Char
  | raw cs _ => cs
  | cdata cs _ => ['<', '!', '[', 'C', 'D', 'A', 'T', 'A', '['] ++ cs ++ [']', ']', '>']
  | reference name _ _ => '&' :: (name ++ [';'])
  | comment cs _ => ['<', '!', '-', '-'] ++ cs ++ ['-', '-', '>']
  | instruction cs _ => ['<', '?'] ++ cs ++ ['?', '>']

/-- The text that the fragment stands for. -/
def data : Fragment → List Char
  | raw cs _ => cs
  | cdata cs _ => cs
  | reference _ c _ => [c]
  | comment _ _ => []
  | instruction _ _ => []

/-- An escaped text is written in fragments: reserved characters are references. -/
theorem exists_escape (cs : List Char) :
    ∃ fs : List Fragment, fs.flatMap written = escape cs ∧ fs.flatMap data = cs := by
  induction cs with
  | nil => exact ⟨[], rfl, rfl⟩
  | cons c cs ih =>
      obtain ⟨fs, hwritten, hdata⟩ := ih
      have hone : ∃ f : Fragment, f.written = escapeChar c ∧ f.data = [c] := by
        by_cases hc : c ∈ reserved
        · obtain ⟨name, hname, heq⟩ := escapeChar_of_mem hc
          exact ⟨.reference name c (.named hname), heq.symm, rfl⟩
        · have hplain : ∀ x ∈ [c], x ∉ ['<', '&'] := by
            have hreserved : ∀ x ∈ ['<', '&'], x ∈ reserved := by simp [reserved]
            rw [List.forall_mem_singleton]
            exact fun hmem => hc (hreserved c hmem)
          exact ⟨.raw [c] hplain, (escapeChar_of_not_mem hc).symm, rfl⟩
      obtain ⟨f, hf, hcharacter⟩ := hone
      refine ⟨f :: fs, ?_, ?_⟩
      · rw [List.flatMap_cons, hf, hwritten, escape_cons]
      · rw [List.flatMap_cons, hcharacter, hdata, List.singleton_append]

end Fragment

/-! ### Closing marks -/

section Closing

variable {mark : Char} {need : Nat}

/-- Bytes that have no part in a closing mark leave none of it behind. -/
theorem run_closingStep_other {m : UInt8} {bs : Bytes} (hbs : ∀ b ∈ bs, b ≠ m ∧ b ≠ 0x3E)
    (hne : bs ≠ []) (count : Nat) : bs.foldlM (closingStep m need) count = some 0 := by
  induction bs generalizing count with
  | nil => exact absurd rfl hne
  | cons b bs ih =>
      obtain ⟨⟨hmark, hend⟩, hrest⟩ := List.forall_mem_cons.1 hbs
      have hstep : closingStep m need count b = some 0 := by simp [closingStep, hmark, hend]
      rw [List.foldlM_cons, hstep]
      cases bs with
      | nil => rfl
      | cons x bs => exact ih hrest (List.cons_ne_nil x bs) 0

/-- A character other than the mark, and no end of the piece, leaves none of the mark behind. -/
theorem run_closingStep_char (hmark : mark.toNat ≤ 0x7F) {c : Char} (hc : c ≠ mark) {count : Nat}
    (hend : c = '>' → count < need) :
    (String.utf8EncodeChar c).foldlM (closingStep (UInt8.ofNat mark.toNat) need) count
      = some 0 := by
  have hne (x : UInt8) (hx : x.toNat ≤ 0x7F) (hcx : Char.ofNat x.toNat ≠ c) :
      ∀ b ∈ String.utf8EncodeChar c, b ≠ x := by
    intro b hb
    have hmem : b ∈ encode [c] := by rwa [encode_cons, encode_nil, List.append_nil]
    exact ne_of_mem_encode hmem hx fun h => hcx (List.mem_singleton.1 h)
  have hnat : (UInt8.ofNat mark.toNat).toNat = mark.toNat := toNat_ofNat (by omega)
  have hother : ∀ b ∈ String.utf8EncodeChar c, b ≠ UInt8.ofNat mark.toNat := by
    refine hne _ (by omega) ?_
    rw [hnat, Char.ofNat_toNat]
    exact hc.symm
  by_cases hclose : c = '>'
  · subst hclose
    have hlt := hend rfl
    have hbyte : (0x3E : UInt8) ≠ UInt8.ofNat mark.toNat := hother 0x3E (List.mem_singleton.2 rfl)
    have hstep : closingStep (UInt8.ofNat mark.toNat) need count 0x3E = some 0 := by
      simp [closingStep, hbyte, hlt]
    exact congrArg (· >>= fun n => some n) hstep
  · refine run_closingStep_other (fun b hb => ⟨hother b hb, ?_⟩) String.utf8EncodeChar_ne_nil count
    exact hne 0x3E (by decide) (fun h => hclose h.symm) b hb

/-- Before its closing mark a piece goes on. The bytes `count` of the mark may have been read. -/
theorem run_closingStep (hmark : mark.toNat ≤ 0x7F) {cs : List Char} (count : Nat)
    (h : ¬List.replicate need mark ++ ['>'] <:+: List.replicate count mark ++ cs) :
    ∃ n, (encode cs).foldlM (closingStep (UInt8.ofNat mark.toNat) need) count = some n := by
  induction cs generalizing count with
  | nil => exact ⟨count, rfl⟩
  | cons c cs ih =>
      rw [encode_cons, List.foldlM_append]
      by_cases hc : c = mark
      · subst hc
        have hrun : (String.utf8EncodeChar c).foldlM (closingStep (UInt8.ofNat c.toNat) need) count
            = some (count + 1) := by
          simp [utf8EncodeChar_ascii hmark, closingStep]
        rw [hrun]
        refine ih (count + 1) fun hearly => h ?_
        rwa [List.replicate_succ', List.append_assoc] at hearly
      · have hend : c = '>' → count < need := by
          rintro rfl
          refine Nat.lt_of_not_le fun hle => h ⟨List.replicate (count - need) mark, cs, ?_⟩
          rw [← List.append_assoc, List.replicate_append_replicate, Nat.sub_add_cancel hle,
            List.append_assoc, List.singleton_append]
        rw [run_closingStep_char hmark hc hend]
        refine ih 0 fun hearly => h ?_
        exact hearly.trans ((List.suffix_cons c cs).trans (List.suffix_append _ _)).isInfix

/-- A piece that its closing mark does not end early ends with it. -/
theorem splitWhere_closing (mark : Char) (need : Nat) (hmark : mark.toNat ≤ 0x7F ∧ mark ≠ '>')
    {cs : List Char} (count : Nat)
    (h : ¬List.replicate need mark ++ ['>'] <:+: List.replicate count mark ++ cs) (rest : Bytes) :
    splitWhere (closingStep (UInt8.ofNat mark.toNat) need) count
        (encode cs ++ List.replicate need (UInt8.ofNat mark.toNat) ++ 0x3E :: rest)
      = some (encode cs ++ List.replicate need (UInt8.ofNat mark.toNat), rest) := by
  obtain ⟨n, hn⟩ := run_closingStep hmark.1 count h
  have hmarks (k : Nat) (n : Nat) :
      (List.replicate k (UInt8.ofNat mark.toNat)).foldlM
        (closingStep (UInt8.ofNat mark.toNat) need) n = some (n + k) := by
    induction k generalizing n with
    | zero => rfl
    | succ k ih =>
        have hstep : closingStep (UInt8.ofNat mark.toNat) need n (UInt8.ofNat mark.toNat)
            = some (n + 1) := by simp [closingStep]
        rw [List.replicate_succ, List.foldlM_cons, hstep]
        exact (ih (n + 1)).trans (congrArg some (by omega))
  have hbyte : (0x3E : UInt8) ≠ UInt8.ofNat mark.toNat := by
    intro heq
    have hnat := congrArg UInt8.toNat heq
    rw [toNat_ofNat (by omega)] at hnat
    exact hmark.2 (Char.toNat_inj.1 hnat.symm)
  have hrun : (encode cs ++ List.replicate need (UInt8.ofNat mark.toNat)).foldlM
      (closingStep (UInt8.ofNat mark.toNat) need) count = some (n + need) := by
    rw [List.foldlM_append, hn]
    exact hmarks need n
  exact splitWhere_append rest hrun (by simp [closingStep, hbyte])

end Closing

/-! ### First pieces -/

/-- The bytes of characters that begin no markup are bytes of a text. -/
theorem isPlain_of_mem_encode {run : List Char} (hrun : ∀ c ∈ run, c ∉ ['<', '&']) {b : UInt8}
    (hb : b ∈ encode run) : isPlain b := by
  have hmarkup : b ≠ 0x3C := ne_of_mem_encode hb (by decide) fun h => hrun '<' h (by decide)
  have hreference : b ≠ 0x26 := ne_of_mem_encode hb (by decide) fun h => hrun '&' h (by decide)
  simp [isPlain, hmarkup, hreference]

/-- A reference that refers to a character is the first piece of a document that begins with it. -/
theorem splitFirst_refers {name : List Char} {c : Char} (hname : Refers name c) (rest : Bytes) :
    splitFirst 0x26 (encode name ++ 0x3B :: rest) = .ok (.reference (encode name), rest) := by
  refine splitFirst_reference rest fun b hb => ?_
  refine ⟨?_, ?_, ?_⟩ <;>
  · refine ne_of_mem_encode hb (by decide) fun hmem => ?_
    exact hname.ne_of_mem hmem rfl (by decide) rfl

section

variable {cs : List Char} (rest : Bytes)

/-- A section of character data holds its characters. -/
theorem splitFirst_cdata (h : ¬[']', ']', '>'] <:+: cs) :
    splitFirst 0x3C (0x21 :: (ascii "[CDATA[" ++ (encode cs ++ [0x5D, 0x5D] ++ 0x3E :: rest)))
      = .ok (.cdata (encode cs), rest) := by
  have hsplit : splitWhere (closingStep 0x5D 2) 0 (encode cs ++ [0x5D, 0x5D] ++ 0x3E :: rest)
      = some (encode cs ++ [0x5D, 0x5D], rest) := splitWhere_closing ']' 2 (by decide) 0 h rest
  have htext : ascii "[CDATA[" = [0x5B, 0x43, 0x44, 0x41, 0x54, 0x41, 0x5B] := by decide +kernel
  have hopen : (ascii "[CDATA[").isPrefixOf (ascii "[CDATA[" ++ (encode cs ++ [0x5D, 0x5D]
      ++ 0x3E :: rest)) := List.isPrefixOf_iff_prefix.2 (List.prefix_append _ _)
  have hlength : (encode cs ++ [0x5D, 0x5D]).length - 2 = (encode cs).length := by simp
  change splitDeclaration (ascii "[CDATA[" ++ _) = _
  rw [htext] at hopen ⊢
  rw [List.cons_append] at hopen ⊢
  rw [splitDeclaration, htext, if_pos hopen]
  change closed .openCdata _ (splitWhere (closingStep 0x5D 2) 0 (_ ++ 0x3E :: rest)) = _
  rw [hsplit, closed, hlength, List.take_left]

/-- A comment holds nothing. -/
theorem splitFirst_comment (h : ¬['-', '-', '>'] <:+: cs) :
    splitFirst 0x3C (0x21 :: 0x2D :: 0x2D :: (encode cs ++ [0x2D, 0x2D] ++ 0x3E :: rest))
      = .ok (.skipped, rest) := by
  have hsplit : splitWhere (closingStep 0x2D 2) 0 (encode cs ++ [0x2D, 0x2D] ++ 0x3E :: rest)
      = some (encode cs ++ [0x2D, 0x2D], rest) := splitWhere_closing '-' 2 (by decide) 0 h rest
  change closed .openComment (fun _ => .skipped) (splitWhere (closingStep 0x2D 2) 0 _) = _
  rw [hsplit]
  rfl

/-- An instruction holds nothing. -/
theorem splitFirst_instruction (h : ¬['?', '>'] <:+: '?' :: cs) :
    splitFirst 0x3C (0x3F :: (encode cs ++ [0x3F] ++ 0x3E :: rest)) = .ok (.skipped, rest) := by
  have hsplit : splitWhere (closingStep 0x3F 1) 1 (encode cs ++ [0x3F] ++ 0x3E :: rest)
      = some (encode cs ++ [0x3F], rest) := splitWhere_closing '?' 1 (by decide) 1 h rest
  change splitInstruction (encode cs ++ [0x3F] ++ 0x3E :: rest) = _
  rw [splitInstruction, hsplit]
  cases encode cs <;> rfl

end

namespace Fragment

/-- The piece that a fragment is. -/
def piece : Fragment → Piece
  | raw cs _ => .text (encode cs)
  | cdata cs _ => .cdata (encode cs)
  | reference name _ _ => .reference (encode name)
  | comment _ _ => .skipped
  | instruction _ _ => .skipped

/-- A fragment is plain text or markup that one piece fills. -/
theorem plain_or_splits (f : Fragment) :
    (∃ cs, encode f.written = encode cs ∧ f.data = cs ∧ ∀ b ∈ encode cs, isPlain b) ∨
      ∃ b bs, encode f.written = b :: bs ∧ isPlain b = false ∧
        splitFirst b bs = .ok (f.piece, []) := by
  cases f with
  | raw cs h => exact .inl ⟨cs, rfl, rfl, fun _ hb => isPlain_of_mem_encode h hb⟩
  | cdata cs h =>
      refine .inr ⟨_, _, ?_, rfl, splitFirst_cdata [] h⟩
      have hopen : ascii "[CDATA[" = encode ['[', 'C', 'D', 'A', 'T', 'A', '['] := by decide +kernel
      rw [written, encode_append, encode_append, List.append_assoc, List.append_assoc, hopen]
      rfl
  | reference name c h =>
      refine .inr ⟨_, _, ?_, rfl, splitFirst_refers h []⟩
      rw [written, encode_cons, encode_append]
      rfl
  | comment cs h =>
      refine .inr ⟨_, _, ?_, rfl, splitFirst_comment [] h⟩
      rw [written, encode_append, encode_append, List.append_assoc, List.append_assoc]
      rfl
  | instruction cs h =>
      refine .inr ⟨_, _, ?_, rfl, splitFirst_instruction [] h⟩
      rw [written, encode_append, encode_append, List.append_assoc, List.append_assoc]
      rfl

end Fragment

end ColorChain.Markup
