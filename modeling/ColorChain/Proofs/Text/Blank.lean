import ColorChain.Text.Blank

/-!
# Words

A text without white space is one word, and nothing is trimmed from it. A text with one word is the
word between white space.
-/

namespace ColorChain.Text

theorem wordsFrom_append {w : List Char} (hw : ∀ c ∈ w, isBlank c = false) (word rest : List Char) :
    wordsFrom word (w ++ rest) = wordsFrom (w.reverse ++ word) rest := by
  induction w generalizing word with
  | nil => rfl
  | cons c w ih =>
      have hc := hw c List.mem_cons_self
      rw [List.cons_append, wordsFrom, hc, if_neg (by decide),
        ih fun x hx => hw x (List.mem_cons_of_mem c hx), List.reverse_cons, List.append_assoc]
      rfl

section

variable {w : List Char} (hw : ∀ c ∈ w, isBlank c = false) (hne : w ≠ [])

include hw hne

/-- A word ends at white space. -/
theorem words_append_blank {b : Char} (hb : isBlank b) (rest : List Char) :
    words (w ++ b :: rest) = w :: words rest := by
  have hreverse : (w.reverse ++ []).isEmpty = false := by simp [hne]
  rw [words, wordsFrom_append hw, wordsFrom, hb, if_pos rfl, hreverse, if_neg (by decide)]
  simp [words]

/-- A word ends at the end of the text. -/
theorem words_singleton : words w = [w] := by
  have h := wordsFrom_append hw [] []
  rw [List.append_nil] at h
  rw [words, h, wordsFrom]
  simp [hne]

omit hne

theorem dropWhile_isBlank_eq_self : w.dropWhile isBlank = w := by
  cases w with
  | nil => rfl
  | cons c w => rw [List.dropWhile_cons_of_neg (by simp [hw c List.mem_cons_self])]

/-- There is nothing to trim from a word. -/
theorem trim_eq_self : trim w = w := by
  have hreverse : ∀ c ∈ w.reverse, isBlank c = false := fun c hc => hw c (List.mem_reverse.1 hc)
  rw [trim, dropWhile_isBlank_eq_self hw, dropWhile_isBlank_eq_self hreverse, List.reverse_reverse]

end

/-! ### One word between white space -/

theorem wordsFrom_ne_nil {word : List Char} (hne : word ≠ []) (cs : List Char) :
    wordsFrom word cs ≠ [] := by
  induction cs generalizing word with
  | nil => simp [wordsFrom, hne]
  | cons c cs ih =>
      rw [wordsFrom]
      split
      · simp [hne]
      · exact ih (List.cons_ne_nil _ _)

theorem words_blank_append {blanks : List Char} (h : ∀ c ∈ blanks, isBlank c) (cs : List Char) :
    words (blanks ++ cs) = words cs := by
  induction blanks with
  | nil => rfl
  | cons c blanks ih =>
      have hc : isBlank c = true := h c List.mem_cons_self
      rw [List.cons_append, words, wordsFrom, if_pos hc, List.isEmpty_nil, if_pos rfl]
      exact ih fun x hx => h x (List.mem_cons_of_mem c hx)

theorem words_eq_nil_iff {cs : List Char} : words cs = [] ↔ ∀ c ∈ cs, isBlank c := by
  constructor
  · intro h
    induction cs with
    | nil => simp
    | cons c cs ih =>
        rw [words, wordsFrom] at h
        split at h
        · next hc =>
          intro x hx
          rcases List.mem_cons.1 hx with rfl | hx
          · exact hc
          · exact ih h x hx
        · exact absurd h (wordsFrom_ne_nil (List.cons_ne_nil _ _) cs)
  · intro h
    have hnil := words_blank_append h []
    rwa [List.append_nil] at hnil

/-- White space around a text does not show in the trimmed text. -/
theorem trim_append {before w after : List Char} (hbefore : ∀ c ∈ before, isBlank c)
    (hw : ∀ c ∈ w, isBlank c = false) (hne : w ≠ []) (hafter : ∀ c ∈ after, isBlank c) :
    trim (before ++ w ++ after) = w := by
  obtain ⟨c, cs, rfl⟩ := List.exists_cons_of_ne_nil hne
  have hc : isBlank c = false := hw c List.mem_cons_self
  have hafter' : ∀ c ∈ after.reverse, isBlank c := fun c hc => hafter c (List.mem_reverse.1 hc)
  have hw' : ∀ x ∈ (c :: cs).reverse, isBlank x = false := fun x hx => hw x (List.mem_reverse.1 hx)
  rw [trim, List.append_assoc, List.dropWhile_append_of_pos hbefore, List.cons_append,
    List.dropWhile_cons_of_neg (by simp [hc]), ← List.cons_append, List.reverse_append,
    List.dropWhile_append_of_pos hafter', dropWhile_isBlank_eq_self hw', List.reverse_reverse]

/-- A text is white space, the trimmed text, and white space. -/
theorem exists_trim (cs : List Char) : ∃ before after, cs = before ++ trim cs ++ after ∧
    (∀ c ∈ before, isBlank c) ∧ ∀ c ∈ after, isBlank c := by
  have htake (l : List Char) : ∀ c ∈ l.takeWhile isBlank, isBlank c :=
    List.all_eq_true.1 List.all_takeWhile
  refine ⟨cs.takeWhile isBlank, ((cs.dropWhile isBlank).reverse.takeWhile isBlank).reverse, ?_,
    htake cs, fun c hc => htake _ c (List.mem_reverse.1 hc)⟩
  rw [List.append_assoc, trim, ← List.reverse_append, List.takeWhile_append_dropWhile,
    List.reverse_reverse, List.takeWhile_append_dropWhile]

/-- A text with one word is the word between white space. -/
theorem exists_of_words_eq_singleton {cs w : List Char} (h : words cs = [w]) :
    ∃ before after, cs = before ++ w ++ after ∧ (∀ c ∈ before, isBlank c) ∧ w ≠ [] ∧
      (∀ c ∈ w, isBlank c = false) ∧ ∀ c ∈ after, isBlank c := by
  have hbefore : ∀ c ∈ cs.takeWhile isBlank, isBlank c := List.all_eq_true.1 List.all_takeWhile
  have hcs := List.takeWhile_append_dropWhile (p := isBlank) (l := cs)
  rw [← hcs, words_blank_append hbefore] at h
  cases ht : cs.dropWhile isBlank with
  | nil =>
      rw [ht] at h
      cases h
  | cons c t =>
      have hc : isBlank c = false := by
        have := List.head_dropWhile_not isBlank (l := cs) (by simp [ht])
        simpa [ht] using this
      let run := (c :: t).takeWhile fun c => !isBlank c
      have hrun : ∀ c ∈ run, isBlank c = false := fun x hx => by
        have := List.all_eq_true.1 List.all_takeWhile x hx
        simpa using this
      have hne : run ≠ [] := by simp [run, hc]
      have hsplit := List.takeWhile_append_dropWhile (p := fun c => !isBlank c) (l := c :: t)
      rw [ht] at h hcs
      rw [← hcs]
      cases hrest : (c :: t).dropWhile fun c => !isBlank c with
      | nil =>
          rw [hrest, List.append_nil] at hsplit
          rw [← hsplit, words_singleton hrun hne, List.cons.injEq] at h
          refine ⟨cs.takeWhile isBlank, [], ?_, hbefore, h.1 ▸ hne, h.1 ▸ hrun, by simp⟩
          rw [List.append_nil, ← h.1]
          exact congrArg _ hsplit.symm
      | cons b rest =>
          have hb : isBlank b = true := by
            have := List.head_dropWhile_not (fun c => !isBlank c) (l := c :: t) (by simp [hrest])
            simpa [hrest] using this
          rw [hrest] at hsplit
          rw [← hsplit, words_append_blank hrun hne hb, List.cons.injEq] at h
          refine ⟨cs.takeWhile isBlank, b :: rest, ?_, hbefore, h.1 ▸ hne, h.1 ▸ hrun, ?_⟩
          · rw [← h.1, List.append_assoc, hsplit]
          · intro x hx
            rcases List.mem_cons.1 hx with rfl | hx
            · exact hb
            · exact words_eq_nil_iff.1 h.2 x hx

/-- A text is one word if nothing is left to split when its ends are trimmed. -/
theorem words_eq_singleton_iff {cs w : List Char} :
    words cs = [w] ↔ trim cs = w ∧ w ≠ [] ∧ ∀ c ∈ w, isBlank c = false := by
  constructor
  · intro h
    obtain ⟨before, after, rfl, hbefore, hne, hw, hafter⟩ := exists_of_words_eq_singleton h
    exact ⟨trim_append hbefore hw hne hafter, hne, hw⟩
  · rintro ⟨htrim, hne, hw⟩
    obtain ⟨before, after, hcs, hbefore, hafter⟩ := exists_trim cs
    rw [hcs, htrim, List.append_assoc, words_blank_append hbefore]
    cases after with
    | nil => rw [List.append_nil, words_singleton hw hne]
    | cons c after =>
        have hrest := words_eq_nil_iff.2 fun x hx => hafter x (List.mem_cons_of_mem c hx)
        rw [words_append_blank hw hne (hafter c List.mem_cons_self), hrest]

end ColorChain.Text
