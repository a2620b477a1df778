import ColorChain.Proofs.Number.Numeral
import ColorChain.Proofs.Text.Blank
import ColorChain.Record.Document

/-!
# Values of settings

A setting is read from the words of its text: three numbers, or one.
-/

namespace ColorChain.Record

open Text

def number? (word : List Char) : Option Float := (Number.read word).toOption

/-- The three numbers in a text that holds three. -/
def triple? (text : List Char) : Option (Rgb Float) :=
  match words text with
  | [r, g, b] => do return ⟨← number? r, ← number? g, ← number? b⟩
  | _ => none

/-- The number in a text that holds one. -/
def scalar? (text : List Char) : Option Float :=
  match words text with
  | [word] => number? word
  | _ => none

theorem number?_eq_some_iff {word : List Char} {x : Float} :
    number? word = some x ↔ Number.read word = .ok x := by
  unfold number?
  cases (Number.read word : Except Number.ReadFault Float) with
  | error fault => exact ⟨nofun, nofun⟩
  | ok y => exact ⟨fun h => congrArg _ (Option.some.inj h), fun h => congrArg _ (Except.ok.inj h)⟩

theorem readValue_eq_ok_iff {setting : Setting} {word : List Char} {x : Float} :
    readValue setting word = .ok x ↔ number? word = some x := by
  rw [readValue, mapError_eq_ok_iff, number?_eq_some_iff]

theorem readTriple_eq_ok_iff {setting : Setting} {text : List Char} {x : Rgb Float} :
    readTriple setting text = .ok x ↔ triple? text = some x := by
  unfold readTriple triple?
  -- Only three words can be three numbers.
  rcases words text with _ | ⟨r, _ | ⟨g, _ | ⟨b, _ | ⟨w, ws⟩⟩⟩⟩
  · constructor <;> intro h <;> cases h
  · constructor <;> intro h <;> cases h
  · constructor <;> intro h <;> cases h
  · simp only [do_eq_ok_iff, readValue_eq_ok_iff, Option.bind_eq_bind, Option.bind_eq_some_iff]
    simp only [pure, Except.pure, Except.ok.injEq, Option.some.injEq]
  · constructor <;> intro h <;> cases h

/-- The text of a saturation is a number when it is trimmed if it is one word that is a number. -/
theorem readValue_trim_eq_ok_iff {setting : Setting} {text : List Char} {x : Float} :
    readValue setting (trim text) = .ok x ↔ scalar? text = some x := by
  rw [readValue_eq_ok_iff]
  constructor
  · intro h
    obtain ⟨hne, hblank⟩ := Number.isWord_of_read (number?_eq_some_iff.1 h)
    rw [scalar?, words_eq_singleton_iff.2 ⟨rfl, hne, hblank⟩]
    exact h
  · intro h
    unfold scalar? at h
    split at h
    · next word hword =>
      rw [(words_eq_singleton_iff.1 hword).1]
      exact h
    · cases h

end ColorChain.Record
