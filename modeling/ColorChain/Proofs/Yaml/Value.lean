import ColorChain.Yaml.Value

/-!
# Comparing values

Values are equal if they are built alike from equal scalars, so equality of values can be decided.
-/

namespace ColorChain.Yaml.Value

mutual

/-- Whether two values are the same, with the entries of mappings in the same order. -/
def eqb : Value → Value → Bool
  | null, null => true
  | boolean b, boolean c => b == c
  | integer m, integer n => m == n
  | floating x, floating y => decide (x = y)
  | string s, string t => s == t
  | sequence xs, sequence ys => eqbAll xs ys
  | mapping xs, mapping ys => eqbEntries xs ys
  | tagged s x, tagged t y => s == t && eqb x y
  | _, _ => false

def eqbAll : List Value → List Value → Bool
  | [], [] => true
  | x :: xs, y :: ys => eqb x y && eqbAll xs ys
  | _, _ => false

def eqbEntries : List (Value × Value) → List (Value × Value) → Bool
  | [], [] => true
  | (key, x) :: xs, (other, y) :: ys => eqb key other && eqb x y && eqbEntries xs ys
  | _, _ => false

end

mutual

theorem eq_of_eqb {v w : Value} (h : eqb v w = true) : v = w := by
  cases v <;> cases w <;> simp only [eqb, Bool.false_eq_true, Bool.and_eq_true, beq_iff_eq,
    decide_eq_true_eq] at h
  · rfl
  · rw [h]
  · rw [h]
  · rw [h]
  · rw [h]
  · rw [eq_of_eqbAll h]
  · rw [eq_of_eqbEntries h]
  · rw [h.1, eq_of_eqb h.2]

theorem eq_of_eqbAll {xs ys : List Value} (h : eqbAll xs ys = true) : xs = ys := by
  cases xs <;> cases ys <;> simp only [eqbAll, Bool.false_eq_true, Bool.and_eq_true] at h
  · rfl
  · rw [eq_of_eqb h.1, eq_of_eqbAll h.2]

theorem eq_of_eqbEntries {xs ys : List (Value × Value)} (h : eqbEntries xs ys = true) : xs = ys := by
  cases xs <;> cases ys <;> simp only [eqbEntries, Bool.false_eq_true, Bool.and_eq_true] at h
  · rfl
  · next x xs y ys =>
    have hkey := eq_of_eqb h.1.1
    have hvalue := eq_of_eqb h.1.2
    rw [eq_of_eqbEntries h.2, Prod.ext hkey hvalue]

end

mutual

theorem eqb_self (v : Value) : eqb v v = true := by
  cases v with
  | sequence xs => simp only [eqb, eqbAll_self]
  | mapping xs => simp only [eqb, eqbEntries_self]
  | tagged tag content => simp only [eqb, eqb_self, beq_self_eq_true, Bool.and_self]
  | _ => simp [eqb]

theorem eqbAll_self (xs : List Value) : eqbAll xs xs = true := by
  cases xs with
  | nil => simp [eqbAll]
  | cons x xs => simp only [eqbAll, eqb_self, eqbAll_self, Bool.and_self]

theorem eqbEntries_self (xs : List (Value × Value)) : eqbEntries xs xs = true := by
  cases xs with
  | nil => simp [eqbEntries]
  | cons x xs => simp only [eqbEntries, eqb_self, eqbEntries_self, Bool.and_self]

end

instance : DecidableEq Value := fun v w =>
  decidable_of_iff (eqb v w = true) ⟨eq_of_eqb, fun h => h ▸ eqb_self v⟩

end ColorChain.Yaml.Value
