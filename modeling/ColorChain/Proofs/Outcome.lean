/-!
# Outcomes

When a computation that may fail succeeds, so did every computation that it was built from. These
lemmas take such a success apart.
-/

namespace ColorChain

universe u v w x

variable {ε : Type u} {φ : Type v} {α β : Type w} {γ : Type x}

@[simp] theorem map_eq_ok_iff {f : α → γ} {x : Except ε α} {c : γ} :
    x.map f = .ok c ↔ ∃ a, x = .ok a ∧ f a = c := by
  cases x <;> simp [Except.map]

/-- Mapping does not change whether a computation succeeds. -/
theorem exists_map_eq_ok_iff {f : α → γ} {x : Except ε α} :
    (∃ c, x.map f = .ok c) ↔ ∃ a, x = .ok a := by
  cases x <;> simp [Except.map]

/-- Computations that agree after a mapping fail alike or succeed with results that agree. -/
theorem map_eq_map_iff {f : α → γ} {x y : Except ε α} :
    x.map f = y.map f ↔ (∃ e, x = .error e ∧ y = .error e) ∨
      ∃ a b, x = .ok a ∧ y = .ok b ∧ f a = f b := by
  cases x <;> cases y <;> simp [Except.map, eq_comm]

/-- Whether a computation succeeds can be told by running it. -/
theorem exists_eq_ok_of_toBool {x : Except ε α} (h : x.toBool) : ∃ a, x = .ok a := by
  cases x with
  | ok a => exact ⟨a, rfl⟩
  | error e => cases h

/-- A check has only one way to succeed. -/
@[simp] theorem exists_unit_eq_ok_iff {x : Except ε Unit} : (∃ a, x = .ok a) ↔ x = .ok () :=
  ⟨fun ⟨(), h⟩ => h, fun h => ⟨(), h⟩⟩

@[simp] theorem mapError_eq_ok_iff {f : ε → φ} {x : Except ε α} {a : α} :
    x.mapError f = .ok a ↔ x = .ok a := by
  cases x with
  | ok x =>
      change (Except.ok x : Except φ α) = .ok a ↔ _
      rw [Except.ok.injEq, Except.ok.injEq]
  | error e => exact ⟨nofun, nofun⟩

@[simp] theorem bind_eq_ok_iff {f : α → Except ε γ} {x : Except ε α} {c : γ} :
    x.bind f = .ok c ↔ ∃ a, x = .ok a ∧ f a = .ok c := by
  cases x <;> simp [Except.bind]

/-- Two computations in a row succeed if the first does and the second does on its result. -/
theorem exists_bind_eq_ok_iff {f : α → Except ε γ} {x : Except ε α} :
    (∃ c, x.bind f = .ok c) ↔ ∃ a, x = .ok a ∧ ∃ c, f a = .ok c := by
  cases x <;> simp [Except.bind]

@[simp] theorem do_eq_ok_iff {f : α → Except ε β} {x : Except ε α} {b : β} :
    x >>= f = .ok b ↔ ∃ a, x = .ok a ∧ f a = .ok b :=
  bind_eq_ok_iff

/-! ### Exact outcomes -/

/-- The computation succeeds exactly under the condition, and then with the result. -/
structure Yields (x : Except ε α) (condition : Prop) (a : α) : Prop where
  ok : condition → x = .ok a
  error : ¬condition → ∃ e, x = .error e

namespace Yields

variable {P Q : Prop} {x : Except ε α} {f : α → Except ε γ} {a : α} {c : γ}

theorem of_ok (h : x = .ok a) (hP : P) : Yields x P a := ⟨fun _ => h, fun hn => absurd hP hn⟩

theorem congr (h : Yields x P a) (hPQ : P ↔ Q) : Yields x Q a :=
  ⟨fun hQ => h.ok (hPQ.2 hQ), fun hQ => h.error fun hP => hQ (hPQ.1 hP)⟩

theorem bind (h : Yields x P a) (h' : P → Yields (f a) Q c) : Yields (x.bind f) (P ∧ Q) c := by
  constructor
  · rintro ⟨hP, hQ⟩
    rw [h.ok hP]
    exact (h' hP).ok hQ
  · intro hn
    by_cases hP : P
    · rw [h.ok hP]
      exact (h' hP).error fun hQ => hn ⟨hP, hQ⟩
    · obtain ⟨e, he⟩ := h.error hP
      exact ⟨e, by rw [he]; rfl⟩

theorem map {g : α → γ} (h : Yields x P a) : Yields (x.map g) P (g a) := by
  constructor
  · intro hP
    rw [h.ok hP]
    rfl
  · intro hn
    obtain ⟨e, he⟩ := h.error hn
    exact ⟨e, by rw [he]; rfl⟩

/-- A computation that gives what is there succeeds if something is there. -/
theorem of_option {option : Option α} (h : ∀ a, x = .ok a ↔ option = some a) {g : α → γ}
    (hg : ∀ a, option = some a → g a = c) : Yields (x.map g) (∃ a, option = some a) c := by
  constructor
  · rintro ⟨a, ha⟩
    rw [(h a).2 ha, ← hg a ha]
    rfl
  · intro hn
    cases hx : x with
    | error e => exact ⟨e, rfl⟩
    | ok a => exact absurd ⟨a, (h a).1 hx⟩ hn

/-- It succeeds under the condition and only then, and whatever it gives is the result. -/
theorem exists_iff (h : Yields x P a) : (∃ a, x = .ok a) ↔ P := by
  constructor
  · rintro ⟨a', ha'⟩
    refine Classical.byContradiction fun hn => ?_
    obtain ⟨e, he⟩ := h.error hn
    cases ha'.symm.trans he
  · exact fun hP => ⟨a, h.ok hP⟩

theorem eq_of_ok (h : Yields x P a) {a' : α} (ha' : x = .ok a') : a' = a := by
  have hP := h.exists_iff.1 ⟨a', ha'⟩
  exact Except.ok.inj (ha'.symm.trans (h.ok hP))

end Yields

/-! ### Kinds of faults -/

/-- Whatever fault the computation has is of one kind. -/
def FailsOnly (x : Except ε α) (kind : ε → Prop) : Prop := ∀ fault, x = .error fault → kind fault

namespace FailsOnly

variable {kind : ε → Prop} {x : Except ε α}

theorem ok (a : α) : FailsOnly (.ok a) kind := nofun

theorem error {fault : ε} (h : kind fault) : FailsOnly (.error fault : Except ε α) kind := by
  rintro _ ⟨⟩
  exact h

theorem map {f : α → γ} (h : FailsOnly x kind) : FailsOnly (x.map f) kind := by
  cases x with
  | ok a => exact ok (f a)
  | error fault => exact error (h fault rfl)

theorem bind {f : α → Except ε γ} (h : FailsOnly x kind) (h' : ∀ a, FailsOnly (f a) kind) :
    FailsOnly (x.bind f) kind := by
  cases x with
  | ok a => exact h' a
  | error fault => exact error (h fault rfl)

theorem any : FailsOnly x fun _ => True := fun _ _ => trivial

/-- The fault of a computation inside another one, told by what it becomes there. -/
theorem mapError {f : ε → φ} {kind' : φ → Prop} (h : FailsOnly x kind)
    (h' : ∀ fault, kind fault → kind' (f fault)) : FailsOnly (x.mapError f) kind' := by
  cases x with
  | ok a => exact ok a
  | error fault => exact error (h' fault (h fault rfl))

/-- A pass fails as its steps do. -/
theorem foldlM {f : β → γ → Except ε β} (h : ∀ b c, FailsOnly (f b c) kind) (b : β)
    (cs : List γ) : FailsOnly (cs.foldlM f b) kind := by
  induction cs generalizing b with
  | nil => exact ok b
  | cons c cs ih => exact (h b c).bind ih

end FailsOnly

end ColorChain
