import ColorChain.Proofs.Outcome
import ColorChain.Transform.Validity

/-!
# Valid trees

Validity goes by levels: a node is valid if its direction is known, its parameters are valid, and
the nodes directly below it are.
-/

namespace ColorChain.Transform

universe u

variable {α : Type u} {d : Direction}

theorem checkDirection_eq_ok_iff {kind : Kind} :
    (checkDirection kind d : Except (Defect α) Unit) = .ok () ↔ d ≠ .unknown := by
  by_cases h : d = .unknown <;> simp [checkDirection, h]

variable [OfScientific α] [Zero α] [One α] [Neg α] [BEq α] [LT α] [DecidableLT α]

theorem validate_atom_iff {a : Atom α} :
    (atom d a).validate = .ok () ↔ d ≠ .unknown ∧ a.validate = .ok () := by
  simp [validate, checkDirection_eq_ok_iff]

theorem validateAll_eq_ok_iff {ts : List (Transform α)} :
    validateAll ts = .ok () ↔ ∀ t ∈ ts, t.validate = .ok () := by
  induction ts with
  | nil => simp [validateAll]
  | cons t ts ih => simp [validateAll, ih]

theorem validateSlot_eq_ok_iff {slot : Option (Transform α)} :
    validateSlot slot = .ok () ↔ ∀ t ∈ slot, t.validate = .ok () := by
  cases slot <;> simp [validateSlot]

theorem validate_display_iff {settings : DisplaySettings}
    {linear colorTiming channelView displayed : Option (Transform α)} :
    (display d settings linear colorTiming channelView displayed).validate = .ok () ↔
      d ≠ .unknown ∧ ∀ t ∈ [linear, colorTiming, channelView, displayed].filterMap id,
        t.validate = .ok () := by
  rw [List.forall_mem_filterMap]
  simp [validate, checkDirection_eq_ok_iff, validateSlot_eq_ok_iff]

theorem validate_group_iff {children : List (Transform α)} :
    (group d children).validate = .ok () ↔
      d ≠ .unknown ∧ ∀ t ∈ children, t.validate = .ok () := by
  simp [validate, checkDirection_eq_ok_iff, validateAll_eq_ok_iff]

/-- A node is valid by itself, and so are the nodes directly below it. -/
theorem validate_iff_parts {t : Transform α} : t.validate = .ok () ↔
    (t.direction ≠ .unknown ∧ ∀ own a, t = .atom own a → a.validate = .ok ()) ∧
      ∀ part ∈ t.parts, part.validate = .ok () := by
  cases t with
  | atom own a => simp [validate_atom_iff, direction, parts]
  | display own settings linear colorTiming channelView displayed =>
      rw [validate_display_iff]
      simp [direction, parts]
  | group own children => simp [validate_group_iff, direction, parts]

end ColorChain.Transform
