import ColorChain.Proofs.Record.Written
import ColorChain.Transform.Record

/-!
# Grades recorded and read back

The record of a grade keeps all of the grade.
-/

namespace ColorChain

open Record

namespace Cdl

/-- Nothing of a grade is lost in its correction, nor in what the compact record keeps of it. -/
theorem ofCorrection_recorded_toCorrection (c : Cdl Float) :
    ofCorrection c.toCorrection.recorded = c := by
  obtain ⟨id, description, grade⟩ := c
  simp only [ofCorrection, toCorrection, Correction.recorded, Correction.description?]
  congr 1
  · by_cases h : id = "" <;> simp [h]
  · by_cases h : description = "" <;> simp [h, Option.filter_some]

/-- The record of a grade is read as the grade. -/
theorem ofRecord_record (c : Cdl Float) : ofRecord c.record = .ok c := by
  rw [ofRecord, record, readCorrection_compact]
  change Except.ok (ofCorrection c.toCorrection.recorded) = _
  rw [ofCorrection_recorded_toCorrection]

end Cdl

/-- A grade that takes over the record of another becomes that grade in its own direction. -/
theorem Transform.setRecord_record (c receiver : Cdl Float) (d : Direction) :
    (Transform.atom d (.cdl receiver)).setRecord c.record = .ok (.atom d (.cdl c)) := by
  rw [setRecord, Cdl.ofRecord_record]
  rfl

end ColorChain
