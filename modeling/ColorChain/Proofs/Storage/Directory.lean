import Mathlib.Data.List.Basic
import Mathlib.Tactic.SplitIfs
import ColorChain.Proofs.Outcome
import ColorChain.Storage.Directory

/-!
# Files written and read

A file that was written holds what was written to it. The walk to the file is the walk from before,
since the folders on the way are neither the file nor lost to it; only the last step leads to the new
content.
-/

namespace ColorChain.Storage

open Text

namespace Directory

variable {directory : Directory} {location : List (List Char)} {content : Bytes}

/-- The directory with one file put in the place of all at its location. -/
def put (directory : Directory) (location : List (List Char)) (content : Bytes) : Directory :=
  ⟨(location, content) :: directory.files.filter (·.1 ≠ location)⟩

theorem at?_put_self : (directory.put location content).at? location = some (.file content) := by
  simp [put, at?]

/-- What lies elsewhere stays: other files are kept, and a folder that led to the location still
does. -/
theorem at?_put_of_ne {other : List (List Char)} {place : Place} (hne : other ≠ location)
    (h : directory.at? other = some place) :
    (directory.put location content).at? other = some place := by
  have hfind : (directory.put location content).files.find? (·.1 = other)
      = directory.files.find? (·.1 = other) := by
    rw [put, List.find?_cons_of_neg (by simpa using hne.symm), List.find?_filter]
    congr 1
    funext file
    by_cases hfile : file.1 = other <;> simp [hfile, hne]
  have hany (hleads : directory.files.any (other.isPrefixOf ·.1) = true) :
      (directory.put location content).files.any (other.isPrefixOf ·.1) = true := by
    rw [List.any_eq_true] at hleads ⊢
    obtain ⟨file, hmem, hfile⟩ := hleads
    by_cases hlocation : file.1 = location
    · exact ⟨(location, content), List.mem_cons_self, hlocation ▸ hfile⟩
    · exact ⟨file, List.mem_cons_of_mem _ (List.mem_filter.2 ⟨hmem, by simpa using hlocation⟩),
        hfile⟩
  simp only [at?] at h ⊢
  rw [hfind]
  cases hfile : directory.files.find? (·.1 = other) with
  | some file => simpa [hfile] using h
  | none =>
      simp only [hfile, Option.ite_none_right_eq_some] at h ⊢
      exact ⟨h.1.imp_right hany, h.2⟩

/-- What lies below the working directory does not lie outside of it. -/
theorem at?_ne_outside : directory.at? location ≠ some .outside := by
  simp only [at?]
  split
  · simp
  · split_ifs <;> simp

/-- No folder lies at the location, so that a file may. -/
def IsFree (directory : Directory) (location : List (List Char)) : Prop :=
  ∀ inner, directory.at? location ≠ some (.folder inner)

/-- The name is that of an entry and does not stand for the folder itself or for the one above. -/
def IsEntry (name : List Char) : Prop := name ≠ [] ∧ name ≠ ['.'] ∧ name ≠ ['.', '.']

theorem enter_entry {name : List Char} (h : IsEntry name) (inner : List (List Char)) :
    directory.enter (.folder inner) name =
      match directory.at? (inner ++ [name]) with
      | some place => .ok place
      | none => .error .notFound := by
  obtain ⟨hname, hself, hparent⟩ := h
  cases hplace : directory.at? (inner ++ [name]) <;>
    simp only [enter, hname, hself, hparent, or_self, if_false, hplace]

/-- Names of no entry lead to folders, and the same way in every directory. -/
theorem enter_of_not_isEntry {name : List Char} (h : ¬IsEntry name) (inner : List (List Char)) :
    ∃ place, (∀ directory : Directory, directory.enter (.folder inner) name = .ok place) ∧
      ∀ bytes, place ≠ .file bytes := by
  by_cases hself : name = [] ∨ name = ['.']
  · exact ⟨.folder inner, by simp [enter, hself], by simp⟩
  · have hparent : name = ['.', '.'] := by
      by_contra hparent
      exact h ⟨fun hname => hself (.inl hname), fun hname => hself (.inr hname), hparent⟩
    refine ⟨if inner = [] then .outside else .folder inner.dropLast, ?_, fun bytes => ?_⟩
    · simp [enter, hparent]
    · split_ifs <;> simp

/-- A step to a place that is no file is the same after a file was put where it may lie. -/
theorem enter_put (hfree : directory.IsFree location) {place next : Place} {name : List Char}
    (hnext : ∀ bytes, next ≠ .file bytes) (h : directory.enter place name = .ok next) :
    (directory.put location content).enter place name = .ok next := by
  cases place with
  | file bytes => exact h
  | outside => exact h
  | folder inner =>
      by_cases hname : IsEntry name
      · rw [enter_entry hname] at h ⊢
        cases hat : directory.at? (inner ++ [name]) with
        | none => simp [hat] at h
        | some found =>
            simp only [hat, Except.ok.injEq] at h
            subst h
            have hne : inner ++ [name] ≠ location := by
              rintro rfl
              cases found with
              | file bytes => exact hnext bytes rfl
              | folder there => exact hfree there hat
              | outside => exact at?_ne_outside hat
            rw [at?_put_of_ne hne hat]
      · obtain ⟨place, hplace, -⟩ := enter_of_not_isEntry hname inner
        rw [hplace] at h ⊢
        exact h

/-- Nothing lies behind a file. -/
theorem walk_file {bytes : Bytes} {names : List (List Char)} {inner : List (List Char)} :
    directory.walk (.file bytes) names ≠ .ok (.folder inner) := by
  cases names <;> simp [walk, enter, Except.bind]

/-- A walk to a folder is the same after a file was put where it may lie. -/
theorem walk_put (hfree : directory.IsFree location) {names : List (List Char)} {place : Place}
    {inner : List (List Char)} (h : directory.walk place names = .ok (.folder inner)) :
    (directory.put location content).walk place names = .ok (.folder inner) := by
  induction names generalizing place with
  | nil => exact h
  | cons name names ih =>
      rw [walk, bind_eq_ok_iff] at h
      obtain ⟨next, hnext, hrest⟩ := h
      have hplace (bytes : Bytes) : next ≠ .file bytes := by
        rintro rfl
        exact walk_file hrest
      rw [walk, enter_put hfree hplace hnext]
      exact ih hrest

theorem walk_append (directory : Directory) (place : Place) (first next : List (List Char)) :
    directory.walk place (first ++ next)
      = (directory.walk place first).bind fun place => directory.walk place next := by
  induction first generalizing place with
  | nil => rfl
  | cons name first ih =>
      rw [List.cons_append, walk, walk]
      cases directory.enter place name with
      | error fault => rfl
      | ok next => exact ih next

theorem names_nil : names [] = [[]] := rfl

/-- A path with a last name leads where this name leads from the folder before it. -/
theorem locate_eq_enter {path name : List Char} {inner : List (List Char)} (hnull : '\x00' ∉ path)
    (hnames : names path = (names path).dropLast ++ [name]) (hname : name ≠ [])
    (hwalk : directory.walk (start path) (names path).dropLast = .ok (.folder inner)) :
    directory.locate path = directory.enter (.folder inner) name := by
  have hpath : path ≠ [] := by
    rintro rfl
    rw [names_nil] at hnames
    exact hname (List.cons.inj hnames).1.symm
  rw [locate, if_neg hnull, if_neg hpath, hnames, walk_append, hwalk]
  simp only [Except.bind, walk]
  cases directory.enter (.folder inner) name <;> rfl

/-- A name that leads to a file or nowhere is that of an entry, and of no folder. -/
theorem isEntry_of_enter {inner : List (List Char)} {name : List Char}
    (h : (∃ bytes, directory.enter (.folder inner) name = .ok (.file bytes)) ∨
      directory.enter (.folder inner) name = .error .notFound) :
    IsEntry name ∧ directory.IsFree (inner ++ [name]) := by
  have hname : IsEntry name := by
    by_contra hname
    obtain ⟨place, hplace, hfile⟩ := enter_of_not_isEntry hname inner
    rcases h with ⟨bytes, h⟩ | h
    · exact hfile bytes (Except.ok.inj ((hplace directory).symm.trans h))
    · cases (hplace directory).symm.trans h
  refine ⟨hname, fun there hfolder => ?_⟩
  rw [enter_entry hname, hfolder] at h
  simp at h

/-- What a write was made of: a walk to a folder, and the name of an entry of it that is no folder. -/
theorem of_write {written : Directory} {path : List Char}
    (h : directory.write path content = .ok written) :
    ∃ inner name, '\x00' ∉ path ∧ names path = (names path).dropLast ++ [name] ∧ IsEntry name ∧
      directory.walk (start path) (names path).dropLast = .ok (.folder inner) ∧
      directory.IsFree (inner ++ [name]) ∧ written = directory.put (inner ++ [name]) content := by
  have hplace : (∃ bytes, directory.locate path = .ok (.file bytes)) ∨
      directory.locate path = .error .notFound := by
    cases hlocate : directory.locate path with
    | ok place =>
        cases place with
        | file bytes => exact .inl ⟨bytes, rfl⟩
        | folder inner => simp [write, hlocate] at h
        | outside => simp [write, hlocate] at h
    | error fault => cases fault <;> simp [write, hlocate] at h ⊢
  have hnull : '\x00' ∉ path := by
    intro hmem
    simp [locate, hmem] at hplace
  -- the two places that can be written are treated alike
  have hlast : ∃ inner, directory.walk (start path) (names path).dropLast = .ok (.folder inner) ∧
      (names path).getLast?.getD [] ≠ [] ∧
      written = directory.put (inner ++ [(names path).getLast?.getD []]) content := by
    rcases hplace with ⟨bytes, hlocate⟩ | hlocate <;>
    · simp only [write, hlocate] at h
      split at h
      · cases h
      · cases h
      · cases h
      · next inner hwalk =>
        split_ifs at h with hname
        exact ⟨inner, hwalk, hname, (Except.ok.inj h).symm⟩
  obtain ⟨inner, hwalk, hname, rfl⟩ := hlast
  have hnames : names path = (names path).dropLast ++ [(names path).getLast?.getD []] := by
    cases hlast : (names path).getLast? with
    | none => simp [hlast] at hname
    | some name => exact (List.dropLast_append_getLast? name hlast).symm
  have henter := isEntry_of_enter (by rwa [locate_eq_enter hnull hnames hname hwalk] at hplace)
  exact ⟨inner, _, hnull, hnames, henter.1, hwalk, henter.2, rfl⟩

/-- A file holds what was written to it. -/
theorem read_write {written : Directory} {path : List Char}
    (h : directory.write path content = .ok written) : written.read path = .ok content := by
  obtain ⟨inner, name, hnull, hnames, hname, hwalk, hfree, rfl⟩ := of_write h
  have hlast : (directory.put (inner ++ [name]) content).enter (.folder inner) name
      = .ok (.file content) := by
    rw [enter_entry hname, at?_put_self]
  rw [read, locate_eq_enter hnull hnames hname.1 (walk_put hfree hwalk), hlast]

end Directory

end ColorChain.Storage
