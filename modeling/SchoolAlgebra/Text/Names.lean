/-!
# Sets of names

A finite set of names is its list in ascending order. Names are ordered by their characters.
-/

namespace SchoolAlgebra.Text

/-- Adds a name to an ascending list, unless it is there. -/
def insertName (name : String) : List String → List String
  | [] => [name]
  | first :: rest =>
    if name < first then name :: first :: rest
    else if name = first then first :: rest
    else first :: insertName name rest

/-- The names of a list in ascending order, each once. -/
def sortNames (names : List String) : List String := names.foldr insertName []

@[simp] theorem mem_insertName {name other : String} {names : List String} :
    other ∈ insertName name names ↔ other = name ∨ other ∈ names := by
  induction names with
  | nil => simp [insertName]
  | cons first rest ih =>
    simp only [insertName]
    split
    · simp
    · split
      · rename_i h
        simp [h]
      · simp [ih, or_left_comm]

@[simp] theorem mem_sortNames {name : String} {names : List String} :
    name ∈ sortNames names ↔ name ∈ names := by
  induction names with
  | nil => simp [sortNames]
  | cons first rest ih => simpa [sortNames] using or_congr_right ih

theorem pairwise_insertName {name : String} {names : List String}
    (h : names.Pairwise (· < ·)) : (insertName name names).Pairwise (· < ·) := by
  induction names with
  | nil => simp [insertName]
  | cons first rest ih =>
    obtain ⟨hfirst, hrest⟩ := List.pairwise_cons.1 h
    simp only [insertName]
    split
    · rename_i hlt
      refine List.pairwise_cons.2 ⟨fun other hother ↦ ?_, h⟩
      rcases List.mem_cons.1 hother with rfl | hother
      · exact hlt
      · exact String.lt_trans hlt (hfirst other hother)
    · rename_i hnlt
      split
      · exact h
      · rename_i hne
        refine List.pairwise_cons.2 ⟨fun other hother ↦ ?_, ih hrest⟩
        rcases mem_insertName.1 hother with rfl | hother
        · exact Decidable.byContradiction fun hnlt' ↦
            hne (String.le_antisymm (String.not_lt.1 hnlt') (String.not_lt.1 hnlt))
        · exact hfirst other hother

/-- Sorted names ascend strictly, so none occurs twice. -/
theorem pairwise_sortNames (names : List String) : (sortNames names).Pairwise (· < ·) := by
  induction names with
  | nil => exact .nil
  | cons first rest ih => exact pairwise_insertName ih

end SchoolAlgebra.Text
