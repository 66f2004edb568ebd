import SchoolAlgebra.CommutativeForm.Basic

/-!
# The order of commutative forms

Forms are ordered by kind, within a kind by their parts, and last by their marks. Constants of equal
value are told apart by how they are written. The order serves to put the operands of sums and
products into one sequence.
-/

namespace SchoolAlgebra

namespace Number

/-- The place of the kind of number among the kinds. -/
def kindRank : Number → Nat
  | integer _ => 0
  | fraction _ => 1
  | float _ => 2

/-- The order of two numbers by how they are written: by kind, and fractions by their parts. -/
def compareSpelling : Number → Number → Ordering
  | fraction f, fraction g =>
    (Ord.compare f.whole g.whole).then
      ((Ord.compare f.numerator g.numerator).then (Ord.compare f.denominator g.denominator))
  | a, b => Ord.compare a.kindRank b.kindRank

end Number

/-- The order of two marks. -/
def Mark.compare (m n : Mark) : Ordering :=
  (Ord.compare m.negated n.negated).then (Ord.compare m.inverted n.inverted)

namespace CommutativeForm

/-- The place of the kind of form among the kinds. -/
def kindRank : CommutativeForm → Nat
  | sum _ _ => 0
  | power _ _ _ => 1
  | root _ _ => 2
  | constant _ _ => 3
  | var _ _ => 4
  | product _ _ => 5

mutual

/-- The order of two forms. -/
def compare : CommutativeForm → CommutativeForm → Ordering
  | constant m v, constant n w => ((v.compare w).then (v.compareSpelling w)).then (m.compare n)
  | var m x, var n y => (Ord.compare x y).then (m.compare n)
  | sum m xs, sum n ys => (compareAll xs ys).then (m.compare n)
  | product m xs, product n ys => (compareAll xs ys).then (m.compare n)
  | power m a b, power n c d => ((a.compare c).then (b.compare d)).then (m.compare n)
  | root m a, root n b => (a.compare b).then (m.compare n)
  | a, b => Ord.compare a.kindRank b.kindRank

/-- The order of two lists by their first difference; of two that agree, the shorter comes first. -/
def compareAll : List CommutativeForm → List CommutativeForm → Ordering
  | [], [] => .eq
  | [], _ :: _ => .lt
  | _ :: _, [] => .gt
  | x :: xs, y :: ys => (x.compare y).then (compareAll xs ys)

end

/-- Puts a form into a descending list, behind the forms that come after it in the order. -/
def insertDescending (f : CommutativeForm) : List CommutativeForm → List CommutativeForm
  | [] => [f]
  | g :: rest =>
    if f.compare g = .lt then g :: insertDescending f rest else f :: g :: rest

/-- The forms in ascending order. Forms that are equal in the order keep their sequence. -/
def sort (fs : List CommutativeForm) : List CommutativeForm :=
  (fs.foldl (fun sorted f ↦ insertDescending f sorted) []).reverse

theorem insertDescending_perm (f : CommutativeForm) (fs : List CommutativeForm) :
    (insertDescending f fs).Perm (f :: fs) := by
  induction fs with
  | nil => exact .refl _
  | cons g rest ih =>
    simp only [insertDescending]
    split
    · exact (ih.cons g).trans (.swap f g rest)
    · exact .refl _

private theorem foldl_insertDescending_perm (fs sorted : List CommutativeForm) :
    (fs.foldl (fun sorted f ↦ insertDescending f sorted) sorted).Perm (fs ++ sorted) := by
  induction fs generalizing sorted with
  | nil => exact .refl _
  | cons f rest ih =>
    exact (ih (insertDescending f sorted)).trans
      (((insertDescending_perm f sorted).append_left rest).trans List.perm_middle)

/-- Sorting loses and adds nothing. -/
theorem sort_perm (fs : List CommutativeForm) : (sort fs).Perm fs := by
  have h := foldl_insertDescending_perm fs []
  rw [List.append_nil] at h
  exact (List.reverse_perm _).trans h

end CommutativeForm

end SchoolAlgebra
