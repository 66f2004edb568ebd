import Mathlib

/-!
# Three comparisons

A transitive order compares `a` with `c` as it compares `a` with `b` and `b` with `c`, if neither
of these two descends. This relation between three results carries over to lexicographic orders.
-/

namespace SchoolAlgebra

/-- Whether `ac` is what a transitive order answers where it answers `ab` and `bc`. -/
def IsTransitive (ab bc ac : Ordering) : Prop :=
  ab ≠ .gt → bc ≠ .gt → ac = ab.then bc

/-- What comes before something that comes before all comes before all. -/
theorem isTransitive_lt (ab : Ordering) : IsTransitive ab .lt .lt := by
  cases ab <;> simp [IsTransitive]

theorem isTransitive_compare {α : Type} [Ord α] [Std.TransOrd α] (a b c : α) :
    IsTransitive (compare a b) (compare b c) (compare a c) := by
  intro hab hbc
  cases h : compare a b with
  | lt =>
    cases h' : compare b c with
    | lt => exact Std.TransCmp.lt_trans h h'
    | eq => exact Std.TransCmp.lt_of_lt_of_eq h h'
    | gt => exact absurd h' hbc
  | eq => exact Std.TransCmp.congr_left h
  | gt => exact absurd h hab

theorem isTransitive_compare_flip {α : Type} [Ord α] [Std.TransOrd α] (a b c : α) :
    IsTransitive (compare b a) (compare c b) (compare c a) := by
  intro hab hbc
  cases h : compare b a with
  | lt =>
    cases h' : compare c b with
    | lt => exact Std.TransCmp.lt_trans h' h
    | eq => exact Std.TransCmp.lt_of_eq_of_lt h' h
    | gt => exact absurd h' hbc
  | eq => exact (Std.TransCmp.congr_right h).symm
  | gt => exact absurd h hab

/-- A comparison that is decided by a second one only where the first finds no difference. -/
theorem IsTransitive.then {ab bc ac ab' bc' ac' : Ordering} (h : IsTransitive ab bc ac)
    (h' : IsTransitive ab' bc' ac') :
    IsTransitive (ab.then ab') (bc.then bc') (ac.then ac') := by
  unfold IsTransitive at h h' ⊢
  cases ab <;> cases bc <;> cases ab' <;> simp_all

theorem IsTransitive.lt {ab bc ac : Ordering} (h : IsTransitive ab bc ac) (hab : ab = .lt)
    (hbc : bc = .lt) : ac = .lt := by
  rw [h (by rw [hab]; decide) (by rw [hbc]; decide), hab]
  rfl

theorem IsTransitive.ne_gt {ab bc ac : Ordering} (h : IsTransitive ab bc ac) (hab : ab ≠ .gt)
    (hbc : bc ≠ .gt) : ac ≠ .gt := by
  rw [h hab hbc, ne_eq, Ordering.then_eq_gt, not_or]
  exact ⟨hab, fun hgt ↦ hbc hgt.2⟩

/-- On a set where what does not descend is transitive, the order as a whole is. -/
theorem isTransitive_of_ne_gt {α : Type} {cmp : α → α → Ordering} {S : Set α}
    (hswap : ∀ a b, (cmp a b).swap = cmp b a)
    (htrans : ∀ a ∈ S, ∀ b ∈ S, ∀ c ∈ S, cmp a b ≠ .gt → cmp b c ≠ .gt → cmp a c ≠ .gt)
    {a b c : α} (ha : a ∈ S) (hb : b ∈ S) (hc : c ∈ S) :
    IsTransitive (cmp a b) (cmp b c) (cmp a c) := by
  have hcba := htrans c hc b hb a ha
  have hbca := htrans b hb c hc a ha
  have hcab := htrans c hc a ha b hb
  rw [← hswap a b, ← hswap b c, ← hswap a c] at hcba
  rw [← hswap a b, ← hswap a c] at hbca
  rw [← hswap a c, ← hswap b c] at hcab
  intro hab hbc
  have hac := htrans a ha b hb c hc hab hbc
  cases h : cmp a b <;> cases h' : cmp b c <;> cases h'' : cmp a c <;> simp_all

end SchoolAlgebra
