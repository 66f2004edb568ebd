import Mathlib
import SchoolAlgebra.Proofs.CommutativeForm.Constants

/-!
# The order of commutative forms

Forms that change places are compared the other way around. If the order of the constants is
transitive, then so is that of the forms made of them, and if only a constant itself is equal to it,
then only a form itself is equal to it. Among forms of both kinds sorting forgets the sequence of
the operands: two lists with the same operands are sorted alike.
-/

namespace SchoolAlgebra

namespace Mark

theorem eq_of_compare_eq {m n : Mark} (h : m.compare n = .eq) : m = n := by
  rw [Mark.compare, Ordering.then_eq_eq, Std.compare_eq_iff_eq, Std.compare_eq_iff_eq] at h
  cases m
  cases n
  rw [Mark.mk.injEq]
  exact h

theorem compare_swap (m n : Mark) : (m.compare n).swap = n.compare m := by
  rw [Mark.compare, Mark.compare, Ordering.swap_then, ← Std.OrientedOrd.eq_swap,
    ← Std.OrientedOrd.eq_swap]

theorem isTransitive_compare (m n o : Mark) :
    IsTransitive (m.compare n) (n.compare o) (m.compare o) :=
  (SchoolAlgebra.isTransitive_compare m.negated n.negated o.negated).then
    (SchoolAlgebra.isTransitive_compare m.inverted n.inverted o.inverted)

end Mark

namespace CommutativeForm

/-- Whether all constants of the form are in the set. -/
inductive HasConstantsIn (S : Set Number) : CommutativeForm → Prop where
  | constant {m : Mark} {v : Number} (hv : v ∈ S) : HasConstantsIn S (constant m v)
  | var {m : Mark} {name : String} : HasConstantsIn S (var m name)
  | sum {m : Mark} {xs : List CommutativeForm} (hxs : ∀ x ∈ xs, HasConstantsIn S x) :
      HasConstantsIn S (sum m xs)
  | product {m : Mark} {xs : List CommutativeForm} (hxs : ∀ x ∈ xs, HasConstantsIn S x) :
      HasConstantsIn S (product m xs)
  | power {m : Mark} {a b : CommutativeForm} (ha : HasConstantsIn S a)
      (hb : HasConstantsIn S b) : HasConstantsIn S (power m a b)
  | root {m : Mark} {a : CommutativeForm} (ha : HasConstantsIn S a) : HasConstantsIn S (root m a)

theorem hasConstantsIn_univ : ∀ f : CommutativeForm, f.HasConstantsIn Set.univ
  | constant _ _ => .constant trivial
  | var _ _ => .var
  | sum _ xs => .sum fun x _ ↦ hasConstantsIn_univ x
  | product _ xs => .product fun x _ ↦ hasConstantsIn_univ x
  | power _ a b => .power (hasConstantsIn_univ a) (hasConstantsIn_univ b)
  | root _ a => .root (hasConstantsIn_univ a)

/-- Whether all constants of the form are literals. -/
inductive IsLiteral : CommutativeForm → Prop where
  | constant {m : Mark} {v : Number} (hv : v.IsLiteral) : IsLiteral (constant m v)
  | var {m : Mark} {name : String} : IsLiteral (var m name)
  | sum {m : Mark} {xs : List CommutativeForm} (hxs : ∀ x ∈ xs, IsLiteral x) :
      IsLiteral (sum m xs)
  | product {m : Mark} {xs : List CommutativeForm} (hxs : ∀ x ∈ xs, IsLiteral x) :
      IsLiteral (product m xs)
  | power {m : Mark} {a b : CommutativeForm} (ha : IsLiteral a) (hb : IsLiteral b) :
      IsLiteral (power m a b)
  | root {m : Mark} {a : CommutativeForm} (ha : IsLiteral a) : IsLiteral (root m a)

theorem IsLiteral.withMark {f : CommutativeForm} (h : f.IsLiteral) (m : Mark) :
    (f.withMark m).IsLiteral := by
  cases h with
  | constant hv => exact .constant hv
  | var => exact .var
  | sum hxs => exact .sum hxs
  | product hxs => exact .product hxs
  | power ha hb => exact .power ha hb
  | root ha => exact .root ha

theorem IsLiteral.hasConstantsIn {f : CommutativeForm} (h : f.IsLiteral) :
    f.HasConstantsIn {v | v.IsLiteral} := by
  induction h with
  | constant hv => exact .constant hv
  | var => exact .var
  | sum _ ih => exact .sum ih
  | product _ ih => exact .product ih
  | power _ _ iha ihb => exact .power iha ihb
  | root _ ih => exact .root ih

/-- Forms of different kinds are ordered by kind. -/
theorem compare_of_kindRank_ne {f g : CommutativeForm} (h : f.kindRank ≠ g.kindRank) :
    f.compare g = Ord.compare f.kindRank g.kindRank := by
  cases f <;> cases g <;> first | exact absurd rfl h | simp only [compare]

theorem kindRank_eq_of_compare_eq {f g : CommutativeForm} (h : f.compare g = .eq) :
    f.kindRank = g.kindRank := by
  by_contra hne
  rw [compare_of_kindRank_ne hne, compare_eq_iff_eq] at h
  exact hne h

/-! ## The order of forms -/

section lists

variable {xs ys zs : List CommutativeForm} {S : Set Number}

theorem eq_of_compareAll_eq
    (h : ∀ x ∈ xs, ∀ y, y.HasConstantsIn S → x.compare y = .eq → x = y)
    (hys : ∀ y ∈ ys, y.HasConstantsIn S) (heq : compareAll xs ys = .eq) : xs = ys := by
  induction xs generalizing ys with
  | nil =>
    cases ys with
    | nil => rfl
    | cons y ys => simp [compareAll] at heq
  | cons x xs ih =>
    cases ys with
    | nil => simp [compareAll] at heq
    | cons y ys =>
      rw [List.forall_mem_cons] at h hys
      rw [compareAll, Ordering.then_eq_eq] at heq
      rw [h.1 y hys.1 heq.1, ih h.2 hys.2 heq.2]

theorem compareAll_swap (h : ∀ x ∈ xs, ∀ y, (x.compare y).swap = y.compare x) :
    (compareAll xs ys).swap = compareAll ys xs := by
  induction xs generalizing ys with
  | nil => cases ys <;> simp [compareAll]
  | cons x xs ih =>
    cases ys with
    | nil => simp [compareAll]
    | cons y ys =>
      rw [List.forall_mem_cons] at h
      rw [compareAll, compareAll, Ordering.swap_then, h.1 y, ih h.2]

theorem isTransitive_compareAll
    (h : ∀ x ∈ xs, ∀ y z, y.HasConstantsIn S → z.HasConstantsIn S →
      IsTransitive (x.compare y) (y.compare z) (x.compare z))
    (hys : ∀ y ∈ ys, y.HasConstantsIn S) (hzs : ∀ z ∈ zs, z.HasConstantsIn S) :
    IsTransitive (compareAll xs ys) (compareAll ys zs) (compareAll xs zs) := by
  induction xs generalizing ys zs with
  | nil =>
    cases ys with
    | nil => cases zs <;> simp [IsTransitive, compareAll]
    | cons y ys => cases zs <;> simp [IsTransitive, compareAll]
  | cons x xs ih =>
    cases ys with
    | nil => simp [IsTransitive, compareAll]
    | cons y ys =>
      cases zs with
      | nil => simp [IsTransitive, compareAll]
      | cons z zs =>
        rw [List.forall_mem_cons] at h hys hzs
        rw [compareAll, compareAll, compareAll]
        exact (h.1 y z hys.1 hzs.1).then (ih h.2 hys.2 hzs.2)

end lists

variable {S : Set Number}

/-- Forms that change places are compared the other way around. -/
theorem compare_swap (f g : CommutativeForm) : (f.compare g).swap = g.compare f := by
  induction hasConstantsIn_univ f generalizing g with
  | constant =>
    cases g with
    | constant m w =>
      rw [compare, compare, Ordering.swap_then, Mark.compare_swap]
      exact congrArg (Ordering.then · _) (Number.compareConstant_swap _ w)
    | _ => simp only [compare]; rfl
  | var =>
    cases g with
    | var m name =>
      rw [compare, compare, Ordering.swap_then, Mark.compare_swap, ← Std.OrientedOrd.eq_swap]
    | _ => simp only [compare]; rfl
  | sum _ ih =>
    cases g with
    | sum m ys => rw [compare, compare, Ordering.swap_then, Mark.compare_swap, compareAll_swap ih]
    | _ => simp only [compare]; rfl
  | product _ ih =>
    cases g with
    | product m ys =>
      rw [compare, compare, Ordering.swap_then, Mark.compare_swap, compareAll_swap ih]
    | _ => simp only [compare]; rfl
  | power _ _ iha ihb =>
    cases g with
    | power m c d =>
      rw [compare, compare, Ordering.swap_then, Ordering.swap_then, Mark.compare_swap, iha, ihb]
    | _ => simp only [compare]; rfl
  | root _ iha =>
    cases g with
    | root m b => rw [compare, compare, Ordering.swap_then, Mark.compare_swap, iha]
    | _ => simp only [compare]; rfl

/-- Only a form itself is equal to it in the order. -/
theorem eq_of_compare_eq (hS : Number.HasUniqueZeros S) {f g : CommutativeForm}
    (hf : f.HasConstantsIn S) (hg : g.HasConstantsIn S) (h : f.compare g = .eq) : f = g := by
  have hkind := kindRank_eq_of_compare_eq h
  induction hf generalizing g with
  | constant hv =>
    cases hg with
    | constant hw =>
      rw [compare, Ordering.then_eq_eq] at h
      rw [hS.eq_of_compareConstant_eq hv hw h.1, Mark.eq_of_compare_eq h.2]
    | _ => simp [kindRank] at hkind
  | var =>
    cases hg with
    | var =>
      rw [compare, Ordering.then_eq_eq, Std.compare_eq_iff_eq] at h
      rw [h.1, Mark.eq_of_compare_eq h.2]
    | _ => simp [kindRank] at hkind
  | sum _ ih =>
    cases hg with
    | sum hys =>
      rw [compare, Ordering.then_eq_eq] at h
      have hall := eq_of_compareAll_eq
        (fun x hx y hy heq ↦ ih x hx hy heq (kindRank_eq_of_compare_eq heq)) hys h.1
      rw [hall, Mark.eq_of_compare_eq h.2]
    | _ => simp [kindRank] at hkind
  | product _ ih =>
    cases hg with
    | product hys =>
      rw [compare, Ordering.then_eq_eq] at h
      have hall := eq_of_compareAll_eq
        (fun x hx y hy heq ↦ ih x hx hy heq (kindRank_eq_of_compare_eq heq)) hys h.1
      rw [hall, Mark.eq_of_compare_eq h.2]
    | _ => simp [kindRank] at hkind
  | power _ _ iha ihb =>
    cases hg with
    | power hc hd =>
      rw [compare, Ordering.then_eq_eq, Ordering.then_eq_eq] at h
      obtain ⟨⟨hbase, hexponent⟩, hmark⟩ := h
      rw [iha hc hbase (kindRank_eq_of_compare_eq hbase),
        ihb hd hexponent (kindRank_eq_of_compare_eq hexponent), Mark.eq_of_compare_eq hmark]
    | _ => simp [kindRank] at hkind
  | root _ iha =>
    cases hg with
    | root hb =>
      rw [compare, Ordering.then_eq_eq] at h
      rw [iha hb h.1 (kindRank_eq_of_compare_eq h.1), Mark.eq_of_compare_eq h.2]
    | _ => simp [kindRank] at hkind

/-- Transitivity needs a proof only for three forms of one kind. -/
theorem isTransitive_of_kindRank {f g h : CommutativeForm}
    (hsame : f.kindRank = g.kindRank → g.kindRank = h.kindRank →
      IsTransitive (f.compare g) (g.compare h) (f.compare h)) :
    IsTransitive (f.compare g) (g.compare h) (f.compare h) := by
  by_cases hfg : f.kindRank = g.kindRank
  · by_cases hgh : g.kindRank = h.kindRank
    · exact hsame hfg hgh
    · have hfh : f.kindRank ≠ h.kindRank := hfg ▸ hgh
      intro hle hle'
      rw [compare_of_kindRank_ne hfh, hfg]
      rw [compare_of_kindRank_ne hgh] at hle' ⊢
      have hlt : Ord.compare g.kindRank h.kindRank = .lt := by
        rw [compare_lt_iff_lt]
        exact lt_of_le_of_ne (compare_le_iff_le.1 hle') hgh
      rw [hlt]
      cases hcompare : f.compare g with
      | lt => rfl
      | eq => rfl
      | gt => exact absurd hcompare hle
  · intro hle hle'
    rw [compare_of_kindRank_ne hfg] at hle ⊢
    have hlt : f.kindRank < g.kindRank := lt_of_le_of_ne (compare_le_iff_le.1 hle) hfg
    have hle'' : g.kindRank ≤ h.kindRank := by
      by_cases hgh : g.kindRank = h.kindRank
      · exact hgh.le
      · rw [compare_of_kindRank_ne hgh] at hle'
        exact compare_le_iff_le.1 hle'
    have hfh := lt_of_lt_of_le hlt hle''
    rw [compare_of_kindRank_ne hfh.ne, compare_lt_iff_lt.2 hfh, compare_lt_iff_lt.2 hlt]
    rfl

theorem isTransitive_compare (hS : Number.HasOrderedDoubles S) {f g h : CommutativeForm}
    (hf : f.HasConstantsIn S) (hg : g.HasConstantsIn S) (hh : h.HasConstantsIn S) :
    IsTransitive (f.compare g) (g.compare h) (f.compare h) := by
  induction hf generalizing g h with
  | constant hv =>
    apply isTransitive_of_kindRank
    intro hfg hgh
    cases hg with
    | constant hw =>
      cases hh with
      | constant hu =>
        rw [compare, compare, compare]
        exact (hS.isTransitive_compareConstant hv hw hu).then (Mark.isTransitive_compare _ _ _)
      | _ => simp [kindRank] at hgh
    | _ => simp [kindRank] at hfg
  | var =>
    apply isTransitive_of_kindRank
    intro hfg hgh
    cases hg with
    | var =>
      cases hh with
      | var =>
        rw [compare, compare, compare]
        exact (SchoolAlgebra.isTransitive_compare _ _ _).then (Mark.isTransitive_compare _ _ _)
      | _ => simp [kindRank] at hgh
    | _ => simp [kindRank] at hfg
  | sum _ ih =>
    apply isTransitive_of_kindRank
    intro hfg hgh
    cases hg with
    | sum hys =>
      cases hh with
      | sum hzs =>
        rw [compare, compare, compare]
        exact (isTransitive_compareAll (fun x hx y z hy hz ↦ ih x hx hy hz) hys hzs).then
          (Mark.isTransitive_compare _ _ _)
      | _ => simp [kindRank] at hgh
    | _ => simp [kindRank] at hfg
  | product _ ih =>
    apply isTransitive_of_kindRank
    intro hfg hgh
    cases hg with
    | product hys =>
      cases hh with
      | product hzs =>
        rw [compare, compare, compare]
        exact (isTransitive_compareAll (fun x hx y z hy hz ↦ ih x hx hy hz) hys hzs).then
          (Mark.isTransitive_compare _ _ _)
      | _ => simp [kindRank] at hgh
    | _ => simp [kindRank] at hfg
  | power _ _ iha ihb =>
    apply isTransitive_of_kindRank
    intro hfg hgh
    cases hg with
    | power hc hd =>
      cases hh with
      | power hc' hd' =>
        rw [compare, compare, compare]
        exact ((iha hc hc').then (ihb hd hd')).then (Mark.isTransitive_compare _ _ _)
      | _ => simp [kindRank] at hgh
    | _ => simp [kindRank] at hfg
  | root _ iha =>
    apply isTransitive_of_kindRank
    intro hfg hgh
    cases hg with
    | root hb =>
      cases hh with
      | root hc =>
        rw [compare, compare, compare]
        exact (iha hb hc).then (Mark.isTransitive_compare _ _ _)
      | _ => simp [kindRank] at hgh
    | _ => simp [kindRank] at hfg

/-! ## Sorting -/

/-- Whether no form comes before a later one in the order. -/
def IsDescending (fs : List CommutativeForm) : Prop := fs.Pairwise fun f g ↦ f.compare g ≠ .lt

theorem compare_ne_lt_iff {f g : CommutativeForm} : f.compare g ≠ .lt ↔ g.compare f ≠ .gt := by
  rw [← compare_swap g f, ne_eq, ne_eq, Ordering.swap_eq_lt]

section sorting

variable (hS : Number.HasOrderedDoubles S)
include hS

theorem compare_ne_lt_trans {f g h : CommutativeForm} (hf : f.HasConstantsIn S)
    (hg : g.HasConstantsIn S) (hh : h.HasConstantsIn S) (hfg : f.compare g ≠ .lt)
    (hgh : g.compare h ≠ .lt) : f.compare h ≠ .lt := by
  rw [compare_ne_lt_iff] at *
  exact (isTransitive_compare hS hh hg hf).ne_gt hgh hfg

theorem isDescending_insertDescending {f : CommutativeForm} {fs : List CommutativeForm}
    (hf : f.HasConstantsIn S) (hfs : ∀ g ∈ fs, g.HasConstantsIn S) (h : IsDescending fs) :
    IsDescending (insertDescending f fs) := by
  induction fs with
  | nil => exact List.pairwise_singleton _ f
  | cons g rest ih =>
    rw [List.forall_mem_cons] at hfs
    obtain ⟨hhead, htail⟩ := List.pairwise_cons.1 h
    unfold insertDescending
    split
    · rename_i hlt
      refine List.pairwise_cons.2 ⟨fun x hx ↦ ?_, ih hfs.2 htail⟩
      rcases List.mem_cons.1 ((insertDescending_perm f rest).mem_iff.1 hx) with hself | hrest
      · rw [hself, compare_ne_lt_iff, hlt]
        decide
      · exact hhead x hrest
    · rename_i hnlt
      refine List.pairwise_cons.2 ⟨fun x hx ↦ ?_, h⟩
      rcases List.mem_cons.1 hx with hself | hrest
      · exact hself ▸ hnlt
      · exact compare_ne_lt_trans hS hf hfs.1 (hfs.2 x hrest) hnlt (hhead x hrest)

theorem isDescending_foldl_insertDescending {fs sorted : List CommutativeForm}
    (hfs : ∀ f ∈ fs, f.HasConstantsIn S) (hsorted : ∀ f ∈ sorted, f.HasConstantsIn S)
    (h : IsDescending sorted) :
    IsDescending (fs.foldl (fun sorted f ↦ insertDescending f sorted) sorted) := by
  induction fs generalizing sorted with
  | nil => exact h
  | cons f rest ih =>
    rw [List.forall_mem_cons] at hfs
    apply ih hfs.2
    · intro g hg
      rcases List.mem_cons.1 ((insertDescending_perm f sorted).mem_iff.1 hg) with hself | hrest
      · exact hself ▸ hfs.1
      · exact hsorted g hrest
    · exact isDescending_insertDescending hS hfs.1 hsorted h

/-- Sorting puts the forms into ascending order. -/
theorem pairwise_sort {fs : List CommutativeForm} (h : ∀ f ∈ fs, f.HasConstantsIn S) :
    (sort fs).Pairwise fun f g ↦ f.compare g ≠ .gt := by
  have hdescending := isDescending_foldl_insertDescending hS h (List.forall_mem_nil _) .nil
  exact List.pairwise_reverse.2 (hdescending.imp compare_ne_lt_iff.1)

end sorting

theorem pairwise_sort_of_isLiteral {fs : List CommutativeForm} (h : ∀ f ∈ fs, f.IsLiteral) :
    (sort fs).Pairwise fun f g ↦ f.compare g ≠ .gt :=
  pairwise_sort (Number.hasOrderedDoubles_of_isLiteral fun _ hv ↦ hv) fun f hf ↦
    (h f hf).hasConstantsIn

/-- Sorting forgets the sequence of the forms. -/
theorem sort_eq_of_perm {fs gs : List CommutativeForm} (h : ∀ f ∈ fs, f.IsLiteral)
    (hperm : fs.Perm gs) : sort fs = sort gs := by
  have hzeros := Number.hasUniqueZeros_of_isLiteral (S := {v | v.IsLiteral}) fun _ hv ↦ hv
  have hgs : ∀ g ∈ gs, g.IsLiteral := fun g hg ↦ h g (hperm.mem_iff.2 hg)
  have hsorted : (sort fs).Perm (sort gs) :=
    (sort_perm fs).trans (hperm.trans (sort_perm gs).symm)
  apply hsorted.eq_of_pairwise _ (pairwise_sort_of_isLiteral h) (pairwise_sort_of_isLiteral hgs)
  intro f g hf hg hfg hgf
  apply eq_of_compare_eq hzeros (h f ((sort_perm fs).mem_iff.1 hf)).hasConstantsIn
    (hgs g ((sort_perm gs).mem_iff.1 hg)).hasConstantsIn
  rw [← compare_ne_lt_iff] at hgf
  cases hcompare : f.compare g with
  | lt => exact absurd hcompare hgf
  | eq => rfl
  | gt => exact absurd hcompare hfg

end CommutativeForm

end SchoolAlgebra
