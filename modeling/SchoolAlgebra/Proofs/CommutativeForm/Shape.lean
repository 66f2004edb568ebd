import Mathlib
import SchoolAlgebra.Proofs.CommutativeForm.Rearrangement

/-!
# The shape of commutative forms

At every depth of the commutative form of an expression sums and products alternate and have two or
more operands, signs stand outside products, and reciprocals stand on factors only. If the constants
of the expression are integers or doubles other than NaN, the operands stand in ascending order.
-/

namespace SchoolAlgebra

namespace CommutativeForm

/-- Whether a form is another one, or one of the forms of which that one is made. -/
inductive IsPartOf (g : CommutativeForm) : CommutativeForm → Prop where
  | self : IsPartOf g g
  | summand {m : Mark} {fs : List CommutativeForm} {f : CommutativeForm} (hf : f ∈ fs)
      (h : IsPartOf g f) : IsPartOf g (sum m fs)
  | factor {m : Mark} {fs : List CommutativeForm} {f : CommutativeForm} (hf : f ∈ fs)
      (h : IsPartOf g f) : IsPartOf g (product m fs)
  | base {m : Mark} {a b : CommutativeForm} (h : IsPartOf g a) : IsPartOf g (power m a b)
  | exponent {m : Mark} {a b : CommutativeForm} (h : IsPartOf g b) : IsPartOf g (power m a b)
  | argument {m : Mark} {a : CommutativeForm} (h : IsPartOf g a) : IsPartOf g (root m a)

theorem IsLiteral.of_isPartOf {f g : CommutativeForm} (h : g.IsPartOf f) (hf : f.IsLiteral) :
    g.IsLiteral := by
  induction h with
  | self => exact hf
  | summand hmem _ ih => cases hf with | sum hfs => exact ih (hfs _ hmem)
  | factor hmem _ ih => cases hf with | product hfs => exact ih (hfs _ hmem)
  | base _ ih => cases hf with | power ha hb => exact ih ha
  | exponent _ ih => cases hf with | power ha hb => exact ih hb
  | argument _ ih => cases hf with | root ha => exact ih ha

/-- Whether the form is a sum. -/
def isSum : CommutativeForm → Bool
  | sum _ _ => true
  | _ => false

/-- Whether the form is a product. -/
def isProduct : CommutativeForm → Bool
  | product _ _ => true
  | _ => false

/--
Whether the top of the form has the shape of a commutative form: a sum has no sums among its
operands, a product has no products and no signs among them, both have two operands or more, and
only the operands of products are inverted.
-/
def IsWellShaped : CommutativeForm → Prop
  | constant _ _ => True
  | var _ _ => True
  | sum _ fs => 2 ≤ fs.length ∧ ∀ f ∈ fs, f.isSum = false ∧ f.mark.inverted = false
  | product _ fs => 2 ≤ fs.length ∧ ∀ f ∈ fs, f.isProduct = false ∧ f.mark.negated = false
  | power _ a b => a.mark.inverted = false ∧ b.mark.inverted = false
  | root _ a => a.mark.inverted = false

/-- Whether the operands at the top of the form stand in ascending order. -/
def IsAscending : CommutativeForm → Prop
  | sum _ fs => fs.Pairwise fun f g ↦ f.compare g ≠ .gt
  | product _ fs => fs.Pairwise fun f g ↦ f.compare g ≠ .gt
  | _ => True

/-- Whether every part of the form is well shaped and, if its constants are literals, ascending. -/
def IsTidy (f : CommutativeForm) : Prop :=
  ∀ g : CommutativeForm, g.IsPartOf f → g.IsWellShaped ∧ (g.IsLiteral → g.IsAscending)

variable {f a b : CommutativeForm} {fs : List CommutativeForm} {m : Mark}

@[simp] theorem isSum_withMark (m : Mark) (f : CommutativeForm) :
    (f.withMark m).isSum = f.isSum := by
  cases f <;> rfl

@[simp] theorem isProduct_withMark (m : Mark) (f : CommutativeForm) :
    (f.withMark m).isProduct = f.isProduct := by
  cases f <;> rfl

theorem isTidy_constant (m : Mark) (v : Number) : (constant m v).IsTidy := by
  intro g hg
  cases hg
  exact ⟨trivial, fun _ ↦ trivial⟩

theorem isTidy_var (m : Mark) (name : String) : (var m name).IsTidy := by
  intro g hg
  cases hg
  exact ⟨trivial, fun _ ↦ trivial⟩

theorem isTidy_sum (hshape : (sum m fs).IsWellShaped)
    (hascending : (sum m fs).IsLiteral → (sum m fs).IsAscending) (hfs : ∀ f ∈ fs, f.IsTidy) :
    (sum m fs).IsTidy := by
  intro g hg
  cases hg with
  | self => exact ⟨hshape, hascending⟩
  | summand hf h => exact hfs _ hf g h

theorem isTidy_product (hshape : (product m fs).IsWellShaped)
    (hascending : (product m fs).IsLiteral → (product m fs).IsAscending)
    (hfs : ∀ f ∈ fs, f.IsTidy) : (product m fs).IsTidy := by
  intro g hg
  cases hg with
  | self => exact ⟨hshape, hascending⟩
  | factor hf h => exact hfs _ hf g h

theorem isTidy_power (hshape : (power m a b).IsWellShaped) (ha : a.IsTidy) (hb : b.IsTidy) :
    (power m a b).IsTidy := by
  intro g hg
  cases hg with
  | self => exact ⟨hshape, fun _ ↦ trivial⟩
  | base h => exact ha g h
  | exponent h => exact hb g h

theorem isTidy_root (hshape : (root m a).IsWellShaped) (ha : a.IsTidy) : (root m a).IsTidy := by
  intro g hg
  cases hg with
  | self => exact ⟨hshape, fun _ ↦ trivial⟩
  | argument h => exact ha g h

/-- The shape does not depend on the mark. -/
theorem IsTidy.withMark (h : f.IsTidy) (m : Mark) : (f.withMark m).IsTidy := by
  have hself := h f .self
  cases f with
  | constant n v => exact isTidy_constant m v
  | var n name => exact isTidy_var m name
  | sum n fs =>
    exact isTidy_sum hself.1 (fun hliteral ↦ hself.2 (hliteral.withMark n))
      fun f hf g hg ↦ h g (.summand hf hg)
  | product n fs =>
    exact isTidy_product hself.1 (fun hliteral ↦ hself.2 (hliteral.withMark n))
      fun f hf g hg ↦ h g (.factor hf hg)
  | power n a b =>
    exact isTidy_power hself.1 (fun g hg ↦ h g (.base hg)) fun g hg ↦ h g (.exponent hg)
  | root n a => exact isTidy_root hself.1 fun g hg ↦ h g (.argument hg)

/-! ## Operands -/

/-- Whether the form may stand by itself: it is tidy and not inverted. -/
structure IsWhole (f : CommutativeForm) : Prop where
  not_inverted : f.mark.inverted = false
  tidy : f.IsTidy

/-- Whether the form may stand in a sum: it is whole and not itself a sum. -/
structure IsSummand (f : CommutativeForm) : Prop extends IsWhole f where
  not_sum : f.isSum = false

/-- Whether the form may stand in a product: it is tidy, has no sign and is not itself a product. -/
structure IsFactor (f : CommutativeForm) : Prop where
  not_product : f.isProduct = false
  not_negated : f.mark.negated = false
  tidy : f.IsTidy

theorem IsWhole.negate (h : f.IsWhole) : f.negate.IsWhole where
  not_inverted := by
    rw [CommutativeForm.negate, mark_withMark]
    exact h.not_inverted
  tidy := h.tidy.withMark _

theorem IsSummand.negate (h : f.IsSummand) : f.negate.IsSummand where
  toIsWhole := h.toIsWhole.negate
  not_sum := (isSum_withMark _ f).trans h.not_sum

theorem IsFactor.invert (h : f.IsFactor) : f.invert.IsFactor where
  not_product := (isProduct_withMark _ f).trans h.not_product
  not_negated := by
    rw [CommutativeForm.invert, mark_withMark]
    exact h.not_negated
  tidy := h.tidy.withMark _

theorem isFactor_unsigned (h : f.IsTidy) (hproduct : f.isProduct = false) :
    f.unsigned.IsFactor where
  not_product := (isProduct_withMark _ f).trans hproduct
  not_negated := by rw [unsigned, mark_withMark]
  tidy := h.withMark _

end CommutativeForm

namespace CommutativeShape

open CommutativeForm

variable {f g : CommutativeForm} {fs : List CommutativeForm}

theorem isSummand_of_mem_summandsOf (h : f.IsWhole) (hg : g ∈ summandsOf f) : g.IsSummand := by
  by_cases hsum : f.isSum = true
  · cases f with
    | sum m fs =>
      obtain ⟨negated, inverted⟩ := m
      obtain rfl : inverted = false := h.not_inverted
      obtain ⟨x, hx, rfl⟩ := List.mem_map.1 hg
      obtain ⟨hnotsum, hinverted⟩ := (h.tidy _ .self).1.2 x hx
      have hsummand : x.IsSummand := ⟨⟨hinverted, fun y hy ↦ h.tidy y (.summand hx hy)⟩, hnotsum⟩
      cases negated with
      | true => exact hsummand.negate
      | false => exact hsummand
    | _ => cases hsum
  · have hsingle : summandsOf f = [f] := by
      cases f with
      | sum m fs => exact absurd rfl hsum
      | _ => rfl
    rw [hsingle, List.mem_singleton] at hg
    exact hg ▸ ⟨h, by simpa using hsum⟩

theorem isFactor_of_mem_factorsOf (h : f.IsTidy) (hg : g ∈ factorsOf f) : g.IsFactor := by
  by_cases hproduct : f.isProduct = true
  · cases f with
    | product m fs =>
      obtain ⟨x, hx, rfl⟩ := List.mem_map.1 hg
      obtain ⟨hnotproduct, hnegated⟩ := (h _ .self).1.2 x hx
      have hfactor : x.IsFactor := ⟨hnotproduct, hnegated, fun y hy ↦ h y (.factor hx hy)⟩
      obtain ⟨negated, inverted⟩ := m
      cases inverted with
      | true => exact hfactor.invert
      | false => exact hfactor
    | _ => cases hproduct
  · have hsingle : factorsOf f = [f.unsigned] := by
      cases f with
      | product m fs => exact absurd rfl hproduct
      | _ => rfl
    rw [hsingle, List.mem_singleton] at hg
    exact hg ▸ isFactor_unsigned h (by simpa using hproduct)

theorem length_summandsOf_pos (h : f.IsTidy) : 0 < (summandsOf f).length := by
  cases f with
  | sum m fs =>
    obtain ⟨negated, inverted⟩ := m
    cases inverted with
    | true => exact Nat.one_pos
    | false =>
      have hlength := (h _ .self).1.1
      rw [summandsOf, List.length_map]
      omega
  | _ => exact Nat.one_pos

theorem length_factorsOf_pos (h : f.IsTidy) : 0 < (factorsOf f).length := by
  cases f with
  | product m fs =>
    have hlength := (h _ .self).1.1
    rw [factorsOf, List.length_map]
    omega
  | _ => exact Nat.one_pos

/-- A sum of summands is whole. -/
theorem isWhole_form_sum (hlength : 2 ≤ fs.length) (hfs : ∀ f ∈ fs, f.IsSummand) :
    (sum fs).form.IsWhole := by
  have hperm := CommutativeForm.sort_perm fs
  have hsorted : ∀ f ∈ CommutativeForm.sort fs, f.IsSummand := fun f hf ↦
    hfs f (hperm.mem_iff.1 hf)
  refine ⟨rfl, isTidy_sum ⟨hperm.length_eq ▸ hlength, fun f hf ↦ ?_⟩ (fun hliteral ↦ ?_)
    fun f hf ↦ (hsorted f hf).tidy⟩
  · exact ⟨(hsorted f hf).not_sum, (hsorted f hf).not_inverted⟩
  · exact pairwise_sort_of_isLiteral (isLiteral_sum_iff.1 hliteral)

/-- A product of factors is whole. -/
theorem isWhole_form_product {negated : Bool} (hlength : 2 ≤ fs.length)
    (hfs : ∀ f ∈ fs, f.IsFactor) : (product negated fs).form.IsWhole := by
  have hperm := CommutativeForm.sort_perm fs
  have hsorted : ∀ f ∈ CommutativeForm.sort fs, f.IsFactor := fun f hf ↦
    hfs f (hperm.mem_iff.1 hf)
  refine ⟨rfl, isTidy_product ⟨hperm.length_eq ▸ hlength, fun f hf ↦ ?_⟩ (fun hliteral ↦ ?_)
    fun f hf ↦ (hsorted f hf).tidy⟩
  · exact ⟨(hsorted f hf).not_product, (hsorted f hf).not_negated⟩
  · exact pairwise_sort_of_isLiteral (isLiteral_product_iff.1 hliteral)

section operations

variable {s t : CommutativeShape}

theorem isSummand_of_mem_summands (hs : s.form.IsWhole) (hf : f ∈ s.summands) : f.IsSummand :=
  isSummand_of_mem_summandsOf hs (s.summands_perm.mem_iff.1 hf)

theorem isFactor_of_mem_factors (hs : s.form.IsWhole) (hf : f ∈ s.factors) : f.IsFactor :=
  isFactor_of_mem_factorsOf hs.tidy (s.factors_perm.mem_iff.1 hf)

theorem length_summands_pos (hs : s.form.IsWhole) : 0 < s.summands.length :=
  s.summands_perm.length_eq ▸ length_summandsOf_pos hs.tidy

theorem length_factors_pos (hs : s.form.IsWhole) : 0 < s.factors.length :=
  s.factors_perm.length_eq ▸ length_factorsOf_pos hs.tidy

theorem isWhole_add (hs : s.form.IsWhole) (ht : t.form.IsWhole) : (s.add t).form.IsWhole := by
  apply isWhole_form_sum
  · have hlength := length_summands_pos hs
    have hlength' := length_summands_pos ht
    rw [List.length_append]
    omega
  · exact List.forall_mem_append.2
      ⟨fun _ ↦ isSummand_of_mem_summands hs, fun _ ↦ isSummand_of_mem_summands ht⟩

theorem isWhole_sub (hs : s.form.IsWhole) (ht : t.form.IsWhole) : (s.sub t).form.IsWhole := by
  apply isWhole_form_sum
  · have hlength := length_summands_pos hs
    have hlength' := length_summands_pos ht
    rw [List.length_append, List.length_map]
    omega
  · exact List.forall_mem_append.2 ⟨fun _ ↦ isSummand_of_mem_summands hs,
      List.forall_mem_map.2 fun _ hf ↦ (isSummand_of_mem_summands ht hf).negate⟩

theorem isWhole_mul (hs : s.form.IsWhole) (ht : t.form.IsWhole) : (s.mul t).form.IsWhole := by
  apply isWhole_form_product
  · have hlength := length_factors_pos hs
    have hlength' := length_factors_pos ht
    rw [List.length_append]
    omega
  · exact List.forall_mem_append.2
      ⟨fun _ ↦ isFactor_of_mem_factors hs, fun _ ↦ isFactor_of_mem_factors ht⟩

theorem isWhole_div (hs : s.form.IsWhole) (ht : t.form.IsWhole) : (s.div t).form.IsWhole := by
  apply isWhole_form_product
  · have hlength := length_factors_pos hs
    have hlength' := length_factors_pos ht
    rw [List.length_append, List.length_map]
    omega
  · exact List.forall_mem_append.2 ⟨fun _ ↦ isFactor_of_mem_factors hs,
      List.forall_mem_map.2 fun _ hf ↦ (isFactor_of_mem_factors ht hf).invert⟩

theorem isWhole_ofExpr (e : Expr) : (ofExpr e).form.IsWhole := by
  induction e with
  | constant v => exact ⟨rfl, isTidy_constant _ v⟩
  | var name => exact ⟨rfl, isTidy_var _ name⟩
  | add a b iha ihb => exact isWhole_add iha ihb
  | sub a b iha ihb => exact isWhole_sub iha ihb
  | mul a b iha ihb => exact isWhole_mul iha ihb
  | div a b iha ihb => exact isWhole_div iha ihb
  | pow a b iha ihb =>
    exact ⟨rfl, isTidy_power ⟨iha.not_inverted, ihb.not_inverted⟩ iha.tidy ihb.tidy⟩
  | neg a iha => exact iha.negate
  | pos a iha => exact iha
  | group a iha => exact iha
  | sqrt a iha => exact ⟨rfl, isTidy_root iha.not_inverted iha.tidy⟩

end operations

end CommutativeShape

/--
The commutative form of an expression is not inverted and well shaped at every depth, and if the
constants of the expression are integers or doubles other than NaN, all operands stand in ascending
order.
-/
theorem CommutativeForm.isWellShaped_of_isPartOf_ofExpr (e : Expr) :
    (ofExpr e).mark.inverted = false ∧
      (∀ f : CommutativeForm, f.IsPartOf (ofExpr e) → f.IsWellShaped) ∧
      (e.HasLiterals → ∀ f : CommutativeForm, f.IsPartOf (ofExpr e) → f.IsAscending) := by
  have hwhole := CommutativeShape.isWhole_ofExpr e
  refine ⟨hwhole.not_inverted, fun f hf ↦ (hwhole.tidy f hf).1, fun hliterals f hf ↦ ?_⟩
  exact (hwhole.tidy f hf).2 ((CommutativeShape.isLiteral_ofExpr hliterals).of_isPartOf hf)

end SchoolAlgebra
