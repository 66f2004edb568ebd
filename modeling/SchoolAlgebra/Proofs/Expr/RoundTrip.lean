import Mathlib
import SchoolAlgebra.Proofs.Expr.Written
import SchoolAlgebra.Proofs.Grammar.Completeness

/-!
# Reading rendered expressions

The text of an expression reads back as the expression that it writes: the grammar derives from the
tokens in a place what the place demands, since whatever binds less tightly is in brackets.
-/

namespace SchoolAlgebra

open Grammar (Derives nextIs)
open Token (Kind)

namespace Tightness

/-- Whether what stands in the place may end before the kinds. -/
def EndsBefore (rest : List Kind) : Tightness → Prop
  | atom => True
  | power | sign | product => nextIs (· == .caret) rest = false ∧
      nextIs Kind.startsImplicitFactor rest = false ∧ nextIs Kind.isNumber rest = false
  | sum | loose => nextIs (· == .caret) rest = false ∧
      nextIs Kind.startsImplicitFactor rest = false ∧ nextIs Kind.isNumber rest = false ∧
      nextIs Grammar.isProductSign rest = false

/-- The parts of the grammar that may stand in the place. -/
def parts : Tightness → List Grammar.Nonterminal
  | loose | sum => [.sumChain]
  | product => [.productChain]
  | sign => [.operand, .signedOperand, .exponent]
  | power => [.power]
  | atom => [.atom]

/-- Whether the grammar derives the expression as what the place demands. -/
def Admits (place : Tightness) (e : Expr) : Prop :=
  ∀ p ∈ place.parts, ∀ rest, place.EndsBefore rest → Derives true p e (e.kinds ++ rest) rest

variable {e : Expr}

theorem admits_power_of_atom (h : Admits atom e) : Admits power e := by
  intro p hp rest hrest
  rw [List.mem_singleton.1 hp]
  exact .unit rfl (h .atom List.mem_cons_self rest trivial)
    (by rw [Grammar.Nonterminal.endsBefore, hrest.1]; rfl)

theorem admits_sign_of_power (h : Admits power e) : Admits sign e := by
  intro p hp rest ⟨hcaret, hfactor, hnumber⟩
  have hpower := h .power List.mem_cons_self rest ⟨hcaret, hfactor, hnumber⟩
  have hproduct : Derives true .signedProduct e (e.kinds ++ rest) rest :=
    .unit rfl (.unit (p := .signedChain) rfl hpower rfl)
      (by rw [Grammar.Nonterminal.endsBefore, hfactor, hnumber]; rfl)
  simp only [parts, List.mem_cons, List.not_mem_nil, or_false] at hp
  rcases hp with rfl | rfl | rfl
  · exact .unit rfl hpower rfl
  · exact .unit rfl hproduct rfl
  · exact .unit rfl hpower rfl

theorem admits_product_of_sign (h : Admits sign e) : Admits product e := by
  intro p hp rest hrest
  rw [List.mem_singleton.1 hp]
  exact .unit rfl (h .operand List.mem_cons_self rest hrest) rfl

/-- A product that ends before the rest is a summand. -/
theorem derives_summand (h : Admits product e) {rest : List Kind}
    (hrest : sum.EndsBefore rest) : Derives true .summand e (e.kinds ++ rest) rest := by
  obtain ⟨hcaret, hfactor, hnumber, hsign⟩ := hrest
  have hchain := h .productChain List.mem_cons_self rest ⟨hcaret, hfactor, hnumber⟩
  have hproduct : Derives true .product e (e.kinds ++ rest) rest :=
    .unit rfl hchain (by rw [Grammar.Nonterminal.endsBefore, hsign]; rfl)
  exact .unit rfl (.unit (p := .summandChain) rfl hproduct rfl)
    (by rw [Grammar.Nonterminal.endsBefore, hfactor, hnumber]; rfl)

theorem admits_sum_of_product (h : Admits product e) : Admits sum e := by
  intro p hp rest hrest
  rw [List.mem_singleton.1 hp]
  exact .unit rfl (derives_summand h hrest) rfl

/-- The next looser place. -/
def looser : Tightness → Tightness
  | loose | sum => loose
  | product => sum
  | sign => product
  | power => sign
  | atom => power

theorem Admits.looser {own : Tightness} (h : own.Admits e) : own.looser.Admits e := by
  cases own with
  | loose | sum => exact h
  | product => exact admits_sum_of_product h
  | sign => exact admits_product_of_sign h
  | power => exact admits_sign_of_power h
  | atom => exact admits_power_of_atom h

theorem rank_looser (own : Tightness) : own.looser.rank = own.rank - 1 := by
  cases own <;> rfl

theorem eq_of_rank_eq {place own : Tightness} (h : place.rank = own.rank) : place = own := by
  cases place <;> cases own <;> first | rfl | cases h

/-- A place admits what a tighter one admits. -/
theorem Admits.of_le {place own : Tightness} (h : own.Admits e) (hle : place.rank ≤ own.rank) :
    place.Admits e := by
  induction hn : own.rank - place.rank generalizing own with
  | zero =>
    have heq : place = own := eq_of_rank_eq (by omega)
    exact heq ▸ h
  | succ n ih =>
    have hrank := rank_looser own
    exact ih h.looser (by omega) (by omega)

/-- An expression between parentheses. -/
theorem derives_parenthesized (h : Admits loose e) (rest : List Kind) :
    Derives true .sum e (e.kinds ++ [.rightParen] ++ rest) (.rightParen :: rest) := by
  rw [List.append_assoc]
  exact .unit rfl (h .sumChain List.mem_cons_self _ ⟨rfl, rfl, rfl, rfl⟩) rfl

theorem admits_group (h : Admits loose e) : Admits atom (.group e) := by
  intro p hp rest _
  rw [List.mem_singleton.1 hp]
  exact .group (derives_parenthesized h rest)

/-- Brackets let every place admit what its own place admits. -/
theorem Admits.bracketed {place own : Tightness} (h : own.Admits e) :
    place.Admits (place.bracketed own e) := by
  unfold Tightness.bracketed
  split
  · exact (admits_group (h.of_le (Nat.zero_le _))).of_le (by cases place <;> decide)
  · rename_i hle
    exact h.of_le (not_lt.1 hle)

end Tightness

namespace Expr

open Tightness

/-! ## Derivations of what is written -/

theorem admits_ofNat (n : Nat) : atom.Admits (ofNat n) := by
  intro p hp rest _
  rw [List.mem_singleton.1 hp]
  exact .integer _ _

theorem admits_neg {a : Expr} (h : sign.Admits a) : sign.Admits (neg a) := by
  intro p hp rest hrest
  simp only [parts, List.mem_cons, List.not_mem_nil, or_false] at hp
  have hoperand := h .signedOperand (by decide) rest hrest
  rcases hp with rfl | rfl | rfl
  · exact .neg rfl hoperand
  · exact .neg rfl hoperand
  · exact .neg rfl (h .exponent (by decide) rest hrest)

theorem admits_pos {a : Expr} (h : sign.Admits a) : sign.Admits (pos a) := by
  intro p hp rest hrest
  simp only [parts, List.mem_cons, List.not_mem_nil, or_false] at hp
  have hoperand := h .signedOperand (by decide) rest hrest
  rcases hp with rfl | rfl | rfl
  · exact .pos rfl hoperand
  · exact .pos rfl hoperand
  · exact .pos rfl (h .exponent (by decide) rest hrest)

theorem admits_pow {a b : Expr} (ha : atom.Admits a) (hb : sign.Admits b) :
    power.Admits (pow a b) := by
  intro p hp rest hrest
  rw [List.mem_singleton.1 hp, kinds, List.append_assoc]
  exact .pow (ha .atom List.mem_cons_self _ trivial) (hb .exponent (by decide) rest hrest)

theorem admits_mul {a b : Expr} (ha : product.Admits a) (hb : sign.Admits b) :
    product.Admits (mul a b) := by
  intro p hp rest hrest
  rw [List.mem_singleton.1 hp, kinds, List.append_assoc]
  exact .mul rfl (ha .productChain List.mem_cons_self _ ⟨rfl, rfl, rfl⟩)
    (hb .operand List.mem_cons_self rest hrest)

theorem admits_div {a b : Expr} (ha : product.Admits a) (hb : sign.Admits b) :
    product.Admits (div a b) := by
  intro p hp rest hrest
  rw [List.mem_singleton.1 hp, kinds, List.append_assoc]
  exact .div rfl (ha .productChain List.mem_cons_self _ ⟨rfl, rfl, rfl⟩)
    (hb .operand List.mem_cons_self rest hrest)

theorem admits_add {a b : Expr} (ha : sum.Admits a) (hb : product.Admits b) :
    sum.Admits (add a b) := by
  intro p hp rest hrest
  rw [List.mem_singleton.1 hp, kinds, List.append_assoc]
  exact .add (ha .sumChain List.mem_cons_self _ ⟨rfl, rfl, rfl, rfl⟩) (derives_summand hb hrest)

theorem admits_sub {a b : Expr} (ha : sum.Admits a) (hb : product.Admits b) :
    sum.Admits (sub a b) := by
  intro p hp rest hrest
  rw [List.mem_singleton.1 hp, kinds, List.append_assoc]
  exact .sub (ha .sumChain List.mem_cons_self _ ⟨rfl, rfl, rfl, rfl⟩) (derives_summand hb hrest)

theorem admits_sqrt {a : Expr} (ha : loose.Admits a) : atom.Admits (sqrt a) := by
  intro p hp rest _
  rw [List.mem_singleton.1 hp]
  exact .call (derives_parenthesized ha rest)

theorem admits_var (name : String) : atom.Admits (var name) := by
  intro p hp rest _
  rw [List.mem_singleton.1 hp]
  exact .name _ _

theorem admits_ofInt {z : Int} {negative : Bool} (hz : negative = true ↔ z < 0) :
    (if negative then sign else atom).Admits (ofInt z) := by
  rw [ofInt]
  cases negative with
  | true =>
    rw [if_pos rfl, if_pos (hz.1 rfl)]
    exact admits_neg ((admits_ofNat _).of_le (by decide))
  | false =>
    rw [if_neg Bool.false_ne_true, if_neg (hz.not.1 Bool.false_ne_true)]
    exact admits_ofNat _

/-- The text of a constant binds as tightly as the expression that it writes. -/
theorem admits_spelled {v : Number} (h : v.IsSpellable) : (ofNumber v).Admits v.spelled := by
  cases v with
  | integer v =>
    exact admits_ofInt (by rw [Number.isNegative, decide_eq_true_iff, Int64.lt_iff_toInt_lt]; rfl)
  | float x => cases h
  | fraction f =>
    rw [ofNumber, Number.spelled]
    cases f.hasProperPart with
    | false => exact admits_ofInt f.isNegative_iff
    | true =>
      have hnumerator := admits_ofInt f.isNegative_iff
      have hdividend : product.Admits (ofInt f.toRat.num) :=
        hnumerator.of_le (by cases f.isNegative <;> decide)
      exact admits_div hdividend ((admits_ofNat _).of_le (by decide))

/-- What is written in a place is what the place demands. -/
theorem admits_written (place : Tightness) {e : Expr}
    (h : ∀ v, constant v ∈ e.subterms → (ofNumber v).Admits v.spelled) :
    place.Admits (e.written place) := by
  induction e generalizing place with
  | constant v => exact (h v List.mem_cons_self).bracketed
  | var name => exact (admits_var name).of_le (by cases place <;> decide)
  | add a b iha ihb =>
    exact (admits_add (iha _ fun v hv ↦ h v (by simp [subterms, hv]))
      (ihb _ fun v hv ↦ h v (by simp [subterms, hv]))).bracketed
  | sub a b iha ihb =>
    exact (admits_sub (iha _ fun v hv ↦ h v (by simp [subterms, hv]))
      (ihb _ fun v hv ↦ h v (by simp [subterms, hv]))).bracketed
  | mul a b iha ihb =>
    exact (admits_mul (iha _ fun v hv ↦ h v (by simp [subterms, hv]))
      (ihb _ fun v hv ↦ h v (by simp [subterms, hv]))).bracketed
  | div a b iha ihb =>
    exact (admits_div (iha _ fun v hv ↦ h v (by simp [subterms, hv]))
      (ihb _ fun v hv ↦ h v (by simp [subterms, hv]))).bracketed
  | pow a b iha ihb =>
    exact (admits_pow (iha _ fun v hv ↦ h v (by simp [subterms, hv]))
      (ihb _ fun v hv ↦ h v (by simp [subterms, hv]))).bracketed
  | neg a iha => exact (admits_neg (iha _ fun v hv ↦ h v (by simp [subterms, hv]))).bracketed
  | pos a iha => exact (admits_pos (iha _ fun v hv ↦ h v (by simp [subterms, hv]))).bracketed
  | group a iha =>
    exact (admits_group (iha _ fun v hv ↦ h v (by simp [subterms, hv]))).of_le
      (by cases place <;> decide)
  | sqrt a iha =>
    exact (admits_sqrt (iha _ fun v hv ↦ h v (by simp [subterms, hv]))).of_le
      (by cases place <;> decide)

/-- The tokens of what an expression writes derive it. -/
theorem derives_written {e : Expr}
    (h : ∀ v, constant v ∈ e.subterms → (ofNumber v).Admits v.spelled) :
    Derives true .sum (e.written .loose) (e.written .loose).kinds [] := by
  have hchain := admits_written .loose h .sumChain List.mem_cons_self [] ⟨rfl, rfl, rfl, rfl⟩
  rw [List.append_nil] at hchain
  exact .unit rfl hchain rfl

/-- The text of an expression is read as what it writes. -/
theorem ofText_render {names : List String} {limit : Nat} {e : Expr}
    (hnames : ∀ name ∈ names, name ≠ "" ∧ ∀ c ∈ name.toList, Text.isLetter c = true)
    (hroot : Token.rootName ∉ names) (h : e.IsWritable names)
    (htokens : (Token.scan names e.toText).length ≤ maxTokens)
    (hlimit : (Token.scan names e.toText).length ≤ limit) :
    ofText (.algebraic names) .lenient limit e.toText = .ok (e.written .loose) := by
  have hkinds : (Token.scan names e.toText).map (·.kind) = (e.written .loose).kinds :=
    (writes_render hnames hroot .loose h).scan
  have hsum := derives_written fun v hv ↦ admits_spelled (h.2 v hv)
  rw [← hkinds] at hsum
  have hnesting := hsum.nesting_lt
  rw [List.length_map, List.length_nil] at hnesting
  exact ofTokens_eq_ok_of_derives hsum htokens (by omega)

/--
Rendering an expression and reading its text keeps its shape. The names of variables are runs of
letters other than the name of the square root, and the constants are exact and small enough for
their numerals. Then the text, unless it is too long, is read within any limit that is at least the
number of its tokens; up to groups the result is the expression with each constant replaced by what
its text shows: a negated numeral for a negative number, a quotient for a fraction.
-/
theorem exists_ofText_toText {names : List String} {limit : Nat} {e : Expr}
    (hnames : ∀ name ∈ names, name ≠ "" ∧ ∀ c ∈ name.toList, Text.isLetter c = true)
    (hroot : Token.rootName ∉ names) (h : e.IsWritable names)
    (htokens : (Token.scan names e.toText).length ≤ maxTokens)
    (hlimit : (Token.scan names e.toText).length ≤ limit) :
    ∃ e', ofText (.algebraic names) .lenient limit e.toText = .ok e' ∧
      e'.withoutGroups = e.spelled.withoutGroups :=
  ⟨e.written .loose, ofText_render hnames hroot h htokens hlimit, withoutGroups_written .loose e⟩

/-- With the constants `-1 1/2` and `-2`, the text `x - -3/2 * (-y)^-2` keeps the shape. -/
theorem exists_ofText_toText_threeHalves :
    (sub (var "x") (mul (constant (.fraction ⟨true, 1, 1, 2, by decide⟩))
      (pow (neg (var "y")) (constant (.integer (-2)))))).toText = "x - -3/2 * (-y)^-2" ∧
    ∃ e', ofText (.algebraic ["x", "y"]) .lenient 14 "x - -3/2 * (-y)^-2" = .ok e' ∧
      e'.withoutGroups =
        sub (var "x") (mul (div (neg (constant (.integer 3))) (constant (.integer 2)))
          (pow (neg (var "y")) (neg (constant (.integer 2))))) := by
  have htext : (sub (var "x") (mul (constant (.fraction ⟨true, 1, 1, 2, by decide⟩))
      (pow (neg (var "y")) (constant (.integer (-2)))))).toText = "x - -3/2 * (-y)^-2" := by
    decide +kernel
  have hnames : ∀ name ∈ ["x", "y"], name ≠ "" ∧ ∀ c ∈ name.toList, Text.isLetter c = true := by
    simp [Text.isLetter]
  have hwritable : (sub (var "x") (mul (constant (.fraction ⟨true, 1, 1, 2, by decide⟩))
      (pow (neg (var "y")) (constant (.integer (-2)))))).IsWritable ["x", "y"] := by
    constructor
    · intro name hname
      simpa [subterms] using hname
    · intro v hv
      have hcases : v = .fraction ⟨true, 1, 1, 2, by decide⟩ ∨ v = .integer (-2) := by
        simpa [subterms] using hv
      rcases hcases with rfl | rfl <;> decide +kernel
  have hlength : (Token.scan ["x", "y"] "x - -3/2 * (-y)^-2").length = 14 := by decide +kernel
  obtain ⟨e', hread, hshape⟩ := exists_ofText_toText hnames (by decide) hwritable
    (by rw [htext, hlength]; decide) (by rw [htext, hlength])
  rw [htext] at hread
  exact ⟨htext, e', hread, hshape.trans (by decide +kernel)⟩

end Expr

end SchoolAlgebra
