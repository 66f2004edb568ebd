import Mathlib
import SchoolAlgebra.Expr.Printer
import SchoolAlgebra.Proofs.Number.Fraction.MixedNumber
import SchoolAlgebra.Proofs.Token.Writing

/-!
# What the texts of expressions write

The text of an expression writes the expression up to parentheses and to constants that are no
natural numbers: their texts show signs and division lines, and a part in brackets stands in a
group. The expression that is written determines the tokens of the text.
-/

namespace SchoolAlgebra

open Token (Kind Writes IsBoundary)

namespace Expr

/-- The numeral of a natural number. -/
def ofNat (n : Nat) : Expr := constant (.integer (Int64.ofNat n))

/-- The numeral of an integer, with its sign in front. -/
def ofInt (z : Int) : Expr := if z < 0 then neg (ofNat z.natAbs) else ofNat z.natAbs

end Expr

namespace Number

/-- Whether the natural number has a numeral. -/
def HasNumeral (n : Nat) : Prop := (n : Int) ≤ Int64.maxValue.toInt

instance (n : Nat) : Decidable (HasNumeral n) :=
  inferInstanceAs (Decidable ((n : Int) ≤ Int64.maxValue.toInt))

/--
Whether the text of the number shows its exact value in numerals: the number is exact, and its
magnitude or, with a proper part, the reduced numerator and denominator have numerals.
-/
def IsSpellable : Number → Prop
  | integer v => HasNumeral v.toInt.natAbs
  | fraction f =>
    if f.hasProperPart then HasNumeral f.toRat.num.natAbs ∧ HasNumeral f.toRat.den
    else HasNumeral f.whole.toNat
  | float _ => False

instance : DecidablePred IsSpellable
  | integer v => inferInstanceAs (Decidable (HasNumeral v.toInt.natAbs))
  | fraction f => inferInstanceAs (Decidable
      (if f.hasProperPart then HasNumeral f.toRat.num.natAbs ∧ HasNumeral f.toRat.den
        else HasNumeral f.whole.toNat))
  | float _ => .isFalse id

/-- The expression that the text of a spellable number writes. -/
def spelled : Number → Expr
  | integer v => .ofInt v.toInt
  | fraction f =>
    if f.hasProperPart then .div (.ofInt f.toRat.num) (.ofNat f.toRat.den) else .ofInt f.toRat.num
  | float x => .constant (.float x)

end Number

/-- The expression as it is written in a place. -/
def Tightness.bracketed (place own : Tightness) (e : Expr) : Expr :=
  if own.rank < place.rank then .group e else e

namespace Expr

/-- The expression with each constant replaced by what its text writes. -/
def spelled : Expr → Expr
  | constant v => v.spelled
  | var name => var name
  | add a b => add a.spelled b.spelled
  | sub a b => sub a.spelled b.spelled
  | mul a b => mul a.spelled b.spelled
  | div a b => div a.spelled b.spelled
  | pow a b => pow a.spelled b.spelled
  | neg a => neg a.spelled
  | pos a => pos a.spelled
  | group a => group a.spelled
  | sqrt a => sqrt a.spelled

/-- The expression without any groups. -/
def withoutGroups : Expr → Expr
  | constant v => constant v
  | var name => var name
  | add a b => add a.withoutGroups b.withoutGroups
  | sub a b => sub a.withoutGroups b.withoutGroups
  | mul a b => mul a.withoutGroups b.withoutGroups
  | div a b => div a.withoutGroups b.withoutGroups
  | pow a b => pow a.withoutGroups b.withoutGroups
  | neg a => neg a.withoutGroups
  | pos a => pos a.withoutGroups
  | group a => a.withoutGroups
  | sqrt a => sqrt a.withoutGroups

open Tightness in
/-- The expression that the text of an expression in a place writes. -/
def written (place : Tightness) : Expr → Expr
  | constant v => bracketed place (ofNumber v) v.spelled
  | var name => var name
  | add a b => bracketed place sum (add (a.written sum) (b.written product))
  | sub a b => bracketed place sum (sub (a.written sum) (b.written product))
  | mul a b => bracketed place product (mul (a.written product) (b.written sign))
  | div a b => bracketed place product (div (a.written product) (b.written sign))
  | pow a b => bracketed place power (pow (a.written atom) (b.written sign))
  | neg a => bracketed place sign (neg (a.written sign))
  | pos a => bracketed place sign (pos (a.written sign))
  | group a => group (a.written loose)
  | sqrt a => sqrt (a.written loose)

@[simp] theorem withoutGroups_bracketed (place own : Tightness) (e : Expr) :
    (place.bracketed own e).withoutGroups = e.withoutGroups := by
  unfold Tightness.bracketed
  split <;> rfl

/-- Brackets add nothing but groups. -/
theorem withoutGroups_written (place : Tightness) (e : Expr) :
    (e.written place).withoutGroups = e.spelled.withoutGroups := by
  induction e generalizing place with
  | constant v => exact withoutGroups_bracketed _ _ _
  | var name => rfl
  | add a b iha ihb | sub a b iha ihb | mul a b iha ihb | div a b iha ihb | pow a b iha ihb =>
    rw [written, withoutGroups_bracketed, withoutGroups, iha, ihb, spelled, withoutGroups]
  | neg a iha | pos a iha =>
    rw [written, withoutGroups_bracketed, withoutGroups, iha, spelled, withoutGroups]
  | group a iha => exact iha _
  | sqrt a iha => rw [written, withoutGroups, iha, spelled, withoutGroups]

/-- The kinds of the tokens of an expression that is written with all of its operators. -/
def kinds : Expr → List Kind
  | constant (.integer v) => [.integer v]
  | constant (.float x) => [.real x]
  | constant (.fraction _) => []
  | var name => [.name name]
  | add a b => a.kinds ++ .plus :: b.kinds
  | sub a b => a.kinds ++ .minus :: b.kinds
  | mul a b => a.kinds ++ .times :: b.kinds
  | div a b => a.kinds ++ .dividedBy :: b.kinds
  | pow a b => a.kinds ++ .caret :: b.kinds
  | neg a => .minus :: a.kinds
  | pos a => .plus :: a.kinds
  | group a => .leftParen :: (a.kinds ++ [.rightParen])
  | sqrt a => .function Token.rootName :: .leftParen :: (a.kinds ++ [.rightParen])

end Expr

/-- The kinds of the tokens of a part as it is written in a place. -/
def Tightness.bracketedKinds (place own : Tightness) (ks : List Kind) : List Kind :=
  if own.rank < place.rank then .leftParen :: (ks ++ [.rightParen]) else ks

@[simp] theorem Expr.kinds_bracketed (place own : Tightness) (e : Expr) :
    (place.bracketed own e).kinds = place.bracketedKinds own e.kinds := by
  unfold Tightness.bracketed Tightness.bracketedKinds
  split <;> rfl

namespace Expr

open Tightness in
/-- The kinds of the tokens of the text of an expression in a place, given those of its numbers. -/
def renderedKinds (ofConstant : Number → List Kind) (place : Tightness) : Expr → List Kind
  | constant v => bracketedKinds place (ofNumber v) (ofConstant v)
  | var name => [.name name]
  | add a b => bracketedKinds place sum
      (a.renderedKinds ofConstant sum ++ .plus :: b.renderedKinds ofConstant product)
  | sub a b => bracketedKinds place sum
      (a.renderedKinds ofConstant sum ++ .minus :: b.renderedKinds ofConstant product)
  | mul a b => bracketedKinds place product
      (a.renderedKinds ofConstant product ++ .times :: b.renderedKinds ofConstant sign)
  | div a b => bracketedKinds place product
      (a.renderedKinds ofConstant product ++ .dividedBy :: b.renderedKinds ofConstant sign)
  | pow a b => bracketedKinds place power
      (a.renderedKinds ofConstant atom ++ .caret :: b.renderedKinds ofConstant sign)
  | neg a => bracketedKinds place sign (.minus :: a.renderedKinds ofConstant sign)
  | pos a => bracketedKinds place sign (.plus :: a.renderedKinds ofConstant sign)
  | group a => .leftParen :: (a.renderedKinds ofConstant loose ++ [.rightParen])
  | sqrt a => .function Token.rootName :: .leftParen ::
      (a.renderedKinds ofConstant loose ++ [.rightParen])

theorem kinds_written (place : Tightness) (e : Expr) :
    (e.written place).kinds = e.renderedKinds (fun v ↦ v.spelled.kinds) place := by
  induction e generalizing place with
  | constant v => exact kinds_bracketed _ _ _
  | var name => rfl
  | add a b iha ihb | sub a b iha ihb | mul a b iha ihb | div a b iha ihb | pow a b iha ihb =>
    rw [written, kinds_bracketed, kinds, iha, ihb, renderedKinds]
  | neg a iha | pos a iha => rw [written, kinds_bracketed, kinds, iha, renderedKinds]
  | group a iha | sqrt a iha => rw [written, kinds, iha, renderedKinds]

end Expr

section text

variable {names : List String}

theorem Token.isBoundary_cons {c : Char} {cs : List Char} (hletter : Text.isLetter c = false)
    (hdigit : Decimal.isDigit c = false) (hpoint : c ≠ '.') : IsBoundary (c :: cs) := by
  intro d hd
  rw [List.head?_cons, Option.mem_some] at hd
  exact hd ▸ ⟨hletter, hdigit, hpoint⟩

/-- An operator between blanks. -/
theorem Token.Writes.spaced {cs ds : List Char} {ks ls : List Kind} {c : Char} {k : Kind}
    (h : Writes names cs ks) (h' : Writes names ds ls) (hk : Kind.ofSymbol? c = some k)
    (hletter : Text.isLetter c = false) (hdigit : Decimal.isDigit c = false)
    (hblank : Text.isBlank c = false) :
    Writes names (cs ++ (' ' :: c :: ' ' :: ds)) (ks ++ k :: ls) :=
  h.append (.blank (.symbol hk hletter hdigit hblank (.blank h')))
    (isBoundary_cons rfl rfl (by decide))

theorem Token.Writes.closed {cs : List Char} {ks : List Kind} (h : Writes names cs ks) :
    Writes names (cs ++ [')']) (ks ++ [.rightParen]) :=
  h.append (.symbol rfl rfl rfl rfl writes_nil) (isBoundary_cons rfl rfl (by decide))

theorem Token.Writes.parenthesized {cs : List Char} {ks : List Kind} (h : Writes names cs ks) :
    Writes names ('(' :: (cs ++ [')'])) (.leftParen :: (ks ++ [.rightParen])) :=
  .symbol rfl rfl rfl rfl h.closed

theorem writes_bracket {place own : Tightness} {body : String} {ks : List Kind}
    (h : Writes names body.toList ks) :
    Writes names (place.bracket own body).toList (place.bracketedKinds own ks) := by
  unfold Tightness.bracket Tightness.bracketedKinds
  split
  · simpa using h.parenthesized
  · exact h

end text

/-! ## Texts of numbers -/

namespace Fraction

/-- Without a proper part the value is the whole part, up to its sign. -/
theorem exists_toRat_of_not_hasProperPart {f : Fraction} (h : f.hasProperPart = false) :
    ∃ z : ℤ, z.natAbs = f.whole.toNat ∧ f.toRat = z := by
  have hnumerator : f.numerator = 0 := by simpa [hasProperPart] using h
  have hden : (f.denominator.toNat : ℚ) ≠ 0 := by exact_mod_cast f.denominator_toNat_ne_zero
  have himproper : (f.improperNumerator : ℚ) / (f.denominator.toNat : ℚ) = f.whole.toNat := by
    rw [improperNumerator, hnumerator, UInt64.toNat_zero, add_zero, Nat.cast_mul,
      mul_div_cancel_right₀ _ hden]
  rw [toRat_eq_signed, himproper]
  cases f.negative with
  | true => exact ⟨-f.whole.toNat, by simp, by simp⟩
  | false => exact ⟨f.whole.toNat, by simp, by simp⟩

theorem num_toRat_of_not_hasProperPart {f : Fraction} (h : f.hasProperPart = false) :
    f.toRat.num.natAbs = f.whole.toNat := by
  obtain ⟨z, hz, hvalue⟩ := exists_toRat_of_not_hasProperPart h
  rw [hvalue, Rat.num_intCast, hz]

/-- The reduced improper fraction shows the reduced numerator and denominator of the value. -/
theorem exists_simplest? {f : Fraction} (hnum : f.toRat.num.natAbs < UInt64.size)
    (hden : f.toRat.den < UInt64.size) :
    ∃ g, f.simplest? = some g ∧ g.numerator.toNat = f.toRat.num.natAbs ∧
      g.denominator.toNat = f.toRat.den ∧ (g.isNegative = true ↔ f.toRat.num < 0) := by
  have hproper : f.proper? ≠ none := fun h ↦
    Number.ofRat?_eq_none_iff.1 h ⟨(Nat.div_le_self _ _).trans_lt hnum, hden⟩
  have hsimplest : f.simplest? ≠ none := by
    rw [ne_eq, simplest?_eq_none_iff, not_or, not_le]
    exact ⟨hproper, hnum⟩
  obtain ⟨g, hg⟩ := Option.ne_none_iff_exists'.1 hsimplest
  obtain ⟨p, hp, himproper⟩ := Option.bind_eq_some_iff.1 hg
  obtain ⟨_, hnumerator, _, hdenominator⟩ := parts_of_ofRat? hp
  obtain ⟨hparts, hfolded⟩ := eq_of_improper? himproper
  refine ⟨g, hg, hfolded.trans hnumerator, ?_, ?_⟩
  · rw [hparts]
    exact hdenominator
  · rw [isNegative_iff, toRat_of_simplest? hg]

end Fraction

namespace Number

variable {names : List String}

theorem toInt_ofNat {n : Nat} (h : HasNumeral n) : (Int64.ofNat n).toInt = n := by
  have hmax : Int64.maxValue.toInt = 9223372036854775807 := rfl
  unfold HasNumeral at h
  exact Int64.toInt_ofNat_of_lt (by omega)

theorem writes_nat {n : Nat} (h : HasNumeral n) :
    Writes names (toString n).toList (Expr.ofNat n).kinds := by
  rw [Decimal.toList_toString]
  exact Token.writes_digits (toInt_ofNat h)

/-- A magnitude with a minus sign in front where the integer is negative. -/
theorem writes_signed {z : Int} (h : HasNumeral z.natAbs) {negative : Bool}
    (hz : negative = true ↔ z < 0) {magnitude : String} (htext : magnitude = toString z.natAbs) :
    Writes names (if negative then "-" ++ magnitude else magnitude).toList
      (Expr.ofInt z).kinds := by
  have hnat : Writes names (toString z.natAbs).toList (Expr.ofNat z.natAbs).kinds :=
    writes_nat h
  rw [htext, Expr.ofInt]
  cases negative with
  | true =>
    rw [if_pos rfl, if_pos (hz.1 rfl), String.toList_append]
    exact .symbol rfl rfl rfl rfl hnat
  | false =>
    rw [if_neg Bool.false_ne_true, if_neg (hz.not.1 Bool.false_ne_true)]
    exact hnat

theorem toString_int (z : Int) :
    toString z = if decide (z < 0) then "-" ++ toString z.natAbs else toString z.natAbs := by
  rw [Int.toString_eq_repr, Int.repr_eq_if]
  rcases lt_or_ge z 0 with hneg | hnonneg
  · rw [if_neg (not_le.2 hneg), decide_eq_true hneg, if_pos rfl]
    congr 2
    omega
  · rw [if_pos hnonneg, decide_eq_false (not_lt.2 hnonneg), if_neg Bool.false_ne_true]
    congr 1
    omega

theorem writes_toInlineText_of_hasProperPart {f : Fraction} (hf : f.hasProperPart = true)
    (hnum : HasNumeral f.toRat.num.natAbs) (hden : HasNumeral f.toRat.den) :
    Writes names (fraction f).toInlineText.toList (fraction f).spelled.kinds := by
  have hmax : Int64.maxValue.toInt = 9223372036854775807 := rfl
  have hsize : UInt64.size = 18446744073709551616 := rfl
  have hnum' := hnum
  have hden' := hden
  unfold HasNumeral at hnum' hden'
  obtain ⟨g, hg, hnumerator, hdenominator, hnegative⟩ :=
    Fraction.exists_simplest? (f := f) (by omega) (by omega)
  have htext : (fraction f).toInlineText =
      (if g.isNegative then "-" ++ toString f.toRat.num.natAbs
        else toString f.toRat.num.natAbs) ++ ("/" ++ toString f.toRat.den) := by
    rw [toInlineText, if_pos hf, hg]
    simp only [hnumerator, hdenominator]
    have hratio : s!"{f.toRat.num.natAbs}/{f.toRat.den}" =
        toString f.toRat.num.natAbs ++ ("/" ++ toString f.toRat.den) := String.append_assoc
    rw [hratio]
    cases g.isNegative with
    | true => exact String.append_assoc.symm
    | false => rfl
  rw [htext, String.toList_append, String.toList_append, spelled, if_pos hf]
  refine (writes_signed hnum hnegative rfl).append ?_ (Token.isBoundary_cons rfl rfl (by decide))
  exact .symbol rfl rfl rfl rfl (writes_nat hden)

/-- The text of a spellable number writes the expression that it is spelled as. -/
theorem writes_toInlineText {v : Number} (h : v.IsSpellable) :
    Writes names v.toInlineText.toList v.spelled.kinds := by
  cases v with
  | integer v =>
    change Writes names (toString v.toInt).toList (Expr.ofInt v.toInt).kinds
    rw [toString_int]
    exact writes_signed h decide_eq_true_iff rfl
  | float x => cases h
  | fraction f =>
    rw [IsSpellable] at h
    cases hf : f.hasProperPart with
    | true =>
      rw [hf, if_pos rfl] at h
      exact writes_toInlineText_of_hasProperPart hf h.1 h.2
    | false =>
      rw [hf, if_neg Bool.false_ne_true] at h
      have hnum := Fraction.num_toRat_of_not_hasProperPart hf
      rw [toInlineText, spelled, hf, if_neg Bool.false_ne_true, if_neg Bool.false_ne_true]
      have hnumerator : f.numerator.toNat = 0 := by
        simpa [Fraction.hasProperPart, ← UInt64.toNat_inj] using hf
      rw [Fraction.toText]
      simp only [hnumerator, if_true]
      exact writes_signed (hnum ▸ h) f.isNegative_iff (by rw [hnum])

end Number

/-! ## Texts of expressions -/

namespace Expr

variable {names : List String}

/-- Whether the variables of the expression are among the names, and its constants are spellable. -/
def IsWritable (names : List String) (e : Expr) : Prop :=
  (∀ name, var name ∈ e.subterms → name ∈ names) ∧
    ∀ v, constant v ∈ e.subterms → v.IsSpellable

/-- Whether the variables are among the names, and the texts of the constants write the kinds. -/
def HasLeafKinds (names : List String) (ofConstant : Number → List Kind) (e : Expr) : Prop :=
  (∀ name, var name ∈ e.subterms → name ∈ names) ∧
    ∀ v, constant v ∈ e.subterms → Writes names v.toInlineText.toList (ofConstant v)

theorem HasLeafKinds.mono {ofConstant : Number → List Kind} {a e : Expr}
    (h : e.HasLeafKinds names ofConstant) (hparts : ∀ part ∈ a.subterms, part ∈ e.subterms) :
    a.HasLeafKinds names ofConstant :=
  ⟨fun _ hname ↦ h.1 _ (hparts _ hname), fun _ hv ↦ h.2 _ (hparts _ hv)⟩

/-- The text of an expression in a place has tokens, if the texts of its constants have. -/
theorem writes_renderedKinds
    (hnames : ∀ name ∈ names, name ≠ "" ∧ ∀ c ∈ name.toList, Text.isLetter c = true)
    (hroot : Token.rootName ∉ names) {ofConstant : Number → List Kind} (place : Tightness)
    {e : Expr} (h : e.HasLeafKinds names ofConstant) :
    Writes names (e.render place).toList (e.renderedKinds ofConstant place) := by
  induction e generalizing place with
  | constant v => exact writes_bracket (h.2 v List.mem_cons_self)
  | var name =>
    have hmem := h.1 name List.mem_cons_self
    exact Token.writes_name hmem (hnames name hmem).1 (hnames name hmem).2
  | add a b iha ihb =>
    have ha := iha .sum (h.mono (by simp +contextual [subterms]))
    have hb := ihb .product (h.mono (by simp +contextual [subterms]))
    apply writes_bracket
    simp only [String.toList_append, List.append_assoc]
    exact ha.spaced hb rfl rfl rfl rfl
  | sub a b iha ihb =>
    have ha := iha .sum (h.mono (by simp +contextual [subterms]))
    have hb := ihb .product (h.mono (by simp +contextual [subterms]))
    apply writes_bracket
    simp only [String.toList_append, List.append_assoc]
    exact ha.spaced hb rfl rfl rfl rfl
  | mul a b iha ihb =>
    have ha := iha .product (h.mono (by simp +contextual [subterms]))
    have hb := ihb .sign (h.mono (by simp +contextual [subterms]))
    apply writes_bracket
    simp only [String.toList_append, List.append_assoc]
    exact ha.spaced hb rfl rfl rfl rfl
  | div a b iha ihb =>
    have ha := iha .product (h.mono (by simp +contextual [subterms]))
    have hb := ihb .sign (h.mono (by simp +contextual [subterms]))
    apply writes_bracket
    simp only [String.toList_append, List.append_assoc]
    exact ha.spaced hb rfl rfl rfl rfl
  | pow a b iha ihb =>
    have ha := iha .atom (h.mono (by simp +contextual [subterms]))
    have hb := ihb .sign (h.mono (by simp +contextual [subterms]))
    apply writes_bracket
    simp only [String.toList_append, List.append_assoc]
    exact ha.append (.symbol rfl rfl rfl rfl hb) (Token.isBoundary_cons rfl rfl (by decide))
  | neg a iha =>
    have ha := iha .sign (h.mono (by simp +contextual [subterms]))
    apply writes_bracket
    rw [String.toList_append]
    exact .symbol rfl rfl rfl rfl ha
  | pos a iha =>
    have ha := iha .sign (h.mono (by simp +contextual [subterms]))
    apply writes_bracket
    rw [String.toList_append]
    exact .symbol rfl rfl rfl rfl ha
  | group a iha =>
    have ha := iha .loose (h.mono (by simp +contextual [subterms]))
    simp only [render, String.toList_append, List.append_assoc]
    exact ha.parenthesized
  | sqrt a iha =>
    have ha := iha .loose (h.mono (by simp +contextual [subterms]))
    simp only [render, String.toList_append, List.append_assoc]
    exact (Token.writes_rootName hroot).append ha.parenthesized
      (Token.isBoundary_cons rfl rfl (by decide))

/-- The text of an expression in a place has the tokens of what it writes. -/
theorem writes_render
    (hnames : ∀ name ∈ names, name ≠ "" ∧ ∀ c ∈ name.toList, Text.isLetter c = true)
    (hroot : Token.rootName ∉ names) (place : Tightness) {e : Expr} (h : e.IsWritable names) :
    Writes names (e.render place).toList (e.written place).kinds := by
  rw [kinds_written]
  exact writes_renderedKinds hnames hroot place
    ⟨h.1, fun v hv ↦ Number.writes_toInlineText (h.2 v hv)⟩

end Expr

end SchoolAlgebra
