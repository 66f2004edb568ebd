import Mathlib
import SchoolAlgebra.Proofs.Expr.Written
import SchoolAlgebra.Proofs.Polynomial.Rebuilding
import SchoolAlgebra.Proofs.Token.Letters

/-!
# What the texts of polynomials write

The text of a term shows its factors one after the other, without an operator between them: the
coefficient, unless it is one, and the powers of the variables. Signs and operators stand between
terms. Variables of one letter are told apart there, since their names ascend.
-/

namespace SchoolAlgebra

open Token (Kind Writes WritesBefore IsBoundary AreLetters)

/-- The product of factors that are written one after the other. -/
def Expr.implicitProduct : List Expr → Expr
  | [] => .ofNat 1
  | first :: others => others.foldl .mul first

/-- What the text of a coefficient before variables writes: nothing for one. -/
def Number.writtenFactor (a : Number) : List Expr :=
  if a.toInt64? = some 1 then []
  else
    match a with
    | .fraction f => if f.hasProperPart then [.group a.spelled] else [a.spelled]
    | _ => [a.spelled]

namespace Term

/-- The factors that the text of a term shows. -/
def writtenFactors (t : Term) : List Expr :=
  if t.monomial = .one then [t.coefficient.spelled]
  else t.coefficient.writtenFactor ++ t.monomial.factors.map VariablePower.toExpr

/-- The expression that the text of a term writes. -/
def written (t : Term) : Expr := .implicitProduct t.writtenFactors

/-- The kinds of the tokens of the text of a term. -/
def kinds (t : Term) : List Kind := t.writtenFactors.flatMap Expr.kinds

/--
The expression that the text of a first term writes. A minus sign in front of it belongs to the
whole product, or to the number if there are no variables.
-/
def writtenFirst (t : Term) : Expr :=
  if t.coefficient.isNegative then
    if t.monomial = .one then t.coefficient.spelled else .neg t.neg.written
  else t.written

/-- The kinds of the tokens of a term behind a minus sign, if its coefficient is negative. -/
def signedKinds (minus plus : List Kind) (t : Term) : List Kind :=
  if t.coefficient.isNegative then minus ++ t.neg.kinds else plus ++ t.kinds

/-- Whether the text of the term shows names and numerals only. -/
structure IsWritable (names : List String) (t : Term) : Prop where
  monomial : t.monomial.IsCanonical
  mem_names : ∀ f ∈ t.monomial.factors, f.name ∈ names
  coefficient : t.coefficient.IsSpellable

end Term

namespace Polynomial

/-- The expression that is written with one more term. -/
def appendWritten (e : Expr) (t : Term) : Expr :=
  if t.coefficient.isNegative then .sub e t.neg.written else .add e t.written

/-- The expression that the text of the polynomial writes. -/
def written (p : Polynomial) : Expr :=
  match p.terms with
  | [] => .ofNat 0
  | first :: others => others.foldl appendWritten first.writtenFirst

/-- The kinds of the tokens of the text of the polynomial. -/
def kinds (p : Polynomial) : List Kind :=
  match p.terms with
  | [] => (Expr.ofNat 0).kinds
  | first :: others =>
    first.signedKinds [.minus] [] ++ others.flatMap (Term.signedKinds [.minus] [.plus])

end Polynomial

/-! ## Opposites -/

namespace Number

variable {a : Number}

theorem IsSpellable.exists_toRat? (h : a.IsSpellable) : ∃ x, a.toRat? = some x := by
  cases a with
  | integer v => exact ⟨_, rfl⟩
  | fraction f => exact ⟨_, rfl⟩
  | float y => cases h

theorem IsSpellable.ne_minValue (h : a.IsSpellable) : a ≠ .integer Int64.minValue := by
  rintro rfl
  exact absurd h (by decide)

theorem IsSpellable.neg (h : a.IsSpellable) : (-a).IsSpellable := by
  cases a with
  | integer v =>
    obtain ⟨w, hw, hvalue⟩ := neg_integer fun hv ↦ h.ne_minValue (congrArg integer hv)
    rw [hw, IsSpellable, hvalue, Int.natAbs_neg]
    exact h
  | fraction f =>
    change (fraction f.negated).IsSpellable
    rw [IsSpellable, f.toRat_negated, Rat.num_neg_eq_neg_num, Rat.den_neg_eq_den, Int.natAbs_neg]
    exact h
  | float y => cases h

theorem IsSpellable.isNegative_neg (h : a.IsSpellable) (hnegative : a.isNegative = true) :
    (-a).isNegative = false := by
  obtain ⟨x, hx⟩ := h.exists_toRat?
  have hlt : x < 0 := (isNegative_iff hx).1 hnegative
  rw [Bool.eq_false_iff, ne_eq, isNegative_iff (toRat?_neg_of_ne hx h.ne_minValue), not_lt]
  exact (neg_pos.2 hlt).le

theorem kinds_ofInt_of_neg {z : ℤ} (hz : z < 0) :
    (Expr.ofInt z).kinds = .minus :: (Expr.ofInt (-z)).kinds := by
  rw [Expr.ofInt, if_pos hz, Expr.ofInt, if_neg (by omega), Int.natAbs_neg]
  rfl

/-- The text of a negative number is that of its opposite behind a minus sign. -/
theorem IsSpellable.kinds_spelled (h : a.IsSpellable) (hnegative : a.isNegative = true) :
    a.spelled.kinds = .minus :: (-a).spelled.kinds := by
  cases a with
  | integer v =>
    obtain ⟨w, hw, hvalue⟩ := neg_integer fun hv ↦ h.ne_minValue (congrArg integer hv)
    have hv : v.toInt < 0 := Int64.lt_iff_toInt_lt.1 (of_decide_eq_true hnegative)
    rw [hw, spelled, spelled, hvalue, kinds_ofInt_of_neg hv]
  | fraction f =>
    have hnum : f.toRat.num < 0 := f.isNegative_iff.1 hnegative
    change _ = .minus :: (fraction f.negated).spelled.kinds
    rw [spelled, spelled, f.toRat_negated, Rat.num_neg_eq_neg_num, Rat.den_neg_eq_den]
    change _ = .minus :: (if f.hasProperPart then _ else _ : Expr).kinds
    split
    · rw [Expr.kinds, Expr.kinds, kinds_ofInt_of_neg hnum, List.cons_append]
    · exact kinds_ofInt_of_neg hnum
  | float y => cases h

end Number

theorem Term.IsWritable.neg {names : List String} {t : Term} (h : t.IsWritable names) :
    t.neg.IsWritable names :=
  ⟨h.monomial, h.mem_names, h.coefficient.neg⟩

/-! ## Texts -/

section text

variable {names : List String} {rest : List Char}

theorem toList_variablePower_of_ne {f : VariablePower} (h : f.power ≠ 1) :
    f.toText.toList = f.name.toList ++ ('^' :: Decimal.digits f.power.toNat) := by
  have hjoin : s!"{f.name}^{f.power.toNat}" = f.name ++ ("^" ++ toString f.power.toNat) :=
    String.append_assoc
  rw [VariablePower.toText, if_neg h, hjoin, String.toList_append, String.toList_append,
    Decimal.toList_toString]
  rfl

theorem hasNumeral_power (f : VariablePower) : Number.HasNumeral f.power.toNat := by
  have hmax : Int64.maxValue.toInt = 9223372036854775807 := rfl
  have hsize : UInt32.size = 4294967296 := rfl
  have hlt : f.power.toNat < UInt32.size := f.power.toNat_lt_size
  unfold Number.HasNumeral
  omega

/-- A power of a variable is written before any text that does not go on with a smaller letter. -/
theorem writesBefore_variablePower (hletters : AreLetters names) {f : VariablePower} {c : Char}
    (hmem : f.name ∈ names) (hc : f.name.toList = [c])
    (hrest : ∀ d ∈ rest.head?, Decimal.isDigit d = false ∧ d ≠ '.' ∧
      (Text.isLetter d = true → c < d)) :
    WritesBefore names rest f.toText.toList f.toExpr.kinds := by
  by_cases hone : f.power = 1
  · rw [VariablePower.toText, VariablePower.toExpr, if_pos hone, if_pos hone]
    exact Token.writesBefore_letter hletters hmem hc fun d hd ↦ (hrest d hd).2.2
  · have hdigits : WritesBefore names rest (Decimal.digits f.power.toNat)
        [.integer (Int64.ofNat f.power.toNat)] :=
      Token.writesBefore_digits (Number.toInt_ofNat (hasNumeral_power f))
        fun d hd ↦ ⟨(hrest d hd).1, (hrest d hd).2.1⟩
    have hpower : WritesBefore names rest ('^' :: Decimal.digits f.power.toNat)
        (.caret :: [.integer (Int64.ofNat f.power.toNat)]) :=
      (Token.writesBefore_symbol rfl rfl rfl rfl).append hdigits
    have hletter : WritesBefore names ('^' :: Decimal.digits f.power.toNat ++ rest)
        f.name.toList [.name f.name] := by
      refine Token.writesBefore_letter hletters hmem hc fun d hd hd' ↦ ?_
      cases hd
      exact absurd hd' (by decide)
    rw [toList_variablePower_of_ne hone, VariablePower.toExpr, if_neg hone]
    exact hletter.append hpower

theorem exists_toList_variablePower (f : VariablePower) :
    ∃ cs, f.toText.toList = f.name.toList ++ cs := by
  by_cases hone : f.power = 1
  · exact ⟨[], by rw [VariablePower.toText, if_pos hone, List.append_nil]⟩
  · exact ⟨_, toList_variablePower_of_ne hone⟩

/-- The text of powers of variables starts with the first of them. -/
theorem head?_join {f : VariablePower} {factors : List VariablePower} {c : Char}
    (hc : f.name.toList = [c]) :
    ((String.join ((f :: factors).map VariablePower.toText)).toList ++ rest).head? = some c := by
  obtain ⟨cs, hcs⟩ := exists_toList_variablePower f
  rw [List.map_cons, String.join_cons, String.toList_append, hcs, hc]
  rfl

/-- Powers of variables are told apart if each name is a greater letter than the one before it. -/
theorem writesBefore_factors (hletters : AreLetters names) {factors : List VariablePower}
    (hascending : (factors.map (·.name)).Pairwise (· < ·)) (hmem : ∀ f ∈ factors, f.name ∈ names)
    (hrest : IsBoundary rest) :
    WritesBefore names rest (String.join (factors.map VariablePower.toText)).toList
      ((factors.map VariablePower.toExpr).flatMap Expr.kinds) := by
  induction factors with
  | nil => exact Token.writesBefore_nil
  | cons f factors ih =>
    obtain ⟨c, hc, -⟩ := hletters f.name (hmem f List.mem_cons_self)
    rw [List.map_cons, List.pairwise_cons] at hascending
    rw [List.forall_mem_cons] at hmem
    rw [List.map_cons, String.join_cons, String.toList_append, List.map_cons, List.flatMap_cons]
    refine (writesBefore_variablePower hletters hmem.1 hc fun d hd ↦ ?_).append
      (ih hascending.2 hmem.2)
    cases factors with
    | nil =>
      obtain ⟨hletter, hdigit, hpoint⟩ := hrest d hd
      exact ⟨hdigit, hpoint, fun hd' ↦ absurd (hletter.symm.trans hd') Bool.false_ne_true⟩
    | cons g factors =>
      obtain ⟨c', hc', hletter⟩ := hletters g.name (hmem.2 g List.mem_cons_self)
      rw [head?_join hc', Option.mem_some] at hd
      rw [← hd]
      have hlt : f.name < g.name := hascending.1 g.name List.mem_cons_self
      rw [String.lt_iff_toList_lt, hc, hc', List.cons_lt_cons_iff] at hlt
      exact ⟨(Text.isDigit_of_isLetter hletter).1, (Text.isDigit_of_isLetter hletter).2,
        fun _ ↦ by simpa using hlt⟩

/-- The text of a number that is neither negative nor a mixed number is a numeral. -/
theorem exists_toInlineText {a : Number} (h : a.IsSpellable) (hnegative : a.isNegative = false)
    (hwhole : ∀ f, a = .fraction f → f.hasProperPart = false) :
    ∃ n, Number.HasNumeral n ∧ a.toInlineText = toString n ∧ a.spelled = .ofNat n := by
  cases a with
  | integer v =>
    have hv : ¬v.toInt < 0 := Int64.lt_iff_toInt_lt.not.1 (of_decide_eq_false hnegative)
    refine ⟨v.toInt.natAbs, h, ?_, if_neg hv⟩
    change toString v.toInt = _
    rw [Number.toString_int, decide_eq_false hv, if_neg Bool.false_ne_true]
  | fraction f =>
    have hproper := hwhole f rfl
    have hnum := Fraction.num_toRat_of_not_hasProperPart hproper
    have hnumerator : f.numerator.toNat = 0 := by
      simpa [Fraction.hasProperPart, ← UInt64.toNat_inj] using hproper
    have hpos : ¬f.toRat.num < 0 := fun hneg ↦
      Bool.eq_false_iff.1 hnegative (f.isNegative_iff.2 hneg)
    rw [Number.IsSpellable, hproper, if_neg Bool.false_ne_true] at h
    refine ⟨f.whole.toNat, h, ?_, ?_⟩
    · have hsign : f.isNegative = false := hnegative
      rw [Number.toInlineText, hproper, if_neg Bool.false_ne_true, Fraction.toText]
      simp only [hnumerator, if_true, hsign, if_neg Bool.false_ne_true]
    · rw [Number.spelled, hproper, if_neg Bool.false_ne_true, Expr.ofInt, if_neg hpos, hnum]
  | float y => cases h

/-- The text of a coefficient is written before any text that does not go on with a numeral. -/
theorem writesBefore_toFactorText {a : Number} (h : a.IsSpellable)
    (hnegative : a.isNegative = false)
    (hrest : ∀ d ∈ rest.head?, Decimal.isDigit d = false ∧ d ≠ '.') :
    WritesBefore names rest a.toFactorText.toList (a.writtenFactor.flatMap Expr.kinds) := by
  unfold Number.toFactorText Number.writtenFactor
  by_cases hone : a.toInt64? = some 1
  · rw [if_pos hone, if_pos hone]
    exact Token.writesBefore_nil
  have hnumeral : (∀ f, a = .fraction f → f.hasProperPart = false) →
      WritesBefore names rest a.toInlineText.toList ([a.spelled].flatMap Expr.kinds) := by
    intro hwhole
    obtain ⟨n, hn, htext, hspelled⟩ := exists_toInlineText h hnegative hwhole
    rw [htext, hspelled, Decimal.toList_toString]
    exact Token.writesBefore_digits (Number.toInt_ofNat hn) hrest
  rw [if_neg hone, if_neg hone]
  cases a with
  | integer v => exact hnumeral fun f hf ↦ by cases hf
  | float y => cases h
  | fraction f =>
    dsimp only
    cases hproper : f.hasProperPart with
    | false =>
      rw [if_neg Bool.false_ne_true, if_neg Bool.false_ne_true]
      exact hnumeral fun g hg ↦ Number.fraction.inj hg ▸ hproper
    | true =>
      rw [if_pos rfl, if_pos rfl, String.toList_append, String.toList_append]
      have hinner : WritesBefore names (')' :: rest) (Number.fraction f).toInlineText.toList
          (Number.fraction f).spelled.kinds :=
        (Number.writes_toInlineText h).writesBefore (Token.isBoundary_cons rfl rfl (by decide))
      have hopen : WritesBefore names
          ((Number.fraction f).toInlineText.toList ++ [')'] ++ rest) ['('] [.leftParen] :=
        Token.writesBefore_symbol rfl rfl rfl rfl
      have hclose : WritesBefore names rest [')'] [.rightParen] :=
        Token.writesBefore_symbol rfl rfl rfl rfl
      simpa [Expr.kinds] using hopen.append (hinner.append hclose)

theorem Monomial.exists_head?_toText (hletters : AreLetters names) {m : Monomial}
    (hmem : ∀ f ∈ m.factors, f.name ∈ names) (hm : m ≠ .one) (rest : List Char) :
    ∃ c, (m.toText.toList ++ rest).head? = some c ∧ Text.isLetter c = true := by
  obtain ⟨_ | ⟨f, factors⟩⟩ := m
  · exact absurd rfl hm
  · obtain ⟨c, hc, hletter⟩ := hletters f.name (hmem f List.mem_cons_self)
    exact ⟨c, head?_join hc, hletter⟩

theorem Monomial.isEmpty_toText (hletters : AreLetters names) {m : Monomial}
    (hmem : ∀ f ∈ m.factors, f.name ∈ names) (hm : m ≠ .one) : m.toText.isEmpty = false := by
  obtain ⟨c, hhead, -⟩ := m.exists_head?_toText hletters hmem hm []
  rw [Bool.eq_false_iff, ne_eq, String.isEmpty_iff, ← String.toList_eq_nil_iff]
  intro hnil
  rw [hnil] at hhead
  cases hhead

/-- The text of a term whose coefficient is not negative has the tokens of what it writes. -/
theorem Term.IsWritable.writes_toText (hletters : AreLetters names) {t : Term}
    (h : t.IsWritable names) (hnegative : t.coefficient.isNegative = false) :
    Writes names t.toText.toList t.kinds := by
  unfold Term.toText Term.kinds Term.writtenFactors
  by_cases hone : t.monomial = .one
  · have hempty : t.monomial.toText.isEmpty = true := by rw [hone]; rfl
    rw [if_pos hempty, if_pos hone]
    simpa using Number.writes_toInlineText h.coefficient
  rw [Monomial.isEmpty_toText hletters h.mem_names hone, if_neg Bool.false_ne_true, if_neg hone,
    String.toList_append, List.flatMap_append]
  intro start rest hrest
  have hfactors := writesBefore_factors hletters h.monomial.names_pairwise h.mem_names hrest
  have hcoefficient : WritesBefore names (t.monomial.toText.toList ++ rest)
      t.coefficient.toFactorText.toList (t.coefficient.writtenFactor.flatMap Expr.kinds) := by
    obtain ⟨c, hhead, hletter⟩ :=
      t.monomial.exists_head?_toText hletters h.mem_names hone rest
    refine writesBefore_toFactorText h.coefficient hnegative fun d hd ↦ ?_
    rw [hhead, Option.mem_some] at hd
    exact hd ▸ Text.isDigit_of_isLetter hletter
  exact hcoefficient.append hfactors start

/-- A term between a minus sign, or another text, and what stands in front. -/
theorem Term.IsWritable.writes_signedText (hletters : AreLetters names) {t : Term}
    (h : t.IsWritable names) {minus plus : String} {ks ls : List Kind}
    (hminus : ∀ {cs : List Char} {ms : List Kind}, Writes names cs ms →
      Writes names (minus.toList ++ cs) (ks ++ ms))
    (hplus : ∀ {cs : List Char} {ms : List Kind}, Writes names cs ms →
      Writes names (plus.toList ++ cs) (ls ++ ms)) :
    Writes names (Polynomial.signedText minus plus t).toList (t.signedKinds ks ls) := by
  unfold Polynomial.signedText Term.signedKinds
  by_cases hnegative : t.coefficient.isNegative = true
  · rw [if_pos hnegative, if_pos hnegative, String.toList_append]
    exact hminus (h.neg.writes_toText hletters (h.coefficient.isNegative_neg hnegative))
  · rw [if_neg hnegative, if_neg hnegative, String.toList_append]
    exact hplus (h.writes_toText hletters (Bool.eq_false_iff.2 hnegative))

theorem isBoundary_others (terms : List Term) :
    IsBoundary (String.join (terms.map (Polynomial.signedText " - " " + "))).toList := by
  cases terms with
  | nil => exact Token.isBoundary_nil
  | cons t terms =>
    rw [List.map_cons, String.join_cons, String.toList_append]
    unfold Polynomial.signedText
    split
    · rw [String.toList_append]
      exact Token.isBoundary_cons rfl rfl (by decide)
    · rw [String.toList_append]
      exact Token.isBoundary_cons rfl rfl (by decide)

theorem writes_others (hletters : AreLetters names) {terms : List Term}
    (hterms : ∀ t ∈ terms, t.IsWritable names) :
    Writes names (String.join (terms.map (Polynomial.signedText " - " " + "))).toList
      (terms.flatMap (Term.signedKinds [.minus] [.plus])) := by
  induction terms with
  | nil => exact Token.writes_nil
  | cons t terms ih =>
    rw [List.forall_mem_cons] at hterms
    rw [List.map_cons, String.join_cons, String.toList_append, List.flatMap_cons]
    have hsigned : Writes names (Polynomial.signedText " - " " + " t).toList
        (t.signedKinds [.minus] [.plus]) :=
      hterms.1.writes_signedText hletters
        (fun h ↦ .blank (.symbol rfl rfl rfl rfl (.blank h)))
        fun h ↦ .blank (.symbol rfl rfl rfl rfl (.blank h))
    exact hsigned.append (ih hterms.2) (isBoundary_others terms)

/-- The text of a polynomial has the tokens of what it writes. -/
theorem Polynomial.writes_toText (hletters : AreLetters names) {p : Polynomial}
    (hp : ∀ t ∈ p.terms, t.IsWritable names) : Writes names p.toText.toList p.kinds := by
  unfold Polynomial.toText Polynomial.kinds
  cases hterms : p.terms with
  | nil => exact Number.writes_nat (n := 0) (by decide)
  | cons first others =>
    rw [hterms, List.forall_mem_cons] at hp
    rw [String.toList_append]
    have hfirst : Writes names (signedText "-" "" first).toList (first.signedKinds [.minus] []) :=
      hp.1.writes_signedText hletters (fun h ↦ .symbol rfl rfl rfl rfl h) fun h ↦ h
    exact hfirst.append (writes_others hletters hp.2) (isBoundary_others others)

end text

end SchoolAlgebra
