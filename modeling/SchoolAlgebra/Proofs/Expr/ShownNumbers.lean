import Mathlib
import SchoolAlgebra.Expr.Eval
import SchoolAlgebra.Proofs.Expr.RoundTrip
import SchoolAlgebra.Proofs.Token.Numerals

/-!
# Numbers that texts show

The texts of integers and finite doubles without a sign are numerals, and those of whole doubles are
numerals of integers. So the text of an expression with such constants shows all of its operators,
and whole doubles as integers.
-/

namespace SchoolAlgebra

open Binary64 (IsFiniteUnsigned IsWhole)
open Token (Kind kindOfNumeral IsNumeral)

namespace Number

/-- The number that the text of a number shows: whole doubles are shown as integers. -/
def shown : Number → Number
  | float x =>
    if IsWhole x then integer (Int64.ofNat (Decimal.natOfDigits (Decimal.ofFloat x).toList))
    else float x
  | a => a

/-- Whether the number is one without a sign that is neither a fraction nor infinite. -/
def IsPlain : Number → Prop
  | integer v => 0 ≤ v.toInt
  | fraction _ => False
  | float x => IsFiniteUnsigned x

variable {v : Number}

theorem ofNat_natAbs_toInt {w : Int64} (h : 0 ≤ w.toInt) : Int64.ofNat w.toInt.natAbs = w := by
  have hle := w.toInt_le
  have hmax : Int64.maxValue.toInt = 9223372036854775807 := rfl
  rw [← Int64.toInt_inj, Int64.toInt_ofNat_of_lt (by omega)]
  omega

theorem IsPlain.spelled_eq (h : v.IsPlain) : v.spelled = .constant v := by
  cases v with
  | integer w => rw [spelled, Expr.ofInt, if_neg (not_lt.2 h), Expr.ofNat, ofNat_natAbs_toInt h]
  | fraction => cases h
  | float x => rfl

theorem IsPlain.isNegative_eq_false (h : v.IsPlain) : v.isNegative = false := by
  cases v with
  | integer w => exact decide_eq_false fun hlt ↦ not_lt.2 h (Int64.lt_iff_toInt_lt.1 hlt)
  | fraction => cases h
  | float x => exact decide_eq_false h.not_lt_zero

theorem IsPlain.ofNumber_eq (h : v.IsPlain) : Tightness.ofNumber v = .atom := by
  have hnegative := h.isNegative_eq_false
  cases v with
  | fraction => cases h
  | integer | float => simp [Tightness.ofNumber, hnegative]

theorem IsPlain.admits_spelled (h : v.IsPlain) : (Tightness.ofNumber v).Admits v.spelled := by
  rw [h.spelled_eq, h.ofNumber_eq]
  intro p hp rest _
  rw [List.mem_singleton.1 hp]
  cases v with
  | integer w => exact .integer w rest
  | fraction => cases h
  | float x => exact .real x rest

theorem toList_toInlineText_integer {w : Int64} (h : 0 ≤ w.toInt) :
    (integer w).toInlineText.toList = Decimal.digits w.toInt.natAbs := by
  change (toString w.toInt).toList = _
  rw [toString_int, decide_eq_false (not_lt.2 h), if_neg Bool.false_ne_true,
    Decimal.toList_toString]

/-- The text of a plain number is a numeral. -/
theorem IsPlain.isNumeral (h : v.IsPlain) : IsNumeral v.toInlineText.toList := by
  cases v with
  | integer w =>
    rw [toList_toInlineText_integer h]
    exact .whole Nat.toDigits_ne_nil fun _ ↦ Decimal.isDigit_of_mem_digits
  | fraction => cases h
  | float x => exact Token.isNumeral_ofFloat h

/-- The kinds of the tokens of the text of a plain number. -/
def textKinds (v : Number) : List Token.Kind := [kindOfNumeral v.toInlineText.toList]

/-- A whole double is shown as the integer of its text, and it is the double nearest to it. -/
theorem exists_shown_of_isWhole {x : Float} (h : IsFiniteUnsigned x) (hwhole : IsWhole x)
    (hkind : .integerTooLarge ∉ (float x).textKinds) :
    ∃ w : Int64, (float x).shown = integer w ∧ (float x).textKinds = [.integer w] ∧
      w.toInt = Decimal.natOfDigits (Decimal.ofFloat x).toList ∧ Binary64.ofInt w.toInt = x := by
  obtain ⟨hnumeral, hnearest⟩ := Token.kindOfNumeral_ofFloat_of_isWhole h hwhole
  have hkinds : (float x).textKinds = [kindOfNumeral (Decimal.ofFloat x).toList] := rfl
  rw [hkinds, hnumeral] at hkind ⊢
  cases hword : Word.int64? (Decimal.natOfDigits (Decimal.ofFloat x).toList) with
  | none => exact absurd (by simp [hword]) hkind
  | some w =>
    have hvalue := Word.int64?_eq_some_iff.1 hword
    have hnonneg : 0 ≤ w.toInt := hvalue ▸ Int.natCast_nonneg _
    refine ⟨w, ?_, rfl, hvalue, hvalue ▸ hnearest⟩
    rw [shown, if_pos hwhole, ← ofNat_natAbs_toInt hnonneg, hvalue, Int.natAbs_natCast]

theorem shown_of_not_isWhole {x : Float} (hwhole : ¬IsWhole x) : (float x).shown = float x := by
  rw [shown, if_neg hwhole]

/-- A plain number is shown as the plain number that its text stands for, if there is one. -/
theorem IsPlain.shown (h : v.IsPlain) (hkind : .integerTooLarge ∉ v.textKinds) :
    v.shown.IsPlain ∧ (Expr.constant v.shown).kinds = v.textKinds := by
  cases v with
  | integer w =>
    have hvalue : w.toInt = (w.toInt.natAbs : ℤ) := (Int.natAbs_of_nonneg h).symm
    refine ⟨h, ?_⟩
    rw [textKinds, toList_toInlineText_integer h,
      Token.kindOfNumeral_whole fun _ ↦ Decimal.isDigit_of_mem_digits,
      Decimal.natOfDigits_digits, Word.int64?_eq_some_iff.2 hvalue]
    rfl
  | fraction => cases h
  | float x =>
    by_cases hwhole : IsWhole x
    · obtain ⟨w, hshown, hkinds, hvalue, -⟩ := exists_shown_of_isWhole h hwhole hkind
      have hnonneg : 0 ≤ w.toInt := hvalue ▸ Int.natCast_nonneg _
      rw [hshown, hkinds]
      exact ⟨hnonneg, rfl⟩
    · rw [shown_of_not_isWhole hwhole]
      exact ⟨h, congrArg (List.cons · []) (Token.kindOfNumeral_ofFloat h hwhole).symm⟩

end Number

namespace Expr

variable {e : Expr} {f : Number → Number}

theorem mem_bracket {place own : Tightness} {body : String} {c : Char} (hc : c ∈ body.toList) :
    c ∈ (place.bracket own body).toList := by
  unfold Tightness.bracket
  split
  · simp [hc]
  · exact hc

theorem mem_bracketedKinds {place own : Tightness} {ks : List Kind} {k : Kind} (hk : k ∈ ks) :
    k ∈ place.bracketedKinds own ks := by
  unfold Tightness.bracketedKinds
  split
  · simp [hk]
  · exact hk

/-- The text of an expression shows the characters of its constants. -/
theorem mem_render_of_constant {v : Number} (hv : constant v ∈ e.subterms) {c : Char}
    (hc : c ∈ v.toInlineText.toList) (place : Tightness) : c ∈ (e.render place).toList := by
  induction e generalizing place with
  | constant w =>
    rw [subterms, List.mem_singleton] at hv
    cases hv
    exact mem_bracket hc
  | var name => simp [subterms] at hv
  | add a b iha ihb | sub a b iha ihb | mul a b iha ihb | div a b iha ihb | pow a b iha ihb =>
    rw [subterms, List.mem_cons, List.mem_append] at hv
    rcases hv with hv | hv | hv
    · cases hv
    · exact mem_bracket (by simp [iha hv])
    · exact mem_bracket (by simp [ihb hv])
  | neg a iha | pos a iha =>
    rw [subterms, List.mem_cons] at hv
    rcases hv with hv | hv
    · cases hv
    · exact mem_bracket (by simp [iha hv])
  | group a iha | sqrt a iha =>
    rw [subterms, List.mem_cons] at hv
    rcases hv with hv | hv
    · cases hv
    · simp [render, iha hv]

/-- Each kind of the text of a constant is one of the text of the expression. -/
theorem mem_renderedKinds {ofConstant : Number → List Kind} {v : Number}
    (hv : constant v ∈ e.subterms) {k : Kind} (hk : k ∈ ofConstant v) (place : Tightness) :
    k ∈ e.renderedKinds ofConstant place := by
  induction e generalizing place with
  | constant w =>
    rw [subterms, List.mem_singleton] at hv
    cases hv
    exact mem_bracketedKinds hk
  | var name => simp [subterms] at hv
  | add a b iha ihb | sub a b iha ihb | mul a b iha ihb | div a b iha ihb | pow a b iha ihb =>
    rw [subterms, List.mem_cons, List.mem_append] at hv
    rcases hv with hv | hv | hv
    · cases hv
    · exact mem_bracketedKinds (by simp [iha hv])
    · exact mem_bracketedKinds (by simp [ihb hv])
  | neg a iha | pos a iha =>
    rw [subterms, List.mem_cons] at hv
    rcases hv with hv | hv
    · cases hv
    · exact mem_bracketedKinds (by simp [iha hv])
  | group a iha | sqrt a iha =>
    rw [subterms, List.mem_cons] at hv
    rcases hv with hv | hv
    · cases hv
    · simp [renderedKinds, iha hv]

/-- The expression with each constant replaced. -/
def mapConstants (f : Number → Number) : Expr → Expr
  | constant v => constant (f v)
  | var name => var name
  | add a b => add (a.mapConstants f) (b.mapConstants f)
  | sub a b => sub (a.mapConstants f) (b.mapConstants f)
  | mul a b => mul (a.mapConstants f) (b.mapConstants f)
  | div a b => div (a.mapConstants f) (b.mapConstants f)
  | pow a b => pow (a.mapConstants f) (b.mapConstants f)
  | neg a => neg (a.mapConstants f)
  | pos a => pos (a.mapConstants f)
  | group a => group (a.mapConstants f)
  | sqrt a => sqrt (a.mapConstants f)

/-- The expression with each constant replaced by the number that its text shows. -/
def shown (e : Expr) : Expr := e.mapConstants Number.shown

theorem subterms_mapConstants (f : Number → Number) (e : Expr) :
    (e.mapConstants f).subterms = e.subterms.map (mapConstants f) := by
  induction e with
  | constant | var => rfl
  | add a b iha ihb | sub a b iha ihb | mul a b iha ihb | div a b iha ihb | pow a b iha ihb =>
    simp [mapConstants, subterms, iha, ihb]
  | neg a iha | pos a iha | group a iha | sqrt a iha => simp [mapConstants, subterms, iha]

theorem exists_of_constant_mem_mapConstants {w : Number}
    (hw : constant w ∈ (e.mapConstants f).subterms) : ∃ v, constant v ∈ e.subterms ∧ w = f v := by
  rw [subterms_mapConstants, List.mem_map] at hw
  obtain ⟨part, hpart, heq⟩ := hw
  cases part <;> cases heq
  exact ⟨_, hpart, rfl⟩

theorem mapConstants_eq_self (h : ∀ v, constant v ∈ e.subterms → f v = v) :
    e.mapConstants f = e := by
  induction e with
  | constant v => exact congrArg constant (h v List.mem_cons_self)
  | var => rfl
  | add a b iha ihb | sub a b iha ihb | mul a b iha ihb | div a b iha ihb | pow a b iha ihb =>
    rw [mapConstants, iha fun v hv ↦ h v (by simp [subterms, hv]),
      ihb fun v hv ↦ h v (by simp [subterms, hv])]
  | neg a iha | pos a iha | group a iha | sqrt a iha =>
    rw [mapConstants, iha fun v hv ↦ h v (by simp [subterms, hv])]

theorem spelled_eq_self (h : ∀ v, constant v ∈ e.subterms → v.spelled = constant v) :
    e.spelled = e := by
  induction e with
  | constant v => exact h v List.mem_cons_self
  | var => rfl
  | add a b iha ihb | sub a b iha ihb | mul a b iha ihb | div a b iha ihb | pow a b iha ihb =>
    rw [spelled, iha fun v hv ↦ h v (by simp [subterms, hv]),
      ihb fun v hv ↦ h v (by simp [subterms, hv])]
  | neg a iha | pos a iha | group a iha | sqrt a iha =>
    rw [spelled, iha fun v hv ↦ h v (by simp [subterms, hv])]

theorem renderedKinds_mapConstants {ofConstant ofShown : Number → List Kind}
    (h : ∀ v, constant v ∈ e.subterms → Tightness.ofNumber (f v) = Tightness.ofNumber v ∧
      ofShown (f v) = ofConstant v) (place : Tightness) :
    (e.mapConstants f).renderedKinds ofShown place = e.renderedKinds ofConstant place := by
  induction e generalizing place with
  | constant v =>
    obtain ⟨hplace, hkinds⟩ := h v List.mem_cons_self
    rw [mapConstants, renderedKinds, renderedKinds, hplace, hkinds]
  | var => rfl
  | add a b iha ihb | sub a b iha ihb | mul a b iha ihb | div a b iha ihb | pow a b iha ihb =>
    rw [mapConstants, renderedKinds, renderedKinds, iha fun v hv ↦ h v (by simp [subterms, hv]),
      ihb fun v hv ↦ h v (by simp [subterms, hv])]
  | neg a iha | pos a iha | group a iha | sqrt a iha =>
    rw [mapConstants, renderedKinds, renderedKinds, iha fun v hv ↦ h v (by simp [subterms, hv])]

theorem eval_withoutGroups (env : Environment) (e : Expr) :
    e.withoutGroups.eval env = e.eval env := by
  induction e with
  | constant | var => rfl
  | add a b iha ihb | sub a b iha ihb | mul a b iha ihb | div a b iha ihb | pow a b iha ihb =>
    simp only [withoutGroups, eval, iha, ihb]
  | neg a iha | sqrt a iha => simp only [withoutGroups, eval, iha]
  | pos a iha | group a iha => exact iha

end Expr

end SchoolAlgebra
