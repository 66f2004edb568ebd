import Mathlib
import SchoolAlgebra.Proofs.Expr.NestingLimit
import SchoolAlgebra.Proofs.Expr.ShownNumbers
import SchoolAlgebra.Proofs.Grammar.Leaves

/-!
# Reading texts without variables again

The numbers of an expression that is read from a text without variables are integers and doubles
without a sign. If the text of the expression is read in turn, then what is read evaluates to what
the expression evaluates to with its whole doubles taken as integers.
-/

namespace SchoolAlgebra

open Binary64 (IsWhole)
open Token (IsNumeral kindOfNumeral)

namespace Number

variable {v : Number}

/-- Whether numerals stand for the number: it is no fraction, and it has no sign. -/
def IsUnsigned : Number → Prop
  | integer v => 0 ≤ v.toInt
  | fraction _ => False
  | float x => x.toBits.toNat ≤ Binary64.infinityPattern

/-- A number without a sign is infinite if it is not plain. -/
theorem IsUnsigned.isPlain (h : v.IsUnsigned) (htext : 'i' ∉ v.toInlineText.toList) :
    v.IsPlain := by
  cases v with
  | integer => exact h
  | fraction => cases h
  | float x =>
    rcases h.lt_or_eq with hlt | heq
    · exact hlt
    · have hinfinite : x = .ofBits (.ofNat Binary64.infinityPattern) :=
        Binary64.eq_of_toBits_eq (heq.trans (by decide +kernel))
      rw [hinfinite] at htext
      exact absurd (by decide +kernel) htext

end Number

/-- Numerals stand for numbers without a sign. -/
theorem Token.IsNumeral.isUnsigned {cs : List Char} {v : Number} (h : IsNumeral cs)
    (hleaf : (kindOfNumeral cs).leaf? = some (.constant v)) : v.IsUnsigned := by
  cases h with
  | whole hne hdigits =>
    rw [kindOfNumeral_whole hdigits] at hleaf
    cases hword : Word.int64? (Decimal.natOfDigits cs) with
    | none => rw [hword] at hleaf; cases hleaf
    | some w =>
      rw [hword] at hleaf
      cases hleaf
      rw [Number.IsUnsigned, Word.int64?_eq_some_iff.1 hword]
      exact Int.natCast_nonneg _
  | decimal hne hdigits =>
    rw [kindOfNumeral_decimal hdigits] at hleaf
    cases hleaf
    rw [Number.IsUnsigned, Decimal.toFloat_eq, Binary64.toBits_ofQuotient,
      if_neg Bool.false_ne_true, zero_add]
    exact Binary64.magnitudePattern_le _ _

namespace Expr

variable {strictness : Strictness} {limit : ℕ} {text : String} {e : Expr}

theorem isUnsigned_of_ofText (h : ofText .numeric strictness limit text = .ok e) {v : Number}
    (hv : constant v ∈ e.subterms) : v.IsUnsigned := by
  obtain ⟨k, hk, hleaf⟩ := (isSpelled_of_ofTokens h).exists_leaf hv rfl
  obtain ⟨token, htoken, rfl⟩ := List.mem_map.1 hk
  have hnumber : token.kind.isNumber = true := by
    cases hkind : token.kind <;> rw [hkind] at hleaf <;> cases hleaf <;> rfl
  obtain ⟨hnumeral, hkind⟩ :=
    ((Token.tiles_scan [] text).standsFor token htoken).isNumeral hnumber
  rw [← hkind] at hleaf
  exact hnumeral.isUnsigned hleaf

section rereading

variable {limit' : ℕ} {e' : Expr} (h : ofText .numeric .lenient limit text = .ok e)
  (h' : ofText .numeric .lenient limit' e.toText = .ok e')
include h h'

/-- An infinite constant would be shown by letters that are not read. -/
theorem isPlain_of_ofText_toText {v : Number} (hv : constant v ∈ e.subterms) : v.IsPlain := by
  refine (isUnsigned_of_ofText h hv).isPlain fun hi ↦ ?_
  have hroot := mem_rootName_of_ofText h' (mem_render_of_constant hv hi .loose) rfl
  rw [Token.toList_rootName] at hroot
  exact absurd hroot (by decide)

/-- The text of the expression shows its operators and a numeral for each constant. -/
theorem kinds_scan_toText :
    (Token.scan [] e.toText).map (·.kind) = e.renderedKinds Number.textKinds .loose := by
  have hleaves : e.HasLeafKinds [] Number.textKinds :=
    ⟨fun name hname ↦ absurd hname (isNumeric_iff.1 (isNumeric_of_ofText h) name),
      fun v hv ↦ (isPlain_of_ofText_toText h h' hv).isNumeral.writes⟩
  exact (writes_renderedKinds (fun _ hname ↦ absurd hname List.not_mem_nil) List.not_mem_nil
    .loose hleaves).scan

/-- No constant is shown as an integer too large to be read. -/
theorem integerTooLarge_notMem_textKinds {v : Number} (hv : constant v ∈ e.subterms) :
    .integerTooLarge ∉ v.textKinds := by
  intro hlarge
  have hmem := mem_renderedKinds hv hlarge .loose
  rw [← kinds_scan_toText h h'] at hmem
  exact absurd ((isSpelled_of_ofTokens h').isReadable _ hmem) Bool.false_ne_true

/-- What is read from the text is what it writes with the constants that it shows. -/
theorem eq_written_of_ofText_toText :
    e' = e.shown.written .loose ∧ ∀ w, constant w ∈ e.shown.subterms → w.IsPlain := by
  have hshown : ∀ v, constant v ∈ e.subterms →
      v.shown.IsPlain ∧ (constant v.shown).kinds = v.textKinds := fun v hv ↦
    (isPlain_of_ofText_toText h h' hv).shown (integerTooLarge_notMem_textKinds h h' hv)
  have hplain : ∀ w, constant w ∈ e.shown.subterms → w.IsPlain := by
    intro w hw
    obtain ⟨v, hv, rfl⟩ := exists_of_constant_mem_mapConstants hw
    exact (hshown v hv).1
  have hkinds : (e.shown.written .loose).kinds = (Token.scan [] e.toText).map (·.kind) := by
    rw [kinds_written, kinds_scan_toText h h']
    refine renderedKinds_mapConstants (fun v hv ↦ ⟨?_, ?_⟩) .loose
    · rw [(hshown v hv).1.ofNumber_eq, (isPlain_of_ofText_toText h h' hv).ofNumber_eq]
    · rw [(hshown v hv).1.spelled_eq, (hshown v hv).2]
  have hwritten := derives_written fun w hw ↦ (hplain w hw).admits_spelled
  rw [hkinds] at hwritten
  obtain ⟨a, ha, -⟩ := bind_eq_ok_iff.1 h'
  exact ⟨eq_of_derives (derives_of_ofTokens h').withPowers hwritten (length_of_ofTokensLenient ha),
    hplain⟩

theorem evalNumeric_eq_evalNumeric_shown : e'.evalNumeric = e.shown.evalNumeric := by
  obtain ⟨rfl, hplain⟩ := eq_written_of_ofText_toText h h'
  have hspelled : e.shown.spelled = e.shown :=
    spelled_eq_self fun w hw ↦ (hplain w hw).spelled_eq
  rw [evalNumeric, ← eval_withoutGroups, withoutGroups_written, hspelled, eval_withoutGroups,
    evalNumeric]

end rereading

/--
Let `e` be read from a text without variables, and `e'` from the text of `e`. Then `e'` evaluates to
what `e` evaluates to with each whole double taken as the integer that its text shows: the same
number, or the same error. The double is the one nearest to this integer. If no constant of `e` is a
whole double, then `e'` evaluates to what `e` evaluates to.
-/
theorem evalNumeric_of_ofText_toText {limit' : ℕ} {e' : Expr}
    (h : ofText .numeric .lenient limit text = .ok e)
    (h' : ofText .numeric .lenient limit' e.toText = .ok e') :
    e'.evalNumeric = e.shown.evalNumeric ∧
      (∀ x, constant (.float x) ∈ e.subterms → IsWhole x →
        ∃ w : Int64, (Number.float x).shown = .integer w ∧
          w.toInt = Decimal.natOfDigits (Decimal.ofFloat x).toList ∧
            Binary64.ofInt w.toInt = x) ∧
      ((∀ x, constant (.float x) ∈ e.subterms → ¬IsWhole x) →
        e'.evalNumeric = e.evalNumeric) := by
  have heval := evalNumeric_eq_evalNumeric_shown h h'
  refine ⟨heval, ?_, ?_⟩
  · intro x hx hwhole
    obtain ⟨w, hshown, -, hvalue, hnearest⟩ := Number.exists_shown_of_isWhole
      (isPlain_of_ofText_toText h h' hx) hwhole (integerTooLarge_notMem_textKinds h h' hx)
    exact ⟨w, hshown, hvalue, hnearest⟩
  · intro hnone
    have hshown : e.shown = e := by
      refine mapConstants_eq_self fun v hv ↦ ?_
      cases v with
      | float x => exact Number.shown_of_not_isWhole (hnone x hv)
      | _ => rfl
    rw [heval, hshown]

/-- The text `0.5 + 2.0/3` is shown with an integral dividend, and its quotient becomes exact. -/
theorem evalNumeric_of_ofText_toText_half :
    ofText .numeric .lenient 100 "0.5 + 2.0/3" = .ok (add (constant (.float 0.5))
      (div (constant (.float 2)) (constant (.integer 3)))) ∧
    (add (constant (.float 0.5)) (div (constant (.float 2)) (constant (.integer 3)))).shown =
      add (constant (.float 0.5)) (div (constant (.integer 2)) (constant (.integer 3))) ∧
    ∃ e', ofText .numeric .lenient 100 "0.5 + 2 / 3" = .ok e' ∧
      e'.evalNumeric = (add (constant (.float 0.5))
        (div (constant (.integer 2)) (constant (.integer 3)))).evalNumeric := by
  have hread : ofText .numeric .lenient 100 "0.5 + 2.0/3" = .ok (add (constant (.float 0.5))
      (div (constant (.float 2)) (constant (.integer 3)))) := by decide +kernel
  have htext : (add (constant (.float 0.5))
      (div (constant (.float 2)) (constant (.integer 3)))).toText = "0.5 + 2 / 3" := by
    decide +kernel
  have hshown : (add (constant (.float 0.5))
      (div (constant (.float 2)) (constant (.integer 3)))).shown =
      add (constant (.float 0.5)) (div (constant (.integer 2)) (constant (.integer 3))) := by
    decide +kernel
  obtain ⟨e', hreread⟩ : ∃ e', ofText .numeric .lenient 100 "0.5 + 2 / 3" = .ok e' :=
    ⟨add (constant (.float 0.5)) (div (constant (.integer 2)) (constant (.integer 3))),
      by decide +kernel⟩
  have heval := (evalNumeric_of_ofText_toText hread (htext ▸ hreread)).1
  rw [hshown] at heval
  exact ⟨hread, hshown, e', hreread, heval⟩

/-- A quotient by the decimal zero is infinite, one by the integer that is shown has no value. -/
theorem evalNumeric_ne_of_toText_decimalZero :
    ∃ e e', ofText .numeric .lenient 100 "1/0.0" = .ok e ∧
      ofText .numeric .lenient 100 e.toText = .ok e' ∧ e.evalNumeric ≠ e'.evalNumeric := by
  refine ⟨div (constant (.integer 1)) (constant (.float 0)),
    div (constant (.integer 1)) (constant (.integer 0)), ?_, ?_, ?_⟩ <;> decide +kernel

end Expr

end SchoolAlgebra
