import Mathlib
import SchoolAlgebra.Number.Fraction.Text
import SchoolAlgebra.Proofs.Token.Writing

/-!
# The grammar of written fractions

A written fraction is a numeral, a ratio of two numerals, or a numeral and a ratio with gaps between
them. Gaps may surround the slash of a ratio, a minus in front and the whole text. Reading a text
answers with a fraction exactly if the text is written in this way over a denominator other than
zero, and the fraction has the sign and the numbers that are written. Of the other texts, the blank
ones, those that are written over zero and all the rest are told apart.

The grammar says nothing on the order in which the three shapes are tried. A shape that is tried
first takes no text from another one, since after a numeral a slash, a digit behind gaps and the end
of the text exclude each other.
-/

namespace SchoolAlgebra.Fraction

/-- Whether the characters are gaps. There may be none. -/
def AreGaps (cs : List Char) : Prop := ∀ c ∈ cs, isGap c = true

/-- Whether the characters are digits, at least one, and denote the word. -/
structure IsNumeral (cs : List Char) (n : UInt64) : Prop where
  ne_nil : cs ≠ []
  areDigits : ∀ c ∈ cs, Decimal.isDigit c = true
  denotes : Decimal.natOfDigits cs = n.toNat

/-- Whether the characters are the ratio of the words. -/
inductive IsRatio : List Char → UInt64 → UInt64 → Prop
  | slash {ns before after ds : List Char} {n d : UInt64} (hn : IsNumeral ns n)
      (hbefore : AreGaps before) (hafter : AreGaps after) (hd : IsNumeral ds d) :
      IsRatio (ns ++ (before ++ '/' :: (after ++ ds))) n d

/--
Whether the characters write a magnitude with the whole part, the numerator and the denominator. A
whole number has no proper part, and a ratio no whole part.
-/
inductive IsMagnitude : List Char → UInt64 × UInt64 × UInt64 → Prop
  | whole {ws : List Char} {w : UInt64} (hw : IsNumeral ws w) : IsMagnitude ws (w, 0, 1)
  | ratio {rs : List Char} {n d : UInt64} (hr : IsRatio rs n d) : IsMagnitude rs (0, n, d)
  | mixed {ws gaps rs : List Char} {w n d : UInt64} (hw : IsNumeral ws w) (hgaps : AreGaps gaps)
      (hne : gaps ≠ []) (hr : IsRatio rs n d) : IsMagnitude (ws ++ (gaps ++ rs)) (w, n, d)

/-- Whether the characters write a fraction with the sign and the parts. -/
inductive IsWritten : List Char → Bool → UInt64 × UInt64 × UInt64 → Prop
  | unsigned {before ms after : List Char} {parts : UInt64 × UInt64 × UInt64}
      (hbefore : AreGaps before) (hm : IsMagnitude ms parts) (hafter : AreGaps after) :
      IsWritten (before ++ (ms ++ after)) false parts
  | signed {before gaps ms after : List Char} {parts : UInt64 × UInt64 × UInt64}
      (hbefore : AreGaps before) (hgaps : AreGaps gaps) (hm : IsMagnitude ms parts)
      (hafter : AreGaps after) : IsWritten (before ++ '-' :: (gaps ++ (ms ++ after))) true parts

variable {cs rest : List Char} {n d : UInt64} {parts : UInt64 × UInt64 × UInt64}

/-- Whether gaps in front of the characters end before them. -/
def EndsGaps (cs : List Char) : Prop := ∀ c ∈ cs.head?, isGap c = false

/-- Whether a numeral in front of the characters ends before them. -/
def EndsNumeral (cs : List Char) : Prop := ∀ c ∈ cs.head?, Decimal.isDigit c = false

theorem isDigit_of_isGap {c : Char} (h : isGap c = true) : Decimal.isDigit c = false := by
  simp only [isGap, Bool.or_eq_true, beq_iff_eq] at h
  rcases h with ((rfl | rfl) | rfl) | rfl <;> decide

theorem isGap_of_isDigit {c : Char} (h : Decimal.isDigit c = true) : isGap c = false := by
  rw [Bool.eq_false_iff]
  intro hgap
  rw [isDigit_of_isGap hgap] at h
  exact Bool.false_ne_true h

theorem AreGaps.endsNumeral_append {gaps : List Char} (hgaps : AreGaps gaps)
    (hrest : EndsNumeral rest) : EndsNumeral (gaps ++ rest) := by
  cases gaps with
  | nil => exact hrest
  | cons c gaps =>
    intro d hd
    rw [← Option.some.inj hd]
    exact isDigit_of_isGap (hgaps c List.mem_cons_self)

theorem AreGaps.endsNumeral {gaps : List Char} (hgaps : AreGaps gaps) : EndsNumeral gaps := by
  have h : EndsNumeral (gaps ++ []) := hgaps.endsNumeral_append nofun
  rwa [List.append_nil] at h

theorem endsNumeral_slash : EndsNumeral ('/' :: rest) := by
  rintro c ⟨⟩
  rfl

theorem endsGaps_slash : EndsGaps ('/' :: rest) := by
  rintro c ⟨⟩
  rfl

/-- Each of the three shapes starts with a digit. -/
theorem IsNumeral.exists_cons (h : IsNumeral cs n) :
    ∃ c tail, cs = c :: tail ∧ Decimal.isDigit c = true := by
  cases cs with
  | nil => exact absurd rfl h.ne_nil
  | cons c tail => exact ⟨c, tail, rfl, h.areDigits c List.mem_cons_self⟩

theorem IsMagnitude.exists_cons (h : IsMagnitude cs parts) :
    ∃ c tail, cs = c :: tail ∧ Decimal.isDigit c = true := by
  cases h with
  | whole hw => exact hw.exists_cons
  | ratio hr =>
    obtain ⟨hn, _, _, _⟩ := hr
    obtain ⟨c, tail, rfl, hc⟩ := hn.exists_cons
    exact ⟨c, _, rfl, hc⟩
  | mixed hw _ _ _ =>
    obtain ⟨c, tail, rfl, hc⟩ := hw.exists_cons
    exact ⟨c, _, rfl, hc⟩

theorem IsNumeral.endsGaps_append (h : IsNumeral cs n) : EndsGaps (cs ++ rest) := by
  obtain ⟨c, tail, rfl, hc⟩ := h.exists_cons
  rintro d ⟨⟩
  exact isGap_of_isDigit hc

theorem IsMagnitude.endsGaps_append (h : IsMagnitude cs parts) : EndsGaps (cs ++ rest) := by
  obtain ⟨c, tail, rfl, hc⟩ := h.exists_cons
  rintro d ⟨⟩
  exact isGap_of_isDigit hc

/-! ## Reading what is written -/

theorem skipGaps_append {gaps : List Char} (hgaps : AreGaps gaps) (hrest : EndsGaps rest) :
    skipGaps (gaps ++ rest) = rest :=
  Token.dropWhile_append_boundary hgaps hrest

theorem skipGaps_of_areGaps (h : AreGaps cs) : skipGaps cs = [] := by
  have h : skipGaps (cs ++ []) = [] := skipGaps_append h nofun
  rwa [List.append_nil] at h

theorem takeWord?_append (h : IsNumeral cs n) (hrest : EndsNumeral rest) :
    takeWord? (cs ++ rest) = some (n, rest) := by
  have hdigits : (cs ++ rest).takeWhile Decimal.isDigit = cs :=
    Token.takeWhile_append_boundary h.areDigits hrest
  have hrest : (cs ++ rest).dropWhile Decimal.isDigit = rest :=
    Token.dropWhile_append_boundary h.areDigits hrest
  have hempty : ¬cs.isEmpty = true := by simpa using h.ne_nil
  rw [takeWord?, hdigits, hrest, if_neg hempty, h.denotes, Word.uint64?_toNat]
  rfl

theorem takeWord?_eq_none (h : EndsNumeral cs) : takeWord? cs = none := by
  have hdigits : ([] ++ cs).takeWhile Decimal.isDigit = [] :=
    Token.takeWhile_append_boundary nofun h
  rw [List.nil_append] at hdigits
  rw [takeWord?, hdigits]
  rfl

theorem takeDenominator?_append {before after ds : List Char} (hbefore : AreGaps before)
    (hafter : AreGaps after) (hd : IsNumeral ds d) (hrest : EndsNumeral rest) :
    takeDenominator? (before ++ '/' :: (after ++ (ds ++ rest))) = some (d, rest) := by
  simp only [takeDenominator?, skipGaps_append hbefore endsGaps_slash,
    skipGaps_append hafter hd.endsGaps_append, takeWord?_append hd hrest]

theorem takeRatio?_append (h : IsRatio cs n d) (hrest : EndsNumeral rest) :
    takeRatio? (cs ++ rest) = some (n, d, rest) := by
  obtain ⟨hn, hbefore, hafter, hd⟩ := h
  simp only [takeRatio?, List.append_assoc, List.cons_append,
    takeWord?_append hn (hbefore.endsNumeral_append endsNumeral_slash),
    takeDenominator?_append hbefore hafter hd hrest, Option.bind_eq_bind, Option.bind_some]
  rfl

section takeParts

variable {first : UInt64} {behind : List Char}

theorem takeParts?_of_mixed (hfirst : takeWord? cs = some (first, behind))
    (hgap : (behind.head?.map isGap).getD false = true)
    (hratio : takeRatio? (skipGaps behind) = some (n, d, rest)) :
    takeParts? cs = some ((first, n, d), rest) := by
  simp [takeParts?, hfirst, hgap, hratio]

theorem takeParts?_of_ratio (hfirst : takeWord? cs = some (first, behind))
    (hratio : takeRatio? (skipGaps behind) = none)
    (hdenominator : takeDenominator? behind = some (d, rest)) :
    takeParts? cs = some ((0, first, d), rest) := by
  simp [takeParts?, hfirst, hratio, hdenominator]

theorem takeParts?_of_whole (hfirst : takeWord? cs = some (first, behind))
    (hratio : takeRatio? (skipGaps behind) = none) (hdenominator : takeDenominator? behind = none) :
    takeParts? cs = some ((first, 0, 1), behind) := by
  simp [takeParts?, hfirst, hratio, hdenominator]

end takeParts

/-- A magnitude is read as it is written, whatever shapes are tried before its own. -/
theorem takeParts?_append {after : List Char} (h : IsMagnitude cs parts) (hafter : AreGaps after) :
    takeParts? (cs ++ after) = some (parts, after) := by
  cases h with
  | whole hw =>
    have hend := skipGaps_of_areGaps hafter
    refine takeParts?_of_whole (takeWord?_append hw hafter.endsNumeral) ?_ ?_
    · rw [hend]
      rfl
    · rw [takeDenominator?, hend]
  | ratio hr =>
    obtain ⟨hn, hbefore, hgaps, hd⟩ := hr
    rw [List.append_assoc, List.append_assoc, List.cons_append, List.append_assoc]
    refine takeParts?_of_ratio
      (takeWord?_append hn (hbefore.endsNumeral_append endsNumeral_slash)) ?_
      (takeDenominator?_append hbefore hgaps hd hafter.endsNumeral)
    rw [skipGaps_append hbefore endsGaps_slash, takeRatio?, takeWord?_eq_none endsNumeral_slash]
    rfl
  | @mixed ws gaps rs w n d hw hgaps hne hr =>
    obtain ⟨c, tail, rfl⟩ := List.exists_cons_of_ne_nil hne
    have hc : isGap c = true := hgaps c List.mem_cons_self
    have hend : EndsNumeral (c :: tail ++ (rs ++ after)) := by
      rintro d ⟨⟩
      exact isDigit_of_isGap hc
    have hstart : EndsGaps (rs ++ after) := (IsMagnitude.ratio hr).endsGaps_append
    rw [List.append_assoc, List.append_assoc]
    refine takeParts?_of_mixed (takeWord?_append hw hend) hc ?_
    rw [skipGaps_append hgaps hstart]
    exact takeRatio?_append hr hafter.endsNumeral

theorem takeSign_of_isDigit {c : Char} {tail : List Char} (hc : Decimal.isDigit c = true) :
    takeSign (c :: tail) = (false, c :: tail) := by
  unfold takeSign
  split
  · rename_i h
    rw [List.cons.injEq] at h
    rw [h.1] at hc
    exact absurd hc (by decide)
  · rfl

/-! ## What is read is written -/

theorem exists_skipGaps (cs : List Char) : ∃ gaps, AreGaps gaps ∧ cs = gaps ++ skipGaps cs :=
  ⟨cs.takeWhile isGap, fun _ ↦ List.mem_takeWhile_imp,
    (List.takeWhile_append_dropWhile).symm⟩

theorem exists_of_takeWord? (h : takeWord? cs = some (n, rest)) :
    ∃ ns, IsNumeral ns n ∧ cs = ns ++ rest := by
  obtain ⟨hne, h⟩ := Option.ite_none_left_eq_some.1 h
  obtain ⟨word, hword, hpair⟩ := Option.map_eq_some_iff.1 h
  obtain ⟨rfl, rfl⟩ := Prod.mk.inj hpair
  refine ⟨cs.takeWhile Decimal.isDigit, ⟨?_, fun _ ↦ List.mem_takeWhile_imp, ?_⟩,
    List.takeWhile_append_dropWhile.symm⟩
  · simpa using hne
  · exact (Word.uint64?_eq_some_iff.1 hword).symm

theorem exists_of_takeDenominator? (h : takeDenominator? cs = some (d, rest)) :
    ∃ before after ds, AreGaps before ∧ AreGaps after ∧ IsNumeral ds d ∧
      cs = before ++ '/' :: (after ++ (ds ++ rest)) := by
  unfold takeDenominator? at h
  split at h
  · rename_i behind hslash
    obtain ⟨before, hbefore, hcs⟩ := exists_skipGaps cs
    obtain ⟨after, hafter, hbehind⟩ := exists_skipGaps behind
    obtain ⟨ds, hd, hrest⟩ := exists_of_takeWord? h
    refine ⟨before, after, ds, hbefore, hafter, hd, ?_⟩
    rw [← hrest, ← hbehind, ← hslash]
    exact hcs
  · cases h

theorem exists_of_takeRatio? (h : takeRatio? cs = some (n, d, rest)) :
    ∃ rs, IsRatio rs n d ∧ cs = rs ++ rest := by
  simp only [takeRatio?, Option.bind_eq_bind, Option.bind_eq_some_iff, Option.pure_def,
    Option.some.injEq, Prod.exists, Prod.mk.injEq] at h
  obtain ⟨n, behind, hnumerator, d, rest, hdenominator, rfl, rfl, rfl⟩ := h
  obtain ⟨ns, hn, rfl⟩ := exists_of_takeWord? hnumerator
  obtain ⟨before, after, ds, hbefore, hafter, hd, rfl⟩ := exists_of_takeDenominator? hdenominator
  exact ⟨_, .slash hn hbefore hafter hd, by simp⟩

theorem exists_of_takeParts? (h : takeParts? cs = some (parts, rest)) :
    ∃ ms, IsMagnitude ms parts ∧ cs = ms ++ rest := by
  simp only [takeParts?, Option.bind_eq_bind, Option.bind_eq_some_iff, Prod.exists] at h
  obtain ⟨first, behind, hfirst, h⟩ := h
  obtain ⟨ws, hw, rfl⟩ := exists_of_takeWord? hfirst
  split at h
  · rename_i hmixed
    obtain ⟨rfl, rfl⟩ := Prod.mk.inj (Option.some.inj h)
    obtain ⟨hgap, hratio⟩ := Option.ite_none_right_eq_some.1 hmixed
    obtain ⟨gaps, hgaps, hbehind⟩ := exists_skipGaps behind
    obtain ⟨rs, hr, hrest⟩ := exists_of_takeRatio? hratio
    have hne : gaps ≠ [] := by
      rintro rfl
      rw [hbehind, hrest, List.nil_append] at hgap
      obtain ⟨c, tail, hcons, hc⟩ := (IsMagnitude.ratio hr).exists_cons
      simp [hcons, isGap_of_isDigit hc] at hgap
    refine ⟨_, .mixed hw hgaps hne hr, ?_⟩
    rw [List.append_assoc, List.append_assoc, ← hrest, ← hbehind]
  · rename_i hdenominator
    obtain ⟨rfl, rfl⟩ := Prod.mk.inj (Option.some.inj h)
    obtain ⟨before, after, ds, hbefore, hafter, hd, rfl⟩ := exists_of_takeDenominator? hdenominator
    exact ⟨_, .ratio (.slash hw hbefore hafter hd), by simp⟩
  · obtain ⟨rfl, rfl⟩ := Prod.mk.inj (Option.some.inj h)
    exact ⟨ws, .whole hw, rfl⟩

theorem exists_takeSign (cs : List Char) :
    takeSign cs = (false, cs) ∨
      ∃ gaps, AreGaps gaps ∧ cs = '-' :: (gaps ++ (takeSign cs).2) ∧ (takeSign cs).1 = true := by
  unfold takeSign
  split
  · rename_i behind
    obtain ⟨gaps, hgaps, hbehind⟩ := exists_skipGaps behind
    exact .inr ⟨gaps, hgaps, congrArg _ hbehind, rfl⟩
  · exact .inl rfl

/-- A fraction is written exactly if a sign and a magnitude can be taken off and gaps are left. -/
theorem isWritten_iff {negative : Bool} :
    IsWritten cs negative parts ↔
      (takeSign (skipGaps cs)).1 = negative ∧
        ∃ rest, takeParts? (takeSign (skipGaps cs)).2 = some (parts, rest) ∧ AreGaps rest := by
  constructor
  · rintro (⟨hbefore, hm, hafter⟩ | ⟨hbefore, hgaps, hm, hafter⟩)
    · rename_i before ms after
      have hsign : takeSign (ms ++ after) = (false, ms ++ after) := by
        obtain ⟨c, tail, rfl, hc⟩ := hm.exists_cons
        exact takeSign_of_isDigit hc
      rw [skipGaps_append hbefore hm.endsGaps_append, hsign]
      exact ⟨rfl, after, takeParts?_append hm hafter, hafter⟩
    · rename_i before gaps ms after
      have hminus : EndsGaps ('-' :: (gaps ++ (ms ++ after))) := by
        rintro c ⟨⟩
        rfl
      have hsign : takeSign ('-' :: (gaps ++ (ms ++ after))) = (true, ms ++ after) := by
        rw [takeSign, skipGaps_append hgaps hm.endsGaps_append]
      rw [skipGaps_append hbefore hminus, hsign]
      exact ⟨rfl, after, takeParts?_append hm hafter, hafter⟩
  · rintro ⟨rfl, rest, hparts, hrest⟩
    obtain ⟨before, hbefore, hcs⟩ := exists_skipGaps cs
    obtain ⟨ms, hm, hbody⟩ := exists_of_takeParts? hparts
    rcases exists_takeSign (skipGaps cs) with hsign | ⟨gaps, hgaps, hminus, hsign⟩
    · have hmagnitude : skipGaps cs = ms ++ rest := by rwa [hsign] at hbody
      have hwritten : IsWritten (before ++ skipGaps cs) false parts := by
        rw [hmagnitude]
        exact .unsigned hbefore hm hrest
      rw [hsign]
      rwa [← hcs] at hwritten
    · have hwritten : IsWritten (before ++ skipGaps cs) true parts := by
        rw [hminus, hbody]
        exact .signed hbefore hgaps hm hrest
      rw [hsign]
      rwa [← hcs] at hwritten

/-- What is written is not blank. -/
theorem IsWritten.not_blank {negative : Bool} (h : IsWritten cs negative parts) :
    ¬∀ c ∈ cs, Text.isBlank c = true := by
  intro hblank
  obtain ⟨c, hc, hdigit⟩ : ∃ c ∈ cs, Decimal.isDigit c = true := by
    obtain ⟨_, hm, _⟩ | ⟨_, _, hm, _⟩ := h
    all_goals
      obtain ⟨c, tail, rfl, hdigit⟩ := hm.exists_cons
      exact ⟨c, by simp, hdigit⟩
  have hnot := Decimal.isBlank_of_isDigit hdigit
  rw [hblank c hc] at hnot
  exact Bool.false_ne_true hnot.symm

variable {text : String} {negative : Bool}

/-- What reading a text answers with, in terms of what is written. -/
inductive IsReading (text : String) : Except TextError Fraction → Prop
  | fraction {f : Fraction}
      (h : IsWritten text.toList f.negative (f.whole, f.numerator, f.denominator)) :
      IsReading text (.ok f)
  | empty (h : ∀ c ∈ text.toList, Text.isBlank c = true) : IsReading text (.error .empty)
  | zeroDenominator {negative : Bool} {w n : UInt64}
      (h : IsWritten text.toList negative (w, n, 0)) : IsReading text (.error .zeroDenominator)
  | malformed (hblank : ¬∀ c ∈ text.toList, Text.isBlank c = true)
      (h : ∀ negative parts, ¬IsWritten text.toList negative parts) :
      IsReading text (.error (.malformed text))

theorem exists_isReading (text : String) : ∃ answer, IsReading text answer := by
  by_cases hblank : ∀ c ∈ text.toList, Text.isBlank c = true
  · exact ⟨_, .empty hblank⟩
  by_cases h : ∀ negative parts, ¬IsWritten text.toList negative parts
  · exact ⟨_, .malformed hblank h⟩
  push Not at h
  obtain ⟨negative, ⟨w, n, d⟩, h⟩ := h
  by_cases hd : d = 0
  · rw [hd] at h
    exact ⟨_, .zeroDenominator h⟩
  · exact ⟨.ok ⟨negative, w, n, d, hd⟩, .fraction h⟩

theorem ofText_of_isWritten {w : UInt64} (h : IsWritten text.toList negative (w, n, d)) :
    ofText text = (ofParts? negative w n d).elim (.error .zeroDenominator) .ok := by
  obtain ⟨rfl, rest, hparts, hrest⟩ := isWritten_iff.1 h
  rw [ofText, if_neg (mt List.all_eq_true.1 h.not_blank)]
  simp [hparts, skipGaps_of_areGaps hrest]

theorem ofText_of_not_isWritten (hblank : ¬∀ c ∈ text.toList, Text.isBlank c = true)
    (h : ∀ negative parts, ¬IsWritten text.toList negative parts) :
    ofText text = .error (.malformed text) := by
  rw [ofText, if_neg (mt List.all_eq_true.1 hblank)]
  dsimp only
  split
  · rename_i w n d rest hparts
    rw [if_neg]
    intro hempty
    refine h _ _ (isWritten_iff.2 ⟨rfl, rest, hparts, ?_⟩)
    exact fun c hc ↦ List.dropWhile_eq_nil_iff.1 (List.isEmpty_iff.1 hempty) c hc
  · rfl

theorem IsReading.ofText_eq {answer : Except TextError Fraction} (h : IsReading text answer) :
    ofText text = answer := by
  cases h with
  | @fraction f h =>
    rw [ofText_of_isWritten h, ofParts?, dif_pos f.denominator_ne_zero]
    rfl
  | empty h => rw [ofText, if_pos (List.all_eq_true.2 h)]
  | zeroDenominator h =>
    rw [ofText_of_isWritten h, ofParts?, dif_neg (not_not.2 rfl)]
    rfl
  | malformed hblank h => exact ofText_of_not_isWritten hblank h

/-- Since every text has a reading, and its reading is answered, no text has two of them. -/
theorem ofText_eq_iff {answer : Except TextError Fraction} :
    ofText text = answer ↔ IsReading text answer := by
  refine ⟨?_, IsReading.ofText_eq⟩
  rintro rfl
  obtain ⟨answer, h⟩ := exists_isReading text
  rw [h.ofText_eq]
  exact h

/--
A fraction is read exactly if its sign and its numbers are written. Texts of blanks are empty, texts
that are written over zero have no value, and all the other ones are malformed.
-/
theorem ofText_eq_ok_or_error_iff (text : String) :
    (∀ f : Fraction, ofText text = .ok f ↔
      IsWritten text.toList f.negative (f.whole, f.numerator, f.denominator)) ∧
    (ofText text = .error .empty ↔ ∀ c ∈ text.toList, Text.isBlank c = true) ∧
    (ofText text = .error .zeroDenominator ↔
      ∃ negative w n, IsWritten text.toList negative (w, n, 0)) ∧
    (ofText text = .error (.malformed text) ↔
      (¬∀ c ∈ text.toList, Text.isBlank c = true) ∧
        ∀ negative parts, ¬IsWritten text.toList negative parts) := by
  refine ⟨fun f ↦ ofText_eq_iff.trans ⟨fun h ↦ ?_, .fraction⟩,
    ofText_eq_iff.trans ⟨fun h ↦ ?_, .empty⟩, ofText_eq_iff.trans ⟨fun h ↦ ?_, ?_⟩,
    ofText_eq_iff.trans ⟨fun h ↦ ?_, fun h ↦ .malformed h.1 h.2⟩⟩
  · cases h with
    | fraction h => exact h
  · cases h with
    | empty h => exact h
  · cases h with
    | zeroDenominator h => exact ⟨_, _, _, h⟩
  · rintro ⟨negative, w, n, h⟩
    exact .zeroDenominator h
  · cases h with
    | malformed hblank h => exact ⟨hblank, h⟩

example : ofText "1 2/18446744073709551616" = .error (.malformed "1 2/18446744073709551616") := by
  rfl

end SchoolAlgebra.Fraction
