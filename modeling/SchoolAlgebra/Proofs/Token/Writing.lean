import Mathlib
import SchoolAlgebra.Token.Scan

/-!
# Texts that write tokens

A piece of text writes tokens of certain kinds if it is cut into them wherever it stands, provided
that the text behind it does not go on with its last token. Symbols and blanks write the same tokens
before any text, whereas names and numerals need a boundary behind them.
-/

namespace SchoolAlgebra

theorem Text.isBlank_eq_false {c : Char} (hlo : 33 ≤ c.toNat) (hhi : c.toNat ≤ 126) :
    isBlank c = false := by
  simp only [isBlank, blankRanges, List.any_cons, List.any_nil, Bool.or_eq_false_iff,
    decide_eq_false_iff_not, and_true]
  omega

theorem Text.toNat_of_isLetter {c : Char} (h : isLetter c = true) :
    97 ≤ c.toNat ∧ c.toNat ≤ 122 ∨ 65 ≤ c.toNat ∧ c.toNat ≤ 90 := by
  simp only [isLetter, decide_eq_true_eq, Char.le_def, UInt32.le_iff_toNat_le] at h
  exact h

theorem Decimal.toNat_of_isDigit {c : Char} (h : isDigit c = true) :
    48 ≤ c.toNat ∧ c.toNat ≤ 57 := by
  simp only [isDigit, decide_eq_true_eq, Char.le_def, UInt32.le_iff_toNat_le] at h
  exact h

theorem Text.isBlank_of_isLetter {c : Char} (h : isLetter c = true) : isBlank c = false := by
  have hrange := toNat_of_isLetter h
  exact isBlank_eq_false (by omega) (by omega)

theorem Decimal.isBlank_of_isDigit {c : Char} (h : isDigit c = true) :
    Text.isBlank c = false := by
  have hrange := toNat_of_isDigit h
  exact Text.isBlank_eq_false (by omega) (by omega)

theorem Decimal.isLetter_of_isDigit {c : Char} (h : isDigit c = true) :
    Text.isLetter c = false := by
  rw [Bool.eq_false_iff]
  intro hletter
  have hrange := toNat_of_isDigit h
  have hrange' := Text.toNat_of_isLetter hletter
  omega

theorem Text.isDigit_of_isLetter {c : Char} (h : isLetter c = true) :
    Decimal.isDigit c = false ∧ c ≠ '.' := by
  refine ⟨Bool.eq_false_iff.2 fun hdigit ↦ ?_, ?_⟩
  · exact Bool.eq_false_iff.1 (Decimal.isLetter_of_isDigit hdigit) h
  · rintro rfl
    exact absurd h (by decide)

namespace Decimal

theorem isDigit_of_mem_digits {n : Nat} {c : Char} (h : c ∈ digits n) : isDigit c = true := by
  have hdigit := Nat.isDigit_of_mem_toDigits (by decide) (by decide) h
  simpa [Char.isDigit, isDigit, Char.le_def] using hdigit

theorem natOfDigits_digits (n : Nat) : natOfDigits (digits n) = n :=
  Nat.ofDigitChars_ten_toDigits

theorem toList_toString (n : Nat) : (toString n).toList = digits n := by
  rw [Nat.toString_eq_ofList_toDigits, String.toList_ofList]
  rfl

end Decimal

namespace Token

/-- Whether the text does not go on with a name or a numeral that ends before it. -/
def IsBoundary (cs : List Char) : Prop :=
  ∀ c ∈ cs.head?, Text.isLetter c = false ∧ Decimal.isDigit c = false ∧ c ≠ '.'

theorem isBoundary_nil : IsBoundary [] := nofun

theorem IsBoundary.append {cs ds : List Char} (hcs : IsBoundary cs) (hds : IsBoundary ds) :
    IsBoundary (cs ++ ds) := by
  cases cs with
  | nil => exact hds
  | cons c cs => exact hcs

theorem takeWhile_append_boundary {condition : Char → Bool} {cs rest : List Char}
    (hcs : ∀ c ∈ cs, condition c = true) (hrest : ∀ c ∈ rest.head?, condition c = false) :
    (cs ++ rest).takeWhile condition = cs := by
  rw [List.takeWhile_append_of_pos hcs]
  cases rest with
  | nil => rw [List.takeWhile_nil, List.append_nil]
  | cons c rest =>
    have hc : condition c = false := hrest c rfl
    rw [List.takeWhile_cons_of_neg (by rw [hc]; exact Bool.false_ne_true), List.append_nil]

theorem dropWhile_append_boundary {condition : Char → Bool} {cs rest : List Char}
    (hcs : ∀ c ∈ cs, condition c = true) (hrest : ∀ c ∈ rest.head?, condition c = false) :
    (cs ++ rest).dropWhile condition = rest := by
  rw [List.dropWhile_append_of_pos hcs]
  cases rest with
  | nil => rfl
  | cons c rest =>
    have hc : condition c = false := hrest c rfl
    exact List.dropWhile_cons_of_neg (by rw [hc]; exact Bool.false_ne_true)

end Token

namespace Lexeme

open Token (IsBoundary)

variable {cs rest : List Char} {start : Nat}

theorem scan_blank {c : Char} (hc : Text.isBlank c = true) :
    scan start (c :: rest) = scan (start + c.utf8Size) rest := by
  rw [scan, if_pos hc]

theorem scan_cons {c : Char} (hc : Text.isBlank c = false) :
    scan start (c :: rest) =
      ⟨start, (c :: rest).take (extent (c :: rest))⟩ ::
        scan (start + Text.byteLength ((c :: rest).take (extent (c :: rest))))
          ((c :: rest).drop (extent (c :: rest))) := by
  rw [scan, hc, if_neg Bool.false_ne_true]

/-- A text that starts with a lexeme is cut behind it. -/
theorem scan_append {c : Char} (hc : Text.isBlank c = false)
    (hextent : extent (c :: cs ++ rest) = (c :: cs).length) :
    scan start (c :: cs ++ rest) =
      ⟨start, c :: cs⟩ :: scan (start + Text.byteLength (c :: cs)) rest := by
  rw [List.cons_append, scan_cons hc, ← List.cons_append, hextent, List.take_left, List.drop_left]

theorem extent_letters {c : Char} (hletters : ∀ d ∈ c :: cs, Text.isLetter d = true)
    (hrest : ∀ d ∈ rest.head?, Text.isLetter d = false) :
    extent (c :: cs ++ rest) = (c :: cs).length := by
  have hc := hletters c List.mem_cons_self
  rw [List.cons_append, extent, if_pos hc, ← List.cons_append,
    Token.takeWhile_append_boundary hletters hrest]

theorem extent_digits {c : Char} (hdigits : ∀ d ∈ c :: cs, Decimal.isDigit d = true)
    (hrest : ∀ d ∈ rest.head?, Decimal.isDigit d = false ∧ d ≠ '.') :
    extent (c :: cs ++ rest) = (c :: cs).length := by
  have hc := hdigits c List.mem_cons_self
  have hletter := Decimal.isLetter_of_isDigit hc
  rw [List.cons_append, extent, hletter, if_neg Bool.false_ne_true, if_pos hc, ← List.cons_append,
    numeralLength, Token.takeWhile_append_boundary hdigits fun d hd ↦ (hrest d hd).1,
    List.drop_left]
  split
  · exact absurd rfl (hrest '.' rfl).2
  · rfl

end Lexeme

namespace Token

/-! ## Written tokens -/

variable {allowed : List String} {cs ds : List Char} {ks ls : List Kind}

/-- The kinds of the tokens of a text that starts at the given byte offset. -/
def kindsFrom (allowed : List String) (start : Nat) (cs : List Char) : List Kind :=
  (ofLexemes allowed (Lexeme.scan start cs)).map (·.kind)

/-- Whether the text writes tokens of the given kinds before every boundary. -/
def Writes (allowed : List String) (cs : List Char) (ks : List Kind) : Prop :=
  ∀ start rest, IsBoundary rest →
    ∃ stop, kindsFrom allowed start (cs ++ rest) = ks ++ kindsFrom allowed stop rest

theorem writes_nil : Writes allowed [] [] := fun start _ _ ↦ ⟨start, rfl⟩

theorem Writes.append (h : Writes allowed cs ks) (h' : Writes allowed ds ls)
    (hds : IsBoundary ds) : Writes allowed (cs ++ ds) (ks ++ ls) := by
  intro start rest hrest
  obtain ⟨middle, hks⟩ := h start (ds ++ rest) (hds.append hrest)
  obtain ⟨stop, hls⟩ := h' middle rest hrest
  exact ⟨stop, by rw [List.append_assoc, hks, hls, List.append_assoc]⟩

theorem Writes.blank (h : Writes allowed cs ks) : Writes allowed (' ' :: cs) ks := by
  intro start rest hrest
  obtain ⟨stop, hks⟩ := h (start + ' '.utf8Size) rest hrest
  exact ⟨stop, by rw [List.cons_append, kindsFrom, Lexeme.scan_blank (by decide)]; exact hks⟩

/-- What a lexeme of one token writes, whatever stands behind it. -/
theorem kindsFrom_lexeme (start : Nat) {rest : List Char} {c : Char} (hc : Text.isBlank c = false)
    (hextent : Lexeme.extent (c :: cs ++ rest) = (c :: cs).length)
    (hkinds : ∀ beforeParen start,
      (ofLexeme allowed beforeParen ⟨start, c :: cs⟩).map (·.kind) = ks) :
    kindsFrom allowed start (c :: cs ++ rest) =
      ks ++ kindsFrom allowed (start + Text.byteLength (c :: cs)) rest := by
  rw [kindsFrom, Lexeme.scan_append hc hextent, ofLexemes, List.map_append, hkinds]
  rfl

/-- A symbol is a token whatever stands behind it. -/
theorem kindsFrom_symbol (start : Nat) {c : Char} {k : Kind} (hk : Kind.ofSymbol? c = some k)
    (hletter : Text.isLetter c = false) (hdigit : Decimal.isDigit c = false)
    (hblank : Text.isBlank c = false) (rest : List Char) :
    kindsFrom allowed start (c :: rest) =
      k :: kindsFrom allowed (start + Text.byteLength [c]) rest := by
  have hextent : Lexeme.extent ([c] ++ rest) = [c].length := by
    simp [Lexeme.extent, hletter, hdigit]
  have hkinds : ∀ beforeParen start,
      (ofLexeme allowed beforeParen ⟨start, [c]⟩).map (·.kind) = [k] := by
    intro beforeParen start
    simp [ofLexeme, hletter, hdigit, hk]
  exact kindsFrom_lexeme start hblank hextent hkinds

theorem Writes.symbol {c : Char} {k : Kind} (hk : Kind.ofSymbol? c = some k)
    (hletter : Text.isLetter c = false) (hdigit : Decimal.isDigit c = false)
    (hblank : Text.isBlank c = false) (h : Writes allowed cs ks) :
    Writes allowed (c :: cs) (k :: ks) := by
  intro start rest hrest
  obtain ⟨stop, hks⟩ := h (start + Text.byteLength [c]) rest hrest
  refine ⟨stop, ?_⟩
  rw [List.cons_append, kindsFrom_symbol start hk hletter hdigit hblank, hks, List.cons_append]

theorem dropWhile_isDigit {cs : List Char} (h : ∀ c ∈ cs, Decimal.isDigit c = true) :
    cs.dropWhile Decimal.isDigit = [] :=
  List.dropWhile_eq_nil_iff.2 h

/-- The digits of a natural number that fits a word are a token, if no numeral goes on behind. -/
theorem kindsFrom_digits (start : Nat) {n : Nat} {v : Int64} (hv : v.toInt = n) {rest : List Char}
    (hrest : ∀ d ∈ rest.head?, Decimal.isDigit d = false ∧ d ≠ '.') :
    kindsFrom allowed start (Decimal.digits n ++ rest) =
      .integer v :: kindsFrom allowed (start + Text.byteLength (Decimal.digits n)) rest := by
  have hdigits : ∀ c ∈ Decimal.digits n, Decimal.isDigit c = true :=
    fun _ ↦ Decimal.isDigit_of_mem_digits
  have hkind : kindOfNumeral (Decimal.digits n) = .integer v := by
    rw [kindOfNumeral, dropWhile_isDigit hdigits, Decimal.natOfDigits_digits,
      Word.int64?_eq_some_iff.2 hv]
    rfl
  cases h : Decimal.digits n with
  | nil => exact absurd h Nat.toDigits_ne_nil
  | cons c cs =>
    rw [h] at hdigits hkind
    have hc := hdigits c List.mem_cons_self
    have hletter := Decimal.isLetter_of_isDigit hc
    have hkinds : ∀ beforeParen start,
        (ofLexeme allowed beforeParen ⟨start, c :: cs⟩).map (·.kind) = [.integer v] := by
      intro beforeParen start
      simp [ofLexeme, hletter, hc, hkind]
    exact kindsFrom_lexeme start (Decimal.isBlank_of_isDigit hc)
      (Lexeme.extent_digits hdigits hrest) hkinds

/-- A natural number that fits a word is written by its digits. -/
theorem writes_digits {n : Nat} {v : Int64} (hv : v.toInt = n) :
    Writes allowed (Decimal.digits n) [.integer v] := fun start _ hrest ↦
  ⟨_, kindsFrom_digits start hv fun d hd ↦ (hrest d hd).2⟩

/-- A run of letters writes what it stands for. -/
theorem writes_letters {text : String} (hne : text ≠ "")
    (hletters : ∀ c ∈ text.toList, Text.isLetter c = true)
    (hkinds : ∀ beforeParen start,
      (ofLetters allowed beforeParen ⟨start, text.toList⟩).map (·.kind) = ks) :
    Writes allowed text.toList ks := by
  cases h : text.toList with
  | nil => exact absurd (String.toList_eq_nil_iff.1 h) hne
  | cons c cs =>
    rw [h] at hletters hkinds
    have hc := hletters c List.mem_cons_self
    refine fun start rest hrest ↦ ⟨_, kindsFrom_lexeme start (Text.isBlank_of_isLetter hc)
      (Lexeme.extent_letters hletters fun d hd ↦ (hrest d hd).1) fun beforeParen start ↦ ?_⟩
    rw [ofLexeme]
    simp only [hc, if_true]
    exact hkinds beforeParen start

/-- An allowed name is written by its letters. -/
theorem writes_name {name : String} (hmem : name ∈ allowed) (hne : name ≠ "")
    (hletters : ∀ c ∈ name.toList, Text.isLetter c = true) :
    Writes allowed name.toList [.name name] := by
  refine writes_letters hne hletters fun beforeParen start ↦ ?_
  simp [ofLetters, hmem]

theorem toList_rootName : rootName.toList = ['s', 'q', 'r', 't'] := by decide +kernel

/-- The name of the square root is written by its letters, unless it is the name of a variable. -/
theorem writes_rootName (h : rootName ∉ allowed) :
    Writes allowed rootName.toList [.function rootName] := by
  have hletters : ∀ c ∈ rootName.toList, Text.isLetter c = true := by
    rw [toList_rootName]
    exact List.all_eq_true.1 rfl
  refine writes_letters (by decide) hletters fun beforeParen start ↦ ?_
  have hpeel : peel allowed beforeParen ['s', 'q', 'r', 't'] = (.function rootName, 4) := by
    rw [peel, toList_rootName]
    rfl
  simp only [ofLetters, String.ofList_toList, if_neg h]
  rw [toList_rootName, peelAll]
  simp only [hpeel, List.map_cons, List.drop_succ_cons, List.drop_zero, peelAll, List.map_nil]

/-- The tokens of a text that writes them. -/
theorem Writes.scan {text : String} (h : Writes allowed text.toList ks) :
    (scan allowed text).map (·.kind) = ks := by
  obtain ⟨stop, hks⟩ := h 0 [] isBoundary_nil
  rw [List.append_nil] at hks
  have hend : kindsFrom allowed stop [] = [] := by rw [kindsFrom, Lexeme.scan]; rfl
  rw [hend, List.append_nil] at hks
  exact hks

end Token

end SchoolAlgebra
