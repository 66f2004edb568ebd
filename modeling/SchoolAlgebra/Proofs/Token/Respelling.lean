import Mathlib
import SchoolAlgebra.Proofs.Token.Coverage

/-!
# Blanks and glyphs

Blanks may be put in wherever a text is cut into tokens, also between the names of one run of
letters, and a symbol may be written with another of its glyphs. The text is cut into tokens of the
same kinds as before, since text that is respelled is never more than curtailed.
-/

namespace SchoolAlgebra.Token

/-- Whether the characters are one, or glyphs of one symbol. -/
inductive SameGlyph : Char → Char → Prop where
  | same (c : Char) : SameGlyph c c
  | symbol {c d : Char} {k : Kind} (hc : Kind.ofSymbol? c = some k)
      (hd : Kind.ofSymbol? d = some k) : SameGlyph c d

/--
Whether the first text is cut into the given tokens, blanks aside, and the second one is the first
with blanks put in around tokens and symbols written with other glyphs.
-/
inductive IsRespelled : List Token → List Char → List Char → Prop where
  | nil : IsRespelled [] [] []
  | keepBlank {b : Char} {tokens : List Token} {cs ds : List Char} (hb : Text.isBlank b = true)
      (h : IsRespelled tokens cs ds) : IsRespelled tokens (b :: cs) (b :: ds)
  | addBlank {b : Char} {tokens : List Token} {cs ds : List Char} (hb : Text.isBlank b = true)
      (h : IsRespelled tokens cs ds) : IsRespelled tokens cs (b :: ds)
  | token {token : Token} {spelled : List Char} {tokens : List Token} {cs ds : List Char}
      (hspelled : List.Forall₂ SameGlyph token.chars spelled) (h : IsRespelled tokens cs ds) :
      IsRespelled (token :: tokens) (token.chars ++ cs) (spelled ++ ds)

theorem IsRespelled.keepToken (token : Token) {tokens : List Token} {cs ds : List Char}
    (h : IsRespelled tokens cs ds) :
    IsRespelled (token :: tokens) (token.chars ++ cs) (token.chars ++ ds) :=
  .token (List.forall₂_same.2 fun c _ ↦ .same c) h

section symbols

variable {c d : Char} {k : Kind} {as bs cs ds : List Char} {tokens : List Token}
  {condition : Char → Bool}

theorem classes_of_symbol (h : Kind.ofSymbol? c = some k) :
    Text.isLetter c = false ∧ isNumeric c = false ∧ Text.isBlank c = false ∧
      (c == '(') = (k == .leftParen) := by
  unfold Kind.ofSymbol? at h
  split at h <;> cases h <;> decide

/-- Whether no symbol belongs to the class of characters. -/
def AvoidsSymbols (condition : Char → Bool) : Prop :=
  ∀ c k, Kind.ofSymbol? c = some k → condition c = false

theorem avoidsSymbols_isLetter : AvoidsSymbols Text.isLetter :=
  fun _ _ hsymbol ↦ (classes_of_symbol hsymbol).1

theorem avoidsSymbols_isNumeric : AvoidsSymbols isNumeric :=
  fun _ _ hsymbol ↦ (classes_of_symbol hsymbol).2.1

theorem avoidsSymbols_isBlank : AvoidsSymbols Text.isBlank :=
  fun _ _ hsymbol ↦ (classes_of_symbol hsymbol).2.2.1

theorem SameGlyph.eq_of_class (hclass : AvoidsSymbols condition)
    (h : SameGlyph c d) (hc : condition c = true) : c = d := by
  cases h with
  | same => rfl
  | symbol hsymbol _ =>
    rw [hclass _ _ hsymbol] at hc
    cases hc

theorem SameGlyph.class_eq (hclass : AvoidsSymbols condition)
    (h : SameGlyph c d) : condition c = condition d := by
  cases h with
  | same => rfl
  | symbol hc hd => rw [hclass _ _ hc, hclass _ _ hd]

/-- Characters of a class without symbols are never written with other glyphs. -/
theorem eq_of_sameGlyph (hclass : AvoidsSymbols condition)
    (h : List.Forall₂ SameGlyph as bs) (has : ∀ a ∈ as, condition a = true) : as = bs := by
  induction h with
  | nil => rfl
  | cons hglyph _ ih =>
    obtain ⟨ha, has⟩ := List.forall_mem_cons.1 has
    rw [hglyph.eq_of_class hclass ha, ih has]

end symbols

section curtailed

variable {as bs cs ds : List Char} {tokens : List Token} {condition : Char → Bool}

theorem takeWhile_of_sameGlyph (hclass : AvoidsSymbols condition)
    (h : List.Forall₂ SameGlyph as bs) (hrest : ds.takeWhile condition <+: cs.takeWhile condition) :
    (bs ++ ds).takeWhile condition <+: (as ++ cs).takeWhile condition := by
  induction h with
  | nil => exact hrest
  | @cons a b as bs hglyph _ ih =>
    by_cases ha : condition a = true
    · have hab : a = b := hglyph.eq_of_class hclass ha
      subst hab
      rw [List.cons_append, List.cons_append, List.takeWhile_cons_of_pos ha,
        List.takeWhile_cons_of_pos ha]
      exact (List.prefix_cons_inj a).2 ih
    · have hb : ¬condition b = true := hglyph.class_eq hclass ▸ ha
      rw [List.cons_append, List.takeWhile_cons_of_neg hb]
      exact List.nil_prefix

/-- A run of characters of a class without symbols and blanks is at most cut off earlier. -/
theorem IsRespelled.takeWhile (hclass : AvoidsSymbols condition)
    (hblank : ∀ b, Text.isBlank b = true → condition b = false) (h : IsRespelled tokens cs ds) :
    ds.takeWhile condition <+: cs.takeWhile condition := by
  induction h with
  | nil => exact List.prefix_rfl
  | keepBlank hb _ _ | addBlank hb _ _ =>
    rw [List.takeWhile_cons_of_neg (by rw [hblank _ hb]; exact Bool.false_ne_true)]
    exact List.nil_prefix
  | token hspelled _ ih => exact takeWhile_of_sameGlyph hclass hspelled ih

theorem opensParen_of_sameGlyph (h : List.Forall₂ SameGlyph as bs)
    (hrest : opensParen ds = opensParen cs) : opensParen (bs ++ ds) = opensParen (as ++ cs) := by
  induction h with
  | nil => exact hrest
  | @cons a b as bs hglyph _ ih =>
    cases hglyph with
    | same =>
      rw [List.cons_append, List.cons_append]
      cases ha : Text.isBlank a with
      | true => rw [opensParen_blank ha, opensParen_blank ha, ih]
      | false => rw [opensParen_of_not_blank ha, opensParen_of_not_blank ha]
    | symbol hc hd =>
      obtain ⟨-, -, hblank, hparen⟩ := classes_of_symbol hc
      obtain ⟨-, -, hblank', hparen'⟩ := classes_of_symbol hd
      rw [List.cons_append, List.cons_append, opensParen_of_not_blank hblank,
        opensParen_of_not_blank hblank', hparen, hparen']

theorem IsRespelled.opensParen_eq (h : IsRespelled tokens cs ds) :
    opensParen ds = opensParen cs := by
  induction h with
  | nil => rfl
  | keepBlank hb _ ih => rw [opensParen_blank hb, opensParen_blank hb, ih]
  | addBlank hb _ ih => rw [opensParen_blank hb, ih]
  | token hspelled _ ih => exact opensParen_of_sameGlyph hspelled ih

theorem isLetter_of_isBlank {b : Char} (hb : Text.isBlank b = true) :
    Text.isLetter b = false := by
  rw [Bool.eq_false_iff]
  intro hletter
  rw [Text.isBlank_of_isLetter hletter] at hb
  cases hb

theorem IsRespelled.isCurtailed (h : IsRespelled tokens cs ds) : IsCurtailed ds cs where
  letters := h.takeWhile avoidsSymbols_isLetter fun _ ↦ isLetter_of_isBlank
  numerals := h.takeWhile avoidsSymbols_isNumeric fun _ ↦ isNumeric_of_isBlank
  paren := h.opensParen_eq

end curtailed

section tokens

variable {allowed : List String} {c d : Char} {as bs cs ds : List Char} {tokens : List Token}
  {start : Nat}

theorem front_of_symbol {k : Kind} (hc : Kind.ofSymbol? c = some k) (rest : List Char) :
    front allowed c rest = (k, 1) := by
  have hdigit : Decimal.isDigit c = false :=
    (Bool.or_eq_false_iff.1 (avoidsSymbols_isNumeric c k hc)).1
  rw [front, avoidsSymbols_isLetter c k hc, hdigit, hc]
  rfl

/-- A token that is written with other glyphs stands for the same, and is as long as before. -/
theorem front_of_sameGlyph (h : List.Forall₂ SameGlyph (c :: as) (d :: bs))
    (hlength : (front allowed c (as ++ cs)).2 = (c :: as).length) :
    front allowed d (bs ++ cs) = front allowed c (as ++ cs) := by
  have hsame : c :: as = d :: bs → front allowed d (bs ++ cs) = front allowed c (as ++ cs) := by
    rintro heq
    cases heq
    rfl
  rcases class_of_front hlength with hletters | hnumerals | rfl
  · exact hsame (eq_of_sameGlyph avoidsSymbols_isLetter h hletters)
  · exact hsame (eq_of_sameGlyph avoidsSymbols_isNumeric h hnumerals)
  · cases h with
    | cons hglyph hnil =>
      cases hnil
      cases hglyph with
      | same => rfl
      | symbol hc hd => exact (front_of_symbol hd cs).trans (front_of_symbol hc cs).symm

/--
A respelled text has tokens of the same kinds. The text behind a token is only curtailed, so the
token itself stays what it is.
-/
theorem kinds_of_isRespelled (hroot : ∀ name ∈ allowed, ¬rootName.toList <+: name.toList)
    (h : IsRespelled tokens cs ds) {start start' : Nat}
    (htokens : tokensFrom allowed start cs = tokens) :
    (tokensFrom allowed start' ds).map (·.kind) = tokens.map (·.kind) := by
  induction h generalizing start start' with
  | nil => rw [← htokens, tokensFrom, tokensFrom, Lexeme.scan, Lexeme.scan]
  | keepBlank hb _ ih =>
    rw [tokensFrom_blank hb] at htokens ⊢
    exact ih htokens
  | addBlank hb _ ih =>
    rw [tokensFrom_blank hb]
    exact ih htokens
  | @token token spelled tokens cs ds hspelled h ih =>
    obtain ⟨c, as, hchars, hblank, hfront, start', hrest⟩ :=
      exists_front_of_tokensFrom hroot htokens
    rw [hchars] at hspelled
    have hcurtailed : front allowed c (as ++ ds) = (token.kind, (c :: as).length) :=
      (front_of_isCurtailed (congrArg Prod.snd hfront) h.isCurtailed).trans hfront
    cases hspelled with
    | @cons _ d _ bs hglyph hglyphs =>
      have hblank' : Text.isBlank d = false := hglyph.class_eq avoidsSymbols_isBlank ▸ hblank
      have hfront' : front allowed d (bs ++ ds) = (token.kind, (d :: bs).length) := by
        rw [front_of_sameGlyph (.cons hglyph hglyphs) (congrArg Prod.snd hcurtailed), hcurtailed,
          List.length_cons, List.length_cons, hglyphs.length_eq]
      rw [tokensFrom_append hroot hblank' hfront', List.map_cons, List.map_cons, ih hrest]

end tokens

end SchoolAlgebra.Token
