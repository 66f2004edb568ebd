import Mathlib
import SchoolAlgebra.Proofs.Token.Front

/-!
# What tokens cover

The tokens of a text make up all of it but blanks, and every token stands for the characters that it
covers. If no allowed name starts like the name of the square root, each token is also what the text
from its first character on starts with.
-/

namespace SchoolAlgebra.Token

open Lexeme (numeralLength)

variable {allowed : List String} {c : Char} {as cs : List Char} {k : Kind} {tokens : List Token}
  {start : Nat}

/--
Whether the tokens cover the text that starts at the byte offset: each of them is the first token of
the text from its first character on, and only blanks stand between them.
-/
inductive Covers (allowed : List String) : Nat → List Char → List Token → Prop where
  | nil (start : Nat) : Covers allowed start [] []
  | blank {start : Nat} {c : Char} {cs : List Char} {tokens : List Token}
      (hblank : Text.isBlank c = true) (h : Covers allowed (start + c.utf8Size) cs tokens) :
      Covers allowed start (c :: cs) tokens
  | token {start : Nat} {c : Char} {as cs : List Char} {k : Kind} {tokens : List Token}
      (hblank : Text.isBlank c = false)
      (hfront : front allowed c (as ++ cs) = (k, (c :: as).length))
      (h : Covers allowed (start + Text.byteLength (c :: as)) cs tokens) :
      Covers allowed start (c :: as ++ cs) (⟨k, start, c :: as⟩ :: tokens)

theorem covers_tokensFrom (hroot : ∀ name ∈ allowed, ¬rootName.toList <+: name.toList)
    (start : Nat) (cs : List Char) : Covers allowed start cs (tokensFrom allowed start cs) := by
  induction hn : cs.length using Nat.strong_induction_on generalizing start cs with
  | _ n ih =>
    subst hn
    cases cs with
    | nil =>
      rw [tokensFrom, Lexeme.scan]
      exact .nil start
    | cons c rest =>
      cases hblank : Text.isBlank c with
      | true =>
        rw [tokensFrom_blank hblank]
        exact .blank hblank (ih _ (Nat.lt_succ_self rest.length) _ rest rfl)
      | false =>
        obtain ⟨n, hn, hfront⟩ := exists_front_take allowed c rest
        have hcovers := Covers.token hblank hfront
          (ih (rest.drop n).length (by rw [List.length_drop, List.length_cons]; omega)
            (start + Text.byteLength (c :: rest.take n)) _ rfl)
        rw [List.cons_append, List.take_append_drop] at hcovers
        rw [tokensFrom_cons hroot hblank, hn]
        exact hcovers

/-! ## What characters stand for -/

/-- Whether the characters are a numeral: digits, and digits behind the point if there is one. -/
inductive IsNumeral : List Char → Prop where
  | whole {ds : List Char} (hne : ds ≠ []) (hdigits : ∀ d ∈ ds, Decimal.isDigit d = true) :
      IsNumeral ds
  | decimal {ds fs : List Char} (hne : ds ≠ []) (hdigits : ∀ d ∈ ds, Decimal.isDigit d = true)
      (hfractional : fs ≠ []) (hfractionalDigits : ∀ f ∈ fs, Decimal.isDigit f = true) :
      IsNumeral (ds ++ '.' :: fs)

theorem IsNumeral.isLetter_eq_false (h : IsNumeral cs) : ∀ c ∈ cs, Text.isLetter c = false := by
  cases h with
  | whole _ hdigits => exact fun c hc ↦ Decimal.isLetter_of_isDigit (hdigits c hc)
  | decimal _ hdigits _ hfractional =>
    intro c hc
    rcases List.mem_append.1 hc with hc | hc
    · exact Decimal.isLetter_of_isDigit (hdigits c hc)
    · rcases List.mem_cons.1 hc with rfl | hc
      · rfl
      · exact Decimal.isLetter_of_isDigit (hfractional c hc)

theorem kindOfNumeral_whole {ds : List Char} (hdigits : ∀ d ∈ ds, Decimal.isDigit d = true) :
    kindOfNumeral ds =
      ((Word.int64? (Decimal.natOfDigits ds)).map .integer).getD .integerTooLarge := by
  rw [kindOfNumeral, dropWhile_isDigit hdigits]

theorem kindOfNumeral_decimal {ds fs : List Char}
    (hdigits : ∀ d ∈ ds, Decimal.isDigit d = true) :
    kindOfNumeral (ds ++ '.' :: fs) = .real ((Decimal.ofDigits ds fs).toFloat false) := by
  have hpoint : ∀ d ∈ ('.' :: fs).head?, Decimal.isDigit d = false := by
    intro d hd
    cases hd
    rfl
  rw [kindOfNumeral, dropWhile_append_boundary hdigits hpoint,
    takeWhile_append_boundary hdigits hpoint]

/-- Whether the characters are such that they stand for the kind. -/
inductive StandsFor (allowed : List String) : List Char → Kind → Prop where
  | name {name : String} (hmem : name ∈ allowed) : StandsFor allowed name.toList (.name name)
  | root : StandsFor allowed rootName.toList (.function rootName)
  | function {cs : List Char} (hletters : ∀ c ∈ cs, Text.isLetter c = true) :
      StandsFor allowed cs (.function (String.ofList cs))
  | unresolved {cs : List Char} (hletters : ∀ c ∈ cs, Text.isLetter c = true)
      (hnone : longestName? cs allowed = none) :
      StandsFor allowed cs (.unresolved (String.ofList cs))
  | numeral {cs : List Char} (h : IsNumeral cs) : StandsFor allowed cs (kindOfNumeral cs)
  | symbol {c : Char} (hletter : Text.isLetter c = false) (hdigit : Decimal.isDigit c = false) :
      StandsFor allowed [c] ((Kind.ofSymbol? c).getD (.invalid c))

/-- What is peeled off letters stands for the letters that it takes. -/
theorem standsFor_peel {beforeParen : Bool} {letters : List Char}
    (hletters : ∀ d ∈ letters, Text.isLetter d = true) (has : as <+: letters)
    (hpeel : peel allowed beforeParen letters = (k, as.length)) : StandsFor allowed as k := by
  by_cases hroot : rootName.toList <+: letters
  · rw [peel_of_root hroot, Prod.mk.injEq] at hpeel
    obtain ⟨rfl, hlength⟩ := hpeel
    have heq : rootName.toList = as :=
      (List.prefix_of_prefix_length_le hroot has hlength.le).eq_of_length hlength
    rw [← heq]
    exact .root
  · cases hname : longestName? letters allowed with
    | some name =>
      obtain ⟨hmem, hstarts, -⟩ := longest_of_longestName? hname
      rw [peel_of_name hroot hname, Prod.mk.injEq] at hpeel
      obtain ⟨rfl, hlength⟩ := hpeel
      have heq : name.toList = as :=
        (List.prefix_of_prefix_length_le hstarts has hlength.le).eq_of_length hlength
      rw [← heq]
      exact .name hmem
    | none =>
      rw [peel_of_none hroot hname, Prod.mk.injEq] at hpeel
      obtain ⟨rfl, hlength⟩ := hpeel
      obtain rfl := has.eq_of_length hlength.symm
      cases beforeParen with
      | true => exact .function hletters
      | false => exact .unresolved hletters hname

/-- What a text that starts with a digit starts with is a numeral. -/
theorem isNumeral_take (hdigit : Decimal.isDigit c = true) :
    IsNumeral ((c :: cs).take (numeralLength (c :: cs))) := by
  obtain ⟨ds, hds⟩ : ∃ ds, ds = (c :: cs).takeWhile Decimal.isDigit := ⟨_, rfl⟩
  have hdigits : ∀ d ∈ ds, Decimal.isDigit d = true :=
    fun d hd ↦ List.mem_takeWhile_imp (hds ▸ hd)
  have hne : ds ≠ [] := by
    rw [hds, List.takeWhile_cons_of_pos hdigit]
    exact List.cons_ne_nil _ _
  have hwhole : (c :: cs).take ds.length = ds := by
    rw [hds]
    exact (List.prefix_iff_eq_take.1 (List.takeWhile_prefix _)).symm
  have hsplit : ds ++ (c :: cs).drop ds.length = c :: cs := by
    have happend := List.take_append_drop ds.length (c :: cs)
    rwa [hwhole] at happend
  simp only [numeralLength, ← hds]
  split
  · rename_i fs hpoint
    split
    · exact hwhole.symm ▸ .whole hne hdigits
    · rename_i hsome
      have hdecimal : (c :: cs).take (ds.length + 1 + (fs.takeWhile Decimal.isDigit).length) =
          ds ++ '.' :: fs.takeWhile Decimal.isDigit := by
        rw [← hsplit, hpoint, add_assoc, List.take_length_add_append, add_comm 1,
          List.take_succ_cons, ← List.prefix_iff_eq_take.1 (List.takeWhile_prefix _)]
      rw [hdecimal]
      exact .decimal hne hdigits (fun hnil ↦ hsome (List.length_eq_zero_iff.2 hnil))
        fun f hf ↦ List.mem_takeWhile_imp hf
  · exact hwhole.symm ▸ .whole hne hdigits

/-- The first token stands for its characters. -/
theorem standsFor_front (hfront : front allowed c (as ++ cs) = (k, (c :: as).length)) :
    StandsFor allowed (c :: as) k := by
  rw [front] at hfront
  split at hfront
  · have hlength : (c :: as).length ≤ ((c :: (as ++ cs)).takeWhile Text.isLetter).length := by
      rw [← (Prod.mk.inj hfront).2]
      exact peel_le _ _ _
    have hstarts : c :: as <+: (c :: (as ++ cs)).takeWhile Text.isLetter :=
      List.prefix_of_prefix_length_le (List.prefix_append (c :: as) cs)
        (List.takeWhile_prefix Text.isLetter) hlength
    exact standsFor_peel (fun _ hd ↦ List.mem_takeWhile_imp hd) hstarts hfront
  · rename_i hletter
    split at hfront
    · rename_i hdigit
      obtain ⟨rfl, hlength⟩ := Prod.mk.inj hfront
      have hnumeral : IsNumeral ((c :: (as ++ cs)).take (numeralLength (c :: (as ++ cs)))) :=
        isNumeral_take hdigit
      rw [hlength, ← List.cons_append, List.take_left] at hnumeral ⊢
      exact .numeral hnumeral
    · rename_i hdigit
      obtain ⟨rfl, hlength⟩ := Prod.mk.inj hfront
      obtain rfl : as = [] := by simpa using hlength.symm
      exact .symbol (Bool.eq_false_iff.2 hletter) (Bool.eq_false_iff.2 hdigit)

/-! ## Tilings -/

/--
Whether the text that starts at the byte offset is made up of blanks and of the tokens, in their
order. A token has some characters, none of them blank, and stands for them.
-/
inductive Tiles (allowed : List String) : Nat → List Char → List Token → Prop where
  | nil (start : Nat) : Tiles allowed start [] []
  | blank {start : Nat} {c : Char} {cs : List Char} {tokens : List Token}
      (hblank : Text.isBlank c = true) (h : Tiles allowed (start + c.utf8Size) cs tokens) :
      Tiles allowed start (c :: cs) tokens
  | token {start : Nat} {as cs : List Char} {k : Kind} {tokens : List Token} (hne : as ≠ [])
      (hsolid : ∀ a ∈ as, Text.isBlank a = false) (hkind : StandsFor allowed as k)
      (h : Tiles allowed (start + Text.byteLength as) cs tokens) :
      Tiles allowed start (as ++ cs) (⟨k, start, as⟩ :: tokens)

theorem Tiles.append {bs : List Char} {others : List Token} (h : Tiles allowed start as tokens)
    (h' : Tiles allowed (start + Text.byteLength as) bs others) :
    Tiles allowed start (as ++ bs) (tokens ++ others) := by
  induction h with
  | nil => exact h'
  | blank hblank _ ih =>
    rw [Text.byteLength_cons, ← Nat.add_assoc] at h'
    exact .blank hblank (ih h')
  | token hne hsolid hkind _ ih =>
    rw [Text.byteLength_append, ← Nat.add_assoc] at h'
    rw [List.append_assoc]
    exact .token hne hsolid hkind (ih h')

/-- A token without blanks is a tiling. -/
theorem tiles_singleton (hne : as ≠ []) (hsolid : ∀ a ∈ as, Text.isBlank a = false)
    (hkind : StandsFor allowed as k) : Tiles allowed start as [⟨k, start, as⟩] := by
  have htoken := Tiles.token hne hsolid hkind (.nil (start + Text.byteLength as))
  rwa [List.append_nil] at htoken

/-- The pieces of a run of letters make it up. -/
theorem tiles_peelAll (beforeParen : Bool) (start : Nat)
    (hletters : ∀ d ∈ cs, Text.isLetter d = true) :
    Tiles allowed start cs (peelAll allowed beforeParen start cs) := by
  induction hn : cs.length using Nat.strong_induction_on generalizing start cs with
  | _ n ih =>
    subst hn
    cases cs with
    | nil =>
      rw [peelAll]
      exact .nil start
    | cons c rest =>
      have hpos := peel_pos allowed beforeParen c rest
      have hle := peel_le allowed beforeParen (c :: rest)
      rw [peelAll_cons]
      generalize hpeel : peel allowed beforeParen (c :: rest) = piece at hpos hle ⊢
      obtain ⟨k, n⟩ := piece
      dsimp only at hpos hle ⊢
      have hlength : ((c :: rest).take n).length = n := by rw [List.length_take, min_eq_left hle]
      have hpiece : peel allowed beforeParen (c :: rest) = (k, ((c :: rest).take n).length) := by
        rw [hlength, hpeel]
      have hrest := length_drop_lt hpos c rest
      conv_lhs => rw [← List.take_append_drop n (c :: rest)]
      refine .token (List.ne_nil_of_length_pos (hlength.symm ▸ hpos)) (fun d hd ↦ ?_)
        (standsFor_peel hletters (List.take_prefix n _) hpiece) ?_
      · exact Text.isBlank_of_isLetter (hletters d (List.mem_of_mem_take hd))
      · exact ih _ hrest _ (fun d hd ↦ hletters d (List.mem_of_mem_drop hd)) rfl

/-- The tokens of a run of letters make it up. -/
theorem tiles_ofLetters (beforeParen : Bool) (start : Nat) (hne : cs ≠ [])
    (hletters : ∀ d ∈ cs, Text.isLetter d = true) :
    Tiles allowed start cs (ofLetters allowed beforeParen ⟨start, cs⟩) := by
  rw [ofLetters]
  dsimp only
  split
  · rename_i hmem
    have hname := StandsFor.name hmem
    rw [String.toList_ofList] at hname
    exact tiles_singleton hne (fun d hd ↦ Text.isBlank_of_isLetter (hletters d hd)) hname
  · exact tiles_peelAll beforeParen start hletters

/-- The tokens of the first lexeme make it up. -/
theorem tiles_ofLexeme (beforeParen : Bool) (start : Nat) (hblank : Text.isBlank c = false)
    (rest : List Char) :
    Tiles allowed start ((c :: rest).take (Lexeme.extent (c :: rest)))
      (ofLexeme allowed beforeParen ⟨start, (c :: rest).take (Lexeme.extent (c :: rest))⟩) := by
  cases hletter : Text.isLetter c with
  | true =>
    have hrun : (c :: rest).takeWhile Text.isLetter = c :: rest.takeWhile Text.isLetter :=
      List.takeWhile_cons_of_pos hletter
    have htake : (c :: rest).take (Lexeme.extent (c :: rest)) =
        c :: rest.takeWhile Text.isLetter := by
      rw [Lexeme.extent, if_pos hletter, ← hrun]
      exact (List.prefix_iff_eq_take.1 (List.takeWhile_prefix _)).symm
    rw [htake, ofLexeme]
    simp only [if_pos hletter]
    refine tiles_ofLetters beforeParen start (List.cons_ne_nil _ _) fun d hd ↦ ?_
    exact List.mem_takeWhile_imp (hrun ▸ hd)
  | false =>
    obtain ⟨hextent, hlexeme⟩ : Lexeme.extent (c :: rest) = (front allowed c rest).2 ∧ _ :=
      ofLexeme_front hletter start rest
    obtain ⟨n, hn, hfront⟩ := exists_front_take allowed c rest
    rw [hextent, hlexeme, hn]
    exact tiles_singleton (List.cons_ne_nil _ _) (isBlank_of_front hblank hfront)
      (standsFor_front hfront)

/-- The tokens of a text make it up but for blanks, whatever names are allowed. -/
theorem tiles_tokensFrom (allowed : List String) (start : Nat) (cs : List Char) :
    Tiles allowed start cs (tokensFrom allowed start cs) := by
  induction hn : cs.length using Nat.strong_induction_on generalizing start cs with
  | _ n ih =>
    subst hn
    cases cs with
    | nil =>
      rw [tokensFrom, Lexeme.scan]
      exact .nil start
    | cons c rest =>
      cases hblank : Text.isBlank c with
      | true =>
        rw [tokensFrom_blank hblank]
        exact .blank hblank (ih _ (Nat.lt_succ_self rest.length) _ rest rfl)
      | false =>
        have hshorter := length_drop_lt (Lexeme.extent_pos c rest) c rest
        rw [tokensFrom, Lexeme.scan_cons hblank, ofLexemes]
        conv_lhs => rw [← List.take_append_drop (Lexeme.extent (c :: rest)) (c :: rest)]
        exact (tiles_ofLexeme _ start hblank rest).append (ih _ hshorter _ _ rfl)

theorem tiles_scan (allowed : List String) (text : String) :
    Tiles allowed 0 text.toList (scan allowed text) :=
  tiles_tokensFrom allowed 0 text.toList

theorem Covers.tiles (h : Covers allowed start cs tokens) : Tiles allowed start cs tokens := by
  induction h with
  | nil start => exact .nil start
  | blank hblank _ ih => exact .blank hblank ih
  | token hblank hfront _ ih =>
    exact .token (List.cons_ne_nil _ _) (isBlank_of_front hblank hfront)
      (standsFor_front hfront) ih

/-- Every token stands for its characters. -/
theorem Tiles.standsFor (h : Tiles allowed start cs tokens) :
    ∀ token ∈ tokens, StandsFor allowed token.chars token.kind := by
  induction h with
  | nil => exact fun _ htoken ↦ absurd htoken List.not_mem_nil
  | blank _ _ ih => exact ih
  | token _ _ hkind _ ih => exact List.forall_mem_cons.2 ⟨hkind, ih⟩

theorem Tiles.chars_ne_nil (h : Tiles allowed start cs tokens) :
    ∀ token ∈ tokens, token.chars ≠ [] := by
  induction h with
  | nil => exact fun _ htoken ↦ absurd htoken List.not_mem_nil
  | blank _ _ ih => exact ih
  | token hne _ _ _ ih => exact List.forall_mem_cons.2 ⟨hne, ih⟩

/-- No token starts before the text. -/
theorem Tiles.le_start (h : Tiles allowed start cs tokens) :
    ∀ token ∈ tokens, start ≤ token.start := by
  induction h with
  | nil => exact fun _ htoken ↦ absurd htoken List.not_mem_nil
  | blank _ _ ih => exact fun token htoken ↦ le_trans (Nat.le_add_right _ _) (ih token htoken)
  | token _ _ _ _ ih =>
    refine List.forall_mem_cons.2 ⟨le_rfl, fun token htoken ↦ ?_⟩
    exact le_trans (Nat.le_add_right _ _) (ih token htoken)

/-- A text has no tokens exactly if it is blank. -/
theorem Tiles.eq_nil_iff (h : Tiles allowed start cs tokens) :
    tokens = [] ↔ ∀ c ∈ cs, Text.isBlank c = true := by
  induction h with
  | nil => exact iff_of_true rfl fun _ hc ↦ absurd hc List.not_mem_nil
  | blank hblank _ ih => rw [ih, List.forall_mem_cons, and_iff_right hblank]
  | token hne hsolid _ _ _ =>
    obtain ⟨a, ha⟩ := List.exists_mem_of_ne_nil _ hne
    refine iff_of_false (List.cons_ne_nil _ _) fun hblank ↦ ?_
    exact absurd (hblank a (List.mem_append_left _ ha)) (Bool.eq_false_iff.1 (hsolid a ha))

/-- Every character of a text is a blank or belongs to a token. -/
theorem Tiles.isBlank_or_mem (h : Tiles allowed start cs tokens) {c : Char} (hc : c ∈ cs) :
    Text.isBlank c = true ∨ ∃ token ∈ tokens, c ∈ token.chars := by
  induction h with
  | nil => cases hc
  | blank hblank _ ih =>
    rcases List.mem_cons.1 hc with rfl | hc
    · exact .inl hblank
    · exact ih hc
  | token _ _ _ _ ih =>
    rcases List.mem_append.1 hc with hc | hc
    · exact .inr ⟨_, List.mem_cons_self, hc⟩
    · rcases ih hc with hblank | ⟨token, htoken, hmem⟩
      · exact .inl hblank
      · exact .inr ⟨token, List.mem_cons_of_mem _ htoken, hmem⟩

/-- Whether letters stand for the kind. -/
def Kind.isWord : Kind → Bool
  | .name _ | .function _ | .unresolved _ => true
  | _ => false

theorem isNumber_kindOfNumeral (cs : List Char) : (kindOfNumeral cs).isNumber = true := by
  unfold kindOfNumeral
  split
  · rfl
  · cases Word.int64? (Decimal.natOfDigits cs) <;> rfl

theorem isWord_kindOfNumeral (cs : List Char) : (kindOfNumeral cs).isWord = false := by
  have hnumber := isNumber_kindOfNumeral cs
  cases hk : kindOfNumeral cs with
  | name | function | unresolved => rw [hk] at hnumber; cases hnumber
  | _ => rfl

theorem isWord_ofSymbol? (c : Char) : ((Kind.ofSymbol? c).getD (.invalid c)).isWord = false := by
  unfold Kind.ofSymbol?
  split <;> rfl

/-- A token that stands for a name stands for an allowed one. -/
theorem StandsFor.mem_of_name {name : String} (h : StandsFor allowed cs (.name name)) :
    name ∈ allowed := by
  generalize hk : Kind.name name = k at h
  cases h with
  | name hmem => exact (Kind.name.inj hk) ▸ hmem
  | numeral => exact absurd (isWord_kindOfNumeral cs) (by rw [← hk]; nofun)
  | symbol => exact absurd (isWord_ofSymbol? _) (by rw [← hk]; nofun)
  | _ => cases hk

/-- Letters left over are the characters of their token. -/
theorem StandsFor.eq_of_unresolved {run : String} (h : StandsFor allowed cs (.unresolved run)) :
    run = String.ofList cs := by
  generalize hk : Kind.unresolved run = k at h
  cases h with
  | unresolved => exact Kind.unresolved.inj hk
  | numeral => exact absurd (isWord_kindOfNumeral cs) (by rw [← hk]; nofun)
  | symbol => exact absurd (isWord_ofSymbol? _) (by rw [← hk]; nofun)
  | _ => cases hk

/-- A token of a number is a numeral. -/
theorem StandsFor.isNumeral (h : StandsFor allowed cs k) (hk : k.isNumber = true) :
    IsNumeral cs ∧ kindOfNumeral cs = k := by
  cases h with
  | numeral h => exact ⟨h, rfl⟩
  | symbol =>
    unfold Kind.ofSymbol? at hk
    split at hk <;> cases hk
  | _ => cases hk

end SchoolAlgebra.Token
