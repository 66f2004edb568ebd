import Mathlib
import SchoolAlgebra.Proofs.Token.Writing

/-!
# The first token of a text

If no allowed name starts like the name of the square root, a text is cut token by token: what the
first token is, and where it ends, depends on the letters left in its run and on whether a
parenthesis follows the run, and not on where the run began. That a whole run may be a name needs no
rule of its own then, since such a name is the longest one at its start.
-/

namespace SchoolAlgebra.Token

/-- A text is longer than what is left of it behind some of its characters. -/
theorem length_drop_lt {n : Nat} (hn : 0 < n) (c : Char) (rest : List Char) :
    ((c :: rest).drop n).length < (c :: rest).length := by
  rw [List.length_drop]
  exact Nat.sub_lt (Nat.succ_pos _) hn

section longestName

variable {letters : List Char} {allowed : List String} {name other : String}

theorem longestName?_eq_none_iff :
    longestName? letters allowed = none ↔
      ∀ name ∈ allowed, name.toList <+: letters → name = "" := by
  induction allowed with
  | nil => simp [longestName?]
  | cons first others ih =>
    by_cases hfirst : first.toList <+: letters ∧ first ≠ ""
    · have hcandidate : (first.toList.isPrefixOf letters && first != "") = true := by
        simpa using hfirst
      simp only [longestName?, hcandidate, if_true]
      constructor
      · intro h
        cases hbest : longestName? letters others with
        | none =>
          rw [hbest] at h
          cases h
        | some other =>
          rw [hbest] at h
          dsimp only at h
          split at h <;> cases h
      · exact fun h ↦ absurd (h first List.mem_cons_self hfirst.1) hfirst.2
    · have hcandidate : (first.toList.isPrefixOf letters && first != "") = false := by
        simpa [Bool.eq_false_iff] using hfirst
      simp only [longestName?, hcandidate, Bool.false_eq_true, if_false, ih, List.forall_mem_cons]
      exact ⟨fun h ↦ ⟨fun hstarts ↦ by simpa [hstarts] using hfirst, h⟩, fun h ↦ h.2⟩

/-- The longest name is allowed, starts the letters, and no other one that does is longer. -/
theorem longest_of_longestName? (h : longestName? letters allowed = some name) :
    name ∈ allowed ∧ name.toList <+: letters ∧
      ∀ other ∈ allowed, other.toList <+: letters → other.length ≤ name.length := by
  induction allowed generalizing name with
  | nil => cases h
  | cons first others ih =>
    by_cases hfirst : first.toList <+: letters ∧ first ≠ ""
    · have hcandidate : (first.toList.isPrefixOf letters && first != "") = true := by
        simpa using hfirst
      simp only [longestName?, hcandidate, if_true] at h
      cases hbest : longestName? letters others with
      | none =>
        rw [hbest] at h
        cases h
        refine ⟨List.mem_cons_self, hfirst.1, List.forall_mem_cons.2 ⟨fun _ ↦ le_rfl, ?_⟩⟩
        intro other hother hstarts
        rw [longestName?_eq_none_iff.1 hbest other hother hstarts]
        exact Nat.zero_le _
      | some best =>
        obtain ⟨hmem, hstarts, hlongest⟩ := ih hbest
        rw [hbest] at h
        dsimp only at h
        split at h
        · rename_i hlt
          cases h
          exact ⟨List.mem_cons_of_mem _ hmem, hstarts,
            List.forall_mem_cons.2 ⟨fun _ ↦ hlt.le, hlongest⟩⟩
        · rename_i hle
          cases h
          refine ⟨List.mem_cons_self, hfirst.1, List.forall_mem_cons.2 ⟨fun _ ↦ le_rfl, ?_⟩⟩
          exact fun other hother hother' ↦ (hlongest other hother hother').trans (not_lt.1 hle)
    · have hcandidate : (first.toList.isPrefixOf letters && first != "") = false := by
        simpa [Bool.eq_false_iff] using hfirst
      simp only [longestName?, hcandidate, Bool.false_eq_true, if_false] at h
      obtain ⟨hmem, hstarts, hlongest⟩ := ih h
      refine ⟨List.mem_cons_of_mem _ hmem, hstarts,
        List.forall_mem_cons.2 ⟨fun hfirst' ↦ ?_, hlongest⟩⟩
      have hempty : first = "" := by simpa [hfirst'] using hfirst
      rw [hempty]
      exact Nat.zero_le _

/-- Of the names that start the letters, only one is the longest. -/
theorem longestName?_eq_some (hmem : name ∈ allowed) (hne : name ≠ "")
    (hstarts : name.toList <+: letters)
    (hlongest : ∀ other ∈ allowed, other.toList <+: letters → other.length ≤ name.length) :
    longestName? letters allowed = some name := by
  cases h : longestName? letters allowed with
  | none => exact absurd (longestName?_eq_none_iff.1 h name hmem hstarts) hne
  | some other =>
    obtain ⟨hmem', hstarts', hlongest'⟩ := longest_of_longestName? h
    have hlength : name.toList.length = other.toList.length :=
      le_antisymm (hlongest' name hmem hstarts) (hlongest other hmem' hstarts')
    have heq : name.toList = other.toList :=
      (List.prefix_of_prefix_length_le hstarts hstarts' hlength.le).eq_of_length hlength
    rw [String.toList_inj.1 heq]

end longestName

section peel

variable {allowed : List String} {beforeParen beforeParen' : Bool} {letters as bs bs' : List Char}

theorem peel_of_root (h : rootName.toList <+: letters) :
    peel allowed beforeParen letters = (.function rootName, rootName.length) := by
  rw [peel, if_pos (List.isPrefixOf_iff_prefix.2 h)]

theorem peel_of_name {name : String} (hroot : ¬rootName.toList <+: letters)
    (h : longestName? letters allowed = some name) :
    peel allowed beforeParen letters = (.name name, name.length) := by
  rw [peel, if_neg (List.isPrefixOf_iff_prefix.not.2 hroot), h]

theorem peel_of_none (hroot : ¬rootName.toList <+: letters)
    (h : longestName? letters allowed = none) :
    peel allowed beforeParen letters =
      (if beforeParen then .function (String.ofList letters)
        else .unresolved (String.ofList letters), letters.length) := by
  rw [peel, if_neg (List.isPrefixOf_iff_prefix.not.2 hroot), h]

theorem peel_le (allowed : List String) (beforeParen : Bool) (letters : List Char) :
    (peel allowed beforeParen letters).2 ≤ letters.length := by
  by_cases hroot : rootName.toList <+: letters
  · rw [peel_of_root hroot]
    exact hroot.length_le
  · cases h : longestName? letters allowed with
    | none =>
      rw [peel_of_none hroot h]
    | some name =>
      rw [peel_of_name hroot h]
      exact (longest_of_longestName? h).2.1.length_le

/--
What is peeled off depends on no letters behind it, unless no name is peeled off: a longer name
would already have been the longest before more letters.
-/
theorem peel_append (hlength : (peel allowed beforeParen (as ++ bs)).2 = as.length)
    (hstarts : bs' <+: bs) (hend : bs = [] → beforeParen' = beforeParen) :
    peel allowed beforeParen' (as ++ bs') = peel allowed beforeParen (as ++ bs) := by
  have hshorter : as ++ bs' <+: as ++ bs := (List.prefix_append_right_inj as).2 hstarts
  by_cases hroot : rootName.toList <+: as ++ bs
  · rw [peel_of_root hroot] at hlength ⊢
    have hfront : rootName.toList <+: as :=
      List.prefix_of_prefix_length_le hroot (List.prefix_append as bs) hlength.le
    exact peel_of_root (hfront.trans (List.prefix_append as bs'))
  · have hroot' : ¬rootName.toList <+: as ++ bs' := fun h ↦ hroot (h.trans hshorter)
    cases h : longestName? (as ++ bs) allowed with
    | none =>
      rw [peel_of_none hroot h] at hlength
      have hbs : bs = [] := by simpa using hlength
      cases hbs
      rw [List.prefix_nil.1 hstarts, hend rfl]
    | some name =>
      obtain ⟨hmem, hname, hlongest⟩ := longest_of_longestName? h
      rw [peel_of_name hroot h] at hlength ⊢
      have hfront : name.toList <+: as :=
        List.prefix_of_prefix_length_le hname (List.prefix_append as bs) hlength.le
      exact peel_of_name hroot' (longestName?_eq_some hmem (ne_empty_of_longestName? h)
        (hfront.trans (List.prefix_append as bs'))
        fun other hother hother' ↦ hlongest other hother (hother'.trans hshorter))

end peel

section runs

variable {allowed : List String}

theorem peelAll_cons (beforeParen : Bool) (start : Nat) (c : Char) (rest : List Char) :
    peelAll allowed beforeParen start (c :: rest) =
      let piece := peel allowed beforeParen (c :: rest)
      let chars := (c :: rest).take piece.2
      ⟨piece.1, start, chars⟩ ::
        peelAll allowed beforeParen (start + Text.byteLength chars) ((c :: rest).drop piece.2) := by
  rw [peelAll]

theorem peel_of_mem (hroot : ∀ name ∈ allowed, ¬rootName.toList <+: name.toList) {name : String}
    (hmem : name ∈ allowed) (hne : name ≠ "") (beforeParen : Bool) :
    peel allowed beforeParen name.toList = (.name name, name.length) :=
  peel_of_name (hroot name hmem) <|
    longestName?_eq_some hmem hne List.prefix_rfl fun _ _ hstarts ↦ hstarts.length_le

/-- A run that is a name as a whole is also peeled off as a whole. -/
theorem ofLetters_eq_peelAll (hroot : ∀ name ∈ allowed, ¬rootName.toList <+: name.toList)
    (beforeParen : Bool) (start : Nat) (c : Char) (rest : List Char) :
    ofLetters allowed beforeParen ⟨start, c :: rest⟩ =
      peelAll allowed beforeParen start (c :: rest) := by
  obtain ⟨name, hname⟩ : ∃ name : String, name.toList = c :: rest :=
    ⟨String.ofList (c :: rest), String.toList_ofList⟩
  by_cases hmem : name ∈ allowed
  · have hne : name ≠ "" := by
      rintro rfl
      cases hname
    have hpeel := peel_of_mem hroot hmem hne beforeParen
    have hlength : name.length = (c :: rest).length := by rw [← hname, String.length_toList]
    rw [hname, hlength] at hpeel
    rw [peelAll_cons, hpeel]
    simp only [List.take_length, List.drop_length]
    rw [peelAll, ofLetters, ← hname, String.ofList_toList, if_pos hmem]
  · rw [ofLetters, ← hname, String.ofList_toList, if_neg hmem]

end runs

theorem takeWhile_prefix_takeWhile {as bs : List Char} (condition : Char → Bool) (h : as <+: bs) :
    as.takeWhile condition <+: bs.takeWhile condition := by
  obtain ⟨rest, rfl⟩ := h
  rw [List.takeWhile_append]
  split
  · exact (List.takeWhile_prefix condition).trans (List.prefix_append as _)
  · exact List.prefix_rfl

/-- Where a run ends depends on no characters behind it. -/
theorem length_takeWhile_append {as bs bs' : List Char} {condition : Char → Bool}
    (hlength : ((as ++ bs).takeWhile condition).length = as.length) (hstarts : bs' <+: bs) :
    ((as ++ bs').takeWhile condition).length = as.length := by
  rw [List.takeWhile_append] at hlength ⊢
  split at hlength
  · rename_i hall
    have hle := (takeWhile_prefix_takeWhile condition hstarts).length_le
    rw [List.length_append] at hlength
    rw [if_pos hall, List.length_append]
    omega
  · contradiction

section numerals

open Lexeme (numeralLength)

variable {as bs bs' : List Char}

/-- Whether the character may stand in a numeral. -/
def isNumeric (c : Char) : Bool := Decimal.isDigit c || c == '.'

theorem isNumeric_of_isBlank {b : Char} (hb : Text.isBlank b = true) : isNumeric b = false := by
  rw [isNumeric, Bool.or_eq_false_iff, Bool.eq_false_iff, beq_eq_false_iff_ne]
  constructor
  · intro hdigit
    rw [Decimal.isBlank_of_isDigit hdigit] at hb
    cases hb
  · rintro rfl
    exact absurd hb (by decide)

theorem numeralLength_cons (c : Char) (cs : List Char) :
    numeralLength (c :: cs) =
      if Decimal.isDigit c then numeralLength cs + 1
      else if c = '.' then
        if (cs.takeWhile Decimal.isDigit).length = 0 then 0
        else (cs.takeWhile Decimal.isDigit).length + 1
      else 0 := by
  by_cases hdigit : Decimal.isDigit c = true
  · rw [if_pos hdigit]
    simp only [numeralLength, List.takeWhile_cons_of_pos hdigit, List.length_cons,
      List.drop_succ_cons]
    split
    · split <;> omega
    · rfl
  · rw [if_neg hdigit]
    simp only [numeralLength, List.takeWhile_cons_of_neg hdigit, List.length_nil, List.drop_zero]
    split
    · rename_i h
      cases h
      rw [if_pos rfl]
      split <;> omega
    · rename_i hpoint
      rw [if_neg fun hc ↦ hpoint cs (by rw [hc])]

/-- A numeral takes only characters that may stand in one. -/
theorem numeralLength_takeWhile (cs : List Char) :
    numeralLength (cs.takeWhile isNumeric) = numeralLength cs := by
  have hclass : (fun d ↦ decide (Decimal.isDigit d = true ∧ isNumeric d = true)) =
      Decimal.isDigit := by
    funext d
    cases h : Decimal.isDigit d <;> simp [isNumeric, h]
  induction cs with
  | nil => rfl
  | cons c cs ih =>
    by_cases hc : isNumeric c = true
    · rw [List.takeWhile_cons_of_pos hc, numeralLength_cons, numeralLength_cons, ih,
        List.takeWhile_takeWhile, hclass]
    · obtain ⟨hdigit, hpoint⟩ : ¬Decimal.isDigit c = true ∧ c ≠ '.' := by
        simpa [isNumeric] using hc
      rw [List.takeWhile_cons_of_neg hc, numeralLength_cons, if_neg hdigit, if_neg hpoint]
      rfl

theorem numeralLength_le (cs : List Char) : numeralLength cs ≤ cs.length := by
  induction cs with
  | nil => exact le_rfl
  | cons c cs ih =>
    have hrun := (List.takeWhile_prefix Decimal.isDigit (l := cs)).length_le
    rw [numeralLength_cons, List.length_cons]
    split_ifs <;> omega

/-- A numeral depends on no characters behind it. -/
theorem numeralLength_append (hlength : numeralLength (as ++ bs) = as.length)
    (hstarts : bs' <+: bs) : numeralLength (as ++ bs') = as.length := by
  induction as with
  | nil =>
    cases bs' with
    | nil => rfl
    | cons c bs' =>
      obtain ⟨rest, rfl⟩ := hstarts
      have hrun := (takeWhile_prefix_takeWhile Decimal.isDigit
        (List.prefix_append bs' rest)).length_le
      rw [List.nil_append, List.cons_append, numeralLength_cons, List.length_nil] at hlength
      rw [List.nil_append, numeralLength_cons, List.length_nil]
      split_ifs at hlength ⊢ <;> omega
  | cons a as ih =>
    rw [List.cons_append, numeralLength_cons, List.length_cons] at hlength ⊢
    by_cases hdigit : Decimal.isDigit a = true
    · rw [if_pos hdigit] at hlength ⊢
      rw [ih (Nat.succ.inj hlength)]
    · rw [if_neg hdigit] at hlength ⊢
      split_ifs at hlength ⊢ with hpoint
      all_goals
        have hrun := length_takeWhile_append (Nat.succ.inj hlength) hstarts
        omega

end numerals

/-! ## The first token -/

section front

open Lexeme (numeralLength)

variable {allowed : List String} {c : Char} {cs rest : List Char} {start : Nat}

/-- Whether the first character that is not blank is an opening parenthesis. -/
def opensParen (cs : List Char) : Bool := (cs.dropWhile Text.isBlank).head? == some '('

theorem opensParen_blank {b : Char} (hb : Text.isBlank b = true) (cs : List Char) :
    opensParen (b :: cs) = opensParen cs := by
  rw [opensParen, List.dropWhile_cons_of_pos hb, opensParen]

theorem opensParen_of_not_blank {c : Char} (hc : Text.isBlank c = false) (cs : List Char) :
    opensParen (c :: cs) = (c == '(') := by
  rw [opensParen, List.dropWhile_cons_of_neg (by rw [hc]; exact Bool.false_ne_true)]
  rfl

/--
What the first token of a text that starts with no blank stands for, and how many characters it
takes.
-/
def front (allowed : List String) (c : Char) (rest : List Char) : Kind × Nat :=
  if Text.isLetter c then
    peel allowed (opensParen ((c :: rest).dropWhile Text.isLetter))
      ((c :: rest).takeWhile Text.isLetter)
  else if Decimal.isDigit c then
    (kindOfNumeral ((c :: rest).take (numeralLength (c :: rest))), numeralLength (c :: rest))
  else ((Kind.ofSymbol? c).getD (.invalid c), 1)

theorem front_pos (allowed : List String) (c : Char) (rest : List Char) :
    0 < (front allowed c rest).2 := by
  rw [front]
  split
  · rename_i hletter
    rw [List.takeWhile_cons_of_pos hletter]
    exact peel_pos _ _ _ _
  · split
    · rename_i hdigit
      rw [numeralLength_cons, if_pos hdigit]
      exact Nat.succ_pos _
    · exact Nat.one_pos

theorem front_le (allowed : List String) (c : Char) (rest : List Char) :
    (front allowed c rest).2 ≤ (c :: rest).length := by
  rw [front]
  split
  · exact (peel_le _ _ _).trans (List.takeWhile_prefix _).length_le
  · split
    · exact numeralLength_le _
    · exact Nat.le_add_left 1 rest.length

/-- A text is split behind its first token. -/
theorem exists_front_take (allowed : List String) (c : Char) (rest : List Char) :
    ∃ n, (front allowed c rest).2 = n + 1 ∧ front allowed c (rest.take n ++ rest.drop n) =
      ((front allowed c rest).1, (c :: rest.take n).length) := by
  obtain ⟨n, hn⟩ := Nat.exists_eq_add_one_of_ne_zero (front_pos allowed c rest).ne'
  have hle : n ≤ rest.length := by
    have hle := front_le allowed c rest
    rw [hn, List.length_cons] at hle
    exact Nat.le_of_succ_le_succ hle
  refine ⟨n, hn, ?_⟩
  rw [List.take_append_drop, List.length_cons, List.length_take, min_eq_left hle, ← hn]

/-- The tokens of a text that starts at the given byte offset. -/
def tokensFrom (allowed : List String) (start : Nat) (cs : List Char) : List Token :=
  ofLexemes allowed (Lexeme.scan start cs)

theorem tokensFrom_blank (hc : Text.isBlank c = true) :
    tokensFrom allowed start (c :: rest) = tokensFrom allowed (start + c.utf8Size) rest := by
  rw [tokensFrom, Lexeme.scan_blank hc, tokensFrom]

theorem isParen_head?_scan (start : Nat) (cs : List Char) :
    (((Lexeme.scan start cs).head?.map (·.chars == ['('])).getD false) = opensParen cs := by
  induction cs generalizing start with
  | nil =>
    rw [Lexeme.scan]
    rfl
  | cons c cs ih =>
    by_cases hc : Text.isBlank c = true
    · rw [Lexeme.scan_blank hc, ih, opensParen, opensParen, List.dropWhile_cons_of_pos hc]
    · have hchars : ((c :: cs).take (Lexeme.extent (c :: cs)) == ['(']) = (c == '(') := by
        by_cases hparen : c = '('
        · subst hparen
          rfl
        · obtain ⟨n, hn⟩ := Nat.exists_eq_add_one_of_ne_zero (Lexeme.extent_pos c cs).ne'
          simp [hn, hparen]
      rw [opensParen, List.dropWhile_cons_of_neg hc, Lexeme.scan, if_neg hc]
      simpa using hchars

/-- A run of letters makes its own tokens, which depend on whether a parenthesis follows. -/
theorem tokensFrom_run (hne : cs ≠ []) (hletters : ∀ d ∈ cs, Text.isLetter d = true)
    (hrest : ∀ d ∈ rest.head?, Text.isLetter d = false) :
    tokensFrom allowed start (cs ++ rest) =
      ofLetters allowed (opensParen rest) ⟨start, cs⟩ ++
        tokensFrom allowed (start + Text.byteLength cs) rest := by
  obtain ⟨c, cs, rfl⟩ := List.exists_cons_of_ne_nil hne
  have hc := hletters c List.mem_cons_self
  rw [tokensFrom, Lexeme.scan_append (Text.isBlank_of_isLetter hc)
    (Lexeme.extent_letters hletters hrest), ofLexemes, ofLexeme, isParen_head?_scan]
  simp only [if_pos hc]
  rfl

theorem tokensFrom_letters (hroot : ∀ name ∈ allowed, ¬rootName.toList <+: name.toList)
    (hletters : ∀ d ∈ cs, Text.isLetter d = true)
    (hrest : ∀ d ∈ rest.head?, Text.isLetter d = false) :
    tokensFrom allowed start (cs ++ rest) =
      peelAll allowed (opensParen rest) start cs ++
        tokensFrom allowed (start + Text.byteLength cs) rest := by
  cases cs with
  | nil =>
    rw [peelAll]
    rfl
  | cons c cs =>
    rw [tokensFrom_run (List.cons_ne_nil c cs) hletters hrest, ofLetters_eq_peelAll hroot]

/-- The first token of a run of letters, and what is left of the run. -/
theorem tokensFrom_peel (hroot : ∀ name ∈ allowed, ¬rootName.toList <+: name.toList)
    (hletters : ∀ d ∈ c :: cs, Text.isLetter d = true)
    (hrest : ∀ d ∈ rest.head?, Text.isLetter d = false) :
    tokensFrom allowed start (c :: cs ++ rest) =
      let piece := peel allowed (opensParen rest) (c :: cs)
      let chars := (c :: cs).take piece.2
      ⟨piece.1, start, chars⟩ ::
        tokensFrom allowed (start + Text.byteLength chars) ((c :: cs).drop piece.2 ++ rest) := by
  have hdrop : ∀ n, ∀ d ∈ (c :: cs).drop n, Text.isLetter d = true :=
    fun n d hd ↦ hletters d (List.mem_of_mem_drop hd)
  rw [tokensFrom_letters hroot hletters hrest, peelAll_cons]
  dsimp only
  rw [tokensFrom_letters hroot (hdrop _) hrest, List.cons_append, Nat.add_assoc,
    ← Text.byteLength_append, List.take_append_drop]

/-- A lexeme that is no run of letters is one token. -/
theorem ofLexeme_front (hletter : Text.isLetter c = false) (start : Nat) (rest : List Char) :
    Lexeme.extent (c :: rest) = (front allowed c rest).2 ∧
      ∀ beforeParen, ofLexeme allowed beforeParen
        ⟨start, (c :: rest).take (front allowed c rest).2⟩ =
          [⟨(front allowed c rest).1, start, (c :: rest).take (front allowed c rest).2⟩] := by
  obtain ⟨n, hn⟩ := Nat.exists_eq_add_one_of_ne_zero (Lexeme.extent_pos c rest).ne'
  have hnot : ¬Text.isLetter c = true := by rw [hletter]; exact Bool.false_ne_true
  by_cases hdigit : Decimal.isDigit c = true
  · have hextent : Lexeme.extent (c :: rest) = numeralLength (c :: rest) := by
      rw [Lexeme.extent, if_neg hnot, if_pos hdigit]
    rw [front, if_neg hnot, if_pos hdigit, ← hextent, hn]
    refine ⟨rfl, fun beforeParen ↦ ?_⟩
    rw [ofLexeme, List.take_succ_cons]
    simp only [if_neg hnot, if_pos hdigit]
  · have hextent : Lexeme.extent (c :: rest) = 1 := by
      rw [Lexeme.extent, if_neg hnot, if_neg hdigit]
    rw [front, if_neg hnot, if_neg hdigit, hextent]
    refine ⟨rfl, fun beforeParen ↦ ?_⟩
    rw [ofLexeme, List.take_succ_cons]
    simp only [if_neg hnot, if_neg hdigit]

/-- A text that starts with neither a blank nor a letter is its first token, and then a text. -/
theorem tokensFrom_of_not_isLetter (hblank : Text.isBlank c = false)
    (hletter : Text.isLetter c = false) (start : Nat) (rest : List Char) :
    tokensFrom allowed start (c :: rest) =
      ⟨(front allowed c rest).1, start, (c :: rest).take (front allowed c rest).2⟩ ::
        tokensFrom allowed
          (start + Text.byteLength ((c :: rest).take (front allowed c rest).2))
          ((c :: rest).drop (front allowed c rest).2) := by
  obtain ⟨hextent, hlexeme⟩ := ofLexeme_front hletter start rest
  rw [tokensFrom, Lexeme.scan_cons hblank, ofLexemes, hextent, hlexeme]
  rfl

/-- A text that starts with no blank is its first token, and then a text behind this token. -/
theorem tokensFrom_cons (hroot : ∀ name ∈ allowed, ¬rootName.toList <+: name.toList)
    (hblank : Text.isBlank c = false) (start : Nat) (rest : List Char) :
    tokensFrom allowed start (c :: rest) =
      ⟨(front allowed c rest).1, start, (c :: rest).take (front allowed c rest).2⟩ ::
        tokensFrom allowed
          (start + Text.byteLength ((c :: rest).take (front allowed c rest).2))
          ((c :: rest).drop (front allowed c rest).2) := by
  cases hletter : Text.isLetter c with
  | true =>
    have hrun : c :: rest = c :: rest.takeWhile Text.isLetter ++ rest.dropWhile Text.isLetter := by
      rw [List.cons_append, List.takeWhile_append_dropWhile]
    have hletters : ∀ d ∈ c :: rest.takeWhile Text.isLetter, Text.isLetter d = true :=
      List.forall_mem_cons.2 ⟨hletter, fun d hd ↦ List.mem_takeWhile_imp hd⟩
    have hafter : ∀ d ∈ (rest.dropWhile Text.isLetter).head?, Text.isLetter d = false := by
      intro d hd
      have hhead := List.head?_dropWhile_not Text.isLetter rest
      rw [Option.mem_def.1 hd] at hhead
      simpa using hhead
    have hfront : front allowed c rest = peel allowed (opensParen (rest.dropWhile Text.isLetter))
        (c :: rest.takeWhile Text.isLetter) := by
      rw [front, if_pos hletter, List.takeWhile_cons_of_pos hletter,
        List.dropWhile_cons_of_pos hletter]
    have hle := peel_le allowed (opensParen (rest.dropWhile Text.isLetter))
      (c :: rest.takeWhile Text.isLetter)
    rw [hfront]
    conv_lhs => rw [hrun, tokensFrom_peel hroot hletters hafter]
    conv_rhs => rw [hrun, List.take_append_of_le_length hle, List.drop_append_of_le_length hle]
  | false => exact tokensFrom_of_not_isLetter hblank hletter start rest

theorem exists_chars_of_tokensFrom (hroot : ∀ name ∈ allowed, ¬rootName.toList <+: name.toList)
    {token : Token} {tokens : List Token} (h : tokensFrom allowed start cs = token :: tokens) :
    ∃ c as, token.chars = c :: as ∧ Text.isBlank c = false := by
  induction cs generalizing start with
  | nil =>
    rw [tokensFrom, Lexeme.scan] at h
    cases h
  | cons c cs ih =>
    cases hblank : Text.isBlank c with
    | true =>
      rw [tokensFrom_blank hblank] at h
      exact ih h
    | false =>
      obtain ⟨n, hn⟩ := Nat.exists_eq_add_one_of_ne_zero (front_pos allowed c cs).ne'
      rw [tokensFrom_cons hroot hblank, hn] at h
      cases h
      exact ⟨c, cs.take n, rfl, hblank⟩

/-- A text that starts with a token is cut behind it. -/
theorem tokensFrom_append (hroot : ∀ name ∈ allowed, ¬rootName.toList <+: name.toList)
    {as : List Char} {k : Kind} (hblank : Text.isBlank c = false)
    (hfront : front allowed c (as ++ cs) = (k, (c :: as).length)) :
    tokensFrom allowed start (c :: as ++ cs) =
      ⟨k, start, c :: as⟩ :: tokensFrom allowed (start + Text.byteLength (c :: as)) cs := by
  rw [List.cons_append, tokensFrom_cons hroot hblank, hfront]
  dsimp only
  rw [← List.cons_append, List.take_left, List.drop_left]

/-- What the first token is, if a text starts with its characters. -/
theorem exists_front_of_tokensFrom (hroot : ∀ name ∈ allowed, ¬rootName.toList <+: name.toList)
    {token : Token} {tokens : List Token}
    (h : tokensFrom allowed start (token.chars ++ cs) = token :: tokens) :
    ∃ c as, token.chars = c :: as ∧ Text.isBlank c = false ∧
      front allowed c (as ++ cs) = (token.kind, (c :: as).length) ∧
      ∃ start', tokensFrom allowed start' cs = tokens := by
  obtain ⟨c, as, hchars, hblank⟩ := exists_chars_of_tokensFrom hroot h
  rw [hchars, List.cons_append, tokensFrom_cons hroot hblank] at h
  obtain ⟨htoken, hrest⟩ := List.cons.inj h
  have hlength : (front allowed c (as ++ cs)).2 = (c :: as).length := by
    have htake : ((c :: (as ++ cs)).take (front allowed c (as ++ cs)).2).length =
        (c :: as).length := by
      rw [← hchars, ← htoken]
    rwa [List.length_take, min_eq_left (front_le allowed c (as ++ cs))] at htake
  have hkind : (front allowed c (as ++ cs)).1 = token.kind := by rw [← htoken]
  rw [hlength, ← List.cons_append, List.drop_left] at hrest
  exact ⟨c, as, hchars, hblank, Prod.ext hkind hlength, _, hrest⟩

end front

/-! ## Text behind the first token -/

section curtailed

open Lexeme (numeralLength)

variable {allowed : List String} {c : Char} {as cs ds : List Char}

/--
Whether letters or a numeral before the first text go on in it for no longer than in the second one,
and a parenthesis opens both texts or neither.
-/
structure IsCurtailed (ds cs : List Char) : Prop where
  letters : ds.takeWhile Text.isLetter <+: cs.takeWhile Text.isLetter
  numerals : ds.takeWhile isNumeric <+: cs.takeWhile isNumeric
  paren : opensParen ds = opensParen cs

theorem forall_of_le_takeWhile {condition : Char → Bool}
    (h : as.length ≤ ((as ++ cs).takeWhile condition).length) : ∀ a ∈ as, condition a = true := by
  have hrun : as <+: (as ++ cs).takeWhile condition :=
    List.prefix_of_prefix_length_le (List.prefix_append as cs) (List.takeWhile_prefix condition) h
  exact fun a ha ↦ List.mem_takeWhile_imp (hrun.subset ha)

theorem dropWhile_eq_self {condition : Char → Bool} (h : cs.takeWhile condition = []) :
    cs.dropWhile condition = cs := by
  have hrun := List.takeWhile_append_dropWhile (p := condition) (l := cs)
  rwa [h, List.nil_append] at hrun

/-- Only letters that run up to the end of their run ask what follows the run. -/
theorem peel_of_isCurtailed (as : List Char)
    (hlength : (peel allowed (opensParen ((as ++ cs).dropWhile Text.isLetter))
      ((as ++ cs).takeWhile Text.isLetter)).2 = as.length)
    (h : IsCurtailed ds cs) :
    peel allowed (opensParen ((as ++ ds).dropWhile Text.isLetter))
        ((as ++ ds).takeWhile Text.isLetter) =
      peel allowed (opensParen ((as ++ cs).dropWhile Text.isLetter))
        ((as ++ cs).takeWhile Text.isLetter) := by
  have hall : ∀ a ∈ as, Text.isLetter a = true :=
    forall_of_le_takeWhile (hlength.symm.le.trans (peel_le allowed _ _))
  rw [List.takeWhile_append_of_pos hall, List.dropWhile_append_of_pos hall] at hlength ⊢
  rw [List.takeWhile_append_of_pos hall, List.dropWhile_append_of_pos hall]
  refine peel_append hlength h.letters fun hend ↦ ?_
  have hend' : ds.takeWhile Text.isLetter = [] := List.prefix_nil.1 (hend ▸ h.letters)
  rw [dropWhile_eq_self hend, dropWhile_eq_self hend', h.paren]

theorem isNumeric_of_numeralLength (as : List Char)
    (hlength : numeralLength (as ++ cs) = as.length) : ∀ a ∈ as, isNumeric a = true := by
  rw [← numeralLength_takeWhile] at hlength
  exact forall_of_le_takeWhile (hlength.symm.le.trans (numeralLength_le _))

/-- The first token is made of letters, of characters of numerals, or of a single character. -/
theorem class_of_front (hlength : (front allowed c (as ++ cs)).2 = (c :: as).length) :
    (∀ a ∈ c :: as, Text.isLetter a = true) ∨ (∀ a ∈ c :: as, isNumeric a = true) ∨ as = [] := by
  rw [front] at hlength
  split at hlength
  · exact .inl (forall_of_le_takeWhile (hlength.symm.le.trans (peel_le allowed _ _)))
  · split at hlength
    · exact .inr (.inl (isNumeric_of_numeralLength (c :: as) hlength))
    · refine .inr (.inr ?_)
      simpa using hlength

/-- The first token has no blanks. -/
theorem isBlank_of_front {k : Kind} (hblank : Text.isBlank c = false)
    (hfront : front allowed c (as ++ cs) = (k, (c :: as).length)) :
    ∀ a ∈ c :: as, Text.isBlank a = false := by
  rcases class_of_front (congrArg Prod.snd hfront) with hletters | hnumerals | rfl
  · exact fun a ha ↦ Text.isBlank_of_isLetter (hletters a ha)
  · intro a ha
    rw [Bool.eq_false_iff]
    intro hblank'
    exact absurd (hnumerals a ha) (Bool.eq_false_iff.1 (isNumeric_of_isBlank hblank'))
  · exact List.forall_mem_singleton.2 hblank

theorem numeralLength_of_isCurtailed (as : List Char)
    (hlength : numeralLength (as ++ cs) = as.length) (h : IsCurtailed ds cs) :
    numeralLength (as ++ ds) = as.length := by
  have hall := isNumeric_of_numeralLength as hlength
  rw [← numeralLength_takeWhile, List.takeWhile_append_of_pos hall] at hlength ⊢
  exact numeralLength_append hlength h.numerals

/-- The first token stays what it is if the text behind it is curtailed. -/
theorem front_of_isCurtailed (hlength : (front allowed c (as ++ cs)).2 = (c :: as).length)
    (h : IsCurtailed ds cs) : front allowed c (as ++ ds) = front allowed c (as ++ cs) := by
  rw [front] at hlength
  rw [front, front]
  split
  · rename_i hletter
    rw [if_pos hletter] at hlength
    exact peel_of_isCurtailed (c :: as) hlength h
  · rename_i hletter
    rw [if_neg hletter] at hlength
    split
    · rename_i hdigit
      rw [if_pos hdigit] at hlength
      have hlength' : numeralLength (c :: (as ++ ds)) = (c :: as).length :=
        numeralLength_of_isCurtailed (c :: as) hlength h
      dsimp only at hlength
      rw [hlength', hlength, ← List.cons_append, ← List.cons_append, List.take_left,
        List.take_left]
    · rfl

end curtailed

end SchoolAlgebra.Token
