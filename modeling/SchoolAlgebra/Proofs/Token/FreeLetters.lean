import Mathlib
import SchoolAlgebra.Expr.OfText
import SchoolAlgebra.Proofs.Grammar.Agreement
import SchoolAlgebra.Proofs.Token.Coverage
import SchoolAlgebra.Proofs.Token.Letters

/-!
# Letters that belong to no function

The letters of a text that are in no name of a function are either names of their own or left in a
run from which no name can be peeled. If the allowed names are single letters, those that are not
allowed are found among the letters left over, in the same order. Letters are reported once, in the
order of their first appearance.
-/

namespace SchoolAlgebra

open Token (Kind)

namespace Text

variable {letters others : List String} {a b : String}

/-- Adding letters one after the other, unless they are there, keeps the first of each. -/
theorem foldl_append_eq (names letters : List String) :
    letters.foldl (fun names letter ↦ if letter ∈ names then names else names ++ [letter]) names =
      names ++ (letters.filter fun letter ↦ decide (letter ∉ names)).eraseDups := by
  induction letters generalizing names with
  | nil => simp
  | cons letter letters ih =>
    rw [List.foldl_cons, ih]
    by_cases hmem : letter ∈ names
    · rw [if_pos hmem, List.filter_cons_of_neg (by simpa using hmem)]
    · rw [if_neg hmem, List.filter_cons_of_pos (by simpa using hmem), List.eraseDups_cons,
        List.filter_filter, List.append_assoc, List.singleton_append]
      congr 4
      funext other
      simp [and_comm, not_or, Bool.beq_eq_decide_eq]

/-- What comes first among the letters that satisfy a condition comes first among all letters. -/
theorem idxOf_lt_of_filter (condition : String → Bool) (ha : condition a = true)
    (hb : condition b = true)
    (h : (letters.filter condition).idxOf a < (letters.filter condition).idxOf b) :
    letters.idxOf a < letters.idxOf b := by
  induction letters with
  | nil => exact absurd h (lt_irrefl 0)
  | cons letter letters ih =>
    by_cases hletter : condition letter = true
    · rw [List.filter_cons_of_pos hletter] at h
      by_cases hla : letter = a
      · by_cases hlb : letter = b
        · rw [← hla, ← hlb] at h
          exact absurd h (lt_irrefl _)
        · rw [List.idxOf_cons_eq _ hla, List.idxOf_cons_ne _ hlb]
          exact Nat.succ_pos _
      · by_cases hlb : letter = b
        · rw [List.idxOf_cons_eq _ hlb] at h
          exact absurd h (Nat.not_lt_zero _)
        · rw [List.idxOf_cons_ne _ hla, List.idxOf_cons_ne _ hlb] at h
          rw [List.idxOf_cons_ne _ hla, List.idxOf_cons_ne _ hlb]
          exact Nat.succ_lt_succ (ih (Nat.lt_of_succ_lt_succ h))
    · rw [List.filter_cons_of_neg hletter] at h
      have hla : letter ≠ a := fun heq ↦ hletter (heq ▸ ha)
      have hlb : letter ≠ b := fun heq ↦ hletter (heq ▸ hb)
      rw [List.idxOf_cons_ne _ hla, List.idxOf_cons_ne _ hlb]
      exact Nat.succ_lt_succ (ih h)

/-- With repetitions erased, letters stand in the order of their first appearance. -/
theorem pairwise_eraseDups (letters : List String) :
    letters.eraseDups.Pairwise fun a b ↦ letters.idxOf a < letters.idxOf b := by
  induction hn : letters.length using Nat.strong_induction_on generalizing letters with
  | _ n ih =>
    subst hn
    cases letters with
    | nil => exact .nil
    | cons first letters =>
      have hlength : (letters.filter fun b ↦ !b == first).length < (first :: letters).length :=
        Nat.lt_succ_of_le (List.length_filter_le _ _)
      have hrest : ∀ a ∈ (letters.filter fun b ↦ !b == first).eraseDups,
          (!a == first) = true ∧ first ≠ a := by
        intro a ha
        obtain ⟨-, hne⟩ := List.mem_filter.1 (List.mem_eraseDups.1 ha)
        exact ⟨hne, fun heq ↦ by simp [heq] at hne⟩
      rw [List.eraseDups_cons, List.pairwise_cons]
      refine ⟨fun a ha ↦ ?_, ?_⟩
      · rw [List.idxOf_cons_self, List.idxOf_cons_ne _ (hrest a ha).2]
        exact Nat.succ_pos _
      · refine (ih _ hlength _ rfl).imp_of_mem fun {a b} ha hb hlt ↦ ?_
        rw [List.idxOf_cons_ne _ (hrest a ha).2, List.idxOf_cons_ne _ (hrest b hb).2]
        exact Nat.succ_lt_succ (idxOf_lt_of_filter _ (hrest a ha).1 (hrest b hb).1 hlt)

theorem nodup_eraseDups (letters : List String) : letters.eraseDups.Nodup := by
  refine (pairwise_eraseDups letters).imp fun {a b} hlt heq ↦ ?_
  rw [heq] at hlt
  exact lt_irrefl _ hlt

/-- The characters of a text that starts at the byte offset, each with its own offset. -/
def offsets (start : Nat) : List Char → List (Nat × Char)
  | [] => []
  | c :: cs => (start, c) :: offsets (start + c.utf8Size) cs

theorem offsets_append (start : Nat) (as bs : List Char) :
    offsets start (as ++ bs) = offsets start as ++ offsets (start + byteLength as) bs := by
  induction as generalizing start with
  | nil => rfl
  | cons a as ih => rw [List.cons_append, offsets, offsets, ih, byteLength_cons, Nat.add_assoc,
      List.cons_append]

theorem offset_bounds {start : Nat} {cs : List Char} {x : Nat × Char} (hx : x ∈ offsets start cs) :
    start ≤ x.1 ∧ x.1 < start + byteLength cs := by
  induction cs generalizing start with
  | nil => exact absurd hx List.not_mem_nil
  | cons c cs ih =>
    have hsize := c.utf8Size_pos
    rw [byteLength_cons]
    rcases List.mem_cons.1 hx with rfl | hx
    · exact ⟨le_rfl, by omega⟩
    · obtain ⟨hlo, hhi⟩ := ih hx
      omega

theorem map_offsets (start : Nat) (cs : List Char) : (offsets start cs).map (·.2) = cs := by
  induction cs generalizing start with
  | nil => rfl
  | cons c cs ih => rw [offsets, List.map_cons, ih]

end Text

namespace Token

variable {allowed : List String} {start : Nat} {cs ds : List Char} {k : Kind}
  {tokens : List Token}

/-- Whether the kind is the name of a function. -/
def Kind.isFunction : Kind → Bool
  | .function _ => true
  | _ => false

/-- Whether the offset lies within the name of a function among the tokens. -/
def isInFunction (tokens : List Token) (offset : Nat) : Bool :=
  tokens.any fun token ↦
    token.kind.isFunction && decide (token.start ≤ offset ∧ offset < token.stop)

/-- The letters of the text that are in no name of a function, in the order of the text. -/
def freeLetters (allowed : List String) (text : String) : List String :=
  ((Text.offsets 0 text.toList).filter fun x ↦
    Text.isLetter x.2 && !isInFunction (scan allowed text) x.1).map fun x ↦ String.singleton x.2

/-- The letters of the tokens that belong to no name, in the order of the tokens. -/
def strayLetters (tokens : List Token) : List String := tokens.flatMap (·.kind.strayLetters)

/-- The letters among the characters, unless they stand for the name of a function. -/
def ownLetters (k : Kind) (cs : List Char) : List String :=
  if k.isFunction then [] else (cs.filter Text.isLetter).map String.singleton

theorem disallowedNames_eq_eraseDups (tokens : List Token) :
    disallowedNames tokens = (strayLetters tokens).eraseDups := by
  rw [disallowedNames_eq, List.flatMap_map, Text.foldl_append_eq, List.nil_append, strayLetters]
  congr 1
  exact List.filter_eq_self.2 fun _ _ ↦ decide_eq_true List.not_mem_nil

/-- An offset within the first token is in a function if the token is the name of one. -/
theorem Covers.isInFunction_first (h : Covers allowed (start + Text.byteLength cs) ds tokens)
    {x : Nat × Char} (hx : x ∈ Text.offsets start cs) :
    isInFunction (⟨k, start, cs⟩ :: tokens) x.1 = k.isFunction := by
  obtain ⟨hlo, hhi⟩ := Text.offset_bounds hx
  have hrest : isInFunction tokens x.1 = false := by
    refine List.any_eq_false.2 fun token htoken ↦ ?_
    have hle := h.tiles.le_start token htoken
    simp only [Bool.and_eq_true, decide_eq_true_eq]
    omega
  rw [isInFunction, List.any_cons, ← isInFunction, hrest, Bool.or_false,
    decide_eq_true ⟨hlo, hhi⟩, Bool.and_true]

/-- An offset behind the first token is looked up among the other ones. -/
theorem isInFunction_behind {x : Nat × Char}
    (hx : x ∈ Text.offsets (start + Text.byteLength cs) ds) :
    isInFunction (⟨k, start, cs⟩ :: tokens) x.1 = isInFunction tokens x.1 := by
  have hstop : ¬x.1 < (⟨k, start, cs⟩ : Token).stop := not_lt.2 (Text.offset_bounds hx).1
  rw [isInFunction, List.any_cons, ← isInFunction, decide_eq_false fun h ↦ hstop h.2,
    Bool.and_false, Bool.false_or]

/-- The letters of a text outside the names of functions are those of its other tokens. -/
theorem Covers.filter_offsets (h : Covers allowed start cs tokens) :
    ((Text.offsets start cs).filter fun x ↦
      Text.isLetter x.2 && !isInFunction tokens x.1).map (fun x ↦ String.singleton x.2) =
        tokens.flatMap fun token ↦ ownLetters token.kind token.chars := by
  induction h with
  | nil => rfl
  | @blank start c cs tokens hblank h ih =>
    have hletter : Text.isLetter c = false := by
      rw [Bool.eq_false_iff]
      intro hletter
      rw [Text.isBlank_of_isLetter hletter] at hblank
      exact Bool.false_ne_true hblank
    rw [Text.offsets, List.filter_cons_of_neg (by simp [hletter]), ih]
  | @token start c as cs k tokens hblank hfront h ih =>
    rw [Text.offsets_append, List.filter_append, List.map_append, List.flatMap_cons, ← ih]
    congr 1
    · rw [List.filter_congr fun x hx ↦ by rw [h.isInFunction_first hx], ownLetters]
      cases hfunction : k.isFunction with
      | true => simp
      | false =>
        conv_rhs => rw [← Text.map_offsets start (c :: as), List.filter_map, List.map_map]
        simp [Function.comp_def]
    · rw [List.filter_congr fun x hx ↦ by rw [isInFunction_behind hx]]

theorem Kind.strayLetters_eq_nil (h : k.isWord = false) : k.strayLetters = [] := by
  cases k with
  | unresolved => cases h
  | _ => rfl

/-- A letter that is not allowed is in no name, so it is left over unless it is in a function. -/
theorem StandsFor.filter_ownLetters (hnames : AreLetters allowed) (h : StandsFor allowed cs k) :
    (ownLetters k cs).filter (fun letter ↦ decide (letter ∉ allowed)) =
      k.strayLetters.filter fun letter ↦ decide (letter ∉ allowed) := by
  cases h with
  | @name name hmem =>
    obtain ⟨c, hc, hletter⟩ := hnames name hmem
    have hname : String.singleton c = name := by
      rw [← String.toList_inj, hc, String.toList_singleton]
    have hown : ownLetters (.name name) name.toList = [name] := by
      have hnot : ¬(Kind.name name).isFunction = true := Bool.false_ne_true
      rw [ownLetters, if_neg hnot, hc, List.filter_cons_of_pos hletter, List.filter_nil,
        List.map_singleton, hname]
    rw [hown, List.filter_cons_of_neg (by simpa using hmem)]
    rfl
  | root | function => rfl
  | unresolved hletters =>
    have hnot : ¬(Kind.unresolved (String.ofList cs)).isFunction = true := Bool.false_ne_true
    rw [ownLetters, if_neg hnot, List.filter_eq_self.2 hletters, Kind.strayLetters,
      String.toList_ofList]
  | numeral hnumeral =>
    have hown : cs.filter Text.isLetter = [] :=
      List.filter_eq_nil_iff.2 fun c hc ↦ by simp [hnumeral.isLetter_eq_false c hc]
    rw [ownLetters, hown, Kind.strayLetters_eq_nil (isWord_kindOfNumeral cs)]
    simp
  | @symbol c hletter =>
    rw [ownLetters, Kind.strayLetters_eq_nil (isWord_ofSymbol? c),
      List.filter_cons_of_neg (by simp [hletter])]
    simp

/-- Of the letters outside the names of functions, those that are not allowed are left over. -/
theorem filter_freeLetters (hnames : AreLetters allowed) (text : String) :
    (freeLetters allowed text).filter (fun letter ↦ decide (letter ∉ allowed)) =
      (strayLetters (scan allowed text)).filter fun letter ↦ decide (letter ∉ allowed) := by
  have hcovers := covers_tokensFrom hnames.not_rootName 0 text.toList
  have hfree : freeLetters allowed text =
      (scan allowed text).flatMap fun token ↦ ownLetters token.kind token.chars :=
    hcovers.filter_offsets
  rw [hfree, strayLetters, List.filter_flatMap, List.filter_flatMap]
  exact List.flatMap_congr fun token htoken ↦
    ((tiles_scan allowed text).standsFor token htoken).filter_ownLetters hnames

end Token

end SchoolAlgebra
