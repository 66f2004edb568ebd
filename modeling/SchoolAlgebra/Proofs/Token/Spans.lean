import Mathlib
import SchoolAlgebra.Proofs.Number.ResultKind
import SchoolAlgebra.Proofs.Token.Coverage
import SchoolAlgebra.Proofs.Token.Parting

/-!
# Spans of tokens

Whatever names are allowed, the tokens of a text lie one behind the other and take all characters
but the blanks. Each is a slice of the text, and its kind is what the slice writes. A run of letters
is cut into allowed names and names of the square root, with at most one rest behind them.
-/

namespace SchoolAlgebra

namespace Text

theorem byteLength_eq_utf8ByteSize (cs : List Char) :
    byteLength cs = (String.ofList cs).utf8ByteSize := by
  induction cs with
  | nil => simp
  | cons c cs ih =>
    have hsplit : String.ofList (c :: cs) = String.singleton c ++ String.ofList cs := by
      rw [String.singleton_eq_ofList, ← String.ofList_append, List.singleton_append]
    rw [byteLength_cons, ih, hsplit, String.utf8ByteSize_append, String.utf8ByteSize_singleton]

@[simp] theorem byteLength_toList (text : String) :
    byteLength text.toList = text.utf8ByteSize := by
  rw [byteLength_eq_utf8ByteSize, String.ofList_toList]

theorem byteLength_pos {cs : List Char} (hne : cs ≠ []) : 0 < byteLength cs := by
  obtain ⟨c, cs, rfl⟩ := List.exists_cons_of_ne_nil hne
  rw [byteLength_cons]
  exact Nat.add_pos_left c.utf8Size_pos _

end Text

namespace Token

variable {allowed : List String} {c : Char} {as cs before run after : List Char} {k : Kind}
  {tokens : List Token} {text : String} {token : Token} {start : Nat}

/--
Whether the bytes of the text from the start of the token to its stop are those of the token, and
both offsets are boundaries of characters.
-/
structure IsSliceOf (token : Token) (text : String) : Prop where
  isValid_start : String.Pos.Raw.IsValid text ⟨token.start⟩
  isValid_stop : String.Pos.Raw.IsValid text ⟨token.stop⟩
  extract_eq : text.toByteArray.extract token.start token.stop = token.text.toByteArray

theorem extract_append_append (a b c : ByteArray) :
    (a ++ (b ++ c)).extract a.size (a.size + b.size) = b := by
  have hfirst : (a ++ (b ++ c)).extract (a.size + 0) (a.size + b.size) =
      (b ++ c).extract 0 b.size := ByteArray.extract_append_size_add
  rw [Nat.add_zero] at hfirst
  rw [hfirst, ByteArray.extract_append_eq_left rfl]

theorem isSliceOf_of_append (htext : text.toList = before ++ token.chars ++ after)
    (hstart : token.start = Text.byteLength before) : token.IsSliceOf text := by
  have hparts : text = String.ofList before ++ token.text ++ String.ofList after := by
    rw [Token.text, ← String.ofList_append, ← String.ofList_append, ← htext, String.ofList_toList]
  have hbefore : token.start = (String.ofList before).utf8ByteSize := by
    rw [hstart, Text.byteLength_eq_utf8ByteSize]
  have hstop : token.stop = (String.ofList before ++ token.text).utf8ByteSize := by
    rw [Token.stop, Text.byteLength_eq_utf8ByteSize, hbefore, String.utf8ByteSize_append]
    rfl
  refine ⟨?_, ?_, ?_⟩
  · rw [String.Pos.Raw.isValid_iff_exists_append]
    refine ⟨String.ofList before, token.text ++ String.ofList after, ?_, ?_⟩
    · rw [hparts, String.append_assoc]
    · rw [hbefore]
      rfl
  · rw [String.Pos.Raw.isValid_iff_exists_append]
    refine ⟨String.ofList before ++ token.text, String.ofList after, hparts, ?_⟩
    rw [hstop]
    rfl
  · rw [hparts, hbefore, hstop, String.append_assoc, String.toByteArray_append,
      String.utf8ByteSize_append, String.toByteArray_append, ← String.size_toByteArray,
      ← String.size_toByteArray, extract_append_append]

/-- The characters that write the kind, if it is an operator, a parenthesis or the equals sign. -/
def Kind.glyphs : Kind → List Char
  | .plus => ['+']
  | .minus => ['-', '−']
  | .times => ['*', '×']
  | .dividedBy => ['/', '÷']
  | .caret => ['^']
  | .rootSign => ['√']
  | .leftParen => ['(']
  | .rightParen => [')']
  | .equals => ['=']
  | _ => []

theorem Kind.mem_glyphs_iff : c ∈ k.glyphs ↔ Kind.ofSymbol? c = some k := by
  constructor
  · intro h
    cases k <;> simp only [glyphs, List.mem_cons, List.not_mem_nil, or_false] at h
    all_goals rcases h with rfl | rfl <;> rfl
  · intro h
    unfold ofSymbol? at h
    split at h <;> cases h <;> decide

/-- Whether the characters are some digits. -/
def AreDigits (cs : List Char) : Prop := cs ≠ [] ∧ ∀ c ∈ cs, Decimal.isDigit c = true

/--
Whether the characters write the kind: an integer that fits a word or one that does not, a decimal
fraction with the double nearest to it, an allowed name, letters, a glyph, or a character that is
none of these.
-/
def Kind.IsWrittenBy (allowed : List String) (cs : List Char) : Kind → Prop
  | .integer v => AreDigits cs ∧ v.toInt = Decimal.natOfDigits cs
  | .integerTooLarge => AreDigits cs ∧ ¬Word.IsInt64 (Decimal.natOfDigits cs)
  | .real x => ∃ ds fs, AreDigits ds ∧ AreDigits fs ∧ cs = ds ++ '.' :: fs ∧
      x = (Decimal.ofDigits ds fs).toFloat false
  | .name text => text ∈ allowed ∧ text.toList = cs
  | .function text => text.toList = cs ∧ ∀ c ∈ cs, Text.isLetter c = true
  | .unresolved text => text.toList = cs ∧ ∀ c ∈ cs, Text.isLetter c = true
  | .invalid c => cs = [c] ∧ Text.isLetter c = false ∧ Decimal.isDigit c = false ∧
      ∀ k : Kind, c ∉ k.glyphs
  | k => ∃ c ∈ k.glyphs, cs = [c]

theorem isWrittenBy_of_mem_glyphs (h : c ∈ k.glyphs) : k.IsWrittenBy allowed [c] := by
  cases k with
  | integer | integerTooLarge | real | name | function | unresolved | invalid =>
    exact absurd h List.not_mem_nil
  | _ => exact ⟨c, h, rfl⟩

theorem IsNumeral.isWrittenBy (h : IsNumeral cs) : (kindOfNumeral cs).IsWrittenBy allowed cs := by
  cases h with
  | whole hne hdigits =>
    rw [kindOfNumeral_whole hdigits]
    cases hword : Word.int64? (Decimal.natOfDigits cs) with
    | none => exact ⟨⟨hne, hdigits⟩, Word.int64?_eq_none_iff.1 hword⟩
    | some v => exact ⟨⟨hne, hdigits⟩, Word.int64?_eq_some_iff.1 hword⟩
  | decimal hne hdigits hfractional hfractionalDigits =>
    rw [kindOfNumeral_decimal hdigits]
    exact ⟨_, _, ⟨hne, hdigits⟩, ⟨hfractional, hfractionalDigits⟩, rfl, rfl⟩

/-- What characters stand for is written by them. -/
theorem StandsFor.isWrittenBy (h : StandsFor allowed cs k) : k.IsWrittenBy allowed cs := by
  cases h with
  | name hmem => exact ⟨hmem, rfl⟩
  | root =>
    refine ⟨rfl, ?_⟩
    rw [toList_rootName]
    exact List.all_eq_true.1 rfl
  | function hletters => exact ⟨String.toList_ofList, hletters⟩
  | unresolved hletters => exact ⟨String.toList_ofList, hletters⟩
  | numeral h => exact h.isWrittenBy
  | @symbol c hletter hdigit =>
    cases hsymbol : Kind.ofSymbol? c with
    | none =>
      refine ⟨rfl, hletter, hdigit, fun k hk ↦ ?_⟩
      rw [Kind.mem_glyphs_iff, hsymbol] at hk
      cases hk
    | some k => exact isWrittenBy_of_mem_glyphs (Kind.mem_glyphs_iff.2 hsymbol)

/-! ## Places of tokens -/

theorem Tiles.stop_le (h : Tiles allowed start cs tokens) :
    ∀ token ∈ tokens, token.stop ≤ start + Text.byteLength cs := by
  induction h with
  | nil => exact fun _ htoken ↦ absurd htoken List.not_mem_nil
  | blank _ _ ih =>
    intro token htoken
    rw [Text.byteLength_cons, ← Nat.add_assoc]
    exact ih token htoken
  | token _ _ _ _ ih =>
    rw [Text.byteLength_append, ← Nat.add_assoc]
    exact List.forall_mem_cons.2 ⟨Nat.le_add_right _ _, ih⟩

theorem Tiles.start_lt_stop (h : Tiles allowed start cs tokens) :
    ∀ token ∈ tokens, token.start < token.stop := fun token htoken ↦
  Nat.lt_add_of_pos_right (Text.byteLength_pos (h.chars_ne_nil token htoken))

/-- Every token stops before the next one starts. -/
theorem Tiles.pairwise (h : Tiles allowed start cs tokens) :
    tokens.Pairwise fun token other ↦ token.stop ≤ other.start := by
  induction h with
  | nil => exact .nil
  | blank _ _ ih => exact ih
  | token _ _ _ h ih => exact List.pairwise_cons.2 ⟨h.le_start, ih⟩

/-- Every token is a part of the text, and its offset is the length of what is before it. -/
theorem Tiles.exists_append (h : Tiles allowed start cs tokens) (htoken : token ∈ tokens) :
    ∃ before after, cs = before ++ token.chars ++ after ∧
      token.start = start + Text.byteLength before := by
  induction h with
  | nil => cases htoken
  | @blank start c cs _ _ _ ih =>
    obtain ⟨before, after, rfl, hstart⟩ := ih htoken
    exact ⟨c :: before, after, rfl, by rw [hstart, Text.byteLength_cons, Nat.add_assoc]⟩
  | @token start as cs _ _ _ _ _ _ ih =>
    rcases List.mem_cons.1 htoken with rfl | htoken
    · exact ⟨[], cs, rfl, rfl⟩
    · obtain ⟨before, after, rfl, hstart⟩ := ih htoken
      refine ⟨as ++ before, after, by simp only [List.append_assoc], ?_⟩
      rw [hstart, Text.byteLength_append, Nat.add_assoc]

/-- Whether the offset is that of a byte of the token. -/
def Contains (token : Token) (offset : Nat) : Prop := token.start ≤ offset ∧ offset < token.stop

/-- A character is a blank exactly if it is in no token. -/
theorem Tiles.isBlank_iff (h : Tiles allowed start (before ++ c :: after) tokens) :
    Text.isBlank c = true ↔
      ∀ token ∈ tokens, ¬token.Contains (start + Text.byteLength before) := by
  generalize hcs : before ++ c :: after = cs at h
  induction h generalizing before with
  | nil => exact absurd hcs (by simp)
  | @blank start d cs tokens hblank h ih =>
    cases before with
    | nil =>
      obtain ⟨rfl, -⟩ := List.cons.inj hcs
      refine iff_of_true hblank fun token htoken hcontains ↦ ?_
      have hle := h.le_start token htoken
      have hsize := c.utf8Size_pos
      have hstart : token.start ≤ start := hcontains.1
      omega
    | cons b before =>
      obtain ⟨rfl, hrest⟩ := List.cons.inj hcs
      rw [ih hrest, Text.byteLength_cons, Nat.add_assoc]
  | @token start as cs k tokens hne hsolid hkind h ih =>
    have hbehind : ∀ bs, before = as ++ bs → cs = bs ++ c :: after →
        (Text.isBlank c = true ↔ ∀ token ∈ ⟨k, start, as⟩ :: tokens,
          ¬token.Contains (start + Text.byteLength before)) := by
      rintro bs rfl hrest
      have hout : ¬(⟨k, start, as⟩ : Token).Contains (start + Text.byteLength (as ++ bs)) := by
        rw [Text.byteLength_append, ← Nat.add_assoc]
        exact fun hcontains ↦ not_lt.2 (Nat.le_add_right _ _) hcontains.2
      rw [List.forall_mem_cons, and_iff_right hout, Text.byteLength_append, ← Nat.add_assoc]
      exact ih hrest.symm
    rcases List.append_eq_append_iff.1 hcs with ⟨bs, hsplit, hrest⟩ | ⟨bs, hsplit, hrest⟩
    · cases bs with
      | nil =>
        rw [List.append_nil] at hsplit
        exact hbehind [] (by rw [List.append_nil, hsplit]) hrest.symm
      | cons b bs =>
        obtain ⟨rfl, -⟩ := List.cons.inj hrest
        have hsize := c.utf8Size_pos
        have hin : (⟨k, start, as⟩ : Token).Contains (start + Text.byteLength before) := by
          refine ⟨Nat.le_add_right _ _, Nat.add_lt_add_left ?_ start⟩
          rw [hsplit, Text.byteLength_append, Text.byteLength_cons]
          omega
        have hsolid := hsolid c (hsplit ▸ List.mem_append_right _ List.mem_cons_self)
        refine iff_of_false (Bool.eq_false_iff.1 hsolid) fun hall ↦ ?_
        exact hall _ List.mem_cons_self hin
    · exact hbehind bs hsplit hrest

/-! ## Runs of letters -/

/-- Whether the letters between two texts go on in neither of them. -/
structure IsRun (before run after : List Char) : Prop where
  ne_nil : run ≠ []
  isLetter : ∀ c ∈ run, Text.isLetter c = true
  before : ∀ c ∈ before.getLast?, Text.isLetter c = false
  after : ∀ c ∈ after.head?, Text.isLetter c = false

/--
Whether the letters are cut into the tokens: allowed names and names of the square root, and at most
one rest behind them that starts with neither. The rest is the name of a function before a
parenthesis, and is unresolved otherwise.
-/
inductive IsCut (allowed : List String) (beforeParen : Bool) :
    Nat → List Char → List Token → Prop where
  | nil (start : Nat) : IsCut allowed beforeParen start [] []
  | name {start : Nat} {name : String} {cs : List Char} {tokens : List Token}
      (hmem : name ∈ allowed)
      (h : IsCut allowed beforeParen (start + Text.byteLength name.toList) cs tokens) :
      IsCut allowed beforeParen start (name.toList ++ cs)
        (⟨.name name, start, name.toList⟩ :: tokens)
  | root {start : Nat} {cs : List Char} {tokens : List Token}
      (h : IsCut allowed beforeParen (start + Text.byteLength rootName.toList) cs tokens) :
      IsCut allowed beforeParen start (rootName.toList ++ cs)
        (⟨.function rootName, start, rootName.toList⟩ :: tokens)
  | rest {start : Nat} {cs : List Char} (hroot : ¬rootName.toList <+: cs)
      (hname : ∀ name ∈ allowed, name.toList <+: cs → name = "") :
      IsCut allowed beforeParen start cs
        [⟨if beforeParen then .function (String.ofList cs) else .unresolved (String.ofList cs),
          start, cs⟩]

theorem take_of_prefix {name : String} (h : name.toList <+: cs) :
    cs.take name.length = name.toList ∧ name.toList ++ cs.drop name.length = cs := by
  have htake : cs.take name.length = name.toList := by
    rw [← String.length_toList]
    exact (List.prefix_iff_eq_take.1 h).symm
  exact ⟨htake, by rw [← htake, List.take_append_drop]⟩

/-- Letters that are peeled off one after the other are cut. -/
theorem isCut_peelAll (beforeParen : Bool) (start : Nat) (cs : List Char) :
    IsCut allowed beforeParen start cs (peelAll allowed beforeParen start cs) := by
  induction hn : cs.length using Nat.strong_induction_on generalizing start cs with
  | _ n ih =>
    subst hn
    cases cs with
    | nil =>
      rw [peelAll]
      exact .nil start
    | cons c rest =>
      rw [peelAll_cons]
      by_cases hroot : rootName.toList <+: c :: rest
      · obtain ⟨htake, hsplit⟩ := take_of_prefix hroot
        have hpos : 0 < rootName.length := by decide
        have hcut := IsCut.root (ih _ (length_drop_lt hpos c rest)
          (start + Text.byteLength rootName.toList) _ rfl)
        rw [hsplit] at hcut
        rw [peel_of_root hroot]
        dsimp only
        rwa [htake]
      · cases hname : longestName? (c :: rest) allowed with
        | none =>
          rw [peel_of_none hroot hname]
          dsimp only
          rw [List.take_length, List.drop_length, peelAll]
          exact .rest hroot (longestName?_eq_none_iff.1 hname)
        | some name =>
          obtain ⟨hmem, hstarts, -⟩ := longest_of_longestName? hname
          obtain ⟨htake, hsplit⟩ := take_of_prefix hstarts
          have hpos : 0 < name.length :=
            Nat.pos_of_ne_zero (by simpa using ne_empty_of_longestName? hname)
          have hcut := IsCut.name hmem (ih _ (length_drop_lt hpos c rest)
            (start + Text.byteLength name.toList) _ rfl)
          rw [hsplit] at hcut
          rw [peel_of_name hroot hname]
          dsimp only
          rwa [htake]

theorem isCut_ofLetters (beforeParen : Bool) (start : Nat) (cs : List Char) :
    IsCut allowed beforeParen start cs (ofLetters allowed beforeParen ⟨start, cs⟩) := by
  rw [ofLetters]
  dsimp only
  split
  · rename_i hmem
    have hcut : IsCut allowed beforeParen start _ _ := .name hmem (.nil _)
    rwa [String.toList_ofList, List.append_nil] at hcut
  · exact isCut_peelAll beforeParen start cs

/-- The text before a run of letters is parted from it. -/
theorem IsRun.isParted (h : IsRun before run after) : Lexeme.IsParted before (run ++ after) := by
  obtain ⟨c, run, rfl⟩ := List.exists_cons_of_ne_nil h.ne_nil
  intro a ha b hb
  obtain rfl : c = b := Option.some.inj hb
  obtain ⟨hdigit, hpoint⟩ := Text.isDigit_of_isLetter (h.isLetter c List.mem_cons_self)
  have hnumeric : isNumeric c = false := by
    rw [isNumeric, hdigit, Bool.false_or, beq_eq_false_iff_ne]
    exact hpoint
  exact ⟨by rw [h.before a ha, Bool.false_and], by rw [hnumeric, Bool.and_false]⟩

/-- A text has tokens before a run of letters, those of the run, and tokens behind the run. -/
theorem IsRun.tokensFrom_eq (h : IsRun before run after) (start : Nat) :
    tokensFrom allowed start (before ++ run ++ after) =
      tokensFrom allowed start before ++
        (ofLetters allowed (opensParen after) ⟨start + Text.byteLength before, run⟩ ++
          tokensFrom allowed (start + Text.byteLength (before ++ run)) after) := by
  have hparen : opensParen (run ++ after) = false := by
    obtain ⟨c, run, rfl⟩ := List.exists_cons_of_ne_nil h.ne_nil
    have hletter := h.isLetter c List.mem_cons_self
    rw [List.cons_append, opensParen_of_not_blank (Text.isBlank_of_isLetter hletter),
      beq_eq_false_iff_ne]
    rintro rfl
    exact absurd hletter (by decide)
  rw [List.append_assoc, tokensFrom_append_of_isParted h.isParted hparen,
    tokensFrom_run h.ne_nil h.isLetter h.after, Text.byteLength_append, Nat.add_assoc]

/-- The tokens that have bytes between two offsets. -/
def meeting (start stop : Nat) (tokens : List Token) : List Token :=
  tokens.filter fun token ↦ decide (token.start < stop ∧ start < token.stop)

theorem Tiles.meeting_eq_nil {lo hi : Nat} (h : Tiles allowed start cs tokens)
    (hapart : start + Text.byteLength cs ≤ lo ∨ hi ≤ start) : meeting lo hi tokens = [] := by
  refine List.filter_eq_nil_iff.2 fun token htoken ↦ ?_
  have hlo := h.le_start token htoken
  have hhi := h.stop_le token htoken
  rw [decide_eq_true_eq]
  omega

theorem Tiles.meeting_eq_self (h : Tiles allowed start cs tokens) :
    meeting start (start + Text.byteLength cs) tokens = tokens := by
  refine List.filter_eq_self.2 fun token htoken ↦ ?_
  have hlo := h.le_start token htoken
  have hhi := h.stop_le token htoken
  have hlt := h.start_lt_stop token htoken
  rw [decide_eq_true_eq]
  omega

/-- The tokens that share bytes with a run of letters cut the run. -/
theorem IsRun.isCut (h : IsRun before run after) :
    IsCut allowed (opensParen after) (Text.byteLength before) run
      (meeting (Text.byteLength before) (Text.byteLength (before ++ run))
        (tokensFrom allowed 0 (before ++ run ++ after))) := by
  have hrun : Tiles allowed (Text.byteLength before) run _ :=
    tiles_ofLetters (opensParen after) _ h.ne_nil h.isLetter
  have hbefore : meeting (Text.byteLength before) (Text.byteLength (before ++ run))
      (tokensFrom allowed 0 before) = [] :=
    (tiles_tokensFrom allowed 0 before).meeting_eq_nil (.inl (Nat.zero_add _).le)
  have hafter : meeting (Text.byteLength before) (Text.byteLength (before ++ run))
      (tokensFrom allowed (Text.byteLength (before ++ run)) after) = [] :=
    (tiles_tokensFrom allowed _ after).meeting_eq_nil (.inr le_rfl)
  have hself := hrun.meeting_eq_self
  rw [← Text.byteLength_append] at hself
  rw [h.tokensFrom_eq, Nat.zero_add, Nat.zero_add, meeting, List.filter_append,
    List.filter_append, ← meeting, ← meeting, ← meeting, hbefore, hafter, hself, List.nil_append,
    List.append_nil]
  exact isCut_ofLetters _ _ run

/--
Whether the tokens are the text but for its blanks. They are not empty, stand one behind the other,
and are slices of the text that write their kinds. The characters in no token are the blanks, and
every run of letters is cut into names and at most one rest.
-/
structure IsExactCover (allowed : List String) (text : String) (tokens : List Token) : Prop where
  start_lt_stop : ∀ token ∈ tokens, token.start < token.stop
  pairwise : tokens.Pairwise fun token other ↦ token.stop ≤ other.start
  isSliceOf : ∀ token ∈ tokens, token.IsSliceOf text
  isWrittenBy : ∀ token ∈ tokens, token.kind.IsWrittenBy allowed token.chars
  isBlank_iff : ∀ before c after, text.toList = before ++ c :: after →
    (Text.isBlank c = true ↔ ∀ token ∈ tokens, ¬token.Contains (Text.byteLength before))
  isCut : ∀ before run after, text.toList = before ++ run ++ after → IsRun before run after →
    IsCut allowed (opensParen after) (Text.byteLength before) run
      (meeting (Text.byteLength before) (Text.byteLength (before ++ run)) tokens)

/-- Whatever names are allowed, the tokens of a text are the text but for its blanks. -/
theorem isExactCover_scan (allowed : List String) (text : String) :
    IsExactCover allowed text (scan allowed text) where
  start_lt_stop := (tiles_scan allowed text).start_lt_stop
  pairwise := (tiles_scan allowed text).pairwise
  isSliceOf token htoken := by
    obtain ⟨before, after, htext, hstart⟩ := (tiles_scan allowed text).exists_append htoken
    exact isSliceOf_of_append htext (by rw [hstart, Nat.zero_add])
  isWrittenBy token htoken := ((tiles_scan allowed text).standsFor token htoken).isWrittenBy
  isBlank_iff before c after htext := by
    have htiles := tiles_scan allowed text
    rw [htext] at htiles
    rw [htiles.isBlank_iff, Nat.zero_add]
  isCut before run after htext hrun := by
    have hcut : IsCut allowed _ _ run _ := hrun.isCut
    rwa [← htext] at hcut

end Token

end SchoolAlgebra
