import Mathlib
import SchoolAlgebra.Proofs.Expr.Sides
import SchoolAlgebra.Proofs.Grammar.Leaves
import SchoolAlgebra.Proofs.Grammar.Reports
import SchoolAlgebra.Proofs.Token.FreeLetters

/-!
# Reports of letters that are not allowed

A text with letters that are not allowed is to be answered with all of them, each once and in the
order of their first appearance. The letters reported are those left over from runs that no name
starts, so an allowed letter behind one that is not is reported as well; and of an equation only the
letters of one side are reported. In all other cases the report is correct.
-/

namespace SchoolAlgebra

open Token (AreLetters freeLetters strayLetters)

variable {names reported own others : List String} {text : String} {tokens : List Token}

/--
Whether the letters are a correct report on the text: each once, none of them allowed, in the order
of their first appearance, and all letters outside the names of functions that are not allowed.
-/
structure IsDisallowedReport (names : List String) (text : String) (reported : List String) :
    Prop where
  nodup : reported.Nodup
  notAllowed : ∀ letter ∈ reported, letter ∉ names
  occurs : ∀ letter ∈ reported, letter ∈ freeLetters names text
  isOrdered : reported.Pairwise fun a b ↦
    (freeLetters names text).idxOf a < (freeLetters names text).idxOf b
  isComplete : ∀ letter ∈ freeLetters names text, letter ∉ names → letter ∈ reported

/-- Letters that are left over and not allowed are letters outside the names of functions. -/
theorem mem_freeLetters_iff (hnames : AreLetters names) {letter : String} (h : letter ∉ names) :
    letter ∈ freeLetters names text ↔ letter ∈ strayLetters (Token.scan names text) := by
  have hfilter := Token.filter_freeLetters hnames text
  have hmem : ∀ letters : List String, letter ∈ letters ↔
      letter ∈ letters.filter fun letter ↦ decide (letter ∉ names) := fun letters ↦ by
    simp [h]
  rw [hmem, hfilter, ← hmem]

/--
A report of the first letters left over is correct exactly if none of them is allowed and the others
that are left over are allowed or reported.
-/
theorem isDisallowedReport_eraseDups_iff (hnames : AreLetters names)
    (h : strayLetters (Token.scan names text) = own ++ others) :
    IsDisallowedReport names text own.eraseDups ↔
      (∀ letter ∈ own, letter ∉ names) ∧ ∀ letter ∈ others, letter ∉ names → letter ∈ own := by
  constructor
  · intro hreport
    refine ⟨fun letter hletter ↦ hreport.notAllowed letter (List.mem_eraseDups.2 hletter), ?_⟩
    intro letter hletter hnot
    have hfree : letter ∈ freeLetters names text :=
      (mem_freeLetters_iff hnames hnot).2 (h ▸ List.mem_append_right _ hletter)
    exact List.mem_eraseDups.1 (hreport.isComplete letter hfree hnot)
  · rintro ⟨hown, hothers⟩
    have hfilter := Token.filter_freeLetters hnames text
    rw [h, List.filter_append,
      List.filter_eq_self.2 fun letter hletter ↦ decide_eq_true (hown letter hletter)] at hfilter
    refine ⟨Text.nodup_eraseDups own, ?_, ?_, ?_, ?_⟩
    · exact fun letter hletter ↦ hown letter (List.mem_eraseDups.1 hletter)
    · intro letter hletter
      have hletter := List.mem_eraseDups.1 hletter
      exact (mem_freeLetters_iff hnames (hown letter hletter)).2
        (h ▸ List.mem_append_left _ hletter)
    · refine (Text.pairwise_eraseDups own).imp_of_mem fun {a b} ha hb hlt ↦ ?_
      have ha := List.mem_eraseDups.1 ha
      have hb := List.mem_eraseDups.1 hb
      refine Text.idxOf_lt_of_filter (fun letter ↦ decide (letter ∉ names))
        (decide_eq_true (hown a ha)) (decide_eq_true (hown b hb)) ?_
      rw [hfilter, List.idxOf_append_of_mem ha, List.idxOf_append_of_mem hb]
      exact hlt
    · intro letter hletter hnot
      have hstray := (mem_freeLetters_iff hnames hnot).1 hletter
      rw [h, List.mem_append] at hstray
      exact List.mem_eraseDups.2 (hstray.elim id fun hother ↦ hothers letter hother hnot)

/-- What is read has no letters that belong to no name. -/
theorem Expr.strayLetters_of_ofTokens {algebraic : Bool} {strictness : Strictness} {limit : Nat}
    {e : Expr} (h : ofTokens algebraic strictness limit tokens = .ok e) :
    strayLetters tokens = [] := by
  have hreadable := (isSpelled_of_ofTokens h).isReadable
  refine List.flatMap_eq_nil_iff.2 fun token htoken ↦ ?_
  have hkind := hreadable token.kind (List.mem_map_of_mem htoken)
  cases hk : token.kind with
  | unresolved => rw [hk] at hkind; cases hkind
  | _ => rfl

/-- What is reported are the letters left over, each once. -/
theorem Expr.eq_eraseDups_of_ofTokens {algebraic : Bool} {strictness : Strictness} {limit : Nat}
    (h : ofTokens algebraic strictness limit tokens = .error (.disallowedVariables reported)) :
    reported = (strayLetters tokens).eraseDups ∧
      ∃ token ∈ tokens, ∃ run, token.kind = .unresolved run := by
  have hreports := reports_ofTokens algebraic strictness limit tokens
  rw [h] at hreports
  cases hreports with
  | stray hmem hkind => exact ⟨Token.disallowedNames_eq_eraseDups tokens, _, hmem, _, hkind⟩
  | other hother => exact absurd rfl (hother reported)

/-- Letters left over in a text are some. -/
theorem strayLetters_ne_nil (hsubset : tokens ⊆ Token.scan names text) {token : Token}
    {run : String} (htoken : token ∈ tokens) (hkind : token.kind = .unresolved run) :
    strayLetters tokens ≠ [] := by
  have htiles := Token.tiles_scan names text
  have hstands := htiles.standsFor token (hsubset htoken)
  have hne := htiles.chars_ne_nil token (hsubset htoken)
  intro hnil
  have hrun : run.toList.map String.singleton = [] := by
    have hstray := List.flatMap_eq_nil_iff.1 hnil token htoken
    rwa [hkind] at hstray
  rw [hkind] at hstands
  obtain rfl := hstands.eq_of_unresolved
  rw [String.toList_ofList, List.map_eq_nil_iff] at hrun
  exact hne hrun

/-- The letters left over in the left side of an equation, or, if it has none, in the right one. -/
def Equation.reportedLetters (before after : List Token) : List String :=
  if strayLetters before = [] then strayLetters after else strayLetters before

/-- The letters reported on an equation are those left over in one of its sides. -/
theorem Equation.eq_eraseDups_of_ofText {strictness : Strictness}
    (h : ofText names strictness text = .error (.disallowedVariables reported)) :
    ∃ before after, sides (Token.scan names text) = .ok (before, after) ∧
      reported = (reportedLetters before after).eraseDups := by
  rw [ofText, Expr.bind_eq_error_iff] at h
  rcases h with hsides | ⟨⟨before, after⟩, hsides, h⟩
  · rcases eq_of_sides_eq_error hsides with herror | ⟨rule, herror⟩ <;> cases herror
  obtain ⟨sign, -, hscan⟩ := eq_append_of_sides hsides
  refine ⟨before, after, hsides, ?_⟩
  rw [Expr.bind_eq_error_iff] at h
  rcases h with hlhs | ⟨lhs, hlhs, h⟩
  · obtain ⟨hreported, token, htoken, run, hkind⟩ := Expr.eq_eraseDups_of_ofTokens hlhs
    have hsubset : before ⊆ Token.scan names text := hscan ▸ List.subset_append_left _ _
    rw [reportedLetters, if_neg (strayLetters_ne_nil hsubset htoken hkind), hreported]
  · rw [Expr.bind_eq_error_iff] at h
    rcases h with hrhs | ⟨rhs, hrhs, h⟩
    · rw [reportedLetters, if_pos (Expr.strayLetters_of_ofTokens hlhs)]
      exact (Expr.eq_eraseDups_of_ofTokens hrhs).1
    · cases h

/--
Where a text is refused for letters that are not allowed, the report is correct exactly in these
cases. Of an expression no letter may be allowed that is left over behind one from which no name can
be peeled. Of an equation the same has to hold of the side that the report is about, and the letters
left over in the other side have to be allowed or reported as well.
-/
theorem isDisallowedReport_iff (hnames : AreLetters names) (text : String)
    (reported : List String) :
    (∀ strictness limit,
      Expr.ofText (.algebraic names) strictness limit text =
          .error (.disallowedVariables reported) →
        (IsDisallowedReport names text reported ↔
          ∀ letter ∈ strayLetters (Token.scan names text), letter ∉ names)) ∧
    ∀ strictness,
      Equation.ofText names strictness text = .error (.disallowedVariables reported) →
        ∃ before after, Equation.sides (Token.scan names text) = .ok (before, after) ∧
          (IsDisallowedReport names text reported ↔
            (∀ letter ∈ Equation.reportedLetters before after, letter ∉ names) ∧
            ∀ letter ∈ strayLetters before ++ strayLetters after, letter ∉ names →
              letter ∈ Equation.reportedLetters before after) := by
  constructor
  · intro strictness limit h
    obtain rfl : reported = (strayLetters (Token.scan names text)).eraseDups :=
      (Expr.eq_eraseDups_of_ofTokens h).1
    rw [isDisallowedReport_eraseDups_iff hnames (List.append_nil _).symm]
    simp
  · intro strictness h
    obtain ⟨before, after, hsides, rfl⟩ := Equation.eq_eraseDups_of_ofText h
    obtain ⟨sign, hsign, hscan⟩ := Equation.eq_append_of_sides hsides
    have hstray : strayLetters (Token.scan names text) =
        strayLetters before ++ strayLetters after := by
      rw [hscan, strayLetters, List.flatMap_append, List.flatMap_cons, hsign]
      rfl
    refine ⟨before, after, hsides, ?_⟩
    rw [Equation.reportedLetters]
    split
    · rename_i hnil
      rw [hnil, List.nil_append] at hstray ⊢
      rw [isDisallowedReport_eraseDups_iff hnames (hstray.trans (List.append_nil _).symm)]
      simp +contextual
    · rw [isDisallowedReport_eraseDups_iff hnames hstray]
      simp +contextual [or_imp]

/-- With `x` allowed, the reports on `y + xz` and on `x = yz` are correct. -/
theorem isDisallowedReport_yz : AreLetters ["x"] ∧
    Expr.ofText (.algebraic ["x"]) .lenient 100 "y + xz" =
      .error (.disallowedVariables ["y", "z"]) ∧
    IsDisallowedReport ["x"] "y + xz" ["y", "z"] ∧
    Equation.ofText ["x"] .lenient "x = yz" = .error (.disallowedVariables ["y", "z"]) ∧
    IsDisallowedReport ["x"] "x = yz" ["y", "z"] := by
  have hnames : AreLetters ["x"] := by
    intro name hname
    rw [List.mem_singleton] at hname
    exact ⟨'x', by rw [hname]; decide +kernel, rfl⟩
  have hexpr : Expr.ofText (.algebraic ["x"]) .lenient 100 "y + xz" =
      .error (.disallowedVariables ["y", "z"]) := by decide +kernel
  have hequation : Equation.ofText ["x"] .lenient "x = yz" =
      .error (.disallowedVariables ["y", "z"]) := by decide +kernel
  obtain ⟨before, after, hsides, hiff⟩ :=
    (isDisallowedReport_iff hnames "x = yz" ["y", "z"]).2 .lenient hequation
  refine ⟨hnames, hexpr, ?_, hequation, hiff.2 ?_⟩
  · exact ((isDisallowedReport_iff hnames "y + xz" ["y", "z"]).1 .lenient 100 hexpr).2
      (by decide +kernel)
  · have hparts : Equation.sides (Token.scan ["x"] "x = yz") =
        .ok ([⟨.name "x", 0, ['x']⟩], [⟨.unresolved "yz", 4, ['y', 'z']⟩]) := by decide +kernel
    cases hsides.symm.trans hparts
    decide +kernel

/--
With `x` allowed, the report on `zx` names `x` as well; without allowed letters, the report on
`a = b` leaves out `b`.
-/
theorem not_isDisallowedReport_zx :
    Expr.ofText (.algebraic ["x"]) .lenient 100 "zx" = .error (.disallowedVariables ["z", "x"]) ∧
    ¬IsDisallowedReport ["x"] "zx" ["z", "x"] ∧
    Equation.ofText [] .lenient "a = b" = .error (.disallowedVariables ["a"]) ∧
    ¬IsDisallowedReport [] "a = b" ["a"] := by
  refine ⟨by decide +kernel, fun h ↦ ?_, by decide +kernel, fun h ↦ ?_⟩
  · exact h.notAllowed "x" (by decide) (by decide)
  · exact absurd (h.isComplete "b" (by decide +kernel) (by decide)) (by decide)

end SchoolAlgebra
