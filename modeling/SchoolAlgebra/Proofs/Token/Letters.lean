import Mathlib
import SchoolAlgebra.Proofs.Token.Front

/-!
# Names of one letter

If every allowed name is a single letter, letters that adjoin one another are names one by one, as
long as they ascend: they do not spell the name of the square root then.
-/

namespace SchoolAlgebra.Token

variable {allowed : List String} {cs ds rest : List Char} {ks ls : List Kind}

/-- Whether the text writes tokens of the given kinds before the rest. -/
def WritesBefore (allowed : List String) (rest cs : List Char) (ks : List Kind) : Prop :=
  ∀ start, ∃ stop, kindsFrom allowed start (cs ++ rest) = ks ++ kindsFrom allowed stop rest

theorem writesBefore_nil : WritesBefore allowed rest [] [] := fun start ↦ ⟨start, rfl⟩

theorem WritesBefore.append (h : WritesBefore allowed (ds ++ rest) cs ks)
    (h' : WritesBefore allowed rest ds ls) : WritesBefore allowed rest (cs ++ ds) (ks ++ ls) := by
  intro start
  obtain ⟨middle, hks⟩ := h start
  obtain ⟨stop, hls⟩ := h' middle
  exact ⟨stop, by rw [List.append_assoc, hks, hls, List.append_assoc]⟩

theorem Writes.writesBefore (h : Writes allowed cs ks) (hrest : IsBoundary rest) :
    WritesBefore allowed rest cs ks := fun start ↦ h start rest hrest

theorem writesBefore_symbol {c : Char} {k : Kind} (hk : Kind.ofSymbol? c = some k)
    (hletter : Text.isLetter c = false) (hdigit : Decimal.isDigit c = false)
    (hblank : Text.isBlank c = false) : WritesBefore allowed rest [c] [k] := fun start ↦
  ⟨_, kindsFrom_symbol start hk hletter hdigit hblank rest⟩

theorem writesBefore_digits {n : ℕ} {v : Int64} (hv : v.toInt = n)
    (hrest : ∀ d ∈ rest.head?, Decimal.isDigit d = false ∧ d ≠ '.') :
    WritesBefore allowed rest (Decimal.digits n) [.integer v] := fun start ↦
  ⟨_, kindsFrom_digits start hv hrest⟩

/-- Whether every allowed name is a single letter. -/
def AreLetters (allowed : List String) : Prop :=
  ∀ name ∈ allowed, ∃ c, name.toList = [c] ∧ Text.isLetter c = true

/-- No letter is the name of the square root, or starts with it. -/
theorem AreLetters.not_rootName (h : AreLetters allowed) :
    ∀ name ∈ allowed, ¬rootName.toList <+: name.toList := by
  intro name hmem hstarts
  obtain ⟨c, hc, -⟩ := h name hmem
  have hlength := hstarts.length_le
  rw [hc, toList_rootName] at hlength
  simp at hlength

/--
A letter that is a name is a token before any text that does not go on with a smaller letter. The
name of the root descends from its first letter to the second, so it does not start there.
-/
theorem writesBefore_letter (h : AreLetters allowed) {name : String} {c : Char}
    (hmem : name ∈ allowed) (hc : name.toList = [c])
    (hrest : ∀ d ∈ rest.head?, Text.isLetter d = true → c < d) :
    WritesBefore allowed rest name.toList [.name name] := by
  have hletter : Text.isLetter c = true := by
    obtain ⟨d, hd, hletter⟩ := h name hmem
    rw [hc] at hd
    exact (List.cons.inj hd).1 ▸ hletter
  have hlength : name.length = 1 := by rw [← String.length_toList, hc, List.length_singleton]
  have hne : name ≠ "" := by
    rintro rfl
    cases hc
  have hroot : ¬rootName.toList <+: c :: rest.takeWhile Text.isLetter := by
    rw [toList_rootName]
    rintro ⟨tail, htail⟩
    obtain ⟨rfl, hrun⟩ := List.cons.inj htail
    cases rest with
    | nil => cases hrun
    | cons d rest =>
      rw [List.takeWhile_cons] at hrun
      split at hrun
      · rename_i hd
        obtain ⟨rfl, -⟩ := List.cons.inj hrun
        exact absurd (hrest 'q' rfl hd) (by decide)
      · cases hrun
  have hlongest : ∀ other ∈ allowed, other.toList <+: c :: rest.takeWhile Text.isLetter →
      other.length ≤ name.length := by
    intro other hother _
    obtain ⟨d, hd, -⟩ := h other hother
    rw [← String.length_toList, hd, hlength, List.length_singleton]
  have hfront : front allowed c ([] ++ rest) = (.name name, [c].length) := by
    rw [List.nil_append, front, if_pos hletter, List.takeWhile_cons_of_pos hletter,
      peel_of_name hroot (longestName?_eq_some hmem hne (by rw [hc]; exact ⟨_, rfl⟩) hlongest),
      hlength]
    rfl
  intro start
  have htokens : tokensFrom allowed start ([c] ++ rest) =
      ⟨.name name, start, [c]⟩ :: tokensFrom allowed (start + Text.byteLength [c]) rest :=
    tokensFrom_append h.not_rootName (Text.isBlank_of_isLetter hletter) hfront
  refine ⟨start + Text.byteLength [c], ?_⟩
  change (tokensFrom allowed start (name.toList ++ rest)).map (·.kind) = _
  rw [hc, htokens]
  rfl

end SchoolAlgebra.Token
