/-
  `str.lower` and `str.casefold` over the letter case of the Unicode database.

  A sigma at the end of a word has a form of its own in lower case, so that
  `lower` looks at what stands around a letter; `casefold` does not.
-/
import Mathlib.Data.List.Basic

namespace LetterCase

/-- What the Unicode database says about letter case. -/
structure CaseTable where
  /-- The lower-case mapping of a character. -/
  lower : Char → List Char
  /-- The full case folding of a character. -/
  fold : Char → List Char
  cased : Char → Bool
  caseIgnorable : Char → Bool
  lower_ascii : ∀ c : Char, c.toNat < 128 → lower c = [c.toLower]
  fold_ascii : ∀ c : Char, c.toNat < 128 → fold c = [c.toLower]
  fold_lower : ∀ c, (lower c).flatMap fold = fold c
  fold_sigma : fold 'σ' = ['σ'] ∧ fold 'ς' = ['σ'] ∧ fold 'Σ' = ['σ']

/-- The table as far as ASCII and the sigmas go. -/
def asciiTable : CaseTable where
  lower c := if c.toNat < 128 then [c.toLower] else if c = 'Σ' then ['σ'] else [c]
  fold c := if c.toNat < 128 then [c.toLower] else if c = 'Σ' ∨ c = 'ς' then ['σ'] else [c]
  cased c := ('a' ≤ c && c ≤ 'z') || ('A' ≤ c && c ≤ 'Z') || "Σσς".toList.contains c
  caseIgnorable c := "'.:^".toList.contains c || c.toNat == 0x60
  lower_ascii _ h := if_pos h
  fold_ascii _ h := if_pos h
  fold_lower c := by
    by_cases hascii : c.toNat < 128
    · have hall : ∀ n : Fin 128, (Char.ofNat n).toLower.toNat < 128 ∧
          (Char.ofNat n).toLower.toLower = (Char.ofNat n).toLower := by decide
      have hc := hall ⟨c.toNat, hascii⟩
      rw [Char.ofNat_toNat] at hc
      simp [hascii, hc.1, hc.2]
    · by_cases hsigma : c = 'Σ'
      · rw [hsigma]
        rfl
      · simp [hascii, hsigma]
  fold_sigma := ⟨rfl, rfl, rfl⟩

section
variable (table : CaseTable)

/-- `str.casefold()` -/
def casefold (s : List Char) : List Char := s.flatMap table.fold

/-- The sigma at hand ends a word: a letter stands before it, and none after it. -/
def isFinalSigma (before after : List Char) : Bool :=
  (before.find? fun c => !table.caseIgnorable c).any table.cased &&
    !(after.find? fun c => !table.caseIgnorable c).any table.cased

/-- A character in lower case; `before` is what stands before it, last character first. -/
def lowerChar (before : List Char) (c : Char) (after : List Char) : List Char :=
  if c = 'Σ' then if isFinalSigma table before after then ['ς'] else ['σ'] else table.lower c

/-- A text in lower case, where it stands between `before` and `after`. -/
def lowerIn (before : List Char) : List Char → List Char → List Char
  | [], _ => []
  | c :: s, after => lowerChar table before c (s ++ after) ++ lowerIn (c :: before) s after

/-- `str.lower()` -/
def lower (s : List Char) : List Char := lowerIn table [] s []

variable {table} {s t before after : List Char}

theorem lowerIn_append : lowerIn table before (s ++ t) after =
    lowerIn table before s (t ++ after) ++ lowerIn table (s.reverse ++ before) t after := by
  induction s generalizing before with
  | nil => rfl
  | cons c s ih =>
    rw [List.cons_append, lowerIn, lowerIn, ih, List.append_assoc, List.append_assoc,
      List.reverse_cons,
      List.append_assoc]
    rfl

theorem lowerIn_ascii (h : ∀ c ∈ s, c.toNat < 128) :
    lowerIn table before s after = s.map Char.toLower := by
  induction s generalizing before with
  | nil => rfl
  | cons c s ih =>
    have hc := h c (List.mem_cons_self ..)
    have hsigma : c ≠ 'Σ' := by
      rintro rfl
      exact absurd hc (by decide)
    rw [lowerIn, lowerChar, if_neg hsigma, table.lower_ascii c hc,
      ih fun d hd => h d (List.mem_cons_of_mem _ hd)]
    rfl

/-- **Lower case is the same letters.** -/
theorem casefold_lowerIn : casefold table (lowerIn table before s after) = casefold table s := by
  induction s generalizing before with
  | nil => rfl
  | cons c s ih =>
    have hc : casefold table (lowerChar table before c (s ++ after)) = table.fold c := by
      obtain ⟨hsigma, hfinal, hcapital⟩ := table.fold_sigma
      rw [lowerChar]
      split_ifs with h
      · simp [casefold, h, hfinal, hcapital]
      · simp [casefold, h, hsigma, hcapital]
      · exact table.fold_lower c
    simp only [casefold] at ih hc ⊢
    rw [lowerIn, List.flatMap_append, List.flatMap_cons, ih, hc]

end

end LetterCase
