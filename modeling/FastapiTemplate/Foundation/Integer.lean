/-
  `int(s)` of a text, and that it reads `str(n)` back.
-/
import FastapiTemplate.Foundation.Text

namespace Text

/-- The white space that may stand around an integer. -/
def isIntSpace (c : Char) : Bool := isSpace c && !(0x1C ≤ c.toNat && c.toNat ≤ 0x1F)

/-- Decimal digits, where single underscores may stand between them. -/
def readDigits (s : List Char) : Option ℕ :=
  let groups := s.splitOn '_'
  if groups.all fun group =>
    !group.isEmpty && group.all isDecimal then some (int groups.flatten) else none

/-- `int(s)`; `none` if it raises `ValueError`. -/
def readInt (s : List Char) : Option ℤ :=
  match (s.dropWhile isIntSpace).rdropWhile isIntSpace with
  | '-' :: digits => (readDigits digits).map fun n : ℕ => -(n : ℤ)
  | '+' :: digits => (readDigits digits).map fun n : ℕ => (n : ℤ)
  | digits => (readDigits digits).map fun n : ℕ => (n : ℤ)

/-- `str(n)` -/
def str (n : ℤ) : List Char := (toString n).toList

section
variable {s : List Char} {c : Char} {n : ℤ}

theorem str_eq (n : ℤ) :
    str n = if 0 ≤ n then Nat.toDigits 10 n.toNat else '-' :: Nat.toDigits 10 (-n).toNat := by
  rw [str, Int.toString_eq_repr, Int.repr_eq_if]
  split_ifs
  · exact Nat.toList_repr
  · rw [String.toList_append, Nat.toList_repr]
    rfl

/-- The digits of ASCII. -/
theorem decimal_of_isDigit (h : c.isDigit = true) : decimal c = some (c.toNat - '0'.toNat) := by
  have hall : ∀ n : Fin 128, (Char.ofNat n).isDigit = true →
      decimal (Char.ofNat n) = some ((Char.ofNat n).toNat - '0'.toNat) := by decide
  have hlt : c.toNat < 128 := Nat.lt_of_le_of_lt (Char.isDigit_iff_toNat.1 h).2 (by decide)
  have hc := hall ⟨c.toNat, hlt⟩
  rw [Char.ofNat_toNat] at hc
  exact hc h

theorem toDigits_isDigit {m : ℕ} (h : c ∈ Nat.toDigits 10 m) : c.isDigit = true :=
  Nat.isDigit_of_mem_toDigits (by decide) (by decide) h

theorem int_toDigits (m : ℕ) : int (Nat.toDigits 10 m) = m := by
  have hfold : ∀ (s : List Char) (k : ℕ), (∀ c ∈ s, c.isDigit = true) →
      s.foldl (fun n c => 10 * n + (decimal c).getD 0) k = Nat.ofDigitChars 10 s k := by
    intro s
    induction s with
    | nil =>
      intro k _
      rfl
    | cons c s ih =>
      intro k h
      rw [List.foldl_cons, decimal_of_isDigit (h c (List.mem_cons_self ..)), Option.getD_some,
        ih _ fun d hd => h d (List.mem_cons_of_mem _ hd), Nat.ofDigitChars_cons]
  rw [int, hfold _ 0 fun c hc => toDigits_isDigit hc]
  exact Nat.ofDigitChars_ten_toDigits

theorem readDigits_toDigits (m : ℕ) : readDigits (Nat.toDigits 10 m) = some m := by
  have hunderscore : '_' ∉ Nat.toDigits 10 m := fun h => absurd (toDigits_isDigit h) (by decide)
  have hall : (Nat.toDigits 10 m).all isDecimal = true := by
    refine List.all_eq_true.2 fun c hc => ?_
    rw [isDecimal, decimal_of_isDigit (toDigits_isDigit hc)]
    rfl
  have hne : (Nat.toDigits 10 m).isEmpty = false := List.isEmpty_eq_false_iff.2 Nat.toDigits_ne_nil
  simp [readDigits, List.splitOn_eq_singleton hunderscore, hall, hne, int_toDigits]

theorem str_ne_nil : str n ≠ [] := by
  rw [str_eq]
  split_ifs
  · exact Nat.toDigits_ne_nil
  · exact List.cons_ne_nil _ _

theorem str_chars (h : c ∈ str n) : c.isDigit = true ∨ c = '-' := by
  rw [str_eq] at h
  split_ifs at h
  · exact .inl (toDigits_isDigit h)
  · rcases List.mem_cons.1 h with rfl | h
    · exact .inr rfl
    · exact .inl (toDigits_isDigit h)

/-- **Integers are read back.** -/
theorem readInt_str (n : ℤ) : readInt (str n) = some n := by
  have hspace : ∀ c ∈ str n, isIntSpace c = false := by
    intro c hc
    have hc : 45 ≤ c.toNat ∧ c.toNat ≤ 57 := by
      rcases str_chars hc with h | rfl
      · have h := Char.isDigit_iff_toNat.1 h
        exact ⟨Nat.le_trans (by decide) h.1, h.2⟩
      · decide
    simp only [isIntSpace, isSpace, Bool.and_eq_false_iff, Bool.or_eq_false_iff,
      decide_eq_false_iff_not,
      beq_eq_false_iff_ne]
    omega
  have hstrip : ((str n).dropWhile isIntSpace).rdropWhile isIntSpace = str n := by
    have hdrop : (str n).dropWhile isIntSpace = str n := by
      cases hs : str n with
      | nil => rfl
      | cons c s =>
        exact List.dropWhile_cons_of_neg (by simp [hspace c (hs ▸ List.mem_cons_self ..)])
    rw [hdrop, List.rdropWhile_eq_self_iff]
    intro hne
    simp [hspace _ (List.getLast_mem hne)]
  rw [readInt, hstrip, str_eq]
  split_ifs with hn
  · have hsign : ∀ c ∈ Nat.toDigits 10 n.toNat, c ≠ '-' ∧ c ≠ '+' := by
      intro c hc
      constructor
      · rintro rfl
        exact absurd (toDigits_isDigit hc) (by decide)
      · rintro rfl
        exact absurd (toDigits_isDigit hc) (by decide)
    split
    · rename_i digits hdigits
      exact absurd rfl (hsign '-' (hdigits ▸ List.mem_cons_self ..)).1
    · rename_i digits hdigits
      exact absurd rfl (hsign '+' (hdigits ▸ List.mem_cons_self ..)).2
    · rw [readDigits_toDigits, Option.map_some, Int.toNat_of_nonneg hn]
  · simp only [readDigits_toDigits, Option.map_some]
    congr 1
    omega

theorem str_injective : Function.Injective str := fun m n h => by
  have hm := readInt_str m
  rw [h, readInt_str] at hm
  exact (Option.some.inj hm).symm

end

end Text
