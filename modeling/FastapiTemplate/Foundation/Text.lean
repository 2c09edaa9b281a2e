/-
  Python strings: `str.strip`, `str.lower`, `str.partition`, lines and numerals.

  A `str` is a `String`: a sequence of Unicode scalar values, `len` is
  `String.length`.  Where text is taken apart it is its list of characters.
-/
import Mathlib.Data.Int.Notation
import Mathlib.Data.List.DropRight

namespace Text

/-- `str.isspace` of a single character: what `str.strip()` removes. -/
def isSpace (c : Char) : Bool :=
  let n := c.toNat
  (0x09 ≤ n && n ≤ 0x0D) || (0x1C ≤ n && n ≤ 0x20) || n == 0x85 || n == 0xA0 || n == 0x1680 ||
    (0x2000 ≤ n && n ≤ 0x200A) || n == 0x2028 || n == 0x2029 || n == 0x202F || n == 0x205F ||
    n == 0x3000

/-- `str.strip()` on the characters. -/
def stripChars (cs : List Char) : List Char := (cs.dropWhile isSpace).rdropWhile isSpace

/-- `str.strip()`. -/
def strip (s : String) : String := String.ofList (stripChars s.toList)

/-- `str.lower()` of an ASCII string. -/
def lower (s : String) : String := String.ofList (s.toList.map Char.toLower)

/-- `str.partition(sep)` for a one-character separator: what is before the first separator,
    whether there is one, and what is after it. -/
def partition (sep : Char) (s : String) : String × Bool × String :=
  (String.ofList (s.toList.takeWhile (· ≠ sep)), s.toList.contains sep,
    String.ofList ((s.toList.dropWhile (· ≠ sep)).drop 1))

/-- Stripping takes a contiguous part of the string. -/
theorem strip_infix (s : String) : ∃ a b : String, s = a ++ strip s ++ b := by
  obtain ⟨b, hb⟩ := List.rdropWhile_prefix isSpace (s.toList.dropWhile isSpace)
  refine ⟨String.ofList (s.toList.takeWhile isSpace), String.ofList b, String.toList_injective ?_⟩
  simp only [strip, stripChars, String.toList_append, String.toList_ofList, List.append_assoc, hb]
  exact (List.takeWhile_append_dropWhile ..).symm

/-- `str.partition(sep)` on the characters. -/
def partitionChars (sep : Char) (cs : List Char) : List Char × Bool × List Char :=
  (cs.takeWhile (· ≠ sep), cs.contains sep, (cs.dropWhile (· ≠ sep)).drop 1)

/-- What is before and after the first separator. -/
theorem partitionChars_eq {sep : Char} {cs : List Char} (h : sep ∈ cs) :
    cs = (partitionChars sep cs).1 ++ sep :: (partitionChars sep cs).2.2 := by
  induction cs with
  | nil => cases h
  | cons c cs ih =>
    by_cases hc : c = sep
    · simp [partitionChars, hc]
    · have ih := ih ((List.mem_cons.1 h).resolve_left fun hsep => hc hsep.symm)
      simp only [partitionChars] at ih ⊢
      rw [List.takeWhile_cons_of_pos (by simpa using hc),
        List.dropWhile_cons_of_pos (by simpa using hc),
        List.cons_append, ← ih]

/-- Without a separator everything is before it. -/
theorem partitionChars_of_notMem {sep : Char} {cs : List Char} (h : sep ∉ cs) :
    partitionChars sep cs = (cs, false, []) := by
  have hne : ∀ x ∈ cs, decide (x ≠ sep) = true :=
    fun x hx => decide_eq_true (ne_of_mem_of_not_mem hx h)
  rw [partitionChars, List.takeWhile_eq_self_iff.2 hne, List.dropWhile_eq_nil_iff.2 hne]
  simpa using h

/-- `str.rfind(c)`: where the character stands last, or `-1`. -/
def rfind (c : Char) (cs : List Char) : ℤ := cs.length - 1 - cs.reverse.idxOf c

/-- `str.replace(old, new, 1)`: the first occurrence of `old` is replaced. -/
def replaceFirst (old new : List Char) : List Char → List Char
  | [] => if old = [] then new else []
  | c :: cs =>
    if old.isPrefixOf (c :: cs) then new ++ (c :: cs).drop old.length
    else c :: replaceFirst old new cs

/-! ## Stripping -/

section
variable {s t : List Char}

theorem stripChars_eq_self (hfirst : ∀ c ∈ s.head?, isSpace c = false)
    (hlast : ∀ c ∈ s.getLast?, isSpace c = false) : stripChars s = s := by
  have hdrop : s.dropWhile isSpace = s := by
    cases s with
    | nil => rfl
    | cons c s => exact List.dropWhile_cons_of_neg (by simp [hfirst c rfl])
  rw [stripChars, hdrop, List.rdropWhile_eq_self_iff]
  intro hne
  rw [hlast _ (List.getLast?_eq_some_getLast hne)]
  decide

theorem last_stripChars {c : Char} (h : c ∈ (stripChars s).getLast?) : isSpace c = false := by
  have hne : stripChars s ≠ [] := by
    rintro hnil
    rw [hnil] at h
    cases h
  obtain rfl : (stripChars s).getLast hne = c := by
    rw [List.getLast?_eq_some_getLast hne] at h
    exact Option.some.inj h
  exact Bool.eq_false_iff.2 (List.rdropWhile_last_not isSpace _ hne)

theorem stripChars_subset {c : Char} (h : c ∈ stripChars s) : c ∈ s :=
  (List.dropWhile_suffix _).subset ((List.rdropWhile_prefix isSpace _).subset h)

theorem stripChars_append (h : ∀ c ∈ t, isSpace c = true) : stripChars (t ++ s) = stripChars s := by
  rw [stripChars, List.dropWhile_append_of_pos h]
  rfl

theorem first_stripChars {c : Char} (h : c ∈ (stripChars s).head?) : isSpace c = false := by
  obtain ⟨t, ht⟩ := List.rdropWhile_prefix isSpace (s.dropWhile isSpace)
  have hhead : c ∈ (s.dropWhile isSpace).head? := by
    rw [← ht]
    cases hs : stripChars s with
    | nil =>
      rw [hs] at h
      cases h
    | cons d rest =>
      rw [hs] at h
      rw [stripChars] at hs
      rw [hs]
      exact h
  cases hdrop : s.dropWhile isSpace with
  | nil =>
    rw [hdrop] at hhead
    cases hhead
  | cons d rest =>
    rw [hdrop] at hhead
    cases hhead
    have hnot := List.dropWhile_get_zero_not isSpace s (by rw [hdrop]; exact Nat.succ_pos _)
    simpa [hdrop] using hnot

end

/-! ## Last occurrences -/

section
variable {c d : Char} {cs before after : List Char}

/-- The last occurrence is after the others. -/
theorem exists_last_of_mem (h : c ∈ cs) : ∃ before after, cs = before ++ c :: after ∧
    c ∉ after := by
  obtain ⟨after, before, hreverse, hafter⟩ := List.eq_append_cons_of_mem (List.mem_reverse.2 h)
  refine ⟨before.reverse, after.reverse, ?_, mt List.mem_reverse.1 hafter⟩
  rw [← cs.reverse_reverse, hreverse]
  simp

theorem rfind_append_cons (h : c ∉ after) : rfind c (before ++ c :: after) = before.length := by
  have hreverse : (before ++ c :: after).reverse = after.reverse ++ c :: before.reverse := by simp
  have hindex : (before ++ c :: after).reverse.idxOf c = after.length := by
    rw [hreverse, List.idxOf_append_of_notMem (mt List.mem_reverse.1 h), List.idxOf_cons_self,
      List.length_reverse,
      Nat.add_zero]
  rw [rfind, hindex, List.length_append, List.length_cons]
  omega

theorem rfind_of_notMem (h : c ∉ cs) : rfind c cs = -1 := by
  rw [rfind, List.idxOf_of_notMem (mt List.mem_reverse.1 h), List.length_reverse]
  omega

/-- The last `c` is after the last `d` when no `d` follows it. -/
theorem rfind_lt_rfind_iff (hne : d ≠ c) : rfind d cs < rfind c cs ↔
    ∃ before after, cs = before ++ c :: after ∧ c ∉ after ∧ d ∉ after := by
  constructor
  · intro hlt
    have hc : c ∈ cs := by
      by_contra hc
      rw [rfind_of_notMem hc] at hlt
      by_cases hd : d ∈ cs
      · obtain ⟨before, after, rfl, hafter⟩ := exists_last_of_mem hd
        rw [rfind_append_cons hafter] at hlt
        omega
      · rw [rfind_of_notMem hd] at hlt
        omega
    obtain ⟨before, after, rfl, hafter⟩ := exists_last_of_mem hc
    refine ⟨before, after, rfl, hafter, fun hd => ?_⟩
    obtain ⟨before', after', rfl, hafter'⟩ := exists_last_of_mem hd
    have hsplit : before ++ c :: (before' ++ d :: after') =
        (before ++ c :: before') ++ d :: after' := by simp
    rw [rfind_append_cons hafter, hsplit, rfind_append_cons hafter', List.length_append] at hlt
    simp at hlt
    omega
  · rintro ⟨before, after, rfl, hafter, hd⟩
    rw [rfind_append_cons hafter]
    by_cases hbefore : d ∈ before
    · obtain ⟨x, y, rfl, hy⟩ := exists_last_of_mem hbefore
      have hsplit : (x ++ d :: y) ++ c :: after = x ++ d :: (y ++ c :: after) := by simp
      rw [hsplit, rfind_append_cons (by simp [hy, hd, hne]), List.length_append, List.length_cons]
      omega
    · rw [rfind_of_notMem (by simp [hbefore, hd, hne])]
      omega

end

/-! ## Lines -/

/-- `str.lstrip()` on the characters. -/
def lstrip (cs : List Char) : List Char := cs.dropWhile isSpace

/-- The characters that end a line for `str.splitlines`. -/
def isLineBreak (c : Char) : Bool :=
  let n := c.toNat
  (0x0A ≤ n && n ≤ 0x0D) || (0x1C ≤ n && n ≤ 0x1E) || n == 0x85 || n == 0x2028 || n == 0x2029

/-- The lines of a text, with their line breaks; `line` is what the current line has so far, last
    character first. -/
def linesFrom (line : List Char) : List Char → List (List Char)
  | [] => if line = [] then [] else [line.reverse]
  | '\r' :: '\n' :: rest => ('\n' :: '\r' :: line).reverse :: linesFrom [] rest
  | c :: rest =>
    if isLineBreak c then (c :: line).reverse :: linesFrom [] rest else linesFrom (c :: line) rest

/-- `str.splitlines(keepends=True)`. -/
def splitlinesKeepends (s : List Char) : List (List Char) := linesFrom [] s

/-- A line without its line break. -/
def dropLineBreak (line : List Char) : List Char := line.rdropWhile isLineBreak

/-- `str.splitlines()`. -/
def splitlines (s : List Char) : List (List Char) := (splitlinesKeepends s).map dropLineBreak

theorem linesFrom_flatten (line s : List Char) :
    (linesFrom line s).flatten = line.reverse ++ s := by
  fun_induction linesFrom line s <;> simp_all

/-- The lines make up the text. -/
theorem splitlinesKeepends_flatten (s : List Char) : (splitlinesKeepends s).flatten = s :=
  linesFrom_flatten [] s

theorem newline_notMem_linesFrom {current s line : List Char} (hcurrent : '\n' ∉ current)
    (h : line ∈ linesFrom current s) : '\n' ∉ line.dropLast := by
  fun_induction linesFrom current s with
  | case1 => cases h
  | case2 current =>
    obtain rfl := List.mem_singleton.1 h
    exact fun hmem => hcurrent (List.mem_reverse.1 (List.dropLast_subset _ hmem))
  | case3 current rest ih =>
    rcases List.mem_cons.1 h with rfl | h
    · simpa using hcurrent
    · exact ih (by simp) h
  | case4 current c rest _ hbreak ih =>
    rcases List.mem_cons.1 h with rfl | h
    · simpa using hcurrent
    · exact ih (by simp) h
  | case5 current c rest _ hbreak ih =>
    refine ih ?_ h
    rintro (_ | ⟨_, hmem⟩)
    · exact hbreak rfl
    · exact hcurrent hmem

/-- In a line, a newline is the last character. -/
theorem newline_notMem_dropLast {s line : List Char} (h : line ∈ splitlinesKeepends s) :
    '\n' ∉ line.dropLast :=
  newline_notMem_linesFrom (by simp) h

/-- The line ends of a text that is read in text mode. -/
def universalNewlines : List Char → List Char
  | [] => []
  | c :: rest =>
    if c ≠ '\r' then c :: universalNewlines rest
    else if rest.head? = some '\n' then universalNewlines rest
    else '\n' :: universalNewlines rest

theorem universalNewlines_eq_self {s : List Char} (h : '\r' ∉ s) : universalNewlines s = s := by
  induction s with
  | nil => rfl
  | cons c s ih =>
    rw [List.mem_cons, not_or] at h
    rw [universalNewlines, if_pos (Ne.symm h.1), ih h.2]

/-! ## Numbers -/

/-- The zeros of the decimal digits (Unicode 16). -/
def decimalZeros : List ℕ :=
  [0x30, 0x660, 0x6F0, 0x7C0, 0x966, 0x9E6, 0xA66, 0xAE6, 0xB66, 0xBE6, 0xC66, 0xCE6, 0xD66,
    0xDE6, 0xE50, 0xED0, 0xF20, 0x1040, 0x1090, 0x17E0, 0x1810, 0x1946, 0x19D0, 0x1A80, 0x1A90,
    0x1B50, 0x1BB0, 0x1C40, 0x1C50, 0xA620, 0xA8D0, 0xA900, 0xA9D0, 0xA9F0, 0xAA50, 0xABF0,
    0xFF10, 0x104A0, 0x10D30, 0x10D40, 0x11066, 0x110F0, 0x11136, 0x111D0, 0x112F0, 0x11450,
    0x114D0, 0x11650, 0x116C0, 0x116D0, 0x116DA, 0x11730, 0x118E0, 0x11950, 0x11BF0, 0x11C50,
    0x11D50, 0x11DA0, 0x11F50, 0x16130, 0x16A60, 0x16AC0, 0x16B50, 0x16D70, 0x1CCF0, 0x1D7CE,
    0x1D7D8, 0x1D7E2, 0x1D7EC, 0x1D7F6, 0x1E140, 0x1E2F0, 0x1E4F0, 0x1E5F1, 0x1E950, 0x1FBF0]

/-- The value of a decimal digit. -/
def decimal (c : Char) : Option ℕ :=
  (decimalZeros.find? fun z => z ≤ c.toNat && c.toNat < z + 10).map (c.toNat - ·)

/-- The characters of `\d`. -/
def isDecimal (c : Char) : Bool := (decimal c).isSome

/-- `int(s)` of decimal digits; the interpreter's limit on their number is not modelled. -/
def int (digits : List Char) : ℕ :=
  digits.foldl (fun n c => 10 * n + (decimal c).getD 0) 0

end Text
