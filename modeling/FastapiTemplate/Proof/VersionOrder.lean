/-
  How the updater compares versions (`compareVersions_preorder`): by their
  releases, as if these went on with zeros.
-/
import FastapiTemplate.Lib.Continued
import FastapiTemplate.Management.Requirements
import FastapiTemplate.Proof.Releases

namespace FastapiTemplate.Management

open Regex

/-- A text that starts with a dotted numeric release. -/
structure ReleaseText where
  text : List Char
  starts : text.head?.any Text.isDecimal = true

/-- The numbers at the start of a text. -/
theorem exists_numbers {s : List Char} (h : s.head?.any Text.isDecimal = true) :
    ∃ (w : Dotted) (rest : List Char), s = ['.'].intercalate w.parts ++ rest ∧
    EndsNumbers rest := by
  induction hn : s.length using Nat.strong_induction_on generalizing s with
  | _ n ih =>
    set d := s.takeWhile Text.isDecimal with hd
    set r := s.dropWhile Text.isDecimal with hr
    have hs : s = d ++ r := (List.takeWhile_append_dropWhile ..).symm
    have hne : d ≠ [] := by
      cases s with
      | nil => cases h
      | cons c s =>
        have hc : Text.isDecimal c = true := h
        rw [hd, List.takeWhile_cons_of_pos hc]
        exact List.cons_ne_nil _ _
    have hnumeral : IsNumeral d := ⟨hne, fun c hc => List.mem_takeWhile_imp hc⟩
    have hhead : r.head?.all (fun c => !Text.isDecimal c) = true := Spans.dropWhile_head
    by_cases hpart : ∃ c t, r = '.' :: c :: t ∧ Text.isDecimal c = true
    · -- another part follows
      obtain ⟨c, t, hrt, hc⟩ := hpart
      have hlen : (c :: t).length < n := by
        rw [← hn, hs, hrt, List.length_append, List.length_cons (a := '.')]
        omega
      obtain ⟨w, rest, ht, hrest⟩ := ih _ hlen (by simpa using hc) rfl
      have hnum : ∀ e ∈ d :: w.parts, IsNumeral e := by
        intro e he
        rcases List.mem_cons.1 he with rfl | he
        · exact hnumeral
        · exact w.numerals e he
      have hjoin : ['.'].intercalate (d :: w.parts) = d ++ '.' :: ['.'].intercalate w.parts := by
        obtain ⟨e, parts, he⟩ := List.exists_cons_of_ne_nil w.nonempty
        rw [he, List.intercalate_cons_cons]
        simp
      refine ⟨⟨false, d :: w.parts, List.cons_ne_nil _ _, hnum⟩, rest, ?_, hrest⟩
      rw [hs, hrt, ht, hjoin]
      simp
    · refine ⟨⟨false, [d], by simp, fun e he => ?_⟩, r, by simpa using hs, hhead, fun c t hct => ?_⟩
      · rwa [List.mem_singleton.1 he]
      · exact Bool.eq_false_iff.2 fun hc => hpart ⟨c, t, hct, hc⟩

/-- The dotted numbers that a text goes on with, after the digits of `n`. -/
def numbersFrom (n : ℕ) : List Char → List ℕ
  | [] => [n]
  | c :: s =>
    if Text.isDecimal c then numbersFrom (10 * n + (Text.decimal c).getD 0) s
    else if c = '.' ∧ s.head?.any Text.isDecimal = true then n :: numbersFrom 0 s
    else [n]

section
variable {n : ℕ} {d rest : List Char} {parts : List (List Char)}

theorem numbersFrom_digits (hd : ∀ c ∈ d, Text.isDecimal c = true) :
    numbersFrom n (d ++ rest) =
      numbersFrom (d.foldl (fun n c => 10 * n + (Text.decimal c).getD 0) n) rest := by
  induction d generalizing n with
  | nil => rfl
  | cons c d ih =>
    have hc : Text.isDecimal c = true := hd c (List.mem_cons_self ..)
    rw [List.cons_append, numbersFrom, if_pos hc, ih fun e he => hd e (List.mem_cons_of_mem _ he)]
    rfl

/-- The numbers end where no digit and no part follows. -/
theorem numbersFrom_ends (h : EndsNumbers rest) : numbersFrom n rest = [n] := by
  cases rest with
  | nil => rfl
  | cons c rest =>
    have hc : ¬Text.isDecimal c = true := by simpa using h.head
    have hpart : ¬(c = '.' ∧ rest.head?.any Text.isDecimal = true) := by
      rintro ⟨rfl, hpart⟩
      cases rest with
      | nil => cases hpart
      | cons e rest =>
        have he : Text.isDecimal e = true := hpart
        rw [h.notPart e rest rfl] at he
        cases he
    rw [numbersFrom, if_neg hc, if_neg hpart]

/-- Each further part gives one more number. -/
theorem numbersFrom_parts (hparts : ∀ d ∈ parts, IsNumeral d) (hrest : EndsNumbers rest) :
    numbersFrom n (parts.flatMap ('.' :: ·) ++ rest) = n :: parts.map Text.int := by
  induction parts generalizing n with
  | nil => exact numbersFrom_ends hrest
  | cons d parts ih =>
    obtain ⟨hne, hdigits⟩ := hparts d (List.mem_cons_self ..)
    have hhead : (d ++ (parts.flatMap ('.' :: ·) ++ rest)).head?.any Text.isDecimal = true := by
      obtain ⟨c, d, rfl⟩ := List.exists_cons_of_ne_nil hne
      exact hdigits c (List.mem_cons_self ..)
    have hdot : ¬Text.isDecimal '.' = true := by simp [isDecimal_dot]
    rw [List.flatMap_cons, List.append_assoc, List.cons_append, numbersFrom, if_neg hdot,
      if_pos ⟨rfl, hhead⟩, numbersFrom_digits hdigits, ih fun e he => hparts e (by simp [he])]
    rfl

theorem numbersFrom_append (w : Dotted) (hrest : EndsNumbers rest) :
    numbersFrom 0 (['.'].intercalate w.parts ++ rest) = w.release := by
  obtain ⟨v, parts, hne, hnum⟩ := w
  obtain ⟨d, parts, rfl⟩ := List.exists_cons_of_ne_nil hne
  rw [intercalate_dot, List.append_assoc, numbersFrom_digits (hnum d (by simp)).2,
    numbersFrom_parts (fun e he => hnum e (by simp [he])) hrest]
  rfl

end

namespace ReleaseText

/-- The release of a text: the dotted numbers that it starts with, read character by character. -/
def release (a : ReleaseText) : List ℕ := numbersFrom 0 a.text

/-- The key of the updater is the release. -/
theorem versionKey_text (a : ReleaseText) : versionKey a.text = some a.release := by
  obtain ⟨w, rest, htext, hrest⟩ := exists_numbers a.starts
  rw [release, htext, numbersFrom_append w hrest]
  exact releaseNumbers_append w hrest

/-- The release, continued with zeros. -/
def sequence (a : ReleaseText) : Lex (ℕ → ℕ) := Continued.seq 0 a.release

/-- `.0` appended some times. -/
def appendZeros (a : ReleaseText) (n : ℕ) : ReleaseText where
  text := a.text ++ (List.replicate n ['.', '0']).flatten
  starts := by
    have h := a.starts
    cases ha : a.text with
    | nil =>
      rw [ha] at h
      cases h
    | cons c s =>
      rw [ha] at h
      exact h

/-- One more `.0` is one more zero of the release, or is not part of it. -/
theorem release_append {a b : ReleaseText} (h : b.text = a.text ++ ['.', '0']) :
    b.release = a.release ++ [0] ∨ b.release = a.release := by
  obtain ⟨w, rest, htext, hrest⟩ := exists_numbers a.starts
  have ha : a.release = w.release := by rw [release, htext, numbersFrom_append w hrest]
  rw [ha, release, h, htext]
  cases rest with
  | nil =>
    -- the text is the release
    left
    have hzero : IsNumeral ['0'] := ⟨by simp, by decide⟩
    have hnum : ∀ d ∈ w.parts ++ [['0']], IsNumeral d := by
      intro d hd
      rcases List.mem_append.1 hd with hd | hd
      · exact w.numerals d hd
      · rwa [List.mem_singleton.1 hd]
    have hjoin : ['.'].intercalate w.parts ++ [] ++ ['.', '0'] =
        ['.'].intercalate (w.parts ++ [['0']]) ++ [] := by
      obtain ⟨d, parts, hparts⟩ := List.exists_cons_of_ne_nil w.nonempty
      rw [hparts, List.cons_append, intercalate_dot, intercalate_dot, List.flatMap_append]
      simp
    have hint : Text.int ['0'] = 0 := by decide
    rw [hjoin, numbersFrom_append ⟨false, w.parts ++ [['0']], by simp, hnum⟩ hrest]
    simp [Dotted.release, hint]
  | cons c rest =>
    -- the release ended before the end of the text
    right
    have hends : EndsNumbers (c :: rest ++ ['.', '0']) := by
      refine ⟨hrest.head, fun d s hs => ?_⟩
      cases rest with
      | nil =>
        cases hs
        exact isDecimal_dot
      | cons e rest =>
        cases hs
        exact hrest.notPart d rest rfl
    rw [List.append_assoc, numbersFrom_append w hends]

theorem sequence_appendZeros (a : ReleaseText) (n : ℕ) :
    (a.appendZeros n).sequence = a.sequence := by
  induction n with
  | zero =>
    have h : a.appendZeros 0 = a := by
      obtain ⟨text, _⟩ := a
      simp [appendZeros]
    rw [h]
  | succ n ih =>
    have htext : (a.appendZeros (n + 1)).text = (a.appendZeros n).text ++ ['.', '0'] := by
      simp [appendZeros, List.replicate_succ']
    rw [← ih, sequence, sequence]
    rcases release_append htext with h | h
    · rw [h]
      exact Continued.seq_append_replicate (n := 1)
    · rw [h]

end ReleaseText

/-- How two values compare, as a number. -/
def orderSign {β : Type*} [LinearOrder β] (x y : β) : ℤ :=
  if x < y then -1 else if y < x then 1 else 0

section
variable {β : Type*} [LinearOrder β] {x y : β}

theorem orderSign_of_lt (h : x < y) : orderSign x y = -1 := if_pos h

theorem orderSign_of_gt (h : y < x) : orderSign x y = 1 := by
  rw [orderSign, if_neg h.not_gt, if_pos h]

theorem orderSign_self : orderSign x x = 0 := by
  rw [orderSign, if_neg (lt_irrefl x), if_neg (lt_irrefl x)]

theorem orderSign_swap (x y : β) : orderSign y x = -orderSign x y := by
  rcases lt_trichotomy x y with h | rfl | h
  · rw [orderSign_of_lt h, orderSign_of_gt h]
    rfl
  · rw [orderSign_self]
    rfl
  · rw [orderSign_of_lt h, orderSign_of_gt h]

theorem orderSign_le_zero : orderSign x y ≤ 0 ↔ x ≤ y := by
  rcases lt_trichotomy x y with h | rfl | h
  · simp [orderSign_of_lt h, h.le]
  · simp [orderSign_self]
  · simp [orderSign_of_gt h, h.not_ge]

end

theorem compareVersions_text (a b : ReleaseText) :
    compareVersions a.text b.text = some (orderSign a.sequence b.sequence) := by
  have hleft : a.release.length ≤ max a.release.length b.release.length := le_max_left ..
  have hright : b.release.length ≤ max a.release.length b.release.length := le_max_right ..
  have hlt := Continued.pad_lt_iff (d := 0) hleft hright
  have hgt := Continued.pad_lt_iff (d := 0) hright hleft
  simp only [Continued.pad] at hlt hgt
  simp only [compareVersions, a.versionKey_text, b.versionKey_text]
  rcases lt_trichotomy a.sequence b.sequence with h | h | h
  · rw [orderSign_of_lt h]
    exact if_pos (hlt.2 h)
  · rw [h, orderSign_self]
    have hne : ¬a.sequence < b.sequence := h.not_lt
    have hne' : ¬b.sequence < a.sequence := h.not_gt
    exact (if_neg (mt hlt.1 hne)).trans (if_neg (mt hgt.1 hne'))
  · rw [orderSign_of_gt h]
    have hne : ¬a.sequence < b.sequence := h.not_gt
    exact (if_neg (mt hlt.1 hne)).trans (if_pos (hgt.2 h))

/-- The first version is not above the second one. -/
def NotAbove (a b : ReleaseText) : Prop := ∃ n ≤ 0, compareVersions a.text b.text = some n

theorem notAbove_iff {a b : ReleaseText} : NotAbove a b ↔ a.sequence ≤ b.sequence := by
  rw [NotAbove, compareVersions_text, ← orderSign_le_zero]
  simp

/-- **The comparison is a total preorder**: that of the releases continued with zeros. It changes
    its sign when the versions change places, and `.0` after either of them changes nothing. -/
theorem compareVersions_preorder :
    (∀ a b : ReleaseText, compareVersions a.text b.text = some (orderSign a.sequence b.sequence)) ∧
      (∀ a b : ReleaseText,
        compareVersions b.text a.text = (compareVersions a.text b.text).map fun n => -n) ∧
      (∀ a b c, NotAbove a b → NotAbove b c → NotAbove a c) ∧
      (∀ a b, NotAbove a b ∨ NotAbove b a) ∧
      ∀ (a b : ReleaseText) (m n : ℕ),
        compareVersions (a.appendZeros m).text (b.appendZeros n).text =
        compareVersions a.text b.text := by
  refine ⟨compareVersions_text, fun a b => ?_, fun a b c hab hbc => ?_, fun a b => ?_,
    fun a b m n => ?_⟩
  · rw [compareVersions_text, compareVersions_text, orderSign_swap, Option.map_some]
  · rw [notAbove_iff] at hab hbc ⊢
    exact hab.trans hbc
  · rw [notAbove_iff, notAbove_iff]
    exact le_total ..
  · rw [compareVersions_text, compareVersions_text, a.sequence_appendZeros, b.sequence_appendZeros]

end FastapiTemplate.Management
