/-
  Texts put together from lines: `Lines` are the lists of lines that
  `str.splitlines` reads from the text they make up, and a line may be replaced by
  one that begins and ends in the same way (`Lines.replace`).
-/
import FastapiTemplate.Foundation.Text
import FastapiTemplate.Lib.Spans
import Mathlib.Data.List.Forall2

namespace Text

/-- The line break at the end of a line. -/
def lineBreak (line : List Char) : List Char := line.rtakeWhile isLineBreak

/-- One line break: a carriage return with a newline, or a single character. -/
def IsLineBreak (ending : List Char) : Prop :=
  ending = ['\r', '\n'] ∨ ∃ c, isLineBreak c = true ∧ ending = [c]

/-- Lists of lines: only the last one may have no line break, and no line break is cut in two. -/
inductive Lines : List (List Char) → Prop where
  | nil : Lines []
  | last {line} (hne : line ≠ []) (hline : ∀ c ∈ line, isLineBreak c = false) : Lines [line]
  | cons {line lines} (hbody : ∀ c ∈ dropLineBreak line, isLineBreak c = false)
      (hend : IsLineBreak (lineBreak line))
      (hnewline : lineBreak line = ['\r'] → lines.flatten.head? ≠ some '\n') (h : Lines lines) :
      Lines (line :: lines)

section
variable {line body ending rest current : List Char} {lines lines' : List (List Char)}

theorem dropLineBreak_append_lineBreak : dropLineBreak line ++ lineBreak line = line :=
  List.rdropWhile_append_rtakeWhile

theorem isLineBreak_of_mem_newline : ∀ c ∈ ['\r', '\n'], isLineBreak c = true := by
  simp [isLineBreak]

theorem IsLineBreak.breaks (h : IsLineBreak ending) : ∀ c ∈ ending, isLineBreak c = true := by
  rcases h with rfl | ⟨c, hc, rfl⟩
  · exact isLineBreak_of_mem_newline
  · simpa using hc

/-- A line with a line break ends with a character of it. -/
theorem IsLineBreak.getLast? (h : IsLineBreak (lineBreak line)) :
    ∃ c, line.getLast? = some c ∧ isLineBreak c = true := by
  have hparts : dropLineBreak line ++ lineBreak line = line := dropLineBreak_append_lineBreak
  rcases List.eq_nil_or_concat' (lineBreak line) with hnil | ⟨ending, c, hconcat⟩
  · rw [hnil] at h
    rcases h with h | ⟨c, -, h⟩ <;> cases h
  · refine ⟨c, ?_, h.breaks c (by simp [hconcat])⟩
    rw [← hparts, hconcat, ← List.append_assoc, List.getLast?_concat]

theorem last_all_of_forall (hbody : ∀ c ∈ body, isLineBreak c = false) :
    body.getLast?.all (fun c => !isLineBreak c) = true := by
  cases body using List.reverseRecOn with
  | nil => rfl
  | append_singleton body c => simpa using hbody c (by simp)

theorem dropLineBreak_append (hbody : ∀ c ∈ body, isLineBreak c = false)
    (h : ∀ c ∈ ending, isLineBreak c = true) :
    dropLineBreak (body ++ ending) = body := by
  rw [dropLineBreak, Spans.rdropWhile_append_stop (last_all_of_forall hbody),
    (List.rdropWhile_eq_nil_iff ..).2 h,
    List.append_nil]

theorem lineBreak_append (hbody : ∀ c ∈ body, isLineBreak c = false)
    (h : ∀ c ∈ ending, isLineBreak c = true) :
    lineBreak (body ++ ending) = ending := by
  rw [lineBreak, Spans.rtakeWhile_append_stop (last_all_of_forall hbody),
    (List.rtakeWhile_eq_self_iff ..).2 h]

/-- Only at its end is there a line break in a line. -/
theorem Lines.bodies (h : Lines lines) : ∀ line ∈ lines, ∀ c ∈ dropLineBreak line,
    isLineBreak c = false := by
  induction h with
  | nil => simp
  | @last line hne hline =>
    intro line' hline' c hc
    rw [List.mem_singleton.1 hline'] at hc
    exact hline c ((List.rdropWhile_prefix _ _).subset hc)
  | cons hbody _ _ _ ih =>
    intro line' hline'
    rcases List.mem_cons.1 hline' with rfl | hline'
    · exact hbody
    · exact ih line' hline'

/-! ## The lines of a text -/

theorem lines_linesFrom {s : List Char} (hcurrent : ∀ c ∈ current, isLineBreak c = false) :
    Lines (linesFrom current s) := by
  fun_induction linesFrom current s with
  | case1 => exact .nil
  | case2 current hne => exact .last (by simpa using hne) (by simpa using hcurrent)
  | case3 current rest ih =>
    have hbody : ∀ c ∈ current.reverse, isLineBreak c = false := by simpa using hcurrent
    have hbreaks := isLineBreak_of_mem_newline
    rw [show ('\n' :: '\r' :: current).reverse = current.reverse ++ ['\r', '\n'] by simp]
    refine .cons ?_ ?_ ?_ (ih (by simp))
    · rwa [dropLineBreak_append hbody hbreaks]
    · rw [lineBreak_append hbody hbreaks]
      exact .inl rfl
    · rw [lineBreak_append hbody hbreaks]
      rintro ⟨⟩
  | case4 current c rest hnewline hbreak ih =>
    have hbody : ∀ c ∈ current.reverse, isLineBreak c = false := by simpa using hcurrent
    have hbreaks : ∀ d ∈ [c], isLineBreak d = true := by simpa using hbreak
    rw [List.reverse_cons]
    refine .cons ?_ ?_ ?_ (ih (by simp))
    · rwa [dropLineBreak_append hbody hbreaks]
    · rw [lineBreak_append hbody hbreaks]
      exact .inr ⟨c, hbreak, rfl⟩
    · rw [lineBreak_append hbody hbreaks, linesFrom_flatten, List.reverse_nil, List.nil_append]
      intro hc hhead
      obtain ⟨rest', rfl⟩ := List.head?_eq_some_iff.1 hhead
      exact hnewline rest' (List.singleton_inj.1 hc) rfl
  | case5 current c rest hnewline hbreak ih =>
    refine ih fun d hd => ?_
    rcases List.mem_cons.1 hd with rfl | hd
    · simpa using hbreak
    · exact hcurrent d hd

theorem lines_splitlinesKeepends (s : List Char) : Lines (splitlinesKeepends s) :=
  lines_linesFrom (by simp)

/-- The current line goes on where there is no line break. -/
theorem linesFrom_append (hbody : ∀ c ∈ body, isLineBreak c = false) :
    linesFrom current (body ++ rest) = linesFrom (body.reverse ++ current) rest := by
  induction body generalizing current with
  | nil => rfl
  | cons c body ih =>
    have hc : isLineBreak c = false := hbody c (by simp)
    have hcr : c ≠ '\r' := by
      rintro rfl
      exact absurd hc (by decide)
    rw [List.cons_append, linesFrom, if_neg (by simp [hc]), ih fun d hd => hbody d (by simp [hd])]
    · simp
    · intro _ h
      exact absurd h hcr

/-- The current line ends with a line break. -/
theorem linesFrom_break (hend : IsLineBreak ending)
    (hnewline : ending = ['\r'] → rest.head? ≠ some '\n') :
    linesFrom current (ending ++ rest) = (current.reverse ++ ending) :: linesFrom [] rest := by
  rcases hend with rfl | ⟨c, hc, rfl⟩
  · simp [linesFrom]
  · rw [List.singleton_append, linesFrom, if_pos hc]
    · simp
    · rintro rest' rfl rfl
      exact hnewline rfl rfl

/-- Lines are read back from the text they make up. -/
theorem Lines.splitlinesKeepends_flatten (h : Lines lines) : splitlinesKeepends lines.flatten =
    lines := by
  induction h with
  | nil => rfl
  | @last line hne hline =>
    have hread : linesFrom [] (line ++ []) = linesFrom (line.reverse ++ []) [] :=
      linesFrom_append hline
    rw [List.append_nil, List.append_nil] at hread
    rw [splitlinesKeepends, List.flatten_singleton, hread, linesFrom, if_neg (by simpa using hne),
      List.reverse_reverse]
  | @cons line lines hbody hend hnewline _ ih =>
    have hread : linesFrom [] (dropLineBreak line ++ (lineBreak line ++ lines.flatten)) =
        linesFrom ((dropLineBreak line).reverse ++ []) (lineBreak line ++ lines.flatten) :=
      linesFrom_append hbody
    rw [List.append_nil, linesFrom_break hend hnewline, List.reverse_reverse, ← List.append_assoc,
      dropLineBreak_append_lineBreak] at hread
    rw [splitlinesKeepends, List.flatten_cons, hread, ← splitlinesKeepends, ih]

/-! ## Other lines in their place -/

/-- The second line can stand in place of the first: it begins and ends in the same way. -/
structure Replaces (line line' : List Char) : Prop where
  head : line'.head? = line.head?
  ending : lineBreak line' = lineBreak line
  body : (∀ c ∈ dropLineBreak line, isLineBreak c = false) → ∀ c ∈ dropLineBreak line',
    isLineBreak c = false

theorem Replaces.refl : Replaces line line := ⟨rfl, rfl, id⟩

theorem head?_flatten_of_replaces (h : List.Forall₂ Replaces lines lines') :
    lines'.flatten.head? = lines.flatten.head? := by
  induction h with
  | nil => rfl
  | cons hline _ ih =>
    rw [List.flatten_cons, List.flatten_cons, List.head?_append, List.head?_append, hline.head, ih]

theorem map_lineBreak_of_replaces (h : List.Forall₂ Replaces lines lines') :
    lines'.map lineBreak = lines.map lineBreak := by
  induction h with
  | nil => rfl
  | cons hline _ ih => rw [List.map_cons, List.map_cons, hline.ending, ih]

theorem Lines.replace (hlines : Lines lines) (h : List.Forall₂ Replaces lines lines') :
    Lines lines' := by
  induction hlines generalizing lines' with
  | nil =>
    cases h
    exact .nil
  | @last line hne hline =>
    obtain ⟨line', _, hreplaces, hnil, rfl⟩ := List.forall₂_cons_left_iff.1 h
    cases hnil
    have hnone : lineBreak line = [] := (Spans.rstop (last_all_of_forall hline)).1
    have hwhole : dropLineBreak line' = line' := by
      have hparts : dropLineBreak line' ++ lineBreak line' = line' := dropLineBreak_append_lineBreak
      rwa [hreplaces.ending, hnone, List.append_nil] at hparts
    refine .last ?_ ?_
    · rintro rfl
      exact hne (List.head?_eq_none_iff.1 hreplaces.head.symm)
    · rw [← hwhole]
      refine hreplaces.body fun c hc => hline c ?_
      exact (List.rdropWhile_prefix _ _).subset hc
  | @cons line lines hbody hend hnewline _ ih =>
    obtain ⟨line', lines', hreplaces, hrest, rfl⟩ := List.forall₂_cons_left_iff.1 h
    refine .cons (hreplaces.body hbody) ?_ ?_ (ih hrest)
    · rwa [hreplaces.ending]
    · rwa [hreplaces.ending, head?_flatten_of_replaces hrest]

end

end Text
