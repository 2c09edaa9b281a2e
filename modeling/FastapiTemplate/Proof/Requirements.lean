/-
  How the updater takes requirements apart, and what is read when it puts them
  together again (`parse_bounded`).
-/
import FastapiTemplate.Lib.Pep508
import FastapiTemplate.Management.Requirements

namespace FastapiTemplate.Management

open Regex Pep508 Spans
open Pep440 (Clause)

/-! ## Matching the name -/

section
variable {name e inner rest : List Char}

theorem takeWhile_name (hname : isIdentifier name = true)
    (hrest : rest.head?.all (fun c => !identChar c) = true) :
    (name ++ rest).takeWhile isNameChar = name ∧ (name ++ rest).dropWhile isNameChar = rest :=
  ⟨takeWhile_append_stop (isIdentifier_chars hname) hrest,
    dropWhile_append_stop (isIdentifier_chars hname) hrest⟩

theorem first_name (hname : isIdentifier name = true)
    (hrest : rest.head?.all (fun c => !identChar c) = true) :
    First (group "name" (plus (char isNameChar))) [] (name ++ rest)
      ⟨name, rest, [("name", name)]⟩ := by
  obtain ⟨htake, hdrop⟩ := takeWhile_name hname hrest
  obtain ⟨c, s, rfl, -⟩ := isIdentifier_head hname
  have hplus : First (plus (char isNameChar)) [] (c :: s ++ rest) ⟨_, _, []⟩ :=
    First.plus_char (by rw [htake]; simp)
  rw [htake, hdrop] at hplus
  exact hplus.group

/-- Extras that do not follow at once are not matched. -/
theorem match_name (hname : isIdentifier name = true)
    (hrest : rest.head?.all (fun c => !identChar c) = true)
    (hextras : rest.head? ≠ some '[' ∨ ∃ s, rest = '[' :: ']' :: s) :
    NAME_RE.match? (name ++ rest) = some ⟨name, rest, [("name", name)]⟩ := by
  have hopt : run (group "extras" (concat [lit ['['], plus (char (· != ']')), lit [']']]))
      (name.reverse ++ [])
      rest = [] := by
    rcases hextras with h | ⟨s, rfl⟩
    · simp only [concat, run, run_lit_of_head h]
      rfl
    · simp [concat, run, lit, plus, Match.append]
  have h : First NAME_RE [] (name ++ rest) _ :=
    (first_name hname hrest).seq (First.right hopt First.empty)
  have hm : Match.append ⟨name, rest, [("name", name)]⟩ ⟨[], rest, []⟩ =
      ⟨name, rest, [("name", name)]⟩ := by
    simp [Match.append]
  exact hm ▸ h

theorem match_none {p : List Char} (h : p.head?.all (fun c => !identChar c) = true) :
    NAME_RE.match? p = none := by
  have hchar : run (char isNameChar) [] p = [] := run_char_of_head h
  have hname : run (group "name" (plus (char isNameChar))) [] p = [] := by
    rw [run, plus, run_seq_of_left hchar]
    rfl
  have hrun : run NAME_RE [] p = [] := run_seq_of_left hname
  rw [match?, hrun]
  rfl

/-- Extras that follow at once are matched. -/
theorem match_name_extras (hname : isIdentifier name = true) (hinner : ']' ∉ inner)
    (hne : inner ≠ []) :
    NAME_RE.match? (name ++ ('[' :: (inner ++ [']']) ++ rest)) =
      some ⟨name ++ '[' :: (inner ++ [']']), rest,
        [("extras", '[' :: (inner ++ [']'])), ("name", name)]⟩ := by
  have hall : ∀ c ∈ inner, (c != ']') = true := fun c hc => by
    rw [bne_iff_ne]
    exact fun h => hinner (h ▸ hc)
  have htake : (inner ++ ']' :: rest).takeWhile (· != ']') = inner :=
    takeWhile_append_stop hall (by simp)
  have hdrop : (inner ++ ']' :: rest).dropWhile (· != ']') = ']' :: rest :=
    dropWhile_append_stop hall (by simp)
  have hplus : First (plus (char (· != ']'))) ('[' :: (name.reverse ++ [])) (inner ++ ']' :: rest)
      ⟨inner, ']' :: rest, []⟩ := by
    have h : First (plus (char (· != ']'))) ('[' :: (name.reverse ++ [])) (inner ++ ']' :: rest)
        ⟨_, _, []⟩ := First.plus_char (by rwa [htake])
    rwa [htake, hdrop] at h
  have hbrackets : First (concat [lit ['['], plus (char (· != ']')), lit [']']])
      (name.reverse ++ [])
      ('[' :: (inner ++ ']' :: rest)) ⟨'[' :: (inner ++ [']']), rest, []⟩ := by
    have h : First (concat [lit ['['], plus (char (· != ']')), lit [']']]) _ _ _ :=
      First.lit.seq (hplus.seq First.lit)
    have hm : Match.append ⟨['['], inner ++ ']' :: rest, []⟩
        (Match.append ⟨inner, ']' :: rest, []⟩ ⟨[']'], rest, []⟩) =
        ⟨'[' :: (inner ++ [']']), rest, []⟩ := by
      simp [Match.append]
    exact hm ▸ h
  have h : First NAME_RE [] (name ++ '[' :: (inner ++ ']' :: rest)) _ :=
    (first_name hname rfl).seq (First.left hbrackets.group)
  have htext : '[' :: (inner ++ [']']) ++ rest = '[' :: (inner ++ ']' :: rest) := by simp
  rw [htext]
  exact h

end

/-! ## Matching the lower bound -/

section
variable {before eq w version rest specifier v : List Char}

theorem isSpace_of_wsp {c : Char} (h : wsp c = true) : Text.isSpace c = true := by
  have h : c = ' ' ∨ c = '\t' := by simpa only [wsp, Bool.or_eq_true, beq_iff_eq] using h
  rcases h with rfl | rfl <;> rfl

/-- In a requirement `str.strip` removes no more than white space. -/
theorem isSpace_plain {c : Char} (h : plainChar c = true) : Text.isSpace c = wsp c := by
  by_cases ht : c = '\t'
  · rw [ht]
    rfl
  by_cases hs : c = ' '
  · rw [hs]
    rfl
  have hn : c.toNat ≠ 32 := fun h => hs (by rw [← Char.ofNat_toNat c, h])
  have hw : wsp c = false := by simp [wsp, ht, hs]
  simp only [plainChar, Bool.or_eq_true, beq_iff_eq, ht, false_or, Bool.and_eq_true,
    decide_eq_true_eq] at h
  rw [hw]
  unfold Text.isSpace
  simp only [Bool.or_eq_false_iff, Bool.and_eq_false_iff, decide_eq_false_iff_not,
    beq_eq_false_iff_ne]
  omega

theorem not_isSpace_of_versionChar {c : Char} (h : versionChar c = true) :
    Text.isSpace c = false := by
  rw [isSpace_plain (plain_of_versionChar h)]
  by_contra hw
  have hw : c = ' ' ∨ c = '\t' := by
    simpa only [Bool.not_eq_false, wsp, Bool.or_eq_true, beq_iff_eq] using hw
  rcases hw with rfl | rfl <;> exact absurd h (by decide)

theorem isBoundChar_of_versionChar {c : Char} (h : versionChar c = true) :
    isBoundChar c = true := by
  by_contra hc
  have hc : c = ',' ∨ c = ';' ∨ c = ' ' := by
    by_contra hne
    simp only [not_or] at hne
    exact hc (by simp [isBoundChar, hne])
  rcases hc with rfl | rfl | rfl <;> exact absurd h (by decide)

theorem versionText_head (h : isVersionText version = true) :
    ∃ c s, version = c :: s ∧ versionChar c = true := by
  cases version with
  | nil => cases h
  | cons c s => exact ⟨c, s, rfl, versionText_chars h c (List.mem_cons_self ..)⟩

/-- Only the sign starts a bound. -/
theorem run_bound {c : Char} {after : List Char} (h : c ≠ '>') :
    run LOWER_BOUND_RE before (c :: after) = [] := by
  have hhead : (c :: after).head? ≠ some '>' := by simpa using h
  have hop : run (group "operator" (alt (lit ['>', '=']) (lit ['>']))) before (c :: after) =
      [] := by
    rw [run, run, run_lit_of_head hhead, run_lit_of_head hhead]
    rfl
  exact run_seq_of_left hop

/-- The bound reaches to the next comma or space. -/
theorem first_bound (heq : eq = [] ∨ eq = ['=']) (hw : ∀ c ∈ w, wsp c = true)
    (hversion : isVersionText version = true) :
    First LOWER_BOUND_RE before ('>' :: (eq ++ (w ++ (version ++ rest))))
      ⟨'>' :: (eq ++ (w ++ (version ++ rest.takeWhile isBoundChar))), rest.dropWhile isBoundChar,
        [("operator", '>' :: eq)]⟩ := by
  obtain ⟨d, ds, hd, hdv⟩ := versionText_head hversion
  have hop : First (alt (lit ['>', '=']) (lit ['>'])) before
      ('>' :: (eq ++ (w ++ (version ++ rest))))
      ⟨'>' :: eq, w ++ (version ++ rest), []⟩ := by
    rcases heq with rfl | rfl
    · -- no equals sign follows
      have hnext : (w ++ (version ++ rest)).head? ≠ some '=' := by
        intro h
        cases w with
        | cons c w =>
          cases h
          exact absurd (hw '=' (List.mem_cons_self ..)) (by decide)
        | nil =>
          rw [hd] at h
          cases h
          exact absurd hdv (by decide)
      have hleft : run (lit ['>', '=']) before ('>' :: ([] ++ (w ++ (version ++ rest)))) = [] := by
        have htail : run (lit ['=']) ('>' :: before) _ = [] := run_lit_of_head hnext
        simp [lit, run] at htail ⊢
        exact htail
      exact First.right hleft (First.lit)
    · exact First.left (First.lit)
  have hspace : ∀ c ∈ w, Text.isSpace c = true := fun c hc => isSpace_of_wsp (hw c hc)
  have hstop : (version ++ rest).head?.all (fun c => !Text.isSpace c) = true := by
    rw [hd]
    simp [not_isSpace_of_versionChar hdv]
  have hspaces : ∀ b, First spaces b (w ++ (version ++ rest)) ⟨w, version ++ rest, []⟩ := by
    intro b
    have h : First spaces b (w ++ (version ++ rest)) ⟨_, _, []⟩ := First.star_char
    rwa [takeWhile_append_stop hspace hstop, dropWhile_append_stop hspace hstop] at h
  have hchars : ∀ c ∈ version, isBoundChar c = true := fun c hc =>
    isBoundChar_of_versionChar (versionText_chars hversion c hc)
  have hbound : ∀ b, First (plus (char isBoundChar)) b (version ++ rest)
      ⟨version ++ rest.takeWhile isBoundChar, rest.dropWhile isBoundChar, []⟩ := by
    intro b
    have h : First (plus (char isBoundChar)) b (version ++ rest) ⟨_, _, []⟩ := First.plus_char (by
      rw [List.takeWhile_append_of_pos hchars, hd]
      simp)
    rwa [List.takeWhile_append_of_pos hchars, List.dropWhile_append_of_pos hchars] at h
  have h : First LOWER_BOUND_RE before ('>' :: (eq ++ (w ++ (version ++ rest)))) _ :=
    hop.group.seq ((hspaces _).seq (hbound _))
  have hm : Match.append ⟨'>' :: eq, w ++ (version ++ rest), [("operator", '>' :: eq)]⟩
      (Match.append ⟨w, version ++ rest, []⟩
        ⟨version ++ rest.takeWhile isBoundChar, rest.dropWhile isBoundChar, []⟩) =
      ⟨'>' :: (eq ++ (w ++ (version ++ rest.takeWhile isBoundChar))), rest.dropWhile isBoundChar,
        [("operator", '>' :: eq)]⟩ := by
    simp [Match.append]
  exact hm ▸ h

/-- Without the sign there is no bound. -/
theorem search_bound_none (h : '>' ∉ specifier) : LOWER_BOUND_RE.search specifier = none :=
  search_eq_none fun _ hc _ _ => run_bound fun heq => h (heq ▸ hc)

/-- The first sign starts the bound that is replaced. -/
theorem replace_bound {pre : List Char} (hpre : '>' ∉ pre) (heq : eq = [] ∨ eq = ['='])
    (hw : ∀ c ∈ w, wsp c = true) (hversion : isVersionText version = true) :
    (LOWER_BOUND_RE.search (pre ++ '>' :: (eq ++ (w ++ (version ++ rest))))).isSome = true ∧
      ∃ n, ∀ f, LOWER_BOUND_RE.subOne f (pre ++ '>' :: (eq ++ (w ++ (version ++ rest)))) =
        pre ++ f n ++ rest.dropWhile isBoundChar := by
  have hskip : ∀ c ∈ pre, ∀ b a, run LOWER_BOUND_RE b (c :: a) = [] := fun c hc _ _ =>
    run_bound fun h => hpre (h ▸ hc)
  have hfirst : First LOWER_BOUND_RE pre.reverse ('>' :: (eq ++ (w ++ (version ++ rest)))) _ :=
    first_bound heq hw hversion
  constructor
  · rw [search_first hskip hfirst (by simp)]
    rfl
  · exact ⟨_, fun _ => subOne_first hskip hfirst (by simp)⟩

end

/-! ## Rewriting -/

section
variable {p m v : List Char}

/-- What becomes of the specifier. -/
def boundedSpecifier (specifier version : List Char) : List Char :=
  if specifier = [] then ">=".toList ++ version
  else if (LOWER_BOUND_RE.search specifier).isSome then
    LOWER_BOUND_RE.subOne (fun _ => ">=".toList ++ version) specifier
  else ">=".toList ++ version ++ ',' :: specifier

theorem partition_marker (hp : ';' ∉ p) (hm : m = [] ∨ ∃ b, m = ';' :: b) :
    ∃ separator suffix, Text.partitionChars ';' (p ++ m) = (p, separator, suffix) ∧
      ∀ s, (if separator = true then s ++ ';' :: suffix else s) = s ++ m := by
  have hall : ∀ c ∈ p, decide (c ≠ ';') = true := fun c hc => decide_eq_true fun h => hp (h ▸ hc)
  rcases hm with rfl | ⟨b, rfl⟩
  · refine ⟨false, [], ?_, fun s => by simp⟩
    have htake := takeWhile_append_stop (t := []) hall rfl
    have hdrop := dropWhile_append_stop (t := []) hall rfl
    rw [Text.partitionChars, htake, hdrop]
    simp [hp]
  · refine ⟨true, b, ?_, fun s => rfl⟩
    have htake := takeWhile_append_stop (t := ';' :: b) hall (by simp)
    have hdrop := dropWhile_append_stop (t := ';' :: b) hall (by simp)
    rw [Text.partitionChars, htake, hdrop]
    simp

theorem withLowerBound_eq {n : Match} (hp : ';' ∉ p) (hm : m = [] ∨ ∃ b, m = ';' :: b)
    (hn : NAME_RE.match? p = some n) (hv : '\\' ∉ v) :
    withLowerBound (p ++ m) v =
      some (n.group "name" ++ n.group "extras" ++ boundedSpecifier (specifierAfter p n) v ++
      m) := by
  obtain ⟨separator, suffix, hpart, hjoin⟩ := partition_marker hp hm
  have hplain : '\\' ∉ ">=".toList ++ v := by
    rw [List.mem_append, not_or]
    exact ⟨by decide, hv⟩
  simp only [withLowerBound, hpart, hn, template_plain hplain, Option.map_some]
  unfold boundedSpecifier
  split_ifs <;> simp_all

theorem backslash_notMem (hv : isVersionText v = true) : '\\' ∉ v :=
  notMem_of_forall (versionText_chars hv) (by decide)

/-- A text that does not start with a name is left alone. -/
theorem withLowerBound_space {r : List Char} (h : r.head?.any wsp = true) :
    withLowerBound r v = some r := by
  cases r with
  | nil => cases h
  | cons c r =>
    have hc : wsp c = true := h
    have hsemi : decide (c ≠ ';') = true := by
      refine decide_eq_true fun heq => ?_
      rw [heq] at hc
      exact absurd hc (by decide)
    have hnone : NAME_RE.match? (Text.partitionChars ';' (c :: r)).1 = none := by
      have htake : (c :: r).takeWhile (· ≠ ';') = c :: r.takeWhile (· ≠ ';') :=
        List.takeWhile_cons_of_pos hsemi
      rw [Text.partitionChars, htake]
      exact match_none (by simp [not_identChar_of_wsp hc])
    simp only [withLowerBound, hnone]

end

/-! ## The specifier -/

/-- What follows a name, and extras that stand right after it. -/
def afterName (p : List Char) : List Char :=
  match p.dropWhile identChar with
  | '[' :: c :: s => if c = ']' then '[' :: c :: s else ((c :: s).dropWhile (· ≠ ']')).drop 1
  | s => s

/-- What stands between the name and the marker: the part that is rewritten. -/
def specifierText (r : List Char) : List Char := trim (afterName (r.takeWhile (· ≠ ';')))

/-- The first lower bound, as far as the next comma or space. -/
def firstBound (s : List Char) : List Char :=
  ((s.dropWhile (· ≠ '>')).dropWhile fun c => c == '>' || c == '=' || wsp c).takeWhile isBoundChar

/-- The requirement can take another lower bound.  Where it has one, no parenthesis stands in its
    version; where it has none, the specifier is not in parentheses, there is no URL, and no extras
    are set off from the name. -/
def keepsForm (r : List Char) : Bool :=
  let s := specifierText r
  if s.contains '>' then !(firstBound s).contains ')'
  else !s.head?.any fun c => c == '(' || c == '[' || c == '@'

/-- The clauses with the first lower bound replaced, or with a new one if there is none. -/
def bounded (v : List Char) (cs : List Clause) : List Clause :=
  if cs.any isLower then
    cs.takeWhile (fun c => !isLower c) ++ ⟨.greaterEqual, v⟩ ::
      (cs.dropWhile fun c => !isLower c).tail
  else ⟨.greaterEqual, v⟩ :: cs

section
variable {r p name e g m w w' : List Char} {extras : List (List Char)}

theorem trim_left {u s : List Char} (hu : ∀ c ∈ u, wsp c = true) : trim (u ++ s) = trim s := by
  rw [trim, List.dropWhile_append_of_pos hu]
  rfl

theorem strip_plain {s : List Char} (h : ∀ c ∈ s, plainChar c = true) :
    Text.stripChars s = trim s := by
  have hdrop : ∀ t : List Char, (∀ c ∈ t, plainChar c = true) → t.dropWhile Text.isSpace =
      t.dropWhile wsp := by
    intro t ht
    induction t with
    | nil => rfl
    | cons c t ih =>
      have hc : Text.isSpace c = wsp c := isSpace_plain (ht c (List.mem_cons_self ..))
      rw [List.dropWhile_cons, List.dropWhile_cons, hc,
        ih fun d hd => ht d (List.mem_cons_of_mem _ hd)]
  have hsub : ∀ c ∈ (s.dropWhile wsp).reverse, plainChar c = true := fun c hc =>
    h c ((List.dropWhile_suffix wsp).subset (List.mem_reverse.1 hc))
  rw [Text.stripChars, trim, hdrop s h, List.rdropWhile, List.rdropWhile, hdrop _ hsub]

/-- The parts of a requirement before its marker, as the updater takes them apart: `gap` is what
    stands between the match of the name and the clauses. -/
structure Parts (p name e : List Char) (extras : List (List Char)) (core : List Char) (n : Match)
    (gap w₀ e₀ : List Char) (extras₀ : List (List Char)) : Prop where
  found : NAME_RE.match? p = some n
  before : n.group "name" ++ n.group "extras" = name ++ e₀
  specifier : specifierAfter p n = gap ++ core
  textual : trim (afterName p) = gap ++ core
  rest : p = name ++ (e₀ ++ afterName p)
  extrasText : ExtrasText e₀ extras₀
  joined : e₀ ++ gap = e ++ w₀
  space : ∀ c ∈ w₀, wsp c = true
  noGap : e = [] → w₀ = []
  cases : (gap = [] ∧ e₀ = e ∧ w₀ = [] ∧ extras₀ = extras) ∨ ∃ s, gap = '[' :: s

/-- Extras and what follows, without white space around. -/
theorem trim_extras (he : ExtrasText e extras) (hne : e ≠ []) (hw' : ∀ c ∈ w', wsp c = true) :
    ∃ w₀, trim (e ++ (w' ++ g)) = e ++ w₀ ++ trim g ∧ ∀ c ∈ w₀, wsp c = true := by
  obtain ⟨a, b, hgab, ha, hb⟩ := trim_spec g
  have hspace : ∀ c ∈ w' ++ a, wsp c = true :=
    fun c hc => (List.mem_append.1 hc).elim (hw' c) (ha c)
  have hends : e.head?.all (fun c => !wsp c) = true ∧ e.getLast?.all (fun c => !wsp c) = true := by
    cases he with
    | none => exact absurd rfl hne
    | @brackets inner _ _ _ =>
      have hlast : ('[' :: (inner ++ [']'])).getLast? = some ']' := by
        rw [← List.cons_append, List.getLast?_append]
        rfl
      exact ⟨rfl, by rw [hlast]; rfl⟩
  by_cases hcore : trim g = []
  · -- nothing follows the extras
    refine ⟨[], ?_, nofun⟩
    rw [hcore, List.append_nil] at hgab
    have hall : ∀ c ∈ w' ++ g, wsp c = true := by
      intro c hc
      rw [hgab, ← List.append_assoc] at hc
      exact (List.mem_append.1 hc).elim (hspace c) (hb c)
    have h := trim_append (u := []) (s := e) (t := w' ++ g) nofun hends hall
    rw [hcore, List.append_nil, List.append_nil]
    exact h
  · refine ⟨w' ++ a, ?_, hspace⟩
    have htrimmed : Trimmed (e ++ (w' ++ a) ++ trim g) := by
      obtain ⟨e', rfl⟩ := he.head hne
      refine ⟨rfl, ?_⟩
      rw [List.getLast?_append_of_ne_nil _ hcore]
      exact (trim_trimmed g).2
    have h := trim_append (u := []) (t := b) nofun htrimmed hb
    have htext : e ++ (w' ++ g) = [] ++ (e ++ (w' ++ a) ++ trim g) ++ b := by
      conv_lhs => rw [hgab]
      simp
    rw [htext]
    exact h

/-- The name is matched with the extras that follow it at once, if they are not empty. -/
theorem matched_written (h : Written p name e extras w w' g) :
    (w = [] ∧ ∃ inner, ']' ∉ inner ∧ inner ≠ [] ∧ e = '[' :: (inner ++ [']']) ∧
      NAME_RE.match? p = some ⟨name ++ e, w' ++ g, [("extras", e), ("name", name)]⟩) ∨
    (((w ++ (e ++ (w' ++ g))).head? ≠ some '[' ∨ ∃ s, w ++ (e ++ (w' ++ g)) = '[' :: ']' :: s) ∧
      NAME_RE.match? p = some ⟨name, w ++ (e ++ (w' ++ g)), [("name", name)]⟩) := by
  by_cases hadjacent : w = [] ∧ ∃ c s, e = '[' :: c :: s ∧ c ≠ ']'
  · -- the extras belong to the match of the name
    obtain ⟨rfl, c, s, he, hc⟩ := hadjacent
    obtain ⟨inner, hinner, hne, rfl⟩ : ∃ inner, ']' ∉ inner ∧ inner ≠ [] ∧ e =
        '[' :: (inner ++ [']']) := by
      have hextras := h.extras
      cases hextras with
      | none => cases he
      | @brackets inner _ hinner _ =>
        refine ⟨inner, hinner, ?_, rfl⟩
        rintro rfl
        cases he
        exact hc rfl
    have hmatch : NAME_RE.match? (name ++ ('[' :: (inner ++ [']']) ++ (w' ++ g))) = _ :=
      match_name_extras h.name hinner hne
    refine .inl ⟨rfl, inner, hinner, hne, rfl, ?_⟩
    rw [h.text]
    exact hmatch
  · -- only the name is matched
    have hextras : (w ++ (e ++ (w' ++ g))).head? ≠ some '[' ∨ ∃ s, w ++ (e ++ (w' ++ g)) =
        '[' :: ']' :: s := by
      cases hw : w with
      | cons c w =>
        refine .inl fun hc => ?_
        cases hc
        exact absurd (h.space '[' (by simp [hw])) (by decide)
      | nil =>
        by_cases he : e = []
        · rw [he, h.gap he]
          exact .inl h.rest.not_bracket
        · -- the brackets stand right after the name and are empty
          have hextras := h.extras
          cases hextras with
          | none => exact absurd rfl he
          | @brackets inner _ hinner _ =>
            cases inner with
            | nil => exact .inr ⟨w' ++ g, rfl⟩
            | cons c s =>
              refine absurd ⟨hw, c, s ++ [']'], rfl, fun hc => ?_⟩ hadjacent
              exact hinner (hc ▸ List.mem_cons_self ..)
    have hmatch := match_name h.name h.after_name hextras
    rw [← h.text] at hmatch
    exact .inr ⟨hextras, hmatch⟩

theorem requirementName_written (h : Written p name e extras w w' g) :
    requirementName p = some name := by
  unfold requirementName
  rcases matched_written h with ⟨-, inner, -, -, -, hmatch⟩ | ⟨-, hmatch⟩
  · rw [hmatch]
    rfl
  · rw [hmatch]
    rfl

theorem exists_parts (h : Written p name e extras w w' g) (hplain : ∀ c ∈ g, plainChar c = true) :
    ∃ n gap w₀ e₀ extras₀, Parts p name e extras (trim g) n gap w₀ e₀ extras₀ := by
  have hafter := h.after_name
  have hspaces : ∀ u : List Char, (∀ c ∈ u, wsp c = true) → ∀ c ∈ u, plainChar c = true :=
    fun u hu c hc => plain_of_wsp (hu c hc)
  have hdropName : p.dropWhile identChar = w ++ (e ++ (w' ++ g)) := by
    rw [h.text]
    exact dropWhile_append_stop (isIdentifier_chars h.name) hafter
  rcases matched_written h with ⟨rfl, inner, hinner, hne, rfl, hmatch⟩ | ⟨hextras, hmatch⟩
  · -- the extras belong to the match of the name
    obtain ⟨d, ds, rfl⟩ := List.exists_cons_of_ne_nil hne
    have hd : d ≠ ']' := fun heq => hinner (heq ▸ List.mem_cons_self ..)
    have hp : p = name ++ ('[' :: (d :: ds ++ [']']) ++ (w' ++ g)) := by
      rw [h.text, List.nil_append]
    have hrest : p.drop (name ++ '[' :: (d :: ds ++ [']'])).length = w' ++ g := by
      rw [hp, ← List.append_assoc]
      exact List.drop_left
    have hall : ∀ c ∈ d :: ds, decide (c ≠ ']') = true :=
      fun c hc => decide_eq_true fun heq => hinner (heq ▸ hc)
    have hname : afterName p = w' ++ g := by
      have hdrop : (d :: ds ++ ']' :: (w' ++ g)).dropWhile (· ≠ ']') = ']' :: (w' ++ g) :=
        dropWhile_append_stop hall (by simp)
      have htext : p.dropWhile identChar = '[' :: d :: (ds ++ ']' :: (w' ++ g)) := by
        rw [hdropName]
        simp
      rw [List.cons_append] at hdrop
      simp only [afterName, htext, hd, if_false, hdrop, List.drop_one, List.tail_cons]
    have hsub : ∀ c ∈ w' ++ g, plainChar c = true := fun c hc =>
      (List.mem_append.1 hc).elim (hspaces w' h.space' c) (hplain c)
    have hspecifier : specifierAfter p ⟨name ++ '[' :: (d :: ds ++ [']']), w' ++ g,
        [("extras", '[' :: (d :: ds ++ [']'])), ("name", name)]⟩ = [] ++ trim g := by
      rw [specifierAfter, hrest, strip_plain hsub, trim_left h.space']
      rfl
    have htextual : trim (afterName p) = [] ++ trim g := by
      rw [hname, trim_left h.space']
      rfl
    exact ⟨_, [], [], _, extras, hmatch, rfl, hspecifier,
      htextual, by rw [hname]; exact hp, h.extras, rfl, nofun, fun _ => rfl,
      .inl ⟨rfl, rfl, rfl, rfl⟩⟩
  · -- only the name is matched
    have hrest : p.drop name.length = w ++ (e ++ (w' ++ g)) := by
      rw [h.text]
      exact List.drop_left
    have hname : afterName p = w ++ (e ++ (w' ++ g)) := by
      unfold afterName
      rw [hdropName]
      rcases hextras with hx | ⟨s, hs⟩
      · split
        · rename_i heq
          rw [heq] at hx
          exact absurd rfl hx
        · rfl
      · rw [hs]
        rfl
    have hsub : ∀ c ∈ w ++ (e ++ (w' ++ g)), plainChar c = true := by
      intro c hc
      simp only [List.mem_append] at hc
      rcases hc with hc | hc | hc | hc
      · exact hspaces w h.space c hc
      · exact h.extras.plain c hc
      · exact hspaces w' h.space' c hc
      · exact hplain c hc
    have hspecifier : specifierAfter p ⟨name, w ++ (e ++ (w' ++ g)), [("name", name)]⟩ =
        trim (e ++ (w' ++ g)) := by
      rw [specifierAfter, hrest, strip_plain hsub, trim_left h.space]
    have htextual : trim (afterName p) = trim (e ++ (w' ++ g)) := by
      rw [hname, trim_left h.space]
    have hbefore : Match.group ⟨name, w ++ (e ++ (w' ++ g)), [("name", name)]⟩ "name" ++
        Match.group ⟨name, w ++ (e ++ (w' ++ g)), [("name", name)]⟩ "extras" = name ++ [] := rfl
    by_cases he : e = []
    · subst he
      rw [h.gap rfl, List.nil_append, List.nil_append] at hspecifier htextual
      exact ⟨_, [], [], [], [], hmatch, hbefore, hspecifier,
        htextual, by rw [hname]; exact h.text, .none, rfl, nofun, fun _ => rfl,
        .inl ⟨rfl, rfl, rfl, by cases h.extras; rfl⟩⟩
    · obtain ⟨w₀, htrim, hw₀⟩ := trim_extras (g := g) h.extras he h.space'
      obtain ⟨s, hs⟩ := h.extras.head he
      rw [htrim] at hspecifier htextual
      exact ⟨_, e ++ w₀, w₀, [], [], hmatch, hbefore, hspecifier,
        htextual, by rw [hname]; exact h.text, .none, rfl, hw₀,
        fun hnil => absurd hnil he, .inr ⟨s ++ w₀, by rw [hs]; rfl⟩⟩

end

/-! ## Reading what was rewritten -/

section
variable {μ : Type} {readMarker : List Char → Option μ}
variable {name e s m v w w' rest close : List Char} {extras : List (List Char)}
    {cs as bs : List Clause}
  {c : Clause}

/-- A name, extras and clauses, with a marker or without. -/
theorem parse_specifier (hname : isIdentifier name = true) (he : ExtrasText e extras)
    (hw : ∀ c ∈ w, wsp c = true) (hgap : e = [] → w = []) (hs : Separated (s ++ m))
      (htrim : Trimmed s)
    (hsemi : ';' ∉ s) (hm : m = [] ∨ ∃ b, m = ';' :: b) (hat : (s ++ m).head? ≠ some '@') :
    Pep508.parse readMarker (name ++ (e ++ (w ++ (s ++ m)))) =
      (readSpecifier s).bind fun cs => (readTail readMarker m).map fun marker =>
        ⟨name, extras, none, cs, marker⟩ := by
  have h : Written (name ++ (e ++ (w ++ (s ++ m)))) name e extras [] w (s ++ m) :=
    ⟨rfl, hname, he, nofun, hw, hgap, hs⟩
  have hcore : trim s = s := by
    have h := trim_append (u := []) (t := []) nofun htrim nofun
    rwa [List.nil_append, List.append_nil] at h
  rw [h.parse readMarker, readRest_clauses readMarker hsemi hm hat, hcore]
  cases readSpecifier s with
  | none => rfl
  | some cs => cases readTail readMarker m <;> rfl

theorem bounded_lower (h : cs = as ++ c :: bs) (has : ∀ a ∈ as, isLower a = false)
    (hc : isLower c = true) :
    bounded v cs = as ++ ⟨.greaterEqual, v⟩ :: bs := by
  have hall : ∀ a ∈ as, (!isLower a) = true := fun a ha => by simp [has a ha]
  have hany : cs.any isLower = true := by simp [h, hc]
  rw [bounded, if_pos hany, h, List.takeWhile_append_of_pos hall, List.dropWhile_append_of_pos hall]
  simp [hc]

theorem bounded_notLower (h : ∀ c ∈ cs, isLower c = false) :
    bounded v cs = ⟨.greaterEqual, v⟩ :: cs := by
  have hany : ¬cs.any isLower = true := by
    rw [List.any_eq_true]
    rintro ⟨c, hc, hlower⟩
    rw [h c hc] at hlower
    cases hlower
  rw [bounded, if_neg hany]

theorem readClause_bound (hv : isVersionText v = true) :
    readClause (">=".toList ++ v) = some ⟨.greaterEqual, v⟩ :=
  readClause_iff.2 ⟨hv, [], [], [], by simp [opText], nofun, nofun, nofun⟩

theorem bound_chars {d : Char} (hv : isVersionText v = true) (hd : versionChar d = false)
    (hge : d ≠ '>')
    (heq : d ≠ '=') : d ∉ ">=".toList ++ v := by
  rw [List.mem_append, not_or]
  refine ⟨?_, notMem_of_forall (versionText_chars hv) hd⟩
  simp [hge, heq]

/-- What the bound takes with it: some of the white space, and a parenthesis that comes next. -/
theorem bound_end (hw : ∀ c ∈ w, wsp c = true) (hrest : rest = [] ∨ ∃ b, rest = ',' :: b)
    (hclose : close = [] ∨ close = [')']) :
    (close = [')'] ∧ ')' ∈ (w ++ (rest ++ close)).takeWhile isBoundChar ∧
        (w ++ (rest ++ close)).dropWhile isBoundChar = []) ∨
      (')' ∉ (w ++ (rest ++ close)).takeWhile isBoundChar ∧ ∃ w₀,
        (w ++ (rest ++ close)).dropWhile isBoundChar = w₀ ++ (rest ++ close) ∧
          (∀ c ∈ w₀, wsp c = true) ∧ (w = [] → w₀ = [])) := by
  induction w with
  | nil =>
    rcases hrest with rfl | ⟨b, rfl⟩
    · rcases hclose with rfl | rfl
      · exact .inr ⟨nofun, [], rfl, nofun, fun _ => rfl⟩
      · exact .inl ⟨rfl, by decide, by decide⟩
    · have hcomma : ¬isBoundChar ',' = true := by decide
      refine .inr ⟨?_, [], ?_, nofun, fun _ => rfl⟩
      · simp [List.takeWhile_cons_of_neg hcomma]
      · simp [List.dropWhile_cons_of_neg hcomma]
  | cons c w ih =>
    have hc : wsp c = true := hw c (List.mem_cons_self ..)
    have hw' : ∀ c ∈ w, wsp c = true := fun d hd => hw d (List.mem_cons_of_mem _ hd)
    by_cases hbound : isBoundChar c = true
    · rw [List.cons_append, List.takeWhile_cons_of_pos hbound, List.dropWhile_cons_of_pos hbound]
      have hne : ')' ≠ c := fun heq => by
        rw [← heq] at hc
        exact absurd hc (by decide)
      rcases ih hw' with ⟨hcl, hmem, hdrop⟩ | ⟨hmem, w₀, hdrop, hw₀, -⟩
      · exact .inl ⟨hcl, List.mem_cons_of_mem _ hmem, hdrop⟩
      · refine .inr ⟨?_, w₀, hdrop, hw₀, nofun⟩
        rw [List.mem_cons, not_or]
        exact ⟨hne, hmem⟩
    · rw [List.cons_append, List.takeWhile_cons_of_neg hbound, List.dropWhile_cons_of_neg hbound]
      exact .inr ⟨nofun, c :: w, rfl, hw, nofun⟩

/-- A specifier with a lower bound, and what is read when the bound is replaced. -/
structure Replaced (v : List Char) (cs : List Clause) (core pre eq w version z : List Char) :
    Prop where
  text : core = pre ++ '>' :: (eq ++ (w ++ (version ++ z)))
  first : '>' ∉ pre
  sign : eq = [] ∨ eq = ['=']
  space : ∀ c ∈ w, wsp c = true
  version : isVersionText version = true
  trimmed : Trimmed (pre ++ (">=".toList ++ v) ++ z.dropWhile isBoundChar)
  reads : readSpecifier (pre ++ (">=".toList ++ v) ++ z.dropWhile isBoundChar) =
    if ')' ∈ z.takeWhile isBoundChar then none else some (bounded v cs)

theorem last_append {a b : List Char} (hb : b ≠ []) (h : b.getLast?.all (fun c => !wsp c) = true) :
    (a ++ b).getLast?.all (fun c => !wsp c) = true := by
  rwa [List.getLast?_append_of_ne_nil _ hb]

theorem last_bound (hv : isVersionText v = true) :
    (">=".toList ++ v).getLast?.all (fun c => !wsp c) = true := by
  obtain ⟨c, t, rfl, -⟩ := versionText_head hv
  exact last_append (by simp) (versionText_trimmed hv).2

theorem exists_replaced {core : List Char} (h : readSpecifier core = some cs) (htrim : Trimmed core)
    (hsign : '>' ∈ core) (hv : isVersionText v = true) :
    ∃ pre eq w version z, Replaced v cs core pre eq w version z := by
  have hbound : ">=".toList ++ v ≠ [] := by simp
  rcases readSpecifier_some h with ⟨rfl, -⟩ | ⟨body, rfl, hbody⟩ | hbody
  · cases hsign
  · -- in parentheses
    obtain ⟨g, rest, rfl, hg, rfl | ⟨b, rfl⟩⟩ := exists_segment '>' body
    · simp [hg] at hsign
    · obtain ⟨as, c, bs, eq, w, w', rest, hs⟩ := readClauses_lower hbody hg
      have htext : '(' :: (g ++ '>' :: b ++ [')']) =
          '(' :: g ++ '>' :: (eq ++ (w ++ (c.version ++ (w' ++ (rest ++ [')']))))) := by
        rw [hs.text]
        simp
      have hclose : [')'] = [] ∨ [')'] = [')'] := .inr rfl
      rcases bound_end hs.space' hs.next hclose with
        ⟨-, hmem, hdrop⟩ | ⟨hmem, w₀, hdrop, hw₀, -⟩
      · -- the closing parenthesis goes with the bound
        refine ⟨'(' :: g, eq, w, c.version, w' ++ (rest ++ [')']),
          htext, by simp [hg], hs.sign, hs.space,
          hs.version, ?_, ?_⟩
        · rw [hdrop, List.append_nil]
          exact ⟨rfl, last_append hbound (last_bound hv)⟩
        · rw [hdrop, if_pos hmem, List.append_nil]
          refine readSpecifier_open fun hlast => ?_
          obtain ⟨d, t, rfl, -⟩ := versionText_head hv
          have hnew : g.append (">=".toList ++ d :: t) = (g ++ ">=".toList) ++ d :: t := by simp
          rw [hnew, List.getLast?_append_of_ne_nil _ (by simp)] at hlast
          exact notMem_of_forall (versionText_chars hv) (by decide) (List.mem_of_getLast? hlast)
      · refine ⟨'(' :: g, eq, w, c.version, w' ++ (rest ++ [')']),
          htext, by simp [hg], hs.sign, hs.space,
          hs.version, ?_, ?_⟩
        · rw [hdrop, ← List.append_assoc w₀, ← List.append_assoc]
          exact ⟨rfl, last_append (by simp) rfl⟩
        · rw [hdrop, if_neg hmem, bounded_lower hs.clauses hs.notLower hs.lower]
          have hnew : '(' :: g ++ (">=".toList ++ v) ++ (w₀ ++ (rest ++ [')'])) =
              '(' :: ((g ++ (">=".toList ++ v ++ w₀ ++ rest)) ++ [')']) := by simp
          rw [hnew, readSpecifier_parens]
          exact hs.reads v w₀ hv hw₀
  · obtain ⟨g, rest, rfl, hg, rfl | ⟨b, rfl⟩⟩ := exists_segment '>' core
    · simp [hg] at hsign
    · obtain ⟨as, c, bs, eq, w, w', rest, hs⟩ := readClauses_lower hbody hg
      have htext : g ++ '>' :: b = g ++ '>' :: (eq ++ (w ++ (c.version ++ (w' ++ rest)))) := by
        rw [hs.text]
        simp
      have hhead : ∀ t, (g ++ (">=".toList ++ v) ++ t).head? = (g ++ '>' :: b).head? := by
        intro t
        cases g <;> rfl
      have hnone : ')' ∉ (w' ++ rest).takeWhile isBoundChar ∧
          ∃ w₀, (w' ++ rest).dropWhile isBoundChar =
          w₀ ++ rest ∧ (∀ c ∈ w₀, wsp c = true) ∧ (w' = [] → w₀ = []) := by
        have h := bound_end hs.space' hs.next (.inl rfl)
        rw [List.append_nil] at h
        exact h.resolve_left fun h => absurd h.1 (by simp)
      obtain ⟨hmem, w₀, hdrop, hw₀, hnil⟩ := hnone
      refine ⟨g, eq, w, c.version, w' ++ rest, htext, hg, hs.sign, hs.space, hs.version, ?_, ?_⟩
      · refine ⟨by rw [hhead]; exact htrim.1, ?_⟩
        rw [hdrop]
        rcases hs.next with rfl | ⟨b', rfl⟩
        · -- nothing follows the version
          have hw' : w' = [] := by
            by_contra hne
            have hlast := htrim.2
            have hend : g ++ '>' :: (eq ++ (w ++ (c.version ++ (w' ++ [])))) =
                (g ++ '>' :: (eq ++ (w ++ c.version))) ++ w' := by simp
            rw [htext, hend, List.getLast?_append_of_ne_nil _ hne,
              List.getLast?_eq_some_getLast hne] at hlast
            have hspace := hs.space' _ (List.getLast_mem hne)
            simp [hspace] at hlast
          rw [hnil hw', List.append_nil, List.append_nil]
          exact last_append hbound (last_bound hv)
        · have hlast := htrim.2
          have hend : g ++ '>' :: (eq ++ (w ++ (c.version ++ (w' ++ ',' :: b')))) =
              (g ++ '>' :: (eq ++ (w ++ (c.version ++ w')))) ++ ',' :: b' := by simp
          rw [htext, hend, List.getLast?_append_of_ne_nil _ (by simp)] at hlast
          rw [← List.append_assoc]
          exact last_append (by simp) hlast
      · rw [hdrop, if_neg hmem, bounded_lower hs.clauses hs.notLower hs.lower]
        have hnew : g ++ (">=".toList ++ v) ++ (w₀ ++ rest) =
            g ++ (">=".toList ++ v ++ w₀ ++ rest) := by simp
        rw [hnew, readSpecifier_plain]
        · exact hs.reads v w₀ hv hw₀
        · simp
        · -- the clauses start with an operator
          have hfirst : (g ++ (">=".toList ++ v ++ w₀ ++ rest)).head? = (g ++ '>' :: b).head? := by
            rw [← hnew]
            exact hhead _
          obtain ⟨op, t, ht⟩ := readClauses_head hbody htrim.1
          rw [hfirst, ht]
          cases op <;> simp [opText]

end

/-! ## What becomes of a requirement -/

section
variable {μ : Type} {readMarker : List Char → Option μ} {r v g m core name e gap w₀ e₀ : List Char}
  {extras extras₀ : List (List Char)} {q : Requirement μ} {cs : List Clause} {n : Match}

/-- A new bound stands alone or before the clauses there are. -/
theorem parse_added (hname : isIdentifier name = true) (he : ExtrasText e extras)
    (hm : m = [] ∨ ∃ b, m = ';' :: b) (hv : isVersionText v = true) :
    Pep508.parse readMarker (name ++ (e ++ (">=".toList ++ v ++ m))) =
      (readTail readMarker m).map fun marker =>
      ⟨name, extras, none, [⟨.greaterEqual, v⟩], marker⟩ := by
  have hspec : readSpecifier (">=".toList ++ v) = some [⟨.greaterEqual, v⟩] := by
    rw [readSpecifier_plain (by simp) (by simp),
      readClauses_single (bound_chars hv (by decide) (by decide) (by decide)),
      readClause_bound hv]
    rfl
  have h : Pep508.parse readMarker (name ++ (e ++ ([] ++ (">=".toList ++ v ++ m)))) = _ :=
    parse_specifier hname he nofun (fun _ => rfl) rfl ⟨rfl, last_bound hv⟩
    (bound_chars hv (by decide) (by decide) (by decide)) hm (by simp)
  rw [hspec] at h
  exact h

theorem parse_prepended {s : List Char} (hname : isIdentifier name = true)
    (he : ExtrasText e extras)
    (hm : m = [] ∨ ∃ b, m = ';' :: b) (hv : isVersionText v = true) (hs : Trimmed s) (hne : s ≠ [])
    (hsemi : ';' ∉ s) :
    Pep508.parse readMarker (name ++ (e ++ (">=".toList ++ v ++ ',' :: s ++ m))) =
      (readClauses s).bind fun cs => (readTail readMarker m).map fun marker =>
        ⟨name, extras, none, ⟨.greaterEqual, v⟩ :: cs, marker⟩ := by
  have hspec : readSpecifier (">=".toList ++ v ++ ',' :: s) =
      (readClauses s).map (⟨.greaterEqual, v⟩ :: ·) := by
    rw [readSpecifier_plain (by simp) (by simp),
      readClauses_cons (bound_chars hv (by decide) (by decide) (by decide)),
      readClause_bound hv]
    rfl
  have hlast : (">=".toList ++ v ++ ',' :: s).getLast?.all (fun c => !wsp c) = true := by
    have htext : ">=".toList ++ v ++ ',' :: s = (">=".toList ++ v ++ [',']) ++ s := by simp
    rw [htext]
    exact last_append hne hs.2
  have hsemi' : ';' ∉ ">=".toList ++ v ++ ',' :: s := by
    rw [List.mem_append, List.mem_cons, not_or, not_or]
    exact ⟨bound_chars hv (by decide) (by decide) (by decide), by decide, hsemi⟩
  have h : Pep508.parse readMarker (name ++ (e ++ ([] ++ (">=".toList ++ v ++ ',' :: s ++ m)))) =
      _ :=
    parse_specifier hname he nofun (fun _ => rfl) rfl ⟨rfl, hlast⟩ hsemi' hm (by simp)
  rw [hspec] at h
  cases hcs : readClauses s with
  | none =>
    rw [hcs] at h
    exact h
  | some cs =>
    rw [hcs] at h
    exact h

theorem mem_of_mem_trim {c : Char} {s : List Char} (h : c ∈ trim s) : c ∈ s := by
  obtain ⟨u, t, hs, -, -⟩ := trim_spec s
  rw [hs]
  simp [h]

theorem readSpecifier_plainChar {s : List Char} (h : readSpecifier s = some cs) :
    ∀ c ∈ s, plainChar c = true := by
  rcases readSpecifier_some h with ⟨rfl, -⟩ | ⟨body, rfl, hbody⟩ | hbody
  · nofun
  · intro c hc
    simp only [List.mem_cons, List.mem_append, List.mem_nil_iff, or_false] at hc
    rcases hc with rfl | hc | rfl
    · rfl
    · exact readClauses_plain hbody c hc
    · rfl
  · exact readClauses_plain hbody

/-- The specifier of a requirement: a URL, or clauses. -/
theorem specifier_cases (h : readRest readMarker (g ++ m) = some (q.url, q.clauses, q.marker))
    (hg : ';' ∉ g)
    (hm : m = [] ∨ ∃ b, m = ';' :: b) (hhead : g.head?.all (fun c => !wsp c) = true) :
    (∀ c ∈ g, plainChar c = true) ∧
      ((∃ s, trim g = '@' :: s ∧ '>' ∉ trim g ∧ q.clauses = []) ∨
        (q.url = none ∧ readSpecifier (trim g) = some q.clauses ∧
        readTail readMarker m = some q.marker)) := by
  have hall : ∀ s : List Char, ';' ∉ s → ∀ c ∈ s, decide (c ≠ ';') = true := fun s hs c hc =>
    decide_eq_true fun heq => hs (heq ▸ hc)
  have hstop : m.head?.all (fun c => !decide (c ≠ ';')) = true := by
    rcases hm with rfl | ⟨b, rfl⟩
    · rfl
    · simp
  by_cases hat : g.head? = some '@'
  · obtain ⟨s, rfl⟩ : ∃ s, g = '@' :: s := by
      cases g with
      | nil => cases hat
      | cons c s =>
        cases hat
        exact ⟨s, rfl⟩
    obtain ⟨-, hclauses, hchars⟩ := readRest_at readMarker (t := s ++ m) h
    have hs : ';' ∉ s := fun hmem => hg (List.mem_cons_of_mem _ hmem)
    rw [takeWhile_append_stop (hall s hs) hstop] at hchars
    obtain ⟨t, ht⟩ := trim_cons (s := s) (c := '@') rfl
    refine ⟨?_, .inl ⟨t, ht, fun hmem => ?_, hclauses⟩⟩
    · intro c hc
      rcases List.mem_cons.1 hc with rfl | hc
      · rfl
      · rcases Bool.or_eq_true_iff.1 (hchars c hc) with hc | hc
        · exact plain_of_wsp hc
        · exact plain_of_uriChar hc
    · rcases List.mem_cons.1 (mem_of_mem_trim hmem) with hc | hc
      · cases hc
      · exact absurd (hchars '>' hc) (by decide)
  · have hat' : (g ++ m).head? ≠ some '@' := by
      cases g with
      | nil => rcases hm with rfl | ⟨b, rfl⟩ <;> simp
      | cons c g => exact hat
    rw [readRest_clauses readMarker hg hm hat'] at h
    obtain ⟨cs, hcs, h⟩ := Option.bind_eq_some_iff.1 h
    obtain ⟨marker, hmarker, h⟩ := Option.map_eq_some_iff.1 h
    simp only [Prod.mk.injEq] at h
    obtain ⟨hurl, rfl, rfl⟩ := h
    refine ⟨fun c hc => ?_, .inr ⟨hurl.symm, hcs, hmarker⟩⟩
    obtain ⟨u, t, hgt, hu, ht⟩ := trim_spec g
    rw [hgt, List.mem_append, List.mem_append] at hc
    rcases hc with (hc | hc) | hc
    · exact plain_of_wsp (hu c hc)
    · exact readSpecifier_plainChar hcs c hc
    · exact plain_of_wsp (ht c hc)

theorem firstBound_eq {pre eq w version z : List Char} (hpre : '>' ∉ pre)
    (heq : eq = [] ∨ eq = ['='])
    (hw : ∀ c ∈ w, wsp c = true) (hversion : isVersionText version = true) :
    firstBound (pre ++ '>' :: (eq ++ (w ++ (version ++ z)))) =
    version ++ z.takeWhile isBoundChar := by
  obtain ⟨d, ds, hd, hdv⟩ := versionText_head hversion
  have hfirst : ∀ c ∈ pre, decide (c ≠ '>') = true :=
    fun c hc => decide_eq_true fun h => hpre (h ▸ hc)
  have hskip : ∀ c ∈ '>' :: (eq ++ w), (c == '>' || c == '=' || wsp c) = true := by
    intro c hc
    rw [List.mem_cons, List.mem_append] at hc
    rcases hc with rfl | hc | hc
    · rfl
    · rcases heq with rfl | rfl
      · cases hc
      · rw [List.mem_singleton.1 hc]
        rfl
    · simp [hw c hc]
  have hstop : (version ++ z).head?.all (fun c => !(c == '>' || c == '=' || wsp c)) = true := by
    have hne : ∀ b, versionChar b = false → (d == b) = false := fun b hb => by
      rw [beq_eq_false_iff_ne]
      rintro rfl
      rw [hdv] at hb
      cases hb
    rw [hd]
    simp [hne '>' (by decide), hne '=' (by decide), wsp, hne ' ' (by decide), hne '\t' (by decide)]
  have hbound : ∀ c ∈ version, isBoundChar c = true := fun c hc =>
    isBoundChar_of_versionChar (versionText_chars hversion c hc)
  have htext : '>' :: (eq ++ (w ++ (version ++ z))) = ('>' :: (eq ++ w)) ++ (version ++ z) := by
    simp
  rw [firstBound, dropWhile_append_stop hfirst (by simp), htext, dropWhile_append_stop hskip hstop,
    List.takeWhile_append_of_pos hbound]

theorem readClauses_none {s : List Char}
    (h : s.head?.any (fun c => c == '(' || c == '[' || c == '@') = true) :
    readClauses s = none := by
  cases hs : readClauses s with
  | none => rfl
  | some cs =>
    obtain ⟨c, t, rfl⟩ : ∃ c t, s = c :: t := by
      cases s with
      | nil => cases h
      | cons c t => exact ⟨c, t, rfl⟩
    have hc : (c = '(' ∨ c = '[') ∨ c = '@' := by simpa using h
    have hwsp : wsp c = false := by rcases hc with (rfl | rfl) | rfl <;> rfl
    obtain ⟨op, t', ht⟩ := readClauses_head hs (by simp [hwsp])
    rcases hc with (rfl | rfl) | rfl <;> cases op <;> cases ht

/-- A requirement, as the updater takes it apart: `p` is what stands before the marker, `core` the
    URL or the clauses. -/
structure Taken (readMarker : List Char → Option μ) (r : List Char) (q : Requirement μ)
    (p m core e : List Char) (n : Match) (gap w₀ e₀ : List Char) (extras₀ : List (List Char)) :
    Prop where
  text : r = p ++ m
  marker : m = [] ∨ ∃ b, m = ';' :: b
  noMarker : ';' ∉ p
  name : isIdentifier q.name = true
  extras : ExtrasText e q.extras
  parts : Parts p q.name e q.extras core n gap w₀ e₀ extras₀
  separated : Separated core
  trimmed : Trimmed core
  noMarker' : ';' ∉ core
  cases : (∃ s, core = '@' :: s ∧ '>' ∉ core ∧ q.clauses = []) ∨
    (q.url = none ∧ readSpecifier core = some q.clauses ∧ readTail readMarker m = some q.marker)

theorem exists_taken (h : Pep508.parse readMarker r = some q)
    (hr : r.head?.all (fun c => !wsp c) = true) :
    ∃ p m core e n gap w₀ e₀ extras₀, Taken readMarker r q p m core e n gap w₀ e₀ extras₀ := by
  obtain ⟨e, w, w', t, hW, hrest⟩ := exists_written readMarker h hr
  obtain ⟨g, m, rfl, hg, hm⟩ := exists_segment ';' t
  have hname := hW.name
  -- the part before the marker is written alike
  have hsep : Separated g := by
    have hsep := hW.rest
    cases g with
    | nil => rfl
    | cons c g => exact hsep
  have hp : Written (q.name ++ (w ++ (e ++ (w' ++ g)))) q.name e q.extras w w' g :=
    ⟨rfl, hname, hW.extras, hW.space, hW.space', hW.gap, hsep⟩
  obtain ⟨hplain, hcases⟩ := specifier_cases hrest hg hm hsep.not_wsp
  obtain ⟨n, gap, w₀, e₀, extras₀, hparts⟩ := exists_parts hp hplain
  refine ⟨q.name ++ (w ++ (e ++ (w' ++ g))), m, trim g, e, n, gap, w₀, e₀, extras₀,
    ⟨by rw [hW.text]; simp, hm, ?_, hname, hW.extras, hparts, ?_, trim_trimmed g,
      fun hmem => hg (mem_of_mem_trim hmem), hcases⟩⟩
  · simp only [List.mem_append, not_or]
    exact ⟨notMem_of_forall (isIdentifier_chars hname) (by decide),
      notMem_of_forall hW.space (by decide),
      hW.extras.notMem (by decide), notMem_of_forall hW.space' (by decide), hg⟩
  · rw [Separated, trim_head hsep.not_wsp]
    exact hsep

section
variable {p : List Char}

theorem Taken.takeWhile_marker (h : Taken readMarker r q p m core e n gap w₀ e₀ extras₀) :
    r.takeWhile (· ≠ ';') = p := by
  have hall : ∀ c ∈ p, decide (c ≠ ';') = true :=
    fun c hc => decide_eq_true fun heq => h.noMarker (heq ▸ hc)
  have hstop : m.head?.all (fun c => !decide (c ≠ ';')) = true := by
    rcases h.marker with rfl | ⟨b, rfl⟩
    · rfl
    · simp
  rw [h.text, takeWhile_append_stop hall hstop]

theorem Taken.specifierText (h : Taken readMarker r q p m core e n gap w₀ e₀ extras₀) :
    specifierText r = gap ++ core := by
  rw [Management.specifierText, h.takeWhile_marker, h.parts.textual]

theorem Taken.withLowerBound (h : Taken readMarker r q p m core e n gap w₀ e₀ extras₀)
    (hv : '\\' ∉ v) :
    withLowerBound r v = some (q.name ++ e₀ ++ boundedSpecifier (gap ++ core) v ++ m) := by
  have hs := withLowerBound_eq h.noMarker h.marker h.parts.found hv
  rwa [← h.text, h.parts.before, h.parts.specifier] at hs

theorem Taken.gap_chars (h : Taken readMarker r q p m core e n gap w₀ e₀ extras₀) :
    '>' ∉ gap ∧ ';' ∉ gap := by
  have hsub : ∀ d, d ∉ e → d ∉ w₀ → d ∉ gap := by
    intro d he hw hmem
    have hmem' : d ∈ e₀ ++ gap := List.mem_append_right _ hmem
    rw [h.parts.joined] at hmem'
    exact (List.mem_append.1 hmem').elim he hw
  exact ⟨hsub _ (h.extras.notMem (by decide)) (notMem_of_forall h.parts.space (by decide)),
    hsub _ (h.extras.notMem (by decide)) (notMem_of_forall h.parts.space (by decide))⟩

theorem Taken.sign_notMem (h : Taken readMarker r q p m core e n gap w₀ e₀ extras₀) {x : List Char}
    (hx : '>' ∉ x) :
    '>' ∉ gap ++ x := by
  rw [List.mem_append, not_or]
  exact ⟨h.gap_chars.1, hx⟩

theorem Taken.marker_notMem (h : Taken readMarker r q p m core e n gap w₀ e₀ extras₀) :
    ';' ∉ gap ++ core := by
  rw [List.mem_append, not_or]
  exact ⟨h.gap_chars.2, h.noMarker'⟩

/-- A specifier is no URL. -/
theorem head_ne_at {core : List Char} {cs : List Clause} (h : readSpecifier core = some cs) :
    core.head? ≠ some '@' := by
  intro hat
  rw [readSpecifier_plain (by rintro rfl; cases hat) (by simp [hat]),
    readClauses_none (by simp [hat])] at h
  cases h

/-- A lower bound is replaced. -/
theorem Taken.parse_replaced (h : Taken readMarker r q p m core e n gap w₀ e₀ extras₀)
    (hsign : '>' ∈ core)
    (hv : isVersionText v = true) :
    Pep508.parse readMarker (q.name ++ e₀ ++ boundedSpecifier (gap ++ core) v ++ m) =
      if keepsForm r then some { q with clauses := bounded v q.clauses } else none := by
  obtain ⟨hurl, hspec, hmarker⟩ := h.cases.resolve_left fun ⟨_, _, hno, _⟩ => hno hsign
  obtain ⟨pre, eq, w₁, version, z, hrep⟩ := exists_replaced hspec h.trimmed hsign hv
  have hpre : '>' ∉ gap ++ pre := h.sign_notMem hrep.first
  have hspecifier : gap ++ core = (gap ++ pre) ++ '>' :: (eq ++ (w₁ ++ (version ++ z))) := by
    rw [hrep.text, List.append_assoc]
  have hnew : boundedSpecifier (gap ++ core) v =
      gap ++ (pre ++ (">=".toList ++ v) ++ z.dropWhile isBoundChar) := by
    obtain ⟨hfound, n, hsub⟩ := replace_bound hpre hrep.sign hrep.space hrep.version
    rw [hspecifier, boundedSpecifier, if_neg (by simp), if_pos hfound, hsub]
    simp
  have hfirst : (pre ++ (">=".toList ++ v) ++ z.dropWhile isBoundChar ++ m).head? = core.head? := by
    rw [hrep.text]
    cases pre <;> rfl
  have hat := head_ne_at hspec
  have hsemi₀ : ';' ∉ pre ++ (">=".toList ++ v) ++ z.dropWhile isBoundChar := by
    have hcore := h.noMarker'
    rw [hrep.text] at hcore
    simp only [List.mem_append, List.mem_cons, not_or] at hcore ⊢
    refine ⟨⟨hcore.1, ⟨by decide, notMem_of_forall (versionText_chars hv) (by decide)⟩⟩,
      fun hmem => ?_⟩
    exact hcore.2.2.2.2.2 ((List.dropWhile_suffix _).subset hmem)
  have hparse : Pep508.parse readMarker (q.name ++ (e ++ (w₀ ++
      (pre ++ (">=".toList ++ v) ++ z.dropWhile isBoundChar ++ m)))) = _ :=
    parse_specifier h.name h.extras h.parts.space h.parts.noGap
    (by rw [Separated, hfirst]; exact h.separated) hrep.trimmed hsemi₀ h.marker (by rwa [hfirst])
  have hjoin :
      q.name ++ e₀ ++ (gap ++ (pre ++ (">=".toList ++ v) ++ z.dropWhile isBoundChar)) ++ m =
      q.name ++ (e ++ (w₀ ++ (pre ++ (">=".toList ++ v) ++ z.dropWhile isBoundChar ++ m))) := by
    have h := congrArg
      (fun x => q.name ++ (x ++ (pre ++ (">=".toList ++ v) ++ z.dropWhile isBoundChar ++ m)))
      h.parts.joined
    simpa using h
  have hkeeps : keepsForm r = !decide (')' ∈ z.takeWhile isBoundChar) := by
    have htext := h.specifierText
    have hmem : '>' ∈ gap ++ core := List.mem_append_right _ hsign
    have hversion : ')' ∉ version := notMem_of_forall (versionText_chars hrep.version) (by decide)
    rw [hspecifier] at htext hmem
    have hbound := firstBound_eq (z := z) hpre hrep.sign hrep.space hrep.version
    simp only [keepsForm, htext, hbound]
    simp [hversion]
  rw [hnew, hjoin, hparse, hrep.reads, hkeeps, hmarker]
  by_cases hmem : ')' ∈ z.takeWhile isBoundChar
  · simp [hmem]
  · simp [hmem, hurl]

/-- A lower bound is added. -/
theorem Taken.parse_added (h : Taken readMarker r q p m core e n gap w₀ e₀ extras₀)
    (hsign : '>' ∉ core)
    (hv : isVersionText v = true) :
    Pep508.parse readMarker (q.name ++ e₀ ++ boundedSpecifier (gap ++ core) v ++ m) =
      (if keepsForm r then some { q with clauses := bounded v q.clauses } else none) ∧
      (keepsForm r = true → q.url = none) := by
  have hno : '>' ∉ gap ++ core := h.sign_notMem hsign
  have hkeeps : keepsForm r = !(gap ++ core).head?.any fun c =>
      c == '(' || c == '[' || c == '@' := by
    simp only [keepsForm, h.specifierText]
    rw [if_neg (by simpa using hno)]
  by_cases hnil : gap ++ core = []
  · -- there is nothing yet
    obtain ⟨hgapnil, hcore⟩ := List.append_eq_nil_iff.1 hnil
    obtain ⟨-, rfl, -, rfl⟩ := h.parts.cases.resolve_right fun ⟨s, hs⟩ => by
      rw [hgapnil] at hs
      cases hs
    obtain ⟨hurl, hspec, hmarker⟩ := h.cases.resolve_left fun ⟨s, hs, _, _⟩ => by
      rw [hcore] at hs
      cases hs
    have hclauses : q.clauses = [] := by
      rw [hcore] at hspec
      exact (Option.some.inj hspec).symm
    have hnew : boundedSpecifier [] v = ">=".toList ++ v := if_pos rfl
    refine ⟨?_, fun _ => hurl⟩
    rw [hkeeps, hnil, hnew, List.append_assoc, List.append_assoc,
      Management.parse_added h.name h.parts.extrasText h.marker hv, hmarker, hclauses,
      ← hurl]
    rfl
  · have hnew : boundedSpecifier (gap ++ core) v = ">=".toList ++ v ++ ',' :: (gap ++ core) := by
      rw [boundedSpecifier, if_neg hnil, search_bound_none hno]
      rfl
    have htrimmed : Trimmed (gap ++ core) := by
      rw [← h.parts.textual]
      exact trim_trimmed _
    have hsemi : ';' ∉ gap ++ core := h.marker_notMem
    have hparse : Pep508.parse readMarker _ = _ :=
      parse_prepended h.name h.parts.extrasText h.marker hv htrimmed hnil hsemi
    rw [hnew, List.append_assoc, List.append_assoc, hparse, hkeeps]
    by_cases hhead : (gap ++ core).head?.any (fun c => c == '(' || c == '[' || c == '@') = true
    · rw [readClauses_none hhead, hhead]
      exact ⟨rfl, nofun⟩
    · -- the clauses follow the name or its extras
      obtain ⟨hgapnil, rfl, -, rfl⟩ :=
        h.parts.cases.resolve_right fun ⟨s, hs⟩ => hhead (by rw [hs]; rfl)
      rw [hgapnil, List.nil_append] at hhead hnil ⊢
      obtain ⟨hurl, hspec, hmarker⟩ :=
        h.cases.resolve_left fun ⟨s, hs, _, _⟩ => hhead (by rw [hs]; rfl)
      have hplainForm : readClauses core = some q.clauses := by
        rwa [readSpecifier_plain hnil] at hspec
        intro hparen
        exact hhead (by rw [hparen]; rfl)
      have hnot := readClauses_notLower hplainForm hsign
      refine ⟨?_, fun _ => hurl⟩
      rw [hplainForm, hmarker, bounded_notLower hnot, ← hurl]
      simp only [Bool.not_eq_true] at hhead
      rw [hhead]
      rfl

end

theorem head_of_not_space (h : ¬r.head?.any wsp = true) : r.head?.all (fun c => !wsp c) = true := by
  cases r with
  | nil => rfl
  | cons c r => simpa using h

/-- Rewriting keeps the requirement up to its lower bound, or spoils it. -/
theorem parse_bounded (h : Pep508.parse readMarker r = some q)
    (hr : r.head?.all (fun c => !wsp c) = true)
    (hv : isVersionText v = true) : (∃ s, withLowerBound r v = some s ∧ Pep508.parse readMarker s =
      if keepsForm r then some { q with clauses := bounded v q.clauses } else none) ∧
        (keepsForm r = true → q.url = none) := by
  obtain ⟨p, m, core, e, n, gap, w₀, e₀, extras₀, ht⟩ := exists_taken h hr
  by_cases hsign : '>' ∈ core
  · exact ⟨⟨_, ht.withLowerBound (backslash_notMem hv), ht.parse_replaced hsign hv⟩,
      fun _ => (ht.cases.resolve_left fun ⟨_, _, hno, _⟩ => hno hsign).1⟩
  · exact ⟨⟨_, ht.withLowerBound (backslash_notMem hv), (ht.parse_added hsign hv).1⟩,
      (ht.parse_added hsign hv).2⟩

end

/-! ## Any text as the version -/

section
variable {μ : Type} {readMarker : List Char → Option μ} {r v name e w pre s : List Char}
  {extras : List (List Char)} {q q' : Requirement μ} {cs : List Clause}

/-- Where a lower bound can be read, another one is read in its place. -/
theorem readSpecifier_bound {core t : List Char} (h : readSpecifier core = some cs)
    (htext : core = pre ++ '>' :: t) (hpre : '>' ∉ pre) {cs' : List Clause}
    (h' : readSpecifier (pre ++ '>' :: '=' :: s) = some cs') : ∃ c ∈ cs', c.op = .greaterEqual := by
  rcases readSpecifier_some h with ⟨rfl, -⟩ | ⟨body, rfl, hbody⟩ | hbody
  · simp at htext
  · cases pre with
    | nil => cases htext
    | cons c g =>
      obtain ⟨rfl, htail⟩ := List.cons.inj htext
      have htail : body ++ [')'] = g ++ '>' :: t := htail
      have hg : '>' ∉ g := fun hmem => hpre (List.mem_cons_of_mem _ hmem)
      obtain ⟨b, hb⟩ : ∃ b, body = g ++ '>' :: b := by
        obtain ⟨a, rest, rfl, ha, rfl | ⟨b, rfl⟩⟩ := exists_segment '>' body
        · have hmem : '>' ∈ a ++ [] ++ [')'] := by
            rw [htail]
            simp
          simp [ha] at hmem
        · rw [List.append_assoc, List.cons_append] at htail
          have hab : a = g := by
            have htake : ∀ {x y : List Char}, '>' ∉ x → (x ++ '>' :: y).takeWhile (· ≠ '>') = x :=
              fun hx =>
              takeWhile_append_stop (fun c hc => decide_eq_true fun heq => hx (heq ▸ hc)) (by simp)
            rw [← htake (y := b ++ [')']) ha, htail, htake hg]
          exact ⟨b, by rw [hab]⟩
      rw [hb] at hbody
      obtain ⟨as, c, bs, eq, w, w', rest, hs⟩ := readClauses_lower hbody hg
      rcases List.eq_nil_or_concat s with rfl | ⟨s, d, rfl⟩
      · rw [List.cons_append, readSpecifier_open (by simp [List.getLast?_append])] at h'
        cases h'
      · by_cases hd : d = ')'
        · have hnew : '(' :: g ++ '>' :: '=' :: s.concat d =
              '(' :: (g ++ '>' :: '=' :: s ++ [')']) := by
            simp [hd]
          rw [hnew, readSpecifier_parens] at h'
          exact hs.bounded s cs' h'
        · have hlast : (g ++ '>' :: '=' :: s.concat d).getLast? ≠ some ')' := by
            have hnew : g ++ '>' :: '=' :: s.concat d = (g ++ '>' :: '=' :: s) ++ [d] := by simp
            rw [hnew, List.getLast?_concat]
            simpa using hd
          rw [List.cons_append, readSpecifier_open hlast] at h'
          cases h'
  · rw [htext] at hbody
    obtain ⟨as, c, bs, eq, w, w', rest, hs⟩ := readClauses_lower hbody hpre
    have hparen : (pre ++ '>' :: '=' :: s).head? ≠ some '(' := by
      intro hparen
      have hhead : (pre ++ '>' :: t).head? = some '(' := by
        cases pre with
        | nil => cases hparen
        | cons => exact hparen
      rw [readClauses_none (by rw [hhead]; rfl)] at hbody
      cases hbody
    rw [readSpecifier_plain (by simp) hparen] at h'
    exact hs.bounded s cs' h'

/-- A requirement with a lower bound in it, whatever follows the sign. -/
theorem read_bound (hname : isIdentifier name = true) (he : ExtrasText e extras)
    (hw : ∀ c ∈ w, wsp c = true)
    (hgap : e = [] → w = []) (hsep : Separated (pre ++ ['>']))
      (hat : (pre ++ ['>']).head? ≠ some '@')
    (hsemi : ';' ∉ pre)
    (hread : ∀ s cs', readSpecifier (pre ++ '>' :: '=' :: s) = some cs' → ∃ c ∈ cs',
    c.op = .greaterEqual)
    (h : Pep508.parse readMarker (name ++ (e ++ (w ++ (pre ++ '>' :: '=' :: s)))) = some q') :
    ∃ c ∈ q'.clauses, c.op = .greaterEqual := by
  have hhead : ∀ t, (pre ++ '>' :: t).head? = (pre ++ ['>']).head? := fun t => by cases pre <;> rfl
  have hW : Written (name ++ (e ++ (w ++ (pre ++ '>' :: '=' :: s)))) name e extras [] w
      (pre ++ '>' :: '=' :: s) :=
    ⟨rfl, hname, he, nofun, hw, hgap, by rw [Separated, hhead]; exact hsep⟩
  rw [hW.parse readMarker] at h
  obtain ⟨p, hp, rfl⟩ := Option.map_eq_some_iff.1 h
  obtain ⟨g, m, rfl, hg, hm⟩ := exists_segment ';' s
  have htext : pre ++ '>' :: '=' :: (g ++ m) = (pre ++ '>' :: '=' :: g) ++ m := by simp
  have hsemi' : ';' ∉ pre ++ '>' :: '=' :: g := by simp [hsemi, hg]
  rw [htext, readRest_clauses readMarker hsemi' hm (by rw [← htext, hhead]; exact hat)] at hp
  obtain ⟨cs, hcs, hp⟩ := Option.bind_eq_some_iff.1 hp
  obtain ⟨marker, -, rfl⟩ := Option.map_eq_some_iff.1 hp
  -- trimming keeps the bound
  have hkeep : ∃ t, trim (pre ++ '>' :: '=' :: g) = pre ++ '>' :: '=' :: t := by
    have hsigns : pre ++ '>' :: '=' :: g = (pre ++ ['>']) ++ '=' :: g := by simp
    have hstart : (pre ++ ['>'] ++ ['=']).head?.all (fun d => !wsp d) = true := by
      have hnot := hsep.not_wsp
      cases pre with
      | nil => rfl
      | cons c pre => exact hnot
    obtain ⟨t, ht⟩ := trim_keep (t := g) (c := '=') rfl hstart
    refine ⟨t, ?_⟩
    rw [hsigns, ht]
    simp
  obtain ⟨t, ht⟩ := hkeep
  rw [ht] at hcs
  exact hread t cs hcs

theorem template_bound {f : Match → List Char}
    (h : template ["operator"] (">=".toList ++ v) = some f) (n : Match) :
    ∃ s, f n = '>' :: '=' :: s := by
  obtain ⟨parts, hparts, rfl⟩ := Option.map_eq_some_iff.1 h
  have hlen : (">=".toList ++ v).length = v.length + 2 := by simp
  rw [hlen] at hparts
  have hstep : readTemplate ["operator"] (v.length + 2) (">=".toList ++ v) =
      ((readTemplate ["operator"] v.length v).map (TemplatePart.char '=' :: ·)).map
        (TemplatePart.char '>' :: ·) := rfl
  rw [hstep, Option.map_map] at hparts
  obtain ⟨parts', -, rfl⟩ := Option.map_eq_some_iff.1 hparts
  exact ⟨parts'.flatMap (TemplatePart.text n), rfl⟩

/-- The three ways to rewrite. -/
theorem withLowerBound_cases {p m : List Char} {n : Match} (hp : ';' ∉ p)
    (hm : m = [] ∨ ∃ b, m = ';' :: b)
    (hn : NAME_RE.match? p = some n) (hs : withLowerBound (p ++ m) v = some s) :
    (∃ y, s = n.group "name" ++ n.group "extras" ++ (">=".toList ++ y) ++ m) ∨
      ∃ f, template ["operator"] (">=".toList ++ v) = some f ∧
        (LOWER_BOUND_RE.search (specifierAfter p n)).isSome = true ∧
        s = n.group "name" ++ n.group "extras" ++ LOWER_BOUND_RE.subOne f
          (specifierAfter p n) ++ m := by
  obtain ⟨separator, suffix, hpart, hjoin⟩ := partition_marker hp hm
  simp only [withLowerBound, hpart, hn, Option.map_eq_some_iff, hjoin] at hs
  obtain ⟨u, hu, rfl⟩ := hs
  split_ifs at hu with hnil hfound
  · cases hu
    exact .inl ⟨v, by simp⟩
  · obtain ⟨f, hf, rfl⟩ := Option.map_eq_some_iff.1 hu
    exact .inr ⟨f, hf, hfound, rfl⟩
  · cases hu
    exact .inl ⟨v ++ ',' :: specifierAfter p n, by simp⟩

/-- Whatever stands for the version, a rewritten requirement that can be read has a lower bound. -/
theorem greaterEqual_of_rewritten (h : Pep508.parse readMarker r = some q)
    (hr : r.head?.all (fun c => !wsp c) = true) (hs : withLowerBound r v = some s)
    (hq' : Pep508.parse readMarker s = some q') : ∃ c ∈ q'.clauses, c.op = .greaterEqual := by
  obtain ⟨p, m, core, e, n, gap, w₀, e₀, extras₀, ht⟩ := exists_taken h hr
  rw [ht.text] at hs
  rcases withLowerBound_cases ht.noMarker ht.marker ht.parts.found hs with ⟨y, rfl⟩ | ⟨f, hf,
    hfound, rfl⟩
  · -- the bound comes first
    rw [ht.parts.before, List.append_assoc, List.append_assoc] at hq'
    have hread : ∀ s cs', readSpecifier ([] ++ '>' :: '=' :: s) = some cs' →
        ∃ c ∈ cs', c.op = .greaterEqual := by
      intro s cs' hcs'
      rw [readSpecifier_plain (by simp) (by simp)] at hcs'
      exact readClauses_greaterEqual (u := []) nofun nofun hcs'
    have hsep : Separated ([] ++ ['>']) := rfl
    exact read_bound (w := []) ht.name ht.parts.extrasText nofun (fun _ => rfl) hsep (by simp)
      (by simp) hread hq'
  · rw [ht.parts.before, ht.parts.specifier] at hq'
    rw [ht.parts.specifier] at hfound
    have hsign : '>' ∈ core := by
      by_contra hno
      have hno' : '>' ∉ gap ++ core := ht.sign_notMem hno
      rw [search_bound_none hno'] at hfound
      cases hfound
    obtain ⟨-, hspec, -⟩ := ht.cases.resolve_left fun ⟨_, _, hno, _⟩ => hno hsign
    -- where the old bound stands does not depend on the new version
    obtain ⟨pre, eq, w₁, version, z, hrep⟩ :=
      exists_replaced (v := ['0']) hspec ht.trimmed hsign (by decide)
    have hpre : '>' ∉ gap ++ pre := ht.sign_notMem hrep.first
    obtain ⟨-, n', hsub⟩ := replace_bound hpre hrep.sign hrep.space hrep.version
    obtain ⟨y, hy⟩ := template_bound hf n'
    have hhead : (pre ++ ['>']).head? = core.head? := by
      rw [hrep.text]
      cases pre <;> rfl
    have hat := head_ne_at hspec
    have hjoin : q.name ++ e₀ ++ LOWER_BOUND_RE.subOne f (gap ++ core) ++ m =
        q.name ++ (e ++ (w₀ ++ (pre ++ '>' :: '=' :: (y ++ (z.dropWhile isBoundChar ++ m))))) := by
      have h := congrArg
        (fun x => q.name ++ (x ++ (pre ++ '>' :: '=' :: (y ++ (z.dropWhile isBoundChar ++ m)))))
        ht.parts.joined
      rw [hrep.text, ← List.append_assoc gap, hsub, hy]
      simpa using h
    rw [hjoin] at hq'
    refine read_bound ht.name ht.extras ht.parts.space ht.parts.noGap
      (by rw [Separated, hhead]; exact ht.separated)
      (by rwa [hhead]) (fun hmem => ht.noMarker' (by rw [hrep.text]; simp [hmem]))
      (fun s cs' hcs' => readSpecifier_bound hspec hrep.text hrep.first hcs') hq'

end

end FastapiTemplate.Management
