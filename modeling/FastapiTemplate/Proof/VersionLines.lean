/-
  The lines that `_YAML_VERSION_RE` matches, taken apart (`VersionLine`): which
  version is read in them, with and without their line break, and what the
  line scanners see of them when the version changes.
-/
import FastapiTemplate.Lib.Lines
import FastapiTemplate.Management.WorkflowActions

namespace FastapiTemplate.Management

open Regex

/-! ## The end of a line -/

theorem run_opt_lit {c : Char} {before after : List Char} {m : Match}
    (h : m ∈ run (opt (lit [c])) before after) : m.text = [c] ∨ m.text = [] := by
  rcases List.mem_append.1 h with h | h
  · exact .inl (mem_run_lit h).1
  · rw [List.mem_singleton.1 h]
    exact .inr rfl

/-- `_YAML_VERSION_RE` takes the newline that `$` could leave. -/
theorem newline_rest {before after : List Char} {m : Match}
    (h : First (seq (group "newline" (concat [opt (lit ['\r']), opt (lit ['\n'])])) atEnd) before
      after m)
    (hafter : '\n' ∉ after.dropLast) : m.rest = [] := by
  by_contra hne
  obtain ⟨m₁, hm₁, m₂, hm₂, rfl⟩ := First.exists_seq h
  have htext := run_text hm₁
  have hrest : m₁.rest = ['\n'] := by
    obtain ⟨hend, rfl⟩ := first_look.1 hm₂
    simpa [Match.append, show m₁.rest ≠ [] from hne] using hend
  rw [hrest] at htext
  rw [← htext, List.dropLast_concat] at hafter
  obtain ⟨m', hm', rfl⟩ := List.mem_map.1 hm₁
  obtain ⟨r, hr, n, hn, rfl⟩ := mem_run_seq.1 hm'
  have hn : n.text = [] := (run_opt_lit hn).resolve_left fun h => hafter (by simp [Match.append, h])
  -- What is left is the newline alone, or after a carriage return.
  rcases run_opt_lit hr with hr | hr
  · simp only [Match.append, hr, hn] at htext
    subst htext
    exact hne (congrArg Match.rest (Option.some.inj h)).symm
  · simp only [Match.append, hr, hn] at htext
    subst htext
    exact hne (congrArg Match.rest (Option.some.inj h)).symm

/-! ## Lines with a version -/

/-- A version that stands in a workflow: not empty, without spaces and without `#`. -/
structure IsVersion (version : List Char) : Prop where
  nonempty : version ≠ []
  chars : ∀ c ∈ version, isRefChar c = true

/-- Nothing, or a comment, after spaces. -/
def IsComment (rest : List Char) : Prop := (rest.dropWhile Text.isSpace).head?.all (· == '#') = true

/-- The parts of a line that `_YAML_VERSION_RE` matches. -/
structure VersionLine where
  indent : List Char
  gap : List Char
  ref : List Char
  rest : List Char
  indent_spaces : ∀ c ∈ indent, Text.isSpace c = true
  gap_spaces : ∀ c ∈ gap, Text.isSpace c = true
  ref_version : IsVersion ref
  rest_comment : IsComment rest

/-- `version:` -/
def VERSION_KEY : List Char := "version:".toList

def VersionLine.text (l : VersionLine) : List Char :=
  l.indent ++ (VERSION_KEY ++ (l.gap ++ (l.ref ++ l.rest)))

/-- The line with another version; an empty one leaves nothing but the key. -/
def VersionLine.withVersion (l : VersionLine) (version : List Char) : List Char :=
  l.indent ++ (VERSION_KEY ++ (l.gap ++ (version ++ l.rest)))

section
variable {l : VersionLine} {line rest before after version : List Char} {m : Match}

theorem isRefChar_of_isSpace {c : Char} (h : Text.isSpace c = true) : isRefChar c = false := by
  simp [isRefChar, h]

theorem isSpace_of_isRefChar {c : Char} (h : isRefChar c = true) : Text.isSpace c = false := by
  simp only [isRefChar, Bool.and_eq_true, Bool.not_eq_true'] at h
  exact h.1

theorem IsComment.head (h : IsComment rest) : rest.head?.all (fun c => !isRefChar c) = true := by
  cases rest with
  | nil => rfl
  | cons c rest =>
    by_cases hc : Text.isSpace c = true
    · simp [isRefChar, hc]
    · rw [IsComment, List.dropWhile_cons_of_neg hc] at h
      simp_all [isRefChar]

/-- The version of a line begins where its spaces end. -/
theorem VersionLine.gap_stop : (l.ref ++ l.rest).head?.all (fun c => !Text.isSpace c) = true := by
  obtain ⟨c, ref, href⟩ := List.exists_cons_of_ne_nil l.ref_version.nonempty
  have hc := isSpace_of_isRefChar (l.ref_version.chars c (by simp [href]))
  simp [href, hc]

theorem first_spaces {spaces : List Char} (hspaces : ∀ c ∈ spaces, Text.isSpace c = true)
    (hafter : after.head?.all (fun c => !Text.isSpace c) = true) :
    First Management.spaces before (spaces ++ after) ⟨spaces, after, []⟩ := by
  have h : First (star true (char Text.isSpace)) before (spaces ++ after) _ := First.star_char
  rwa [Spans.takeWhile_append_stop hspaces hafter, Spans.dropWhile_append_stop hspaces hafter] at h

/-- What `_YAML_VERSION_RE` takes after a version: the newline at the end apart. -/
theorem first_rest (before : List Char) (hcomment : IsComment rest) (hline : '\n' ∉ rest.dropLast) :
    ∃ suffix newline, suffix ++ newline = rest ∧
      First (concat [Management.spaces, opt (concat [lit ['#'], star true dot])]) before rest
        ⟨suffix, newline, []⟩ ∧
      First (concat [opt (lit ['\r']), opt (lit ['\n'])]) (suffix.reverse ++ before) newline
        ⟨newline, [], []⟩ := by
  have hspaces : First Management.spaces before rest
      ⟨rest.takeWhile Text.isSpace, rest.dropWhile Text.isSpace, []⟩ := First.star_char
  have hempty : ∀ before, First (concat [opt (lit ['\r']), opt (lit ['\n'])]) before []
      ⟨[], [], []⟩ := fun _ => rfl
  cases hdrop : rest.dropWhile Text.isSpace with
  | nil =>
    have hall : rest.takeWhile Text.isSpace = rest := by
      rw [← List.append_nil (List.takeWhile ..), ← hdrop, List.takeWhile_append_dropWhile]
    rw [hdrop, hall] at hspaces
    have hnone : First (opt (concat [lit ['#'], star true dot])) (rest.reverse ++ before) []
        ⟨[], [], []⟩ := rfl
    refine ⟨rest, [], List.append_nil _, ?_, hempty _⟩
    have hall :
        First (concat [Management.spaces, opt (concat [lit ['#'], star true dot])]) before rest _ :=
      hspaces.seq hnone
    simpa only [Match.append, List.append_nil] using hall
  | cons c comment =>
    obtain rfl : c = '#' := by simpa [IsComment, hdrop] using hcomment
    rw [hdrop] at hspaces
    set spaces := rest.takeWhile Text.isSpace
    have hrest : spaces ++ '#' :: comment = rest := by rw [← hdrop, List.takeWhile_append_dropWhile]
    have hdot : ∀ before, First (star true dot) before comment
        ⟨comment.takeWhile (· != '\n'), comment.dropWhile (· != '\n'), []⟩ :=
      fun _ => First.star_char
    have hhash : First (concat [lit ['#'], star true dot]) (spaces.reverse ++ before)
        ('#' :: comment)
        ⟨'#' :: comment.takeWhile (· != '\n'), comment.dropWhile (· != '\n'), []⟩ :=
      First.lit.seq (hdot _)
    refine ⟨spaces ++ '#' :: comment.takeWhile (· != '\n'), comment.dropWhile (· != '\n'),
      ?_, ?_, ?_⟩
    · rw [List.append_assoc, List.cons_append, List.takeWhile_append_dropWhile, hrest]
    · have hall :
          First (concat [Management.spaces, opt (concat [lit ['#'], star true dot])]) before
          rest _ :=
        hspaces.seq hhash.left
      simpa only [Match.append, List.append_nil] using hall
    · -- A newline can only be the last character.
      cases hnewline : comment.dropWhile (· != '\n') with
      | nil => exact hempty _
      | cons c after =>
        have hc : c = '\n' := by
          have hhead : (comment.dropWhile (· != '\n')).head?.all (fun c => !(c != '\n')) = true :=
            Spans.dropWhile_head
          simpa [hnewline] using hhead
        have hafter : after = [] := by
          by_contra hne
          refine hline ?_
          rw [← hrest, ← List.takeWhile_append_dropWhile (p := (· != '\n')) (l := comment),
            hnewline, hc]
          simp [List.dropLast_append_of_ne_nil, List.dropLast_cons_of_ne_nil, hne]
        subst hc hafter
        rfl

theorem VersionLine.match? (hline : '\n' ∉ l.text.dropLast) :
    ∃ m, YAML_VERSION_RE.match? l.text = some m ∧
    m.group "prefix" = l.indent ++ (VERSION_KEY ++ l.gap) ∧ m.group "ref" = l.ref ∧
    m.group "suffix" ++ m.group "newline" = l.rest := by
  have hrest : '\n' ∉ l.rest.dropLast := by
    rcases List.eq_nil_or_concat' l.rest with hnil | ⟨rest, c, hconcat⟩
    · simp [hnil]
    · intro hmem
      refine hline ?_
      rw [hconcat, List.dropLast_concat] at hmem
      rw [VersionLine.text, hconcat]
      simp [← List.append_assoc, hmem]
  have hprefix :
      First (group "prefix" (concat [Management.spaces, lit VERSION_KEY, Management.spaces]))
      [] l.text
      ⟨l.indent ++ (VERSION_KEY ++ l.gap), l.ref ++ l.rest,
      [("prefix", l.indent ++ (VERSION_KEY ++ l.gap))]⟩ :=
    First.group
      ((first_spaces l.indent_spaces rfl).seq
      (First.lit.seq (first_spaces l.gap_spaces l.gap_stop)))
  have href :
      First (group "ref" (plus (char isRefChar)))
      ((l.indent ++ (VERSION_KEY ++ l.gap)).reverse ++ [])
      (l.ref ++ l.rest) ⟨l.ref, l.rest, [("ref", l.ref)]⟩ :=
    First.group (First.plus_run l.ref_version.nonempty l.ref_version.chars l.rest_comment.head)
  obtain ⟨suffix, newline, hparts, hsuffix, hnewline⟩ :=
    first_rest (l.ref.reverse ++ ((l.indent ++ (VERSION_KEY ++ l.gap)).reverse ++ []))
      l.rest_comment hrest
  have hend : First atEnd (newline.reverse ++ (suffix.reverse ++ (l.ref.reverse ++
      ((l.indent ++ (VERSION_KEY ++ l.gap)).reverse ++ [])))) [] ⟨[], [], []⟩ :=
    first_look.2 ⟨rfl, rfl⟩
  refine ⟨_, hprefix.seq (href.seq (hsuffix.group.seq (hnewline.group.seq hend))), rfl, rfl, ?_⟩
  rw [← hparts]
  rfl


/-! ## What matches -/

theorem isComment_of_spaces (h : ∀ c ∈ rest, Text.isSpace c = true) : IsComment rest := by
  rw [IsComment, List.dropWhile_eq_nil_iff.2 h]
  rfl

theorem isComment_of_hash {spaces comment : List Char} (h : ∀ c ∈ spaces, Text.isSpace c = true) :
    IsComment (spaces ++ '#' :: comment) := by
  rw [IsComment, Spans.dropWhile_append_stop h rfl]
  rfl

theorem IsComment.cases (h : IsComment rest) : (∀ c ∈ rest, Text.isSpace c = true) ∨
    ∃ spaces comment, (∀ c ∈ spaces, Text.isSpace c = true) ∧ rest = spaces ++ '#' :: comment := by
  cases hdrop : rest.dropWhile Text.isSpace with
  | nil => exact .inl (List.dropWhile_eq_nil_iff.1 hdrop)
  | cons c comment =>
    obtain rfl : c = '#' := by simpa [IsComment, hdrop] using h
    refine .inr ⟨rest.takeWhile Text.isSpace, comment, fun c hc => List.mem_takeWhile_imp hc, ?_⟩
    rw [← hdrop, List.takeWhile_append_dropWhile]

theorem run_spaces (h : m ∈ run Management.spaces before after) :
    ∀ c ∈ m.text, Text.isSpace c = true := by
  have honly : Management.spaces.Only fun c => Text.isSpace c = true := fun _ hc => hc
  exact run_only honly h

theorem run_versionPrefix
    (h : m ∈ run (group "prefix" (concat [Management.spaces, lit VERSION_KEY, Management.spaces]))
    before after) : ∃ indent gap, m.text = indent ++ (VERSION_KEY ++ gap) ∧
      (∀ c ∈ indent, Text.isSpace c = true) ∧ ∀ c ∈ gap, Text.isSpace c = true := by
  obtain ⟨_, hm, rfl⟩ := List.mem_map.1 h
  obtain ⟨a, ha, _, hrest, rfl⟩ := mem_run_seq.1 hm
  obtain ⟨b, hb, c, hc, rfl⟩ := mem_run_seq.1 hrest
  refine ⟨a.text, c.text, ?_, run_spaces ha, run_spaces hc⟩
  simp [Match.append, (mem_run_lit hb).1]

theorem run_plus_char {p : Char → Bool} (h : m ∈ run (plus (char p)) before after) :
    m.text ≠ [] ∧ ∀ c ∈ m.text, p c = true := by
  have honly : (plus (char p)).Only fun c => p c = true := ⟨fun _ hc => hc, fun _ hc => hc⟩
  refine ⟨?_, run_only honly h⟩
  obtain ⟨a, ha, b, -, rfl⟩ := mem_run_seq.1 h
  cases after with
  | nil => cases ha
  | cons c after =>
    rw [run] at ha
    split at ha
    · rw [List.mem_singleton.1 ha]
      simp [Match.append]
    · cases ha

theorem run_ref (h : m ∈ run (group "ref" (plus (char isRefChar))) before after) :
    IsVersion m.text := by
  obtain ⟨m, hm, rfl⟩ := List.mem_map.1 h
  obtain ⟨hne, hchars⟩ := run_plus_char hm
  exact ⟨hne, hchars⟩

theorem IsComment.append_spaces {spaces : List Char} (h : IsComment rest)
    (hspaces : ∀ c ∈ spaces, Text.isSpace c = true) :
    IsComment (rest ++ spaces) := by
  rcases h.cases with h | ⟨before, comment, hbefore, rfl⟩
  · refine isComment_of_spaces fun c hc => ?_
    exact (List.mem_append.1 hc).elim (h c) (hspaces c)
  · rw [List.append_assoc]
    exact isComment_of_hash hbefore

theorem run_suffix
    (h : m ∈ run
      (group "suffix" (concat [Management.spaces, opt (concat [lit ['#'], star true dot])]))
    before after) : IsComment m.text := by
  obtain ⟨m, hm, rfl⟩ := List.mem_map.1 h
  obtain ⟨a, ha, b, hb, rfl⟩ := mem_run_seq.1 hm
  have hspaces := run_spaces ha
  rcases List.mem_append.1 hb with hb | hb
  · obtain ⟨hash, hhash, comment, -, rfl⟩ := mem_run_seq.1 hb
    simp only [Match.append, (mem_run_lit hhash).1]
    exact isComment_of_hash hspaces
  · rw [List.mem_singleton.1 hb]
    simpa [Match.append] using isComment_of_spaces hspaces

theorem run_newline
    (h : m ∈ run (seq (group "newline" (concat [opt (lit ['\r']), opt (lit ['\n'])])) atEnd) before
      after) :
    ∀ c ∈ m.text, Text.isSpace c = true := by
  have honly : (seq (group "newline" (concat [opt (lit ['\r']), opt (lit ['\n'])])) atEnd).Only
      fun c => Text.isSpace c = true := by
    simp only [Only, concat, opt, lit, atEnd, beq_iff_eq, and_true, forall_eq]
    decide
  exact run_only honly h

/-- A line that matches has the parts. -/
theorem exists_versionLine (h : YAML_VERSION_RE.match? line = some m)
    (hline : '\n' ∉ line.dropLast) :
    ∃ l : VersionLine, l.text = line := by
  obtain ⟨p, hp, t, ht, rfl⟩ := First.exists_seq h
  obtain ⟨r, hr, u, hu, rfl⟩ := First.exists_seq ht
  obtain ⟨s, hs, v, hv, rfl⟩ := First.exists_seq hu
  obtain ⟨indent, gap, hprefix, hindent, hgap⟩ := run_versionPrefix hp
  have htext : p.text ++ (r.text ++ (s.text ++ s.rest)) = line := by
    rw [run_text hs, run_text hr, run_text hp]
  have hrest : v.rest = [] := by
    rw [← htext, ← List.append_assoc, ← List.append_assoc] at hline
    exact newline_rest hv (Spans.notMem_dropLast_of_append hline)
  have hnewline : v.text = s.rest := by rw [← hv.text, hrest, List.append_nil]
  refine ⟨⟨indent, gap, r.text, s.text ++ v.text, hindent, hgap, run_ref hr,
    (run_suffix hs).append_spaces (run_newline (List.mem_of_head? hv))⟩, ?_⟩
  change indent ++ (VERSION_KEY ++ (gap ++ (r.text ++ (s.text ++ v.text)))) = line
  rw [hnewline, ← htext, hprefix]
  simp only [List.append_assoc]

/-! ## With and without the line break -/

/-- The version that a scanner reads in a line. -/
def versionRef (line : List Char) : Option (List Char) :=
  (YAML_VERSION_RE.match? line).map fun m => m.group "ref"

theorem versionRef_eq_some_iff (hline : '\n' ∉ line.dropLast) :
    versionRef line = some version ↔ ∃ l : VersionLine, l.text = line ∧ l.ref = version := by
  constructor
  · intro h
    obtain ⟨m, hm, rfl⟩ := Option.map_eq_some_iff.1 h
    obtain ⟨l, rfl⟩ := exists_versionLine hm hline
    obtain ⟨m', hm', -, href, -⟩ := l.match? hline
    obtain rfl := Option.some.inj (hm.symm.trans hm')
    exact ⟨l, rfl, href.symm⟩
  · rintro ⟨l, rfl, rfl⟩
    obtain ⟨m, hm, -, href, -⟩ := l.match? hline
    rw [versionRef, hm, Option.map_some, href]

theorem isSpace_of_isLineBreak {c : Char} (h : Text.isLineBreak c = true) :
    Text.isSpace c = true := by
  simp only [Text.isLineBreak, Bool.or_eq_true, Bool.and_eq_true, decide_eq_true_eq,
    beq_iff_eq] at h
  simp only [Text.isSpace, Bool.or_eq_true, Bool.and_eq_true, decide_eq_true_eq, beq_iff_eq]
  omega

theorem lineBreak_spaces : ∀ c ∈ Text.lineBreak line, Text.isSpace c = true :=
  fun _ hc => isSpace_of_isLineBreak (List.mem_rtakeWhile_imp hc)

theorem IsComment.dropLineBreak (h : IsComment rest) : IsComment (Text.dropLineBreak rest) := by
  rcases h.cases with h | ⟨spaces, comment, hspaces, rfl⟩
  · exact isComment_of_spaces fun c hc => h c ((List.rdropWhile_prefix _ _).subset hc)
  · have hhash : (spaces ++ ['#']).getLast?.all (fun c => !Text.isLineBreak c) = true := by
      rw [List.getLast?_concat]
      decide
    rw [← List.singleton_append, ← List.append_assoc, Text.dropLineBreak,
      Spans.rdropWhile_append_stop hhash,
      List.append_assoc]
    exact isComment_of_hash hspaces

theorem isLineBreak_of_isRefChar {c : Char} (h : isRefChar c = true) :
    Text.isLineBreak c = false := by
  refine Bool.eq_false_iff.2 fun hbreak => ?_
  rw [isRefChar_of_isSpace (isSpace_of_isLineBreak hbreak)] at h
  cases h

/-- What comes before the rest of a version line. -/
def VersionLine.front (l : VersionLine) : List Char := l.indent ++ (VERSION_KEY ++ (l.gap ++ l.ref))

theorem VersionLine.text_eq : l.text = l.front ++ l.rest := by simp [text, front]

theorem VersionLine.front_stop : l.front.getLast?.all (fun c => !Text.isLineBreak c) = true := by
  rcases List.eq_nil_or_concat' l.ref with hnil | ⟨ref, c, hconcat⟩
  · exact absurd hnil l.ref_version.nonempty
  · have hc := isLineBreak_of_isRefChar (l.ref_version.chars c (by simp [hconcat]))
    rw [front, hconcat, ← List.append_assoc, ← List.append_assoc, ← List.append_assoc,
      List.getLast?_concat]
    simp [hc]

theorem VersionLine.dropLineBreak_text :
    Text.dropLineBreak l.text = l.front ++ Text.dropLineBreak l.rest := by
  rw [text_eq, Text.dropLineBreak, Spans.rdropWhile_append_stop l.front_stop, Text.dropLineBreak]

theorem VersionLine.lineBreak_text : Text.lineBreak l.text = Text.lineBreak l.rest := by
  rw [text_eq, Text.lineBreak, Spans.rtakeWhile_append_stop l.front_stop, Text.lineBreak]

theorem newline_notMem_dropLineBreak (hline : '\n' ∉ line.dropLast) :
    '\n' ∉ (Text.dropLineBreak line).dropLast := by
  have hparts : Text.dropLineBreak line ++ Text.lineBreak line = line :=
    Text.dropLineBreak_append_lineBreak
  rw [← hparts] at hline
  exact Spans.notMem_dropLast_left hline

/-- Both scanners read the same version in a line. -/
theorem versionRef_dropLineBreak (hline : '\n' ∉ line.dropLast) :
    versionRef (Text.dropLineBreak line) = versionRef line := by
  refine Option.ext fun version => ?_
  rw [versionRef_eq_some_iff hline, versionRef_eq_some_iff (newline_notMem_dropLineBreak hline)]
  constructor
  · rintro ⟨l, htext, rfl⟩
    refine ⟨{ l with
      rest := l.rest ++ Text.lineBreak line
      rest_comment := l.rest_comment.append_spaces lineBreak_spaces }, ?_, rfl⟩
    have hparts : Text.dropLineBreak line ++ Text.lineBreak line = line :=
      Text.dropLineBreak_append_lineBreak
    rw [← htext, VersionLine.text_eq, List.append_assoc] at hparts
    rw [VersionLine.text_eq]
    exact hparts
  · rintro ⟨l, rfl, rfl⟩
    refine ⟨{ l with
      rest := Text.dropLineBreak l.rest
      rest_comment := l.rest_comment.dropLineBreak }, ?_, rfl⟩
    rw [VersionLine.dropLineBreak_text, VersionLine.text_eq]
    rfl

/-! ## What the scanner sees of a line -/

/-- `uses: docker/setup-compose-action@` -/
def SETUP_COMPOSE_USES : List Char := "uses: ".toList ++ SETUP_COMPOSE_ACTION_REPOSITORY ++ ['@']

theorem usesSetupCompose_eq :
    usesSetupCompose line = decide (SETUP_COMPOSE_USES <:+: Text.lstrip line) := by
  delta usesSetupCompose SETUP_COMPOSE_USES
  rfl

theorem usesSetupCompose_iff : usesSetupCompose line = true ↔
    SETUP_COMPOSE_USES <:+: Text.lstrip line := by
  rw [usesSetupCompose_eq]
  exact decide_eq_true_iff

/-- The action is found after `uses:` and a space. -/
theorem SETUP_COMPOSE_USES_eq :
    SETUP_COMPOSE_USES = "uses:".toList ++ ' ' :: 'd' :: SETUP_COMPOSE_USES.drop 7 := rfl

/-- The action is not found in a version, nor around its end. -/
theorem uses_infix_append {ref : List Char} (href : ∀ c ∈ ref, isRefChar c = true)
    (hcomment : IsComment rest) :
    SETUP_COMPOSE_USES <:+: ref ++ rest ↔ SETUP_COMPOSE_USES <:+: rest := by
  induction ref with
  | nil => rfl
  | cons c ref ih =>
    have hne : ¬SETUP_COMPOSE_USES <+: c :: (ref ++ rest) := by
      rintro ⟨after, hafter⟩
      -- The characters of the version are `uses:`, and then the comment begins with a word.
      rw [SETUP_COMPOSE_USES_eq, List.append_assoc, ← List.cons_append] at hafter
      obtain ⟨-, rfl⟩ := Spans.takeWhile_unique (by decide) rfl href hcomment.head hafter
      have hword : Text.isSpace ' ' = true ∧ Text.isSpace 'd' = false := by decide
      simp [IsComment, hword] at hcomment
    rw [List.cons_append, List.infix_cons_iff, or_iff_right hne,
      ih fun d hd => href d (by simp [hd])]

/-! ## Another version in a line -/

theorem VersionLine.lstrip_withVersion :
    Text.lstrip (l.withVersion version) = VERSION_KEY ++ (l.gap ++ (version ++ l.rest)) := by
  have hkey : VERSION_KEY = 'v' :: "ersion:".toList := rfl
  refine Spans.dropWhile_append_stop l.indent_spaces ?_
  rw [hkey]
  rfl

theorem VersionLine.lineIndent_withVersion : lineIndent (l.withVersion version) =
    l.indent.length := by
  rw [lineIndent, lstrip_withVersion, withVersion, List.length_append]
  omega

/-- A version line ends no step. -/
theorem VersionLine.endsStep_withVersion {indent : ℕ} :
    endsStep indent (l.withVersion version) = false := by
  rw [endsStep, lstrip_withVersion]
  exact Bool.and_false _

/-- Where there is no version, none is read. -/
theorem VersionLine.versionRef_withoutVersion (hline : '\n' ∉ (l.withVersion []).dropLast) :
    versionRef (l.withVersion []) = none := by
  rw [Option.eq_none_iff_forall_ne_some]
  intro ref href
  obtain ⟨l', htext, -⟩ := (versionRef_eq_some_iff hline).1 href
  have hkey : VERSION_KEY = 'v' :: "ersion:".toList := rfl
  have hstop : ∀ s, (VERSION_KEY ++ s).head?.all (fun c => !Text.isSpace c) = true := by
    intro s
    rw [hkey]
    rfl
  obtain ⟨-, hafter⟩ :=
    Spans.takeWhile_unique l'.indent_spaces (hstop _) l.indent_spaces (hstop _) htext
  have hafter := congrArg (List.dropWhile Text.isSpace) (List.append_cancel_left hafter)
  rw [Spans.dropWhile_append_stop l'.gap_spaces l'.gap_stop, List.nil_append,
    List.dropWhile_append_of_pos l.gap_spaces] at hafter
  obtain ⟨c, rest, hcons⟩ := List.exists_cons_of_ne_nil l'.ref_version.nonempty
  have hcomment := l.rest_comment
  rw [IsComment, ← hafter, hcons] at hcomment
  obtain rfl : c = '#' := by simpa using hcomment
  exact absurd (l'.ref_version.chars '#' (by simp [hcons])) (by decide)

section
variable (hversion : ∀ c ∈ version, isRefChar c = true)
include hversion

theorem VersionLine.usesSetupCompose_withVersion :
    usesSetupCompose (l.withVersion version) = true ↔ SETUP_COMPOSE_USES <:+: l.rest := by
  have hgap : 'u' ∉ l.gap := Spans.notMem_of_forall l.gap_spaces rfl
  have hkey : 'u' ∉ VERSION_KEY := by decide
  rw [usesSetupCompose_iff, l.lstrip_withVersion]
  exact (Spans.infix_append_of_first hkey).trans ((Spans.infix_append_of_first hgap).trans
    (uses_infix_append hversion l.rest_comment))

/-- What the scanner sees of a version line is neither the version nor what is before it. -/
theorem VersionLine.next_withVersion {scan : StepScan} : scan.next (l.withVersion version) =
    if SETUP_COMPOSE_USES <:+: l.rest then ⟨true, some l.indent.length⟩ else scan := by
  have hends : (scan.actionIndent.any fun indent => endsStep indent (l.withVersion version)) =
      false := by
    cases scan.actionIndent <;> simp [l.endsStep_withVersion]
  rw [StepScan.next, hends, Bool.and_false, if_neg Bool.false_ne_true, l.lineIndent_withVersion]
  simp only [l.usesSetupCompose_withVersion hversion]

/-- The scanner is in the same state after a line with another version. -/
theorem VersionLine.next_eq {scan : StepScan} : scan.next (l.withVersion version) =
    scan.next l.text :=
  (l.next_withVersion hversion).trans (l.next_withVersion l.ref_version.chars).symm

theorem VersionLine.versionRef_withVersion (hline : '\n' ∉ (l.withVersion version).dropLast) :
    versionRef (l.withVersion version) = if version = [] then none else some version := by
  split
  · subst version
    exact l.versionRef_withoutVersion hline
  · exact (versionRef_eq_some_iff hline).2
      ⟨{ l with ref := version, ref_version := ⟨‹_›, hversion⟩ }, rfl, rfl⟩

theorem VersionLine.breaks_front
    (hbody : ∀ c ∈ Text.dropLineBreak l.text, Text.isLineBreak c = false) :
    ∀ c ∈ l.indent ++ (VERSION_KEY ++ (l.gap ++ version)), Text.isLineBreak c = false := by
  intro c hc
  rw [dropLineBreak_text, front] at hbody
  simp only [List.mem_append] at hbody hc
  rcases hc with hc | hc | hc | hc
  · exact hbody c (by simp [hc])
  · exact hbody c (by simp [hc])
  · exact hbody c (by simp [hc])
  · exact isLineBreak_of_isRefChar (hversion c hc)

theorem VersionLine.replaces_withVersion
    (hbody : ∀ c ∈ Text.dropLineBreak l.text, Text.isLineBreak c = false) :
    Text.Replaces l.text (l.withVersion version) := by
  have hfront := l.breaks_front hversion hbody
  have hparts : l.withVersion version = (l.indent ++ (VERSION_KEY ++ (l.gap ++ version))) ++
      l.rest := by
    simp [withVersion]
  refine ⟨?_, ?_, fun _ c hc => ?_⟩
  · have hkey : VERSION_KEY = 'v' :: "ersion:".toList := rfl
    simp [text, withVersion, hkey]
  · rw [lineBreak_text, hparts, Text.lineBreak,
      Spans.rtakeWhile_append_stop (Text.last_all_of_forall hfront),
      Text.lineBreak]
  · rw [hparts, Text.dropLineBreak,
      Spans.rdropWhile_append_stop (Text.last_all_of_forall hfront)] at hc
    rcases List.mem_append.1 hc with hc | hc
    · exact hfront c hc
    · refine hbody c ?_
      rw [dropLineBreak_text]
      exact List.mem_append_right _ hc

theorem VersionLine.newline_withVersion
    (hbody : ∀ c ∈ Text.dropLineBreak l.text, Text.isLineBreak c = false)
    (h : '\n' ∉ l.text.dropLast) : '\n' ∉ (l.withVersion version).dropLast := by
  have hfront := l.breaks_front hversion hbody
  have hparts : l.withVersion version = (l.indent ++ (VERSION_KEY ++ (l.gap ++ version))) ++
      l.rest := by
    simp [withVersion]
  rw [hparts]
  refine Spans.notMem_dropLast_append (fun hmem => ?_) ?_
  · exact absurd (hfront _ hmem) (by decide)
  · rw [text_eq] at h
    exact Spans.notMem_dropLast_of_append h

end

/-- What `_updated_setup_compose_version_line` does: it leaves a line alone that has no other
    version, and replaces the version of another one. -/
theorem updatedLine_cases (workflowPath : List Char) (inStep : Bool)
    (hline : '\n' ∉ line.dropLast) :
    (updatedSetupComposeVersionLine workflowPath line version inStep = (line, none) ∧
      (inStep = true → ∀ ref ∈ versionRef line, ref = version)) ∨
    (inStep = true ∧ ∃ l : VersionLine, l.text = line ∧ l.ref ≠ version ∧
      updatedSetupComposeVersionLine workflowPath line version inStep =
        (l.withVersion version,
        some ⟨workflowPath, DOCKER_COMPOSE_REPOSITORY, l.ref, version⟩)) := by
  cases inStep with
  | false => exact .inl ⟨rfl, nofun⟩
  | true =>
    cases hm : YAML_VERSION_RE.match? line with
    | none => exact .inl ⟨by simp [updatedSetupComposeVersionLine, hm], by simp [versionRef, hm]⟩
    | some m =>
      obtain ⟨l, rfl⟩ := exists_versionLine hm hline
      obtain ⟨m', hm', hbefore, href, hrest⟩ := l.match? hline
      obtain rfl := Option.some.inj (hm.symm.trans hm')
      by_cases hsame : l.ref = version
      · exact .inl ⟨by simp [updatedSetupComposeVersionLine, hm, href, hsame],
          by simp [versionRef, hm, href, hsame]⟩
      · have htext : l.withVersion version = m.group "prefix" ++ version ++ m.group "suffix" ++
            m.group "newline" := by
          rw [hbefore, List.append_assoc, hrest]
          simp [VersionLine.withVersion]
        refine .inr ⟨rfl, l, rfl, hsame, ?_⟩
        simp [updatedSetupComposeVersionLine, hm, href, hsame, htext]

end

end FastapiTemplate.Management
