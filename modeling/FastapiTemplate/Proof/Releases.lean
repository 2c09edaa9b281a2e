/-
  Tags that are releases: a dotted numeric version, with a `v` or not, and with
  a build (`-p<build>`) or not.
-/
import FastapiTemplate.Management.ContainerTags

namespace FastapiTemplate.Management

open Regex

/-- Decimal digits, at least one. -/
def IsNumeral (s : List Char) : Prop := s ≠ [] ∧ ∀ c ∈ s, Text.isDecimal c = true

/-- A dotted numeric version, with or without a leading `v`. -/
structure Dotted where
  v : Bool
  parts : List (List Char)
  nonempty : parts ≠ []
  numerals : ∀ d ∈ parts, IsNumeral d

namespace Dotted

/-- The version as it is written. -/
def text (w : Dotted) : List Char := (if w.v then ['v'] else []) ++ ['.'].intercalate w.parts

/-- The numbers of the version. -/
def release (w : Dotted) : List ℕ := w.parts.map Text.int

/-- A version begins with a `v` or a digit. -/
theorem head_text (w : Dotted) :
    ∃ c rest, w.text = c :: rest ∧ (c = 'v' ∨ Text.isDecimal c = true) := by
  obtain ⟨v, parts, hne, hnum⟩ := w
  cases v with
  | true => exact ⟨'v', _, rfl, .inl rfl⟩
  | false =>
    obtain ⟨d, parts, rfl⟩ := List.exists_cons_of_ne_nil hne
    obtain ⟨hd, hdigits⟩ := hnum d (by simp)
    obtain ⟨c, d, rfl⟩ := List.exists_cons_of_ne_nil hd
    have hc := hdigits c (List.mem_cons_self ..)
    cases parts with
    | nil => exact ⟨c, d, by simp [text], .inr hc⟩
    | cons e parts => exact ⟨c, _, by simp [text, List.intercalate_cons_cons]; rfl, .inr hc⟩

end Dotted

/-- A dotted version with or without a build. -/
structure Release extends Dotted where
  build : Option (List Char)
  build_numeral : ∀ b ∈ build, IsNumeral b

namespace Release

/-- What follows the version. -/
def suffix (r : Release) : List Char :=
  match r.build with
  | none => []
  | some b => "-p".toList ++ b

/-- The release as it is written. -/
def text (r : Release) : List Char := r.toDotted.text ++ r.suffix

/-- The number of the build. -/
def buildNumber (r : Release) : Option ℕ := r.build.map Text.int

end Release

/-! ## Parsing -/

theorem isDecimal_dot : Text.isDecimal '.' = false := by decide

theorem isDecimal_v : Text.isDecimal 'v' = false := by decide

section
variable {before rest : List Char}

/-- What may follow a dotted version. -/
def EndsVersion (rest : List Char) : Prop :=
  rest.head?.all (fun c => !Text.isDecimal c && c != '.') = true

/-- Where the numbers of a version end: a dot may follow, if no digit follows it. -/
structure EndsNumbers (rest : List Char) : Prop where
  head : rest.head?.all (fun c => !Text.isDecimal c) = true
  notPart : ∀ c s, rest = '.' :: c :: s → Text.isDecimal c = false

theorem EndsVersion.endsNumbers (h : EndsVersion rest) : EndsNumbers rest := by
  cases rest with
  | nil => exact ⟨rfl, nofun⟩
  | cons c rest =>
    simp only [EndsVersion, List.head?_cons, Option.all_some, Bool.and_eq_true] at h
    refine ⟨h.1, fun d s hs => ?_⟩
    cases hs
    exact absurd h.2 (by decide)

/-- No part follows. -/
theorem EndsNumbers.run_part (h : EndsNumbers rest) :
    run (concat [lit ['.'], plus digit]) before rest = [] := by
  by_cases hdot : rest.head? = some '.'
  · obtain ⟨s, rfl⟩ := List.head?_eq_some_iff.1 hdot
    have hdigit : s.head?.all (fun c => !Text.isDecimal c) = true := by
      cases s with
      | nil => rfl
      | cons c s => simp [h.notPart c s rfl]
    have hchar : ∀ b, run (concat [plus digit]) b s = [] :=
      fun b => run_seq_of_left (run_char_of_head hdigit)
    refine List.eq_nil_iff_forall_not_mem.2 fun m hm => ?_
    obtain ⟨m₁, hm₁, m₂, hm₂, -⟩ := mem_run_seq.1 hm
    have hrest : m₁.rest = s := by
      have htext := run_text hm₁
      rw [(mem_run_lit hm₁).1] at htext
      exact List.append_cancel_left htext
    rw [hrest, hchar] at hm₂
    cases hm₂
  · exact run_seq_of_left (run_lit_of_head hdot)

theorem first_digits {d : List Char} (hd : IsNumeral d)
    (hrest : rest.head?.all (fun c => !Text.isDecimal c) = true) :
    First (plus digit) before (d ++ rest) ⟨d, rest, []⟩ :=
  First.plus_run hd.1 hd.2 hrest

/-- After the digits of a part comes no digit. -/
theorem head_parts {parts : List (List Char)} (hrest : EndsNumbers rest) :
    (parts.flatMap ('.' :: ·) ++ rest).head?.all (fun c => !Text.isDecimal c) = true := by
  cases parts with
  | nil => exact hrest.head
  | cons e parts => simp [isDecimal_dot]

/-- The parts of a version after the first one, each after a dot. -/
theorem first_parts {parts : List (List Char)} (hparts : ∀ d ∈ parts, IsNumeral d)
    (hrest : EndsNumbers rest) :
    First (star true (concat [lit ['.'], plus digit])) before
      (parts.flatMap ('.' :: ·) ++ rest) ⟨parts.flatMap ('.' :: ·), rest, []⟩ := by
  induction parts generalizing before with
  | nil => exact First.star_nil hrest.run_part
  | cons d parts ih =>
    have hone : First (concat [lit ['.'], plus digit]) before
        ('.' :: (d ++ (parts.flatMap ('.' :: ·) ++ rest)))
          ⟨'.' :: d, parts.flatMap ('.' :: ·) ++ rest, []⟩ :=
      (First.lit).seq (first_digits (hparts d (by simp)) (head_parts hrest))
    have hall := First.star_cons hone (by simp) (ih fun e he => hparts e (by simp [he]))
    simpa [Match.append] using hall

theorem intercalate_dot {d : List Char} {parts : List (List Char)} :
    ['.'].intercalate (d :: parts) = d ++ parts.flatMap ('.' :: ·) := by
  induction parts generalizing d with
  | nil => simp
  | cons e parts ih => rw [List.intercalate_cons_cons, ih]; simp

/-- The digits and dots of a version. -/
theorem first_numbers {w : Dotted} (hrest : EndsNumbers rest) :
    First (concat [plus digit, star true (concat [lit ['.'], plus digit])]) before
      (['.'].intercalate w.parts ++ rest) ⟨['.'].intercalate w.parts, rest, []⟩ := by
  obtain ⟨v, parts, hne, hnum⟩ := w
  obtain ⟨d, parts, rfl⟩ := List.exists_cons_of_ne_nil hne
  have hall : First (concat [plus digit, star true (concat [lit ['.'], plus digit])]) before
      (d ++ (parts.flatMap ('.' :: ·) ++ rest)) ⟨d ++ parts.flatMap ('.' :: ·), rest, []⟩ :=
    (first_digits (hnum d (by simp)) (head_parts hrest)).seq
      (first_parts (fun e he => hnum e (by simp [he])) hrest)
  rw [intercalate_dot, List.append_assoc]
  exact hall

/-- A version does not begin with a `v`, but for the one that it may have. -/
theorem head_numbers (w : Dotted) : ∃ c s, ['.'].intercalate w.parts = c :: s ∧
    Text.isDecimal c = true := by
  obtain ⟨v, parts, hne, hnum⟩ := w
  obtain ⟨d, parts, rfl⟩ := List.exists_cons_of_ne_nil hne
  obtain ⟨hd, hdigits⟩ := hnum d (by simp)
  obtain ⟨c, d, rfl⟩ := List.exists_cons_of_ne_nil hd
  exact ⟨c, d ++ parts.flatMap ('.' :: ·), intercalate_dot, hdigits c (by simp)⟩

theorem ne_v_of_decimal {c : Char} (hc : Text.isDecimal c = true) : c ≠ 'v' := by
  rintro rfl
  rw [isDecimal_v] at hc
  cases hc

/-- The version as `_CONTAINER_VERSION_RE` takes it. -/
theorem first_version {w : Dotted} (hrest : EndsVersion rest) :
    First (concat [opt (lit ['v']), plus digit, star true (concat [lit ['.'], plus digit])]) before
      (w.text ++ rest) ⟨w.text, rest, []⟩ := by
  by_cases hv : w.v = true
  · have hall :
        First (concat [opt (lit ['v']), plus digit, star true (concat [lit ['.'], plus digit])])
        before ('v' :: (['.'].intercalate w.parts ++ rest)) ⟨'v' :: ['.'].intercalate w.parts,
        rest, []⟩ :=
      (First.left (First.lit)).seq (first_numbers hrest.endsNumbers)
    simpa [Dotted.text, hv] using hall
  · obtain ⟨c, s, hcs, hc⟩ := head_numbers w
    have hnone : run (lit ['v']) before (['.'].intercalate w.parts ++ rest) = [] := by
      refine run_lit_of_head ?_
      rw [hcs]
      simpa using ne_v_of_decimal hc
    have hall :
        First (concat [opt (lit ['v']), plus digit, star true (concat [lit ['.'], plus digit])])
        before (['.'].intercalate w.parts ++ rest) ⟨['.'].intercalate w.parts, rest, []⟩ :=
      (First.right hnone First.empty).seq (first_numbers hrest.endsNumbers)
    simpa [Dotted.text, hv] using hall

/-- The numbers that a text starts with. -/
theorem releaseNumbers_append (w : Dotted) (hrest : EndsNumbers rest) :
    releaseNumbers (['.'].intercalate w.parts ++ rest) = some w.release := by
  have hnumbers : First (concat [plus digit, star true (concat [lit ['.'], plus digit])]) []
      (['.'].intercalate w.parts ++ rest) _ := first_numbers hrest
  have hfirst : First VERSION_PREFIX_RE [] _ _ := hnumbers.group
  have hsplit : (['.'].intercalate w.parts).splitOn '.' = w.parts := by
    refine List.splitOn_intercalate '.' (fun d hd hdot => ?_) w.nonempty
    have := (w.numerals d hd).2 '.' hdot
    rw [isDecimal_dot] at this
    cases this
  rw [releaseNumbers, show VERSION_PREFIX_RE.match? _ = _ from hfirst]
  simp [Match.group, Match.group?, hsplit, Dotted.release]

theorem releaseNumbers_text (w : Dotted) :
    releaseNumbers (['.'].intercalate w.parts) = some w.release := by
  have hrest : EndsNumbers [] := ⟨rfl, nofun⟩
  have h := releaseNumbers_append w hrest
  rwa [List.append_nil] at h

theorem containerVersionKey_text (w : Dotted) : containerVersionKey w.text = some w.release := by
  obtain ⟨c, s, hcs, hc⟩ := head_numbers w
  have hnormalized : (if ['v'].isPrefixOf w.text then w.text.drop 1 else w.text) =
      ['.'].intercalate w.parts := by
    by_cases hv : w.v = true
    · simp [Dotted.text, hv]
    · have hne := ne_v_of_decimal hc
      simp [Dotted.text, hv, hcs, hne.symm]
  rw [containerVersionKey]
  simp only [hnormalized]
  exact releaseNumbers_text w

/-- What `_CONTAINER_VERSION_RE` takes for a suffix. -/
def IsSuffix (suffix : List Char) : Prop :=
  suffix = [] ∨ ∃ c s, (c = '-' ∨ c = '_') ∧ suffix = c :: s

theorem IsSuffix.endsVersion {suffix : List Char} (h : IsSuffix suffix) : EndsVersion suffix := by
  obtain rfl | ⟨c, s, rfl | rfl, rfl⟩ := h
  · rfl
  · simp [EndsVersion, show Text.isDecimal '-' = false by decide]
  · simp [EndsVersion, show Text.isDecimal '_' = false by decide]

theorem first_suffix {suffix : List Char} (h : IsSuffix suffix) :
    First (group "suffix" (alt atEnd (concat [char fun c => c == '-' || c == '_', star true dot])))
      before
      suffix ⟨suffix.takeWhile (· != '\n'), suffix.dropWhile (· != '\n'),
        [("suffix", suffix.takeWhile (· != '\n'))]⟩ := by
  obtain rfl | ⟨c, s, hc, rfl⟩ := h
  · exact (First.left (first_look.2 ⟨rfl, rfl⟩)).group
  · have hnone : run atEnd before (c :: s) = [] := by
      rcases hc with rfl | rfl <;> simp [atEnd, run]
    have hnewline : (c != '\n') = true := by rcases hc with rfl | rfl <;> decide
    have hchar : (c == '-' || c == '_') = true := by rcases hc with rfl | rfl <;> decide
    have hstar : First (star true dot) (c :: before) s
        ⟨s.takeWhile (· != '\n'), s.dropWhile (· != '\n'), []⟩ := First.star_char
    have hsuffix : First (concat [char fun c => c == '-' || c == '_', star true dot]) before
        (c :: s)
        ⟨c :: s.takeWhile (· != '\n'), s.dropWhile (· != '\n'), []⟩ :=
      (First.char (p := fun c => c == '-' || c == '_') hchar).seq hstar
    have htake : (c :: s).takeWhile (· != '\n') = c :: s.takeWhile (· != '\n') := by simp [hnewline]
    have hdrop : (c :: s).dropWhile (· != '\n') = s.dropWhile (· != '\n') := by simp [hnewline]
    rw [htake, hdrop]
    exact (First.right hnone hsuffix).group

/-- A tag with a dotted version: before it comes nothing that could begin a version. -/
theorem containerTagVersion_text {w : Dotted} {pre suffix : List Char}
    (hpre : ∀ c ∈ pre, Text.isDecimal c = false ∧ c ≠ 'v' ∧ c ≠ '\n') (hsuffix : IsSuffix suffix) :
    containerTagVersion (pre ++ (w.text ++ suffix)) =
      some ⟨pre, w.release, suffix.takeWhile (· != '\n')⟩ := by
  have htail : First (concat [group "version"
      (concat [opt (lit ['v']), plus digit, star true (concat [lit ['.'], plus digit])]),
      group "suffix" (alt atEnd (concat [char fun c => c == '-' || c == '_', star true dot]))])
      (pre.reverse ++ []) (w.text ++ suffix) _ :=
    (first_version hsuffix.endsVersion).group.seq (first_suffix hsuffix)
  have hskip : ∀ y z, pre = y ++ z → z ≠ [] → run (concat [group "version"
      (concat [opt (lit ['v']), plus digit, star true (concat [lit ['.'], plus digit])]),
      group "suffix" (alt atEnd (concat [char fun c => c == '-' || c == '_', star true dot]))])
      (y.reverse ++ []) (z ++ (w.text ++ suffix)) = [] := by
    intro y z hyz hz
    obtain ⟨c, z, rfl⟩ := List.exists_cons_of_ne_nil hz
    obtain ⟨hc, hv, -⟩ := hpre c (by rw [hyz]; simp)
    refine run_seq_of_left ?_
    simp [run, concat, opt, lit, plus, digit, hc, hv]
  have hmatch : First CONTAINER_VERSION_RE [] (pre ++ (w.text ++ suffix)) _ :=
    First.lazy (fun c hc => by simpa using (hpre c hc).2.2) hskip htail
  rw [containerTagVersion, show CONTAINER_VERSION_RE.match? _ = _ from hmatch]
  simp [Match.group, Match.group?, Match.append, List.lookup_cons, containerVersionKey_text]

end

/-! ## Ranks -/

namespace Release

variable (r : Release)

theorem suffix_isSuffix : IsSuffix r.suffix := by
  unfold suffix
  cases r.build with
  | none => exact .inl rfl
  | some b => exact .inr ⟨'-', 'p' :: b, .inl rfl, rfl⟩

theorem suffix_line : r.suffix.takeWhile (· != '\n') = r.suffix := by
  refine List.takeWhile_eq_self_iff.2 fun c hc => ?_
  have hdecimal : Text.isDecimal '\n' = false := by decide
  unfold suffix at hc
  cases hb : r.build with
  | none =>
    rw [hb] at hc
    cases hc
  | some b =>
    rw [hb] at hc
    rcases List.mem_append.1 hc with hc | hc
    · exact (by decide : ∀ c ∈ "-p".toList, (c != '\n') = true) c hc
    · have := (r.build_numeral b (by rw [hb]; rfl)).2 c hc
      rw [bne_iff_ne]
      rintro rfl
      rw [hdecimal] at this
      cases this

theorem buildSuffix :
    (CONTAINER_BUILD_SUFFIX_RE.fullmatch? r.suffix).map (fun m => Text.int (m.group "build")) =
    r.buildNumber := by
  unfold suffix buildNumber
  cases hb : r.build with
  | none => decide
  | some b =>
    have hbuild : First (plus digit) ("-p".toList.reverse ++ []) (b ++ []) ⟨b, [], []⟩ :=
      first_digits (r.build_numeral b (by rw [hb]; rfl)) rfl
    have hall : First CONTAINER_BUILD_SUFFIX_RE [] ("-p".toList ++ (b ++ [])) _ :=
      First.lit.seq (hbuild.group.seq (first_look.2 ⟨rfl, rfl⟩))
    rw [List.append_nil] at hall
    simp only
    rw [hall.fullmatch rfl]
    simp [Match.group, Match.group?, Match.append]

theorem tagVersion : containerTagVersion r.text = some ⟨[], r.release, r.suffix⟩ := by
  have h := @containerTagVersion_text r.toDotted [] r.suffix (by simp) r.suffix_isSuffix
  rwa [r.suffix_line] at h

/-- A release is ranked by its numbers with that of the build after them. -/
theorem rank : containerTagRank r.text =
    some (toLex (1, toLex (r.release ++ r.buildNumber.toList, 3))) := by
  have hrelease : releaseContainerTagRank r.text = none := by
    obtain ⟨c, s, hc, hv⟩ := r.toDotted.head_text
    have hhead : r.text.head? ≠ some 'R' := by
      rw [text, hc, List.cons_append, List.head?_cons, Ne, Option.some.injEq]
      rintro rfl
      revert hv
      decide
    have hnone : run (lit "RELEASE.".toList) [] r.text = [] := run_lit_of_head hhead
    have hrun : run RELEASE_TAG_RE [] r.text = [] := run_seq_of_left hnone
    rw [releaseContainerTagRank, match?, hrun]
    rfl
  have hpreference : suffixPreference r.suffix = 3 := by
    have hbuild := r.buildSuffix
    unfold suffixPreference
    refine if_pos ?_
    cases hb : r.build with
    | none => exact .inl (by rw [suffix, hb])
    | some b =>
      rw [buildNumber, hb, Option.map_some, Option.map_eq_some_iff] at hbuild
      obtain ⟨m, hm, -⟩ := hbuild
      exact .inr (by rw [hm]; rfl)
  have hversion : containerVersionWithBuildSuffix ⟨[], r.release, r.suffix⟩ =
      r.release ++ r.buildNumber.toList := by
    rw [← r.buildSuffix]
    unfold containerVersionWithBuildSuffix
    simp only
    cases CONTAINER_BUILD_SUFFIX_RE.fullmatch? r.suffix <;> simp
  rw [containerTagRank, hrelease, r.tagVersion]
  simp [hversion, hpreference]

end Release

end FastapiTemplate.Management
