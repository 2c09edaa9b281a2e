/-
  Where a reference is replaced: an occurrence that begins a run of reference
  characters, whatever ends it.
-/
import FastapiTemplate.Management.ContainerImages

namespace FastapiTemplate.Management

open Regex

/-- A reference: characters of image references, and at least one. -/
structure IsImageRef (r : List Char) : Prop where
  nonempty : r ≠ []
  chars : ∀ c ∈ r, isImageRefChar c = true

variable {r before after : List Char}

/-- A reference matches where it stands, between the two boundaries. -/
theorem run_containerRefPattern : run (containerRefPattern r) before after =
    if before.head?.all (fun c => !isImageRefChar c) && r.isPrefixOf after &&
      !continuesRef (after.drop r.length) then [⟨r, after.drop r.length, []⟩] else [] := by
  have hseq : containerRefPattern r = seq CONTAINER_REF_LEADING_BOUNDARY
    (seq (lit r) CONTAINER_REF_TRAILING_BOUNDARY) := rfl
  rw [hseq, run, CONTAINER_REF_LEADING_BOUNDARY, CONTAINER_REF_TRAILING_BOUNDARY]
  by_cases hleading : before.head?.all fun c => !isImageRefChar c
  · by_cases hlit : r.isPrefixOf after
    · have hrun : ∀ before', run (lit r) before' after = [⟨r, after.drop r.length, []⟩] := by
        intro before'
        rw [run_lit, if_pos hlit]
      by_cases htrailing : continuesRef (after.drop r.length) <;>
        simp [hleading, hlit, htrailing, run, hrun, Match.append]
    · have hrun : ∀ before', run (lit r) before' after = [] := by
        intro before'
        rw [run_lit, if_neg hlit]
      simp [hleading, hlit, run, hrun]
  · simp [hleading, run]

theorem mem_run_containerRefPattern {m : Match} (h : m ∈ run (containerRefPattern r) before after) :
    m = ⟨r, after.drop r.length, []⟩ ∧ before.head?.all (fun c => !isImageRefChar c) = true ∧
      r <+: after ∧ continuesRef (after.drop r.length) = false := by
  rw [run_containerRefPattern] at h
  split at h
  · rename_i hcond
    simp only [Bool.and_eq_true, Bool.not_eq_true', List.isPrefixOf_iff_prefix] at hcond
    exact ⟨List.mem_singleton.1 h, hcond.1.1, hcond.1.2, hcond.2⟩
  · cases h

/-- Inside a reference every character has another one before it. -/
theorem isolated_containerRefPattern (hr : IsImageRef r) : (containerRefPattern r).Isolated where
  nonempty h := by
    rw [(mem_run_containerRefPattern h).1]
    exact hr.nonempty
  inside {before after m y z} h htext hy _ := by
    obtain ⟨rfl, -⟩ := mem_run_containerRefPattern h
    have hmem : y.getLast hy ∈ r := by
      rw [show r = y ++ z from htext]
      exact List.mem_append_left _ (List.getLast_mem hy)
    have hhead : (y.reverse ++ before).head? = some (y.getLast hy) := by
      rw [List.head?_append, List.head?_reverse, List.getLast?_eq_some_getLast hy]
      rfl
    rw [run_containerRefPattern, hhead]
    simp [hr.chars _ hmem]

/-! ## One reference -/

/-- `_replace_container_ref_in_text` rewrites the occurrence of `r` after `before`: `re.sub` finds
    it. -/
def RewrittenRef (r before after : List Char) : Prop :=
  (containerRefPattern r).FoundAt [] (before ++ (r ++ after)) before

/-- The maximal run of reference characters around an occurrence is the occurrence, and perhaps
    dots after it. -/
def StandsAlone (before after : List Char) : Prop :=
  before.rtakeWhile isImageRefChar = [] ∧ ∀ c ∈ after.takeWhile isImageRefChar, c = '.'

theorem rewrittenRef_iff (hr : IsImageRef r) :
    RewrittenRef r before after ↔ before.rtakeWhile isImageRefChar = [] ∧
    continuesRef after = false := by
  unfold RewrittenRef
  rw [(isolated_containerRefPattern hr).foundAt_iff, run_containerRefPattern]
  have hleading : ((before.reverse ++ []).head?.all fun c => !isImageRefChar c) = true ↔
      before.rtakeWhile isImageRefChar = [] := by
    rw [List.append_nil, List.rtakeWhile_eq_nil_iff]
    cases before using List.reverseRecOn <;> simp
  have hpre : r.isPrefixOf (r ++ after) = true :=
    List.isPrefixOf_iff_prefix.2 (List.prefix_append ..)
  rw [← hleading, hpre, List.drop_left]
  cases continuesRef after <;> simp

/-- The occurrence is the end of the reference when a dot and one of `. : / @ -` follow. -/
def DotEnds (after : List Char) : Prop :=
  ∀ c rest, after = '.' :: c :: rest → isImageRefChar c = true → isTagStart c = false →
    ∀ d ∈ after.takeWhile isImageRefChar, d = '.'

theorem isTagStart_spec {c : Char} (h : isTagStart c = true) :
    isImageRefChar c = true ∧ c ≠ '.' := by
  unfold isTagStart at h
  constructor
  · unfold isImageRefChar
    rcases Bool.or_eq_true_iff.1 h with h | h <;> simp [h]
  · rintro rfl
    exact absurd h (by decide)

/-- Nothing that continues a reference is a run of dots. -/
theorem continuesRef_of_dots (h : ∀ c ∈ after.takeWhile isImageRefChar, c = '.') :
    continuesRef after = false := by
  have hhead : ∀ c rest, after = c :: rest → isImageRefChar c = true → c = '.' := by
    rintro c rest rfl hc
    exact h c (by simp [hc])
  rcases after with _ | ⟨c, _ | ⟨d, rest⟩⟩
  · rfl
  · by_cases hc : isImageRefChar c = true
    · simp [continuesRef, hhead c [] rfl hc]
    · simp [continuesRef, hc]
  · by_cases hc : isImageRefChar c = true
    · obtain rfl := hhead c _ rfl hc
      have hd : isTagStart d = false := Bool.eq_false_iff.2 fun htag => by
        obtain ⟨hd, hne⟩ := isTagStart_spec htag
        exact hne (h d (by simp [hc, hd]))
      simp [continuesRef, hd]
    · have hne : c ≠ '.' := by
        rintro rfl
        exact hc (by decide)
      simp [continuesRef, hc, hne]

/-- The boundary after an occurrence looks at two characters: it tells whether only dots follow
    when a dot and one of `. : / @ -` do not hide the rest. -/
theorem dots_of_continuesRef_iff :
    (continuesRef after = false → ∀ c ∈ after.takeWhile isImageRefChar, c = '.') ↔
    DotEnds after := by
  constructor
  · rintro h c rest rfl - htag
    exact h (by simp [continuesRef, htag])
  · intro h hcont
    rcases after with _ | ⟨c, _ | ⟨d, rest⟩⟩
    · simp
    · by_cases hc : isImageRefChar c = true
      · simpa [continuesRef, hc] using hcont
      · simp [hc]
    · by_cases hc : isImageRefChar c = true
      · have hcont : c = '.' ∧ (c = '.' → isTagStart d = false) := by
          simpa [continuesRef, hc] using hcont
        obtain ⟨rfl, htag⟩ := hcont
        by_cases hd : isImageRefChar d = true
        · exact h d rest rfl hd (htag rfl)
        · simp [hc, hd]
      · simp [hc]

/-- An occurrence that stands alone is rewritten.  The others are left alone iff none of them begins
    a run that goes on with a dot, one of `. : / @ -`, and more than dots. -/
theorem rewrites_alone_iff (hr : IsImageRef r) (text : List Char) :
    (∀ before after, text = before ++ (r ++ after) →
      (RewrittenRef r before after ↔ StandsAlone before after)) ↔
    ∀ before after, text = before ++ (r ++ after) → before.rtakeWhile isImageRefChar = [] →
      DotEnds after := by
  have hpoint : ∀ before after, (RewrittenRef r before after ↔ StandsAlone before after) ↔
      (before.rtakeWhile isImageRefChar = [] → DotEnds after) := by
    intro before after
    rw [rewrittenRef_iff hr, StandsAlone, and_congr_right_iff]
    refine imp_congr_right fun _ => ?_
    rw [← dots_of_continuesRef_iff]
    exact ⟨fun h => h.1, fun h => ⟨h, continuesRef_of_dots⟩⟩
  exact forall_congr' fun before => forall_congr' fun after => imp_congr_right fun _ =>
    hpoint before after

namespace Sample

def redisLatest : List Char := "redis:latest".toList

theorem isImageRef_redisLatest : IsImageRef redisLatest := ⟨by decide, by decide⟩

end Sample

theorem rewrites_alone_sentence : RewrittenRef Sample.redisLatest [] ['.'] := by
  have hdots : ∀ before after, Sample.redisLatest ++ ['.'] =
      before ++ (Sample.redisLatest ++ after) →
      before.rtakeWhile isImageRefChar = [] → DotEnds after := by
    rintro before after h - c rest rfl
    have hlength := congrArg List.length h
    simp only [List.length_append, List.length_cons, List.length_nil] at hlength
    omega
  exact ((rewrites_alone_iff Sample.isImageRef_redisLatest _).2 hdots [] ['.'] rfl).2
    ⟨rfl, by decide⟩

/-- `redis:latest` is rewritten in `redis:latest.-alpine`. -/
theorem rewrites_longer_ref : ¬∀ r, IsImageRef r → ∀ text before after : List Char,
    text = before ++ (r ++ after) → (RewrittenRef r before after ↔ StandsAlone before after) := by
  intro h
  have halone := (h Sample.redisLatest Sample.isImageRef_redisLatest _ [] ".-alpine".toList rfl).1
    ((rewrittenRef_iff Sample.isImageRef_redisLatest).2 ⟨rfl, by decide⟩)
  exact absurd (halone.2 '-' (by decide)) (by decide)

end FastapiTemplate.Management
