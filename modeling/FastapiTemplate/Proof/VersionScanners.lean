/-
  The two line scanners for Docker Compose versions: one reads the versions of a
  text without its line breaks, the other replaces them and keeps the line
  breaks.

  * `updateLines_refs`: the loops agree, line by line.
  * `scanners_agree`: what is read is what is replaced, and the new version is
    read where the old ones were.
-/
import FastapiTemplate.Proof.SetupCompose

namespace FastapiTemplate.Management

/-! ## The loops -/

section
variable {workflowPath workflowText version line : List Char} {lines : List (List Char)}
    {scan : StepScan}

theorem next_congr {a b : List Char} (huses : usesSetupCompose a = usesSetupCompose b)
    (hends : ∀ indent, endsStep indent a = endsStep indent b)
    (hindent : usesSetupCompose b = true → lineIndent a = lineIndent b) : scan.next a =
    scan.next b := by
  simp only [StepScan.next, huses, hends]
  split
  · rename_i huses
    rw [hindent huses]
  · rfl

theorem usesSetupCompose_of_blank (h : Text.lstrip line = []) : usesSetupCompose line = false := by
  rw [usesSetupCompose_eq, h]
  decide

theorem endsStep_of_blank {indent : ℕ} (h : Text.lstrip line = []) :
    endsStep indent line = false := by
  rw [endsStep, h]
  exact Bool.and_false _

theorem isPrefixOf_item_append {c : Char} {stripped ending : List Char}
    (h : ∀ d ∈ ending, d ≠ ' ') :
    "- ".toList.isPrefixOf (c :: stripped ++ ending) = "- ".toList.isPrefixOf (c :: stripped) := by
  have hitem : "- ".toList = ['-', ' '] := rfl
  rw [hitem]
  cases stripped with
  | nil =>
    cases ending with
    | nil => rfl
    | cons d ending => simp [List.isPrefixOf, (h d (by simp)).symm]
  | cons d stripped => simp [List.isPrefixOf]

/-- Both loops are in the same state after a line, with and without its line break. -/
theorem next_dropLineBreak : scan.next (Text.dropLineBreak line) = scan.next line := by
  have hparts : Text.dropLineBreak line ++ Text.lineBreak line = line :=
    Text.dropLineBreak_append_lineBreak
  have hlstrip : (Text.dropLineBreak line ++ Text.lineBreak line).dropWhile Text.isSpace = _ :=
    List.dropWhile_append
  rw [hparts] at hlstrip
  cases hstripped : Text.lstrip (Text.dropLineBreak line) with
  | nil =>
    have hblank : Text.lstrip line = [] := by
      rw [Text.lstrip] at hstripped ⊢
      rw [hlstrip, hstripped]
      exact List.dropWhile_eq_nil_iff.2 lineBreak_spaces
    have huses := usesSetupCompose_of_blank hblank
    refine next_congr ((usesSetupCompose_of_blank hstripped).trans huses.symm) (fun indent => ?_) ?_
    · rw [endsStep_of_blank hstripped, endsStep_of_blank hblank]
    · rw [huses]
      rintro ⟨⟩
  | cons c stripped =>
    have hrest : Text.lstrip line = c :: stripped ++ Text.lineBreak line := by
      rw [Text.lstrip] at hstripped ⊢
      rw [hlstrip, hstripped]
      rfl
    have hindent : lineIndent (Text.dropLineBreak line) = lineIndent line := by
      have hlength := congrArg List.length hparts
      rw [lineIndent, lineIndent, hstripped, hrest]
      simp only [List.length_append, List.length_cons] at hlength ⊢
      omega
    have hat : '@' ∉ Text.lineBreak line := fun hmem => absurd (lineBreak_spaces _ hmem) (by decide)
    refine next_congr ?_ (fun indent => ?_) fun _ => hindent
    · refine Bool.eq_iff_iff.2 ?_
      rw [usesSetupCompose_iff, usesSetupCompose_iff, hstripped, hrest]
      exact (Spans.infix_append_of_last hat).symm
    · rw [endsStep, endsStep, hindent, hstripped, hrest,
        isPrefixOf_item_append fun d hd hspace => ?_]
      exact absurd (List.mem_rtakeWhile_imp hd) (by rw [hspace]; decide)

theorem updateLines_replaces (hversion : ∀ c ∈ version, isRefChar c = true)
    (hlines : Text.Lines lines)
    (hnewline : ∀ line ∈ lines, '\n' ∉ line.dropLast) :
    List.Forall₂ Text.Replaces lines
      ((updateLines workflowPath version scan lines).map Prod.fst) := by
  have hbodies := hlines.bodies
  clear hlines
  induction lines generalizing scan with
  | nil => exact .nil
  | cons line lines ih =>
    refine .cons ?_
      (ih (fun l hl => hnewline l (by simp [hl])) fun l hl => hbodies l (by simp [hl]))
    rcases updatedLine_cases workflowPath (scan.next line).inSetupComposeStep
      (hnewline line (by simp)) with
      ⟨hsame, -⟩ | ⟨-, l, rfl, -, hchanged⟩
    · rw [hsame]
      exact .refl
    · rw [hchanged]
      exact l.replaces_withVersion hversion (hbodies _ (by simp))

/-- One round of the loop of `_setup_compose_version_refs`, on a line with its line break. -/
theorem versionRefs_cons (hline : '\n' ∉ line.dropLast) :
    versionRefs scan ((line :: lines).map Text.dropLineBreak) =
      (if (scan.next line).inSetupComposeStep then (versionRef line).toList else []) ++
        versionRefs (scan.next line) (lines.map Text.dropLineBreak) := by
  rw [List.map_cons, versionRefs, next_dropLineBreak, ← versionRef_dropLineBreak hline]
  rfl

theorem VersionLine.versionRef_text {l : VersionLine} (hline : '\n' ∉ l.text.dropLast) :
    versionRef l.text = some l.ref :=
  (versionRef_eq_some_iff hline).2 ⟨l, rfl, rfl⟩

theorem updateLines_cons : updateLines workflowPath version scan (line :: lines) =
    updatedSetupComposeVersionLine workflowPath line version (scan.next line).inSetupComposeStep ::
      updateLines workflowPath version (scan.next line) lines := rfl

/-- The loop over the lines without line breaks finds what the other loop replaces. -/
theorem updateLines_refs (hversion : ∀ c ∈ version, isRefChar c = true) (hlines : Text.Lines lines)
    (hnewline : ∀ line ∈ lines, '\n' ∉ line.dropLast) :
    ((updateLines workflowPath version scan lines).filterMap Prod.snd).map ActionUpdate.oldRef =
        (versionRefs scan (lines.map Text.dropLineBreak)).filter (· ≠ version) ∧
      versionRefs scan
        (((updateLines workflowPath version scan lines).map Prod.fst).map Text.dropLineBreak) =
        ((versionRefs scan (lines.map Text.dropLineBreak)).map fun _ => version).filter
          (· ≠ []) := by
  have hbodies := hlines.bodies
  clear hlines
  induction lines generalizing scan with
  | nil => exact ⟨rfl, rfl⟩
  | cons line lines ih =>
    have hline := hnewline line (by simp)
    obtain ⟨ihold, ihnew⟩ := @ih (scan.next line) (fun l hl => hnewline l (by simp [hl]))
      fun l hl => hbodies l (by simp [hl])
    rw [updateLines_cons, versionRefs_cons hline, List.filter_append, List.map_append,
      List.filter_append]
    rcases updatedLine_cases workflowPath (scan.next line).inSetupComposeStep hline with
      ⟨hsame, hrefs⟩ | ⟨hstep, l, rfl, hne, hchanged⟩
    · rw [hsame, List.map_cons, versionRefs_cons hline, ihnew, List.filterMap_cons, ihold]
      have hfound : ∀ ref ∈ if (scan.next line).inSetupComposeStep then
          (versionRef line).toList else [],
          ref = version ∧ ref ≠ [] := by
        intro ref href
        split at href
        · have href := Option.mem_toList.1 href
          obtain ⟨l, -, rfl⟩ := (versionRef_eq_some_iff hline).1 href
          exact ⟨hrefs ‹_› _ href, l.ref_version.nonempty⟩
        · cases href
      generalize (if (scan.next line).inSetupComposeStep then (versionRef line).toList else []) =
        found at hfound ⊢
      have hold : found.filter (· ≠ version) = [] :=
        List.filter_eq_nil_iff.2 fun ref href => by simp [(hfound ref href).1]
      have hmap : found.map (fun _ => version) = found :=
        (List.map_congr_left fun ref href => (hfound ref href).1.symm).trans (List.map_id' found)
      have hnew : found.filter (· ≠ []) = found :=
        List.filter_eq_self.2 fun ref href => by simp [(hfound ref href).2]
      rw [hold, hmap, hnew]
      exact ⟨rfl, rfl⟩
    · have hbody := hbodies l.text (by simp)
      rw [hchanged, List.map_cons, versionRefs_cons (l.newline_withVersion hversion hbody hline),
        l.next_eq hversion, ihnew,
        hstep, l.versionRef_text hline,
        l.versionRef_withVersion hversion (l.newline_withVersion hversion hbody hline)]
      by_cases hempty : version = []
      · subst hempty
        simp [ihold, hne]
      · simp [ihold, hne, hempty]

/-- The lines of the rewritten text. -/
theorem splitlines_updated (hversion : ∀ c ∈ version, isRefChar c = true) :
    Text.splitlinesKeepends ((updateLines workflowPath version ⟨false, none⟩
      (Text.splitlinesKeepends workflowText)).map Prod.fst).flatten =
      (updateLines workflowPath version ⟨false, none⟩ (Text.splitlinesKeepends workflowText)).map
        Prod.fst := by
  have hlines := Text.lines_splitlinesKeepends workflowText
  have hnewline : ∀ line ∈ Text.splitlinesKeepends workflowText, '\n' ∉ line.dropLast :=
    fun line hline => Text.newline_notMem_dropLast hline
  exact (hlines.replace (updateLines_replaces hversion hlines hnewline)).splitlinesKeepends_flatten

section
variable {latestToolTags : List Char → Option (List Char)}
  (hlatest : latestToolTags DOCKER_COMPOSE_REPOSITORY = some version)
include hlatest

theorem updatedSetupComposeVersionText_eq :
    updatedSetupComposeVersionText workflowPath workflowText latestToolTags =
    (((updateLines workflowPath version ⟨false, none⟩ (Text.splitlinesKeepends workflowText)).map
      Prod.fst).flatten,
      (updateLines workflowPath version ⟨false, none⟩
        (Text.splitlinesKeepends workflowText)).filterMap Prod.snd) := by
  simp only [updatedSetupComposeVersionText, hlatest, List.flatMap_def]

/-- The updates of versions, and the versions that are read afterwards. -/
theorem updated_refs (hversion : ∀ c ∈ version, isRefChar c = true) :
    (updatedSetupComposeVersionText workflowPath workflowText latestToolTags).2.map
      ActionUpdate.oldRef =
        (setupComposeVersionRefs workflowText).filter (· ≠ version) ∧
      setupComposeVersionRefs
        (updatedSetupComposeVersionText workflowPath workflowText latestToolTags).1 =
        ((setupComposeVersionRefs workflowText).map fun _ => version).filter (· ≠ []) := by
  rw [updatedSetupComposeVersionText_eq hlatest, setupComposeVersionRefs, setupComposeVersionRefs,
    Text.splitlines,
    Text.splitlines, splitlines_updated hversion]
  exact updateLines_refs hversion (Text.lines_splitlinesKeepends workflowText)
    fun line hline => Text.newline_notMem_dropLast hline

/-- **The scanners agree.**  What the reading scanner finds is what the other one replaces, which
    keeps the lines with their line breaks, and leaves the new version where the old ones were. -/
theorem scanners_agree (hversion : IsVersion version) :
    (setupComposeVersionRefs workflowText).filter (· ≠ version) =
        (updatedSetupComposeVersionText workflowPath workflowText latestToolTags).2.map
          ActionUpdate.oldRef ∧
      (Text.splitlinesKeepends
        (updatedSetupComposeVersionText workflowPath workflowText latestToolTags).1).map
          Text.lineBreak = (Text.splitlinesKeepends workflowText).map Text.lineBreak ∧
      setupComposeVersionRefs
        (updatedSetupComposeVersionText workflowPath workflowText latestToolTags).1 =
        (setupComposeVersionRefs workflowText).map fun _ => version := by
  have hrefs : (updatedSetupComposeVersionText workflowPath workflowText latestToolTags).2.map _ =
      _ ∧ _ :=
    updated_refs hlatest hversion.chars
  have hall : ((setupComposeVersionRefs workflowText).map fun _ => version).filter (· ≠ []) =
      (setupComposeVersionRefs workflowText).map fun _ => version :=
    List.filter_eq_self.2 fun ref href => by simp [List.eq_of_mem_map_const href, hversion.nonempty]
  refine ⟨hrefs.1.symm, ?_, hrefs.2.trans hall⟩
  rw [updatedSetupComposeVersionText_eq hlatest, splitlines_updated hversion.chars]
  exact Text.map_lineBreak_of_replaces
    (updateLines_replaces hversion.chars (Text.lines_splitlinesKeepends workflowText)
    fun line hline => Text.newline_notMem_dropLast hline)

end

namespace Sample

/-- The second job of the workflow is read as a part of the step before it. -/
theorem workflow_refs : setupComposeVersionRefs workflow = ["1.4.0".toList] := by decide +kernel

end Sample

theorem scanners_agree_workflow : setupComposeVersionRefs
    (updatedSetupComposeVersionText [] workflow fun _ => some "v5.1.3".toList).1 =
    ["v5.1.3".toList] := by
  have hagree : _ ∧ _ ∧ setupComposeVersionRefs
      (updatedSetupComposeVersionText [] workflow fun _ => some "v5.1.3".toList).1 = _ :=
    scanners_agree rfl ⟨by decide, by decide⟩
  rw [hagree.2.2, Sample.workflow_refs]
  rfl

end

end FastapiTemplate.Management
