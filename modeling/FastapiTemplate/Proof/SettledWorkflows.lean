/-
  Running the workflow updater twice.  The second run finds nothing to update
  (`workflows_settle`), unless an update takes away a `uses:` at the end of a
  reference or brings one in a new reference.
-/
import FastapiTemplate.Lib.Entries
import FastapiTemplate.Proof.ActionRefs
import FastapiTemplate.Proof.ReversionedWorkflows

namespace FastapiTemplate.Management

open Regex

/-- The workflow files after some of them are written. -/
def filesAfter (workflowTexts written : List (List Char × List Char)) :
    List (List Char × List Char) :=
  workflowTexts.map fun w => (w.1, (written.lookup w.1).getD w.2)

/-! ## One file -/

section
variable {word : Char → Bool} {workflowPath workflowText version : List Char}
    {lines : List (List Char)}
  {scan : StepScan} {latestTags latestTags' latestToolTags latestToolTags' : List Char →
  Option (List Char)}

theorem updatedWorkflowActionText_fst :
    (updatedWorkflowActionText word workflowPath workflowText latestTags latestToolTags).1 =
      (updatedSetupComposeVersionText workflowPath
        (substituteActions workflowPath latestTags word workflowText)
        latestToolTags).1 := rfl

theorem updatedWorkflowActionText_snd :
    (updatedWorkflowActionText word workflowPath workflowText latestTags latestToolTags).2 =
      actionUpdates workflowPath latestTags word workflowText ++
        (updatedSetupComposeVersionText workflowPath
          (substituteActions workflowPath latestTags word workflowText)
          latestToolTags).2 := rfl

theorem updateLines_of_no_updates (hnewline : ∀ line ∈ lines, '\n' ∉ line.dropLast)
    (h : (updateLines workflowPath version scan lines).filterMap Prod.snd = []) :
    (updateLines workflowPath version scan lines).map Prod.fst = lines := by
  induction lines generalizing scan with
  | nil => rfl
  | cons line lines ih =>
    rw [updateLines_cons, List.filterMap_eq_nil_iff, List.forall_mem_cons,
      ← List.filterMap_eq_nil_iff] at h
    rw [updateLines_cons, List.map_cons, ih (fun l hl => hnewline l (by simp [hl])) h.2]
    rcases @updatedLine_cases line version workflowPath (scan.next line).inSetupComposeStep
      (hnewline line (by simp)) with
      ⟨hsame, -⟩ | ⟨-, l, rfl, -, hchanged⟩
    · rw [hsame]
    · rw [hchanged] at h
      cases h.1

theorem versionText_of_no_updates
    (h : (updatedSetupComposeVersionText workflowPath workflowText latestToolTags).2 = []) :
    (updatedSetupComposeVersionText workflowPath workflowText latestToolTags).1 = workflowText := by
  cases hlatest : latestToolTags DOCKER_COMPOSE_REPOSITORY with
  | none => simp only [updatedSetupComposeVersionText, hlatest]
  | some version =>
    rw [updatedSetupComposeVersionText_eq hlatest] at h ⊢
    have hsame := updateLines_of_no_updates (fun line hline => Text.newline_notMem_dropLast hline) h
    simp only [hsame]
    exact Text.splitlinesKeepends_flatten workflowText

/-- A file without updates keeps its text. -/
theorem updatedText_of_no_updates
    (h : (updatedWorkflowActionText word workflowPath workflowText latestTags latestToolTags).2 =
    []) :
    (updatedWorkflowActionText word workflowPath workflowText latestTags latestToolTags).1 =
    workflowText := by
  rw [updatedWorkflowActionText_snd, List.append_eq_nil_iff] at h
  have hsame := versionText_of_no_updates h.2
  rw [updatedWorkflowActionText_fst, hsame, substituteActions_of_no_updates h.1]

theorem versionUpdates_eq_nil (hlatest : latestToolTags DOCKER_COMPOSE_REPOSITORY = some version)
    (hversion : ∀ c ∈ version, isRefChar c = true)
      (h : ∀ ref ∈ setupComposeVersionRefs workflowText, ref = version) :
    (updatedSetupComposeVersionText workflowPath workflowText latestToolTags).2 = [] := by
  have hread : (updatedSetupComposeVersionText workflowPath workflowText latestToolTags).2.map
      ActionUpdate.oldRef = _ ∧ _ :=
    updated_refs hlatest hversion
  have hnone : (setupComposeVersionRefs workflowText).filter (· ≠ version) = [] :=
    List.filter_eq_nil_iff.2 fun ref href => by simp [h ref href]
  exact List.map_eq_nil_iff.1 (hread.1.trans hnone)

section
variable (htags : ∀ repository tag, latestTags repository = some tag → ∀ c ∈ tag,
    isRefChar c = true)
  (htools : ∀ repository tag, latestToolTags repository = some tag → ∀ c ∈ tag, isRefChar c = true)
  (hrefs : ∀ u ∈
  (updatedWorkflowActionText word workflowPath workflowText latestTags latestToolTags).2,
    ¬USES_KEY <:+ u.oldRef ∧ ¬USES_KEY <:+: u.newRef)
include htags htools hrefs

/-- Afterwards the actions have the references that the substitution leaves. -/
theorem actionUpdates_settled
    (hagree : ∀ r ∈ actionRefs word [] workflowText,
    latestTags' r.1 = none ∨ latestTags' r.1 = latestTags r.1) :
    actionUpdates workflowPath latestTags' word
      (updatedWorkflowActionText word workflowPath workflowText latestTags latestToolTags).1 =
      [] := by
  rw [actionUpdates_eq, List.filterMap_eq_nil_iff]
  intro r hr
  have hr := actionRefs_updated (htools _) (fun u hu => hrefs u (List.mem_append_right _ hu)) hr
  rw [substituteActions_eq, actionRefs_substituted htags (.inl rfl)] at hr
  obtain ⟨r, hmem, rfl⟩ := List.mem_map.1 hr
  refine if_pos ?_
  rcases hagree r hmem with hnone | hsame
  · rw [settledRef, hnone, Option.elim_none]
  · rw [settledRef, hsame, ← settledRef, settledRef_settledRef]

/-- Afterwards all versions are the latest one. -/
theorem versionUpdates_settled
    (htools' : ∀ tag, latestToolTags' DOCKER_COMPOSE_REPOSITORY = some tag → ∀ c ∈ tag,
    isRefChar c = true)
    (hagree : ∀ tag, latestToolTags' DOCKER_COMPOSE_REPOSITORY = some tag →
      latestToolTags DOCKER_COMPOSE_REPOSITORY = some tag ∨
        latestToolTags DOCKER_COMPOSE_REPOSITORY = none ∧
        setupComposeVersionRefs workflowText = []) :
    (updatedSetupComposeVersionText workflowPath
      (updatedWorkflowActionText word workflowPath workflowText latestTags latestToolTags).1
        latestToolTags').2 = [] := by
  cases hlatest : latestToolTags' DOCKER_COMPOSE_REPOSITORY with
  | none => simp only [updatedSetupComposeVersionText, hlatest]
  | some version =>
    refine versionUpdates_eq_nil hlatest (htools' version hlatest) fun ref href => ?_
    rcases hagree version hlatest with hsame | ⟨hnone, hnil⟩
    · have hread : _ ∧ setupComposeVersionRefs (updatedSetupComposeVersionText workflowPath
          (substituteActions workflowPath latestTags word workflowText) latestToolTags).1 = _ :=
        updated_refs hsame (htools _ version hsame)
      rw [updatedWorkflowActionText_fst, hread.2] at href
      exact List.eq_of_mem_map_const (List.mem_of_mem_filter href)
    · -- The tool was not looked up, and there is still no version.
      have hread := setupComposeVersionRefs_substituted htags
        (fun u hu => (hrefs u (List.mem_append_left _ hu)).imp_right fun hnew hsuffix =>
        hnew hsuffix.isInfix) hnil
      simp only [updatedWorkflowActionText, updatedSetupComposeVersionText, hnone, hread] at href
      cases href

/-- A file has no updates after its update. -/
theorem updates_settled
    (htools' : ∀ tag, latestToolTags' DOCKER_COMPOSE_REPOSITORY = some tag → ∀ c ∈ tag,
    isRefChar c = true)
    (hagree : ∀ r ∈ actionRefs word [] workflowText,
    latestTags' r.1 = none ∨ latestTags' r.1 = latestTags r.1)
    (htool : ∀ tag, latestToolTags' DOCKER_COMPOSE_REPOSITORY = some tag →
      latestToolTags DOCKER_COMPOSE_REPOSITORY = some tag ∨
        latestToolTags DOCKER_COMPOSE_REPOSITORY = none ∧
        setupComposeVersionRefs workflowText = []) :
    (updatedWorkflowActionText word workflowPath
      (updatedWorkflowActionText word workflowPath workflowText latestTags latestToolTags).1
        latestTags'
      latestToolTags').2 = [] := by
  have hactions := actionUpdates_settled htags htools hrefs hagree
  have hversions := versionUpdates_settled htags htools hrefs htools' htool
  rw [updatedWorkflowActionText_snd, substituteActions_of_no_updates hactions, hactions, hversions]
  rfl

end

end

/-! ## A run -/

section
variable {word : Char → Bool} {workflowTexts : List (List Char × List Char)}
    {resolver : List Char → Option (List Char)}
  {repositories : List (List Char)} {workflow : List Char × List Char}

theorem resolveInParallel_of_mem {entry : List Char} (h : entry ∈ repositories) :
    resolveInParallel repositories resolver entry = resolver entry := if_pos h

theorem resolveInParallel_eq_some {entry tag : List Char}
    (h : resolveInParallel repositories resolver entry = some tag) : entry ∈ repositories ∧
    resolver entry = some tag := by
  unfold resolveInParallel at h
  split at h
  · exact ⟨‹_›, h⟩
  · cases h

/-- What a run does with a file. -/
def updatedWorkflow (word : Char → Bool) (workflowTexts : List (List Char × List Char))
    (resolver : List Char → Option (List Char)) (workflow : List Char × List Char) :
    List Char × List ActionUpdate :=
  updatedWorkflowActionText word workflow.1 workflow.2
    (resolveInParallel (githubActionRepositories word (workflowTexts.map Prod.snd)) resolver)
    (resolveInParallel (workflowToolRepositories (workflowTexts.map Prod.snd)) resolver)

theorem workflowUpdates_eq {dryRun : Bool} :
    (updateGithubActionVersions word workflowTexts resolver dryRun).1 =
    workflowTexts.flatMap fun w => (updatedWorkflow word workflowTexts resolver w).2 := by
  simp only [updateGithubActionVersions, List.flatMap_map, updatedWorkflow]

theorem workflowsWritten_eq : (updateGithubActionVersions word workflowTexts resolver false).2 =
    (workflowTexts.filter fun w => (updatedWorkflow word workflowTexts resolver w).2 ≠ []).map
      fun w => (w.1, (updatedWorkflow word workflowTexts resolver w).1) := by
  simp only [updateGithubActionVersions, List.filter_map, List.map_map, Bool.not_false,
    Bool.and_true]
  rfl

/-- A dry run writes nothing. -/
theorem workflowsWritten_dryRun : (updateGithubActionVersions word workflowTexts resolver true).2 =
    [] := by
  simp [updateGithubActionVersions]

/-- After a run a file has its updated text. -/
theorem filesAfter_written (hkeys : (workflowTexts.map Prod.fst).Nodup) :
    filesAfter workflowTexts (updateGithubActionVersions word workflowTexts resolver false).2 =
      workflowTexts.map fun w => (w.1, (updatedWorkflow word workflowTexts resolver w).1) := by
  refine List.map_congr_left fun w hw => ?_
  rw [workflowsWritten_eq, Entries.lookup_filter_map hkeys _ _ hw]
  split
  · rfl
  · rename_i hnone
    have hnone : (updatedWorkflow word workflowTexts resolver w).2 = [] := by simpa using hnone
    rw [Option.getD_none, updatedWorkflow, updatedText_of_no_updates hnone]

theorem mem_repositories {r : List Char × List Char} (hw : workflow ∈ workflowTexts)
    (hr : r ∈ actionRefs word [] workflow.2) :
    r.1 ∈ githubActionRepositories word (workflowTexts.map Prod.snd) := by
  obtain ⟨m, hm, rfl⟩ := List.mem_map.1 hr
  rw [githubActionRepositories, List.flatMap_map]
  exact List.mem_flatMap.2 ⟨workflow, hw, List.mem_map_of_mem hm⟩

/-- A file in which versions are read makes the run look for the latest one. -/
theorem mem_tools (hw : workflow ∈ workflowTexts) (href : setupComposeVersionRefs workflow.2 ≠ []) :
    DOCKER_COMPOSE_REPOSITORY ∈ workflowToolRepositories (workflowTexts.map Prod.snd) := by
  have hany :
      (workflowTexts.map Prod.snd).any (fun text => setupComposeVersionRefs text ≠ []) = true :=
    List.any_eq_true.2 ⟨workflow.2, List.mem_map_of_mem hw, by simpa using href⟩
  rw [workflowToolRepositories, if_pos hany]
  exact List.mem_singleton_self _

/-- **The workflow updater settles**: a second run has no updates and writes no file, as long as no
    old reference in an update of the first run ends with `uses:` and no new one contains it; and a
    dry run has the updates of a run and writes nothing. -/
theorem workflows_settle :
    updateGithubActionVersions word workflowTexts resolver true =
        ((updateGithubActionVersions word workflowTexts resolver false).1, []) ∧
      ((workflowTexts.map Prod.fst).Nodup →
        (∀ repository tag, resolver repository = some tag → ∀ c ∈ tag, isRefChar c = true) →
        (∀ u ∈ (updateGithubActionVersions word workflowTexts resolver false).1,
          ¬USES_KEY <:+ u.oldRef ∧ ¬USES_KEY <:+: u.newRef) →
        updateGithubActionVersions word
          (filesAfter workflowTexts
            (updateGithubActionVersions word workflowTexts resolver false).2) resolver false =
            ([], [])) := by
  refine ⟨Prod.ext (by rw [workflowUpdates_eq, workflowUpdates_eq]) workflowsWritten_dryRun,
    fun hkeys htags hrefs => ?_⟩
  rw [workflowUpdates_eq] at hrefs
  set texts :=
    filesAfter workflowTexts
    (updateGithubActionVersions word workflowTexts resolver false).2 with htexts
  rw [filesAfter_written hkeys] at htexts
  have hnone : ∀ w ∈ texts, (updatedWorkflow word texts resolver w).2 = [] := by
    intro w hw
    rw [htexts] at hw
    obtain ⟨w, hmem, rfl⟩ := List.mem_map.1 hw
    refine updates_settled
      (fun repository tag htag => htags repository tag (resolveInParallel_eq_some htag).2)
      (fun repository tag htag => htags repository tag (resolveInParallel_eq_some htag).2)
      (fun u hu => hrefs u (List.mem_flatMap.2 ⟨w, hmem, hu⟩))
      (fun tag htag => htags _ tag (resolveInParallel_eq_some htag).2)
        (fun r hr => ?_) fun tag htag => ?_
    · rw [resolveInParallel_of_mem (mem_repositories hmem hr)]
      cases hfound :
        resolveInParallel (githubActionRepositories word (texts.map Prod.snd)) resolver r.1 with
      | none => exact .inl rfl
      | some tag => exact .inr (resolveInParallel_eq_some hfound).2.symm
    · by_cases href : setupComposeVersionRefs w.2 = []
      · cases hfound :
          resolveInParallel (workflowToolRepositories (workflowTexts.map Prod.snd)) resolver
            DOCKER_COMPOSE_REPOSITORY with
        | none => exact .inr ⟨rfl, href⟩
        | some tag' =>
          have hsame :=
            (resolveInParallel_eq_some hfound).2.symm.trans (resolveInParallel_eq_some htag).2
          exact .inl hsame
      · rw [resolveInParallel_of_mem (mem_tools hmem href)]
        exact .inl (resolveInParallel_eq_some htag).2
  refine Prod.ext ?_ ?_
  · rw [workflowUpdates_eq]
    exact List.flatMap_eq_nil_iff.2 hnone
  · rw [workflowsWritten_eq, List.filter_eq_nil_iff.2 fun w hw => by simp [hnone w hw]]
    rfl

end

namespace Sample

/-- A step of the action with a version. -/
def composeText : List Char :=
  "- uses: docker/setup-compose-action@v1\n  with:\n    version: v4\n".toList

/-- The version ends with `uses:`. -/
def usesText : List Char :=
  "- uses: docker/setup-compose-action@v1\n  version: uses:\n    c/d@e,uses:a/b@v1".toList

/-- The latest tags of the tool and of an action. -/
def latestTag (composeTag repository : List Char) : Option (List Char) :=
  if repository = DOCKER_COMPOSE_REPOSITORY then some composeTag
  else if repository = "a/b".toList then some "v2".toList
  else none

theorem latestTag_chars {composeTag : List Char} (h : ∀ c ∈ composeTag, isRefChar c = true)
    (repository tag : List Char)
    (htag : latestTag composeTag repository = some tag) : ∀ c ∈ tag, isRefChar c = true := by
  unfold latestTag at htag
  split at htag
  · obtain rfl := Option.some.inj htag
    exact h
  · split at htag
    · obtain rfl := Option.some.inj htag
      decide
    · cases htag

end Sample

theorem workflows_settle_compose : updateGithubActionVersions asciiWord
    (filesAfter [([], Sample.composeText)]
      (updateGithubActionVersions asciiWord [([], Sample.composeText)]
      (Sample.latestTag "v5".toList) false).2) (Sample.latestTag "v5".toList) false = ([], []) :=
  workflows_settle.2 (by decide) (Sample.latestTag_chars (by decide)) (by decide)

/-- A version that is a use itself makes the second run look for its action. -/
theorem uses_in_version : ¬∀ (word : Char → Bool) (workflowTexts : List (List Char × List Char))
    (resolver : List Char → Option (List Char)), (workflowTexts.map Prod.fst).Nodup →
    (∀ repository tag, resolver repository = some tag → ∀ c ∈ tag, isRefChar c = true) →
    updateGithubActionVersions word
      (filesAfter workflowTexts (updateGithubActionVersions word workflowTexts resolver false).2)
        resolver false =
        ([], []) := by
  intro h
  have hsecond :=
    h asciiWord [([], Sample.composeText)] (Sample.latestTag "uses:a/b@v1".toList) (by decide)
    (Sample.latestTag_chars (by decide))
  revert hsecond
  decide

/-- An old version that ends with `uses:` hides a use in the next line until it goes. -/
example : (updateGithubActionVersions asciiWord (filesAfter [([], Sample.usesText)]
    (updateGithubActionVersions asciiWord [([], Sample.usesText)]
      (Sample.latestTag "v5".toList) false).2)
      (Sample.latestTag "v5".toList) false).1 = [⟨[], "a/b".toList, "v1".toList, "v2".toList⟩] := by
  decide

end FastapiTemplate.Management
