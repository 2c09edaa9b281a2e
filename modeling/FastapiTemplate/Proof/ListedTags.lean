/-
  The tags that the updater writes: a run with worker threads gives an image
  only a tag that its registry lists (`written_tags_listed`).
-/
import FastapiTemplate.Proof.ContainerReplacements
import FastapiTemplate.Proof.Requests
import FastapiTemplate.Proof.Resolution

namespace FastapiTemplate.Management

open Effects

/-! ## Replacements -/

/-- The image of a reference, or its bare name, gets the tag that the resolver gives. -/
def Retags (resolver : TagResolver) (old new : List Char) : Prop :=
  ∃ ref image tag, parseContainerImageRef ref = some image ∧ (old = ref ∨ old = image.repository) ∧
    resolver image.repository image.tag = some tag ∧ new = containerImageRefWithTag image tag

section
variable {rs : Replacements} {references : List (List Char)} {resolver : TagResolver}
    {r : List Char × List Char}

/-- Every replacement is one. -/
theorem retags_of_mem (h : r ∈ containerImageReplacements references resolver) :
    Retags resolver r.1 r.2 := by
  revert r
  refine containerImageReplacements_induction (P :=
    fun rs => ∀ {r}, r ∈ rs → Retags resolver r.1 r.2) ?_ ?_
  · intro r h
    cases h
  · intro rs ref image _ hparse _ ih r h
    rcases mem_addReplacement h with h | ⟨latest, hlatest, -, hnew, hold⟩
    · exact ih h
    · exact ⟨ref, image, latest, hparse, hold.imp_right And.left, hlatest, hnew⟩

/-! ## Updates -/

theorem mem_of_replacedText {text updatedText : List Char} {updates : Replacements}
    (h : replaceContainerRefsInText rs text = some (updatedText, updates)) : ∀ u ∈ updates,
    u ∈ rs := by
  induction rs generalizing text updatedText updates with
  | nil =>
    cases h
    simp
  | cons r rs ih =>
    obtain ⟨oldRef, newRef⟩ := r
    obtain ⟨⟨text', changed⟩, -, h⟩ := Option.bind_eq_some_iff.1 h
    obtain ⟨⟨text'', rest⟩, hrest, h⟩ := Option.bind_eq_some_iff.1 h
    cases h
    intro u hu
    split_ifs at hu with hchanged
    · rcases List.mem_cons.1 hu with rfl | hu
      · exact List.mem_cons_self
      · exact List.mem_cons_of_mem _ (ih hrest u hu)
    · exact List.mem_cons_of_mem _ (ih hrest u hu)

/-- An update that is recorded is a replacement. -/
theorem mem_of_replaced {dryRun : Bool} {repo : Repository} {paths : List RepoPath}
    {updates : List ContainerImageUpdate}
    (h : (replaceContainerRefsInRepo rs dryRun repo paths).1 = .ok updates) :
    ∀ u ∈ updates, (u.oldRef, u.newRef) ∈ rs := by
  induction paths generalizing repo updates with
  | nil =>
    cases h
    simp
  | cons path paths ih =>
    rw [replaceContainerRefsInRepo_cons] at h
    cases hread : repo.readText path with
    | none =>
      simp only [hread] at h
      cases h
    | some originalText =>
      cases hreplace : replaceContainerRefsInText (orderedReplacements rs) originalText with
      | none =>
        simp only [hread, hreplace] at h
        cases h
      | some result =>
        obtain ⟨updatedText, replaced⟩ := result
        simp only [hread, hreplace] at h
        cases hrest : (replaceContainerRefsInRepo rs dryRun
          (if updatedText ≠ originalText ∧ !dryRun then repo.writeText path updatedText else repo)
            paths).1 with
        | error e =>
          rw [hrest] at h
          cases h
        | ok rest =>
          rw [hrest] at h
          cases h
          refine List.forall_mem_append.2 ⟨fun u hu => ?_, ih hrest⟩
          obtain ⟨r, hr, rfl⟩ := List.mem_map.1 hu
          exact (List.mem_insertionSort _).1 (mem_of_replacedText hreplace r hr)

end

/-! ## Runs -/

/-- The update gives an image a tag that its registry lists. -/
def ListedUpdate (answer : (c : WebCall) → Except WebError JsonResponse → Prop)
    (u : ContainerImageUpdate) : Prop :=
  ∃ ref image tag, parseContainerImageRef ref = some image ∧
    (u.oldRef = ref ∨ u.oldRef = image.repository) ∧
    u.newRef = containerImageRefWithTag image tag ∧
    ∃ log, Recorded (RegistryAsks image.repository) answer (MAX_REGISTRY_PAGES + 1) log ∧
      RegistryLists image.repository log tag

section
variable {table : LetterCase.CaseTable} {rejects : List Char → Bool}
  {answer : (c : WebCall) → Except WebError JsonResponse → Prop} {repo : Repository} {dryRun : Bool}
  {result : Except ContainerError (List ContainerImageUpdate) × Repository}
    {updates : List ContainerImageUpdate}

/-- **No run writes a tag that was not listed**, whatever the definition files, the order of the
    requests and the answers. -/
theorem written_tags_listed (h : UpdatesImages table rejects answer repo dryRun result)
    (hok : result.1 = .ok updates) : ∀ u ∈ updates, ListedUpdate answer u := by
  cases h with
  | unreadable => cases hok
  | typeError => cases hok
  | raised => cases hok
  | @updated texts latestTags replacements _ _ hresolves hreplacements =>
    split_ifs at hok with hnil
    · cases hok
      simp
    · intro u hu
      have hmem := mem_of_replaced hok u hu
      rw [hreplacements] at hmem
      obtain ⟨ref, image, tag, hparse, hold, htag, hnew⟩ := retags_of_mem hmem
      obtain ⟨n, pool, hpool, hfinished⟩ :=
        hresolves.exists_finished (Option.join_eq_some_iff.1 htag)
      obtain ⟨log, hhistory, hlists⟩ := (keeps_of_reachable hpool).finished _ hfinished
      exact ⟨ref, image, tag, hparse, hold, hnew, log, hhistory, hlists tag rfl⟩

/-- A Dockerfile with a tag that is not the latest. -/
def outdated : Repository where
  nodes := [(["Dockerfile".toList], .file (some "FROM redis:7".toList))]
  nodup := by decide

/-- Every page lists one tag. -/
def listsOne : Answers WebCall (fun _ => JsonResponse) WebError :=
  fun _ => .ok ⟨.obj [("results", .arr [.obj [("name", .str "7.2")]])], none⟩

/-- `7` becomes `7.2`. -/
theorem written_tags_listed_redis : ListedUpdate (Pool.answers listsOne)
    ⟨"Dockerfile".toList, "redis:7".toList, "redis:7.2".toList⟩ := by
  have hresolves : ResolvesInParallel (resolveContainerTag fun _ => false) (Pool.answers listsOne)
      [("redis".toList, some ['7'])]
        (.ok fun key => if key = ("redis".toList, some ['7']) then some (some "7.2".toList)
        else none) :=
    .single (by decide)
  have hrun :=
    @UpdatesImages.updated LetterCase.asciiTable (fun _ => false) _ outdated false
    ["FROM redis:7".toList] _ _
    (by decide) (by decide) hresolves rfl
  exact written_tags_listed hrun (by decide) _ (List.mem_singleton_self _)

end

end FastapiTemplate.Management
