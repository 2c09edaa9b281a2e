/-
  What a run that raises leaves on disk.

  * `replaced_same_iff`: the loop over the files leaves the repository as it is
    if and only if no file that it reads is changed.
  * `dry_run`: a dry run changes nothing, and returns what a real one does.
  * `updateRepository_eq`: with every file read and every tag resolved, the
    updates are those that `updateContainerImageVersions` computes from texts.
  * `update_leaves_repository_iff`: when a failing update changes nothing.
-/
import FastapiTemplate.Management.ContainerTree

namespace FastapiTemplate.Management

/-! ## Reading and writing -/

namespace Repository
variable {repo : Repository} {path path' : RepoPath} {text text' : List Char}
    {nodes : List (RepoPath × Node)}

theorem find?_writeNode : (nodes.map (writeNode path text)).find? (fun e => e.1 = path') =
    (nodes.find? fun e => e.1 = path').map (writeNode path text) := by
  induction nodes with
  | nil => rfl
  | cons e nodes ih =>
    rw [List.map_cons, List.find?_cons, List.find?_cons, fst_writeNode, ih]
    cases decide (e.1 = path') <;> rfl

theorem readText_writeText_of_ne (h : path' ≠ path) : (repo.writeText path text).readText path' =
    repo.readText path' := by
  unfold readText writeText
  rw [find?_writeNode]
  cases hfind : repo.nodes.find? fun e => e.1 = path' with
  | none => rfl
  | some e =>
    have hpath : e.1 = path' := by simpa using List.find?_some hfind
    have hsame : writeNode path text e = e := if_neg fun heq => h (hpath ▸ heq)
    rw [Option.map_some, hsame]

theorem readText_writeText (h : repo.readText path = some text') :
    (repo.writeText path text).readText path = some text := by
  unfold readText writeText at *
  rw [find?_writeNode]
  cases hfind : repo.nodes.find? fun e => e.1 = path with
  | none =>
    rw [hfind] at h
    cases h
  | some e =>
    have hpath : e.1 = path := by simpa using List.find?_some hfind
    have hnew : writeNode path text e = (e.1, .file (some text)) := if_pos hpath
    rw [Option.map_some, hnew]

theorem nodup_paths (repo : Repository) (select : RepoPath → Node → Bool) :
    (repo.paths select).Nodup := by
  have hsub : ((repo.nodes.filter fun e => select e.1 e.2).map Prod.fst).Sublist
      (repo.nodes.map Prod.fst) :=
    List.filter_sublist.map _
  exact (List.perm_insertionSort (· ≤ ·) _).nodup_iff.2 (repo.nodup.sublist hsub)

/-- The paths that are also selected by something stronger. -/
theorem paths_eq_filter {select select' : RepoPath → Node → Bool}
    (h : ∀ path node, select' path node → select path node) :
    repo.paths select' = (repo.paths select).filter (repo.selects select') := by
  -- a path has one node
  have hnode (e) (he : e ∈ repo.nodes) : repo.selects select' e.1 = select' e.1 e.2 := by
    rw [Bool.eq_iff_iff, selects, List.any_eq_true]
    constructor
    · rintro ⟨e', he', hsel⟩
      obtain ⟨hpath, hsel⟩ := Bool.and_eq_true_iff.1 hsel
      rwa [← List.inj_on_of_nodup_map repo.nodup he' he (of_decide_eq_true hpath)]
    · exact fun hsel => ⟨e, he, by simp [hsel]⟩
  have hfilter : ((repo.nodes.filter fun e => select e.1 e.2).map Prod.fst).filter
      (repo.selects select') =
      (repo.nodes.filter fun e => select' e.1 e.2).map Prod.fst := by
    rw [List.filter_map, List.filter_filter]
    congr 1
    refine List.filter_congr fun e he => ?_
    rw [Function.comp_apply, hnode e he, Bool.eq_iff_iff, Bool.and_eq_true_iff]
    exact and_iff_left_of_imp (h e.1 e.2)
  refine List.Perm.eq_of_sortedLE List.sortedLE_insertionSort ?_ ?_
  · exact (List.sortedLE_insertionSort.pairwise.filter _).sortedLE
  · unfold paths
    rw [← hfilter]
    refine (List.perm_insertionSort _ _).trans ?_
    exact ((List.perm_insertionSort (· ≤ ·) _).symm.filter _)

end Repository

/-! ## The loop over the files -/

section
variable {rs : Replacements} {dryRun : Bool} {repo repo' : Repository} {path : RepoPath}
    {paths : List RepoPath}
  {text text' : List Char}

/-- The replacements change the text of the file. -/
def Changes (rs : Replacements) (repo : Repository) (path : RepoPath) : Prop :=
  ∃ text updatedText updates, repo.readText path = some text ∧
    replaceContainerRefsInText (orderedReplacements rs) text = some (updatedText, updates) ∧
    updatedText ≠ text

/-- The files before the first one that cannot be read. -/
def readBefore (repo : Repository) (paths : List RepoPath) : List RepoPath :=
  paths.takeWhile fun path => (repo.readText path).isSome

/-- A template that `re` rejects is rejected in every text. -/
theorem replaceContainerRefsInText_none (h : replaceContainerRefsInText rs text = none) :
    replaceContainerRefsInText rs text' = none := by
  induction rs generalizing text text' with
  | nil => cases h
  | cons r rs ih =>
    obtain ⟨oldRef, newRef⟩ := r
    unfold replaceContainerRefsInText replaceContainerRefInText at h ⊢
    cases htemplate : Regex.template [] newRef with
    | none => rfl
    | some f =>
      rw [htemplate] at h
      simp only [Option.map_some, Option.bind_eq_bind, Option.bind_some,
        Option.bind_eq_none_iff] at h ⊢
      intro x hx
      cases hrest : replaceContainerRefsInText rs ((containerRefPattern oldRef).sub f text) with
      | none =>
        rw [ih hrest] at hx
        cases hx
      | some y => exact absurd (h y hrest) (by simp)

/-- What is read and written elsewhere does not matter. -/
theorem readText_replaced (h : path ∉ paths) :
    (replaceContainerRefsInRepo rs dryRun repo paths).2.readText path = repo.readText path := by
  induction paths generalizing repo with
  | nil => rfl
  | cons first paths ih =>
    obtain ⟨hne, h⟩ := not_or.1 (fun hmem => h (List.mem_cons.2 hmem))
    rw [replaceContainerRefsInRepo_cons]
    split
    · rfl
    · split
      · rfl
      · rename_i updatedText updates _
        simp only
        rw [ih h]
        split_ifs
        · exact Repository.readText_writeText_of_ne hne
        · rfl

/-- **The loop changes nothing** if and only if no file that it reads is changed. -/
theorem replaced_same_iff (hnodup : paths.Nodup) :
    (replaceContainerRefsInRepo rs false repo paths).2 = repo ↔
    ∀ path ∈ readBefore repo paths, ¬Changes rs repo path := by
  induction paths with
  | nil => exact iff_of_true rfl (fun _ h => by cases h)
  | cons path paths ih =>
    obtain ⟨hpath, hnodup⟩ := List.nodup_cons.1 hnodup
    unfold readBefore at ih ⊢
    rw [replaceContainerRefsInRepo_cons]
    cases hread : repo.readText path with
    | none =>
      rw [List.takeWhile_cons_of_neg (by simp [hread])]
      exact iff_of_true (by simp only) (fun _ h => by cases h)
    | some originalText =>
      rw [List.takeWhile_cons_of_pos (by simp [hread]), List.forall_mem_cons]
      cases hreplace : replaceContainerRefsInText (orderedReplacements rs) originalText with
      | none =>
        -- no text is changed by a template that is rejected
        refine iff_of_true (by simp only [hreplace]) ⟨?_, fun path' _ => ?_⟩
        all_goals
          rintro ⟨text, updatedText, updates, -, htext, -⟩
          rw [replaceContainerRefsInText_none hreplace] at htext
          cases htext
      | some result =>
        obtain ⟨updatedText, updates⟩ := result
        simp only [hreplace, Bool.not_false, and_true]
        by_cases hsame : updatedText = originalText
        · rw [if_neg (not_not_intro hsame), ih hnodup]
          refine (and_iff_right ?_).symm
          rintro ⟨text, updatedText', updates', htext, hreplace', hne⟩
          rw [hread] at htext
          cases htext
          rw [hreplace] at hreplace'
          cases hreplace'
          exact hne hsame
        · rw [if_pos hsame]
          refine iff_of_false (fun hrepo => ?_) fun h => h.1 ⟨_, _, _, hread, hreplace, hsame⟩
          -- what was written is there at the end
          have hwritten :
              (replaceContainerRefsInRepo rs false (repo.writeText path updatedText)
              paths).2.readText path =
              (repo.writeText path updatedText).readText path := readText_replaced hpath
          rw [hrepo, hread, Repository.readText_writeText hread] at hwritten
          exact hsame (Option.some.inj hwritten).symm

/-! ### Dry runs -/

theorem dryRun_replaced : (replaceContainerRefsInRepo rs true repo paths).2 = repo := by
  induction paths with
  | nil => rfl
  | cons path paths ih =>
    rw [replaceContainerRefsInRepo_cons]
    cases repo.readText path with
    | none => rfl
    | some originalText =>
      cases hreplace : replaceContainerRefsInText (orderedReplacements rs) originalText with
      | none => simp only [hreplace]
      | some result =>
        simpa only [hreplace, Bool.not_true, Bool.false_eq_true, and_false, if_false] using ih

theorem fst_dryRun_cons {updatedText : List Char} {updates : Replacements}
    (hread : repo.readText path = some text)
    (hreplace : replaceContainerRefsInText (orderedReplacements rs) text = some
      (updatedText, updates)) :
    (replaceContainerRefsInRepo rs true repo (path :: paths)).1 =
      (replaceContainerRefsInRepo rs true repo paths).1.map fun rest =>
        updates.map (fun r => ⟨['/'].intercalate path, r.1, r.2⟩) ++ rest := by
  rw [replaceContainerRefsInRepo_cons]
  simp only [hread, hreplace, Bool.not_true, Bool.false_eq_true, and_false, if_false]

/-- What the loop returns or raises depends on what it reads, and not on what it writes. -/
theorem fst_replaced_congr (dryRun dryRun' : Bool) (hnodup : paths.Nodup)
    (h : ∀ path ∈ paths, repo.readText path = repo'.readText path) :
    (replaceContainerRefsInRepo rs dryRun repo paths).1 =
    (replaceContainerRefsInRepo rs dryRun' repo' paths).1 := by
  induction paths generalizing repo repo' with
  | nil => rfl
  | cons path paths ih =>
    obtain ⟨hpath, hnodup⟩ := List.nodup_cons.1 hnodup
    obtain ⟨hread, h⟩ := List.forall_mem_cons.1 h
    rw [replaceContainerRefsInRepo_cons, replaceContainerRefsInRepo_cons, ← hread]
    cases repo.readText path with
    | none => rfl
    | some originalText =>
      cases hreplace : replaceContainerRefsInText (orderedReplacements rs) originalText with
      | none => simp only [hreplace]
      | some result =>
        -- the files that are still to be read are not the one that was written
        have hwritten (repo : Repository) (p : Prop) [Decidable p] : ∀ path' ∈ paths,
            (if p then repo.writeText path result.1 else repo).readText path' =
            repo.readText path' := by
          intro path' hmem
          split_ifs
          · exact Repository.readText_writeText_of_ne (ne_of_mem_of_not_mem hmem hpath)
          · rfl
        simp only [hreplace]
        rw [ih hnodup fun path' hmem => ?_]
        rw [hwritten _ _ path' hmem, hwritten _ _ path' hmem, h path' hmem]

/-! ### Errors -/

/-- What a dry run of the loop does with the first file. -/
theorem fst_dryRun_cases (rs : Replacements) (repo : Repository) (path : RepoPath)
    (paths : List RepoPath) :
    (repo.readText path = none ∧
      (replaceContainerRefsInRepo rs true repo (path :: paths)).1 = .error (.unreadable path)) ∨
    (∃ text, repo.readText path = some text ∧
      replaceContainerRefsInText (orderedReplacements rs) text = none ∧
      (replaceContainerRefsInRepo rs true repo (path :: paths)).1 = .error .reError) ∨
    ∃ text updates, repo.readText path = some text ∧
      (replaceContainerRefsInRepo rs true repo (path :: paths)).1 =
      (replaceContainerRefsInRepo rs true repo paths).1.map fun rest => updates ++ rest := by
  cases hread : repo.readText path with
  | none => exact .inl ⟨rfl, by rw [replaceContainerRefsInRepo_cons, hread]⟩
  | some text =>
    refine .inr ?_
    cases hreplace : replaceContainerRefsInText (orderedReplacements rs) text with
    | none =>
      refine .inl ⟨text, rfl, hreplace, ?_⟩
      rw [replaceContainerRefsInRepo_cons]
      simp only [hread, hreplace]
    | some result => exact .inr ⟨text, _, rfl, fst_dryRun_cons hread hreplace⟩

/-- What the loop can raise. -/
theorem of_replaced_error {e : ContainerError} (hnodup : paths.Nodup)
    (h : (replaceContainerRefsInRepo rs dryRun repo paths).1 = .error e) :
    (e = .reError ∧ ∀ text, replaceContainerRefsInText (orderedReplacements rs) text = none) ∨
      ∃ path ∈ paths, e = .unreadable path ∧ repo.readText path = none := by
  rw [fst_replaced_congr dryRun true hnodup fun _ _ => rfl] at h
  clear hnodup
  induction paths with
  | nil => cases h
  | cons path paths ih =>
    rcases fst_dryRun_cases rs repo path paths with ⟨hread, hcons⟩ | ⟨text, -, hreplace,
      hcons⟩ | ⟨_, _, -, hcons⟩
    · rw [hcons] at h
      cases h
      exact .inr ⟨path, List.mem_cons_self, rfl, hread⟩
    · rw [hcons] at h
      cases h
      exact .inl ⟨rfl, fun text => replaceContainerRefsInText_none hreplace⟩
    · rw [hcons] at h
      cases hrest : (replaceContainerRefsInRepo rs true repo paths).1 with
      | ok rest =>
        rw [hrest] at h
        cases h
      | error e' =>
        rw [hrest] at h
        cases h
        obtain herror | ⟨path', hmem, hpath'⟩ := ih hrest
        · exact .inl herror
        · exact .inr ⟨path', List.mem_cons_of_mem _ hmem, hpath'⟩

/-- A run through all the files has read them. -/
theorem of_replaced_ok {updates : List ContainerImageUpdate} (hnodup : paths.Nodup)
    (h : (replaceContainerRefsInRepo rs dryRun repo paths).1 = .ok updates) :
    ∀ path ∈ paths, (repo.readText path).isSome := by
  rw [fst_replaced_congr dryRun true hnodup fun _ _ => rfl] at h
  clear hnodup
  induction paths generalizing updates with
  | nil => exact fun _ hmem => by cases hmem
  | cons path paths ih =>
    rcases fst_dryRun_cases rs repo path paths with ⟨-, hcons⟩ | ⟨text, -, -, hcons⟩ | ⟨text, _,
      hread, hcons⟩
    · rw [hcons] at h
      cases h
    · rw [hcons] at h
      cases h
    · refine List.forall_mem_cons.2 ⟨by rw [hread]; rfl, ?_⟩
      rw [hcons] at h
      cases hrest : (replaceContainerRefsInRepo rs true repo paths).1 with
      | ok rest => exact ih hrest
      | error e' =>
        rw [hrest] at h
        cases h

end

/-! ## The update -/

section
variable {table : LetterCase.CaseTable} {repo : Repository}
    {latestTagResolver : FallibleTagResolver}

/-- What the resolver raised, or a file that cannot be read. -/
def ContainerError.IsFailure (e : ContainerError) : Prop :=
  e = .resolverError ∨ ∃ path, e = .unreadable path

theorem nodup_containerReferencePaths : (containerReferencePaths table repo).Nodup :=
  repo.nodup_paths _

/-- **A dry run** changes nothing, and returns what a real run returns. -/
theorem dry_run : (updateRepository table repo latestTagResolver true).2 = repo ∧
    (updateRepository table repo latestTagResolver true).1 =
    (updateRepository table repo latestTagResolver false).1 := by
  unfold updateRepository
  cases resolveReplacements table repo latestTagResolver with
  | error e => exact ⟨rfl, rfl⟩
  | ok replacements =>
    simp only
    split_ifs
    · exact ⟨rfl, rfl⟩
    · exact ⟨dryRun_replaced,
        fst_replaced_congr true false nodup_containerReferencePaths fun _ _ => rfl⟩

theorem readTexts_eq {paths : List RepoPath} (h : ∀ path ∈ paths, (repo.readText path).isSome) :
    readTexts repo paths = .ok (paths.map fun path => (repo.readText path).getD []) := by
  induction paths with
  | nil => rfl
  | cons path paths ih =>
    obtain ⟨hpath, h⟩ := List.forall_mem_cons.1 h
    obtain ⟨text, htext⟩ := Option.isSome_iff_exists.1 hpath
    rw [readTexts, htext, ih h, List.map_cons, htext]
    rfl

theorem replaced_eq_of_readable {rs : Replacements} {paths : List RepoPath}
    {file : RepoPath → ContainerFile} {dryRun : Bool}
    (hname : ∀ path, (file path).filePath = ['/'].intercalate path)
    (h : ∀ path ∈ paths, repo.readText path = some (file path).text) :
    (replaceContainerRefsInRepo rs true repo paths).1 =
      (replaceContainerRefs rs dryRun (paths.map file)).updates.elim (.error .reError) .ok := by
  induction paths with
  | nil => rfl
  | cons path paths ih =>
    obtain ⟨hread, h⟩ := List.forall_mem_cons.1 h
    rw [List.map_cons, replaceContainerRefs]
    cases hreplace : replaceContainerRefsInText (orderedReplacements rs) (file path).text with
    | none =>
      rw [replaceContainerRefsInRepo_cons]
      simp only [hread, hreplace]
      rfl
    | some result =>
      rw [fst_dryRun_cons hread hreplace, ih h]
      simp only [hname]
      cases (replaceContainerRefs rs dryRun (paths.map file)).updates <;> rfl

/-- With every file read and every tag resolved, the update is that of the texts. -/
theorem updateRepository_eq {resolver : TagResolver} {dryRun : Bool}
    (hread : ∀ path ∈ containerReferencePaths table repo,
      ∃ text, repo.readText path = some text ∧ '\r' ∉ text)
    (htags : mixesTags ((remoteContainerImages
      (containerImageReferences (repo.containerFiles table))).map Prod.snd) = false) :
    (updateRepository table repo (fun repository tag => some (resolver repository tag)) dryRun).1 =
      (updateContainerImageVersions (repo.containerFiles table) resolver dryRun).updates.elim
        (.error .reError) .ok := by
  have hdefinitions : containerDefinitionPaths table repo =
      (containerReferencePaths table repo).filter (repo.selects (isContainerDefinition table)) :=
    Repository.paths_eq_filter fun path node h => by simp [isContainerReference, h]
  have htext (path) (hmem : path ∈ containerReferencePaths table repo) :
      repo.readText path = some (Text.universalNewlines ((repo.readText path).getD [])) := by
    obtain ⟨text, htext, hreturn⟩ := hread path hmem
    rw [htext, Option.getD_some, Text.universalNewlines_eq_self hreturn]
  have hreferences : ((containerDefinitionPaths table repo).map
      fun path => (repo.readText path).getD []).flatMap containerImageRefsFromText =
        containerImageReferences (repo.containerFiles table) := by
    rw [hdefinitions, containerImageReferences, Repository.containerFiles, List.filter_map,
      List.flatMap_map, List.flatMap_map]
    refine List.flatMap_congr fun path hmem => congrArg containerImageRefsFromText ?_
    exact congrArg (·.getD []) (htext path (List.mem_of_mem_filter hmem))
  have hdefined : ∀ path ∈ containerDefinitionPaths table repo, (repo.readText path).isSome := by
    rw [hdefinitions]
    exact fun path hmem => Option.isSome_iff_exists.2 ⟨_, htext path (List.mem_of_mem_filter hmem)⟩
  have hreplacements :
      resolveReplacements table repo (fun repository tag => some (resolver repository tag)) =
      .ok (containerImageReplacements (containerImageReferences (repo.containerFiles table))
        resolver) := by
    rw [resolveReplacements, readTexts_eq hdefined]
    simp only [hreferences, htags, Bool.false_eq_true, if_false, Option.isNone_some,
      Option.getD_some]
    exact if_neg (by simp)
  rw [updateRepository, hreplacements, updateContainerImageVersions,
    containerImageReplacements?, htags]
  simp only [Bool.false_eq_true, if_false]
  split_ifs
  · rfl
  · rw [fst_replaced_congr dryRun true nodup_containerReferencePaths fun _ _ => rfl]
    exact replaced_eq_of_readable (fun _ => rfl) htext

/-- **A failing update leaves the repository as it was**, and a dry run always does, if and only if
    the replacements change no file before the first one that cannot be read. -/
theorem update_leaves_repository_iff :
    ((∀ e : ContainerError, (updateRepository table repo latestTagResolver false).1 = .error e →
    e.IsFailure →
        (updateRepository table repo latestTagResolver false).2 = repo) ∧
      (updateRepository table repo latestTagResolver true).2 = repo ∧
      ∀ updates, (updateRepository table repo latestTagResolver false).1 = .ok updates →
        (updateRepository table repo latestTagResolver true).1 = .ok updates) ↔
    ∀ replacements, resolveReplacements table repo latestTagResolver = .ok replacements →
      (∀ path ∈ containerReferencePaths table repo, (repo.readText path).isSome) ∨
        ∀ path ∈ readBefore repo (containerReferencePaths table repo),
        ¬Changes replacements repo path := by
  have hdry : (updateRepository table repo latestTagResolver true).2 = repo ∧
      ∀ updates, (updateRepository table repo latestTagResolver false).1 = .ok updates →
        (updateRepository table repo latestTagResolver true).1 = .ok updates :=
    ⟨dry_run.1, fun updates hok => dry_run.2.trans hok⟩
  have hnodup : (containerReferencePaths table repo).Nodup := nodup_containerReferencePaths
  rw [and_iff_left hdry]
  unfold updateRepository
  cases hreplacements : resolveReplacements table repo latestTagResolver with
  | error e => exact iff_of_true (fun _ _ _ => rfl) fun _ h => by cases h
  | ok replacements =>
    simp only
    split_ifs with hempty
    · refine iff_of_true (fun _ _ _ => rfl) ?_
      rintro _ ⟨⟩
      refine .inr fun path _ => ?_
      rintro ⟨text, updatedText, updates, -, htext, hne⟩
      rw [hempty] at htext
      cases htext
      exact hne rfl
    · constructor
      · rintro h _ ⟨⟩
        cases hloop :
          (replaceContainerRefsInRepo replacements false repo
          (containerReferencePaths table repo)).1 with
        | ok updates => exact .inl (of_replaced_ok hnodup hloop)
        | error e =>
          refine .inr ?_
          obtain ⟨-, hnone⟩ | ⟨path, -, rfl, -⟩ := of_replaced_error hnodup hloop
          · rintro path - ⟨text, updatedText, updates, -, htext, -⟩
            rw [hnone] at htext
            cases htext
          · exact (replaced_same_iff hnodup).1 (h _ hloop (.inr ⟨path, rfl⟩))
      · intro h e hloop hfailure
        obtain hread | hsame := h replacements rfl
        · -- with every file read, only `re.error` is left
          obtain ⟨rfl, -⟩ | ⟨path, hmem, -, hnone⟩ := of_replaced_error hnodup hloop
          · obtain h | ⟨_, h⟩ := hfailure <;> cases h
          · exact absurd hnone (Option.isSome_iff_ne_none.1 (hread path hmem))
        · exact (replaced_same_iff hnodup).2 hsame

/-- A Dockerfile is rewritten, and then the README turns out not to be UTF-8. -/
def halfUpdated : Repository where
  nodes := [(["Dockerfile".toList], .file (some "FROM redis:1".toList)),
    (["README.md".toList], .file none)]
  nodup := by decide

theorem update_leaves_half : ¬∀ e : ContainerError,
    (updateRepository LetterCase.asciiTable halfUpdated (fun _ _ => some (some ['2'])) false).1 =
    .error e → e.IsFailure →
      (updateRepository LetterCase.asciiTable halfUpdated (fun _ _ => some (some ['2'])) false).2 =
      halfUpdated := by
  intro h
  have hread :
      (updateRepository LetterCase.asciiTable halfUpdated
      (fun _ _ => some (some ['2'])) false).2.readText
      ["Dockerfile".toList] = some "FROM redis:2".toList := by decide
  rw [h (.unreadable ["README.md".toList]) (by decide) (.inr ⟨_, rfl⟩)] at hread
  revert hread
  decide

end

end FastapiTemplate.Management
