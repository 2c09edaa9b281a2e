/-
  Worker threads change nothing: with answers that depend on the requests
  alone, every run of the threads ends, and the updates of images and workflows
  are those of a sequential resolver (`images_in_parallel`,
  `workflows_in_parallel`).
-/
import FastapiTemplate.Lib.Entries
import FastapiTemplate.Management.Parallel

namespace FastapiTemplate.Management

open Effects

/-! ## Futures -/

section
variable {ι ε α : Type} {resolved d : List (ι × α)} {futures : List (ι × Except ε α)}

theorem collectFutures_ok (h : collectFutures resolved futures = .ok d) :
    ∀ e ∈ futures, ∃ v, e.2 = .ok v := by
  induction futures generalizing resolved with
  | nil => simp
  | cons future futures ih =>
    obtain ⟨entry, r⟩ := future
    cases r with
    | error e => cases h
    | ok value =>
      intro e he
      rcases List.mem_cons.1 he with rfl | he
      · exact ⟨value, rfl⟩
      · exact ih h e he

theorem collectFutures_error {e : ε} (h : collectFutures resolved futures = .error e) :
    ∃ i, (i, .error e) ∈ futures := by
  induction futures generalizing resolved with
  | nil => cases h
  | cons future futures ih =>
    obtain ⟨entry, r⟩ := future
    cases r with
    | error e' =>
      cases h
      exact ⟨entry, List.mem_cons_self⟩
    | ok value =>
      obtain ⟨i, hi⟩ := ih h
      exact ⟨i, List.mem_cons_of_mem _ hi⟩

theorem mem_of_collectFutures (h : collectFutures resolved futures = .ok d) :
    ∀ e ∈ d, e ∈ resolved ∨ (e.1, .ok e.2) ∈ futures := by
  induction futures generalizing resolved with
  | nil =>
    cases h
    exact fun e he => .inl he
  | cons future futures ih =>
    obtain ⟨entry, r⟩ := future
    cases r with
    | error e => cases h
    | ok value =>
      intro e he
      rcases ih h e he with he | he
      · rcases List.mem_cons.1 he with rfl | he
        · exact .inr List.mem_cons_self
        · exact .inl he
      · exact .inr (List.mem_cons_of_mem _ he)

variable [DecidableEq ι]

/-- The dictionary of futures that all return what a function says. -/
theorem collectFutures_eq (resolved : List (ι × α)) (g : ι → Except ε α)
    (h : ∀ e ∈ futures, e.2 = g e.1)
    (hok : ∀ e ∈ futures, ∃ v, g e.1 = .ok v) : ∃ d, collectFutures resolved futures = .ok d ∧
      ∀ i, d.lookup i = if i ∈ futures.map Prod.fst then (g i).toOption else resolved.lookup i := by
  induction futures generalizing resolved with
  | nil => exact ⟨resolved, rfl, fun i => by simp⟩
  | cons future futures ih =>
    obtain ⟨entry, r⟩ := future
    obtain ⟨v, hv⟩ := hok _ List.mem_cons_self
    obtain rfl : r = .ok v := (h _ List.mem_cons_self).trans hv
    obtain ⟨d, hd, hlookup⟩ := ih ((entry, v) :: resolved)
      (fun e he => h e (List.mem_cons_of_mem _ he)) fun e he => hok e (List.mem_cons_of_mem _ he)
    refine ⟨d, hd, fun i => (hlookup i).trans ?_⟩
    have hv : g entry = .ok v := hv
    by_cases hi : i = entry
    · rw [hi]
      simp [hv, Except.toOption]
    · have hlookup : List.lookup i ((entry, v) :: resolved) = resolved.lookup i := by
        rw [List.lookup_cons, beq_eq_false_iff_ne.2 hi]
      have hmem : i ∈ List.map Prod.fst ((entry, Except.ok v) :: futures) ↔
          i ∈ futures.map Prod.fst := by
        rw [List.map_cons, List.mem_cons]
        exact or_iff_right hi
      rw [hlookup]
      exact if_congr hmem.symm rfl rfl

end

/-! ## Threads -/

section
variable {ι C : Type} {R : C → Type} {ε α : Type} [DecidableEq ι] {resolver : ι → Prog C R ε α}
    {web : Answers C R ε}
  {entries : List ι} {out : Except ε (ι → Option α)}

omit [DecidableEq ι] in
/-- What the futures hold when the threads are done. -/
theorem futures_perm {n : ℕ} {pool : Pool ι C R ε α} {futures : List (ι × Except ε α)}
    (hpool : Pool.Reachable n resolver (Pool.answers web) entries pool) (hd : pool.Done)
    (hperm : futures.Perm pool.finished) :
    futures.Perm (entries.map fun i => (i, (resolver i).eval web)) :=
  hperm.trans (Multiset.coe_eq_coe.1 ((Pool.Sound.of_reachable hpool).finished_eval hd))

/-- The threads end: no run of the pool goes on forever, and each can be completed. -/
structure ThreadsEnd (resolver : ι → Prog C R ε α) (answer : (c : C) → Except ε (R c) → Prop)
    (entries : List ι) : Prop where
  finite : WellFounded fun pool' pool =>
    Pool.Step (min MAX_PARALLEL_WORKERS entries.length) resolver answer pool pool'
  completed : ∀ pool,
    Pool.Reachable (min MAX_PARALLEL_WORKERS entries.length) resolver answer entries pool →
      ∃ pool', Pool.Reachable (min MAX_PARALLEL_WORKERS entries.length) resolver answer
        entries pool' ∧
        Relation.ReflTransGen
          (Pool.Step (min MAX_PARALLEL_WORKERS entries.length) resolver answer) pool pool' ∧
          pool'.Done

omit [DecidableEq ι] in
theorem threadsEnd (web : Answers C R ε) (resolver : ι → Prog C R ε α) (entries : List ι) :
    ThreadsEnd resolver (Pool.answers web) entries where
  finite := Pool.wellFounded_step
  completed pool hpool := by
    cases entries with
    | nil =>
      have hnone := (Pool.Sound.of_reachable hpool).entries
      simp only [Multiset.coe_nil, Multiset.coe_add, Multiset.coe_eq_zero, List.append_eq_nil_iff,
        List.map_eq_nil_iff] at hnone
      exact ⟨pool, hpool, .refl, hnone.1⟩
    | cons i entries =>
      have hn : 0 < min MAX_PARALLEL_WORKERS (i :: entries).length :=
        Nat.lt_min.2 ⟨Nat.succ_pos 7, Nat.succ_pos _⟩
      have ha : ∀ c, ∃ r, Pool.answers web c r := fun c => ⟨web c, rfl⟩
      obtain ⟨pool', hsteps, hd⟩ := Pool.exists_done hn ha pool
      exact ⟨pool', hpool.trans hsteps, hsteps, hd⟩

omit [DecidableEq ι] in
/-- The entries can always be resolved. -/
theorem exists_pool (web : Answers C R ε) (resolver : ι → Prog C R ε α) (entries : List ι) :
    ∃ pool, Pool.Reachable (min MAX_PARALLEL_WORKERS entries.length) resolver
      (Pool.answers web) entries pool ∧
      pool.Done := by
  obtain ⟨pool, hpool, -, hd⟩ :=
    (threadsEnd web resolver entries).completed (Pool.submit entries) .refl
  exact ⟨pool, hpool, hd⟩

/-- The dictionary, if no entry raises. -/
theorem collectFutures_perm {futures : List (ι × Except ε α)}
    (hperm : futures.Perm (entries.map fun i => (i, (resolver i).eval web)))
    (hok : ∀ i ∈ entries, ∃ v, (resolver i).eval web = .ok v) :
    (collectFutures [] futures).map (fun resolvedEntries key => resolvedEntries.lookup key) =
      .ok fun i => if i ∈ entries then ((resolver i).eval web).toOption else none := by
  have hmem : ∀ e ∈ futures, e.1 ∈ entries ∧ e.2 = (resolver e.1).eval web := fun e he => by
    obtain ⟨i, hi, rfl⟩ := List.mem_map.1 (hperm.mem_iff.1 he)
    exact ⟨hi, rfl⟩
  have hfst : ∀ i, i ∈ futures.map Prod.fst ↔ i ∈ entries := fun i => by
    rw [(hperm.map Prod.fst).mem_iff, List.map_map]
    simp
  obtain ⟨d, hd, hlookup⟩ :=
    collectFutures_eq [] (fun i => (resolver i).eval web) (fun e he => (hmem e he).2)
    fun e he => hok e.1 (hmem e he).1
  rw [hd]
  refine congrArg Except.ok (funext fun i => (hlookup i).trans ?_)
  simp only [hfst, List.lookup_nil]

/-- **The threads resolve the entries one by one**: what they return does not depend on their order,
    and they raise exactly what some entry raises. -/
theorem resolvesInParallel_iff : ResolvesInParallel resolver (Pool.answers web) entries out ↔
    ((∀ i ∈ entries, ∃ v, (resolver i).eval web = .ok v) ∧
        out = .ok fun i => if i ∈ entries then ((resolver i).eval web).toOption else none) ∨
      ∃ i ∈ entries, ∃ e, (resolver i).eval web = .error e ∧ out = .error e := by
  constructor
  · intro h
    cases h with
    | empty hnil =>
      subst hnil
      exact Or.inl ⟨by simp, by simp⟩
    | @run pool futures hne hpool hd hperm =>
      have hperm := futures_perm hpool hd hperm
      cases hc : collectFutures [] futures with
      | error e =>
        obtain ⟨i, hi⟩ := collectFutures_error hc
        obtain ⟨j, hj, heq⟩ := List.mem_map.1 (hperm.mem_iff.1 hi)
        obtain ⟨rfl, he⟩ := Prod.mk.inj heq
        exact Or.inr ⟨j, hj, e, he, rfl⟩
      | ok d =>
        have hok : ∀ i ∈ entries, ∃ v, (resolver i).eval web = .ok v := fun i hi =>
          collectFutures_ok hc (i, _) (hperm.mem_iff.2 (List.mem_map_of_mem hi))
        exact Or.inl ⟨hok, hc ▸ collectFutures_perm hperm hok⟩
  · rintro (⟨hok, rfl⟩ | ⟨i, hi, e, he, rfl⟩)
    · by_cases hne : entries = []
      · subst hne
        have hrun : ResolvesInParallel resolver (Pool.answers web) [] (.ok fun _ => none) :=
          .empty rfl
        simpa using hrun
      · obtain ⟨pool, hpool, hd⟩ := exists_pool web resolver entries
        have hrun := ResolvesInParallel.run hne hpool hd (List.Perm.refl _)
        rwa [collectFutures_perm (futures_perm hpool hd (List.Perm.refl _)) hok] at hrun
    · obtain ⟨pool, hpool, hd⟩ := exists_pool web resolver entries
      have hmem : (i, .error e) ∈ pool.finished :=
        (futures_perm hpool hd (List.Perm.refl _)).mem_iff.2 (List.mem_map.2 ⟨i, hi, by rw [he]⟩)
      obtain ⟨before, after, hfinished⟩ := List.append_of_mem hmem
      -- any future may be the first to complete
      have hfirst : ((i, .error e) :: (before ++ after)).Perm pool.finished := by
        rw [hfinished]
        exact List.perm_middle.symm
      exact ResolvesInParallel.run (List.ne_nil_of_mem hi) hpool hd hfirst

/-- What is in the dictionary, a thread has returned. -/
theorem ResolvesInParallel.exists_finished {answer : (c : C) → Except ε (R c) → Prop}
    {d : ι → Option α} {i : ι} {v : α}
    (h : ResolvesInParallel resolver answer entries (.ok d)) (hv : d i = some v) :
    ∃ n pool, Pool.Reachable n resolver answer entries pool ∧ (i, .ok v) ∈ pool.finished := by
  generalize hout : Except.ok d = out at h
  cases h with
  | empty =>
    cases hout
    cases hv
  | @run pool futures _ hpool _ hperm =>
    cases hd : collectFutures [] futures with
    | error e =>
      rw [hd] at hout
      cases hout
    | ok resolved =>
      rw [hd] at hout
      cases hout
      refine ⟨_, pool, hpool, hperm.mem_iff.1 ?_⟩
      rcases mem_of_collectFutures hd (i, v) (Entries.mem_of_lookup hv) with h | h
      · cases h
      · exact h

/-- A single entry. -/
theorem ResolvesInParallel.single {i : ι} {v : α} (h : (resolver i).eval web = .ok v) :
    ResolvesInParallel resolver (Pool.answers web) [i]
      (.ok fun key => if key = i then some v else none) := by
  refine resolvesInParallel_iff.2
    (.inl ⟨fun key hkey => ?_, congrArg Except.ok (funext fun key => ?_)⟩)
  · rw [List.mem_singleton.1 hkey]
    exact ⟨v, h⟩
  · simp only [List.mem_singleton]
    split_ifs with hkey
    · rw [hkey, h]
      rfl
    · rfl

/-- The dictionary with the answers for the entries. -/
def Resolved (resolver : ι → Prog C R ε α) (web : Answers C R ε) (entries : List ι)
    (d : ι → Option α) : Prop :=
  ∀ i, (i ∈ entries → d i = ((resolver i).eval web).toOption) ∧ (i ∉ entries → d i = none)

theorem ResolvesInParallel.resolved {d : ι → Option α}
    (h : ResolvesInParallel resolver (Pool.answers web) entries (.ok d)) :
    (∀ i ∈ entries, ∃ v, (resolver i).eval web = .ok v) ∧ Resolved resolver web entries d := by
  rcases resolvesInParallel_iff.1 h with ⟨hok, hout⟩ | ⟨i, -, e, -, hout⟩
  · rw [Except.ok.inj hout]
    exact ⟨hok, fun i => ⟨fun hi => if_pos hi, fun hi => if_neg hi⟩⟩
  · cases hout

theorem exists_resolved (hok : ∀ i ∈ entries, ∃ v, (resolver i).eval web = .ok v) :
    ∃ d, ResolvesInParallel resolver (Pool.answers web) entries (.ok d) ∧
    Resolved resolver web entries d :=
  ⟨_, resolvesInParallel_iff.2 (Or.inl ⟨hok, rfl⟩),
    fun _ => ⟨fun hi => if_pos hi, fun hi => if_neg hi⟩⟩

theorem resolvesInParallel_error_iff {e : ε} :
    ResolvesInParallel resolver (Pool.answers web) entries (.error e) ↔
    ∃ i ∈ entries, (resolver i).eval web = .error e := by
  rw [resolvesInParallel_iff]
  constructor
  · rintro (⟨-, hout⟩ | ⟨i, hi, e', he, hout⟩)
    · cases hout
    · cases hout
      exact ⟨i, hi, he⟩
  · rintro ⟨i, hi, he⟩
    exact Or.inr ⟨i, hi, e, he, rfl⟩

end

/-! ## Images -/

section
variable {table : LetterCase.CaseTable} {rejects : List Char → Bool}
    {web : Answers WebCall (fun _ => JsonResponse) WebError}
  {repo : Repository} {dryRun : Bool} {result : Except ContainerError (List ContainerImageUpdate) ×
  Repository}

/-- The resolver without threads. -/
def sequentialTag (rejects : List Char → Bool)
    (web : Answers WebCall (fun _ => JsonResponse) WebError) :
    FallibleTagResolver :=
  fun repository tag => ((fetchContainerImageTag rejects repository tag).eval web).toOption

theorem mem_containerTagKeys {images : List ContainerImage} {key : List Char × Option (List Char)} :
    key ∈ containerTagKeys images ↔ ∃ image ∈ images, (image.repository, image.tag) = key := by
  rw [containerTagKeys, List.mem_insertionSort, List.mem_dedup, List.mem_map]

/-- Only the images themselves are looked up. -/
theorem containerImageReplacements_congr {references : List (List Char)}
    {resolver resolver' : TagResolver}
    (h : ∀ image ∈ (remoteContainerImages references).map Prod.snd,
      resolver image.repository image.tag = resolver' image.repository image.tag) :
    containerImageReplacements references resolver =
      containerImageReplacements references resolver' := by
  refine List.foldl_ext _ _ _ ?_
  rintro replacements ⟨imageRef, image⟩ he
  simp only [addReplacement, h image (List.mem_map_of_mem he)]

section
variable {texts : List (List Char)} {resolver : FallibleTagResolver}
  (hread : readTexts repo (containerDefinitionPaths table repo) = .ok texts)
include hread

theorem updateRepository_typeError (hmix : mixesTags (imagesOf texts) = true) :
    updateRepository table repo resolver dryRun = (.error .typeError, repo) := by
  have hmix :
      mixesTags ((remoteContainerImages (texts.flatMap containerImageRefsFromText)).map Prod.snd) =
      true := hmix
  simp only [updateRepository, resolveReplacements, hread, hmix, if_true]

theorem updateRepository_raised (hmix : mixesTags (imagesOf texts) = false)
    (hnone : ∃ image ∈ imagesOf texts, resolver image.repository image.tag = none) :
    updateRepository table repo resolver dryRun = (.error .resolverError, repo) := by
  have hmix :
      mixesTags ((remoteContainerImages (texts.flatMap containerImageRefsFromText)).map Prod.snd) =
      false := hmix
  have hany : ((remoteContainerImages (texts.flatMap containerImageRefsFromText)).map Prod.snd).any
      (fun image => (resolver image.repository image.tag).isNone) = true := by
    obtain ⟨image, himage, hnone⟩ := hnone
    exact List.any_eq_true.2 ⟨image, himage, by rw [hnone]; rfl⟩
  simp [updateRepository, resolveReplacements, hread, hmix, hany]

theorem updateRepository_updated (hmix : mixesTags (imagesOf texts) = false)
    (hsome : ∀ image ∈ imagesOf texts, resolver image.repository image.tag ≠ none)
      {replacements : Replacements}
    (hreplacements :
    replacements = containerImageReplacements (texts.flatMap containerImageRefsFromText)
      fun repository tag => (resolver repository tag).getD none) :
    updateRepository table repo resolver dryRun = if replacements = [] then (.ok [], repo)
      else replaceContainerRefsInRepo replacements dryRun repo
        (containerReferencePaths table repo) := by
  have hmix :
      mixesTags ((remoteContainerImages (texts.flatMap containerImageRefsFromText)).map Prod.snd) =
      false := hmix
  have hany : ((remoteContainerImages (texts.flatMap containerImageRefsFromText)).map Prod.snd).any
      (fun image => (resolver image.repository image.tag).isNone) = false := by
    rw [List.any_eq_false]
    intro image himage
    rw [Option.isNone_iff_eq_none]
    exact hsome image himage
  subst hreplacements
  simp only [updateRepository, resolveReplacements, hread, hmix, hany, Bool.false_eq_true, if_false]

end

theorem sequentialTag_eq_none {repository : List Char} {tag : Option (List Char)} :
    sequentialTag rejects web repository tag = none ↔
      ∃ e, (resolveContainerTag rejects (repository, tag)).eval web = .error e := by
  unfold sequentialTag resolveContainerTag
  cases (fetchContainerImageTag rejects repository tag).eval web <;> simp [Except.toOption]

/-- What the threads return is what the resolver without threads returns. -/
theorem replacements_in_parallel {texts : List (List Char)}
    {latestTags : List Char × Option (List Char) → Option (Option (List Char))}
    (h : Resolved (resolveContainerTag rejects) web (containerTagKeys (imagesOf texts))
      latestTags) :
    containerImageReplacements (texts.flatMap containerImageRefsFromText)
        (fun repository tag => (latestTags (repository, tag)).join) =
      containerImageReplacements (texts.flatMap containerImageRefsFromText)
        fun repository tag => (sequentialTag rejects web repository tag).getD none := by
  refine containerImageReplacements_congr fun image himage => ?_
  rw [(h _).1 (mem_containerTagKeys.2 ⟨image, himage, rfl⟩), sequentialTag, resolveContainerTag]
  cases (fetchContainerImageTag rejects image.repository image.tag).eval web with
  | ok tag => rfl
  | error e => rfl

/-- **Threads and images**: the threads always end, and the update as it is run does in every run
    what the update without threads does. -/
theorem images_in_parallel :
    (∀ keys, ThreadsEnd (resolveContainerTag rejects) (Pool.answers web) keys) ∧
    (UpdatesImages table rejects (Pool.answers web) repo dryRun result ↔
      result = updateRepository table repo (sequentialTag rejects web) dryRun) := by
  refine ⟨threadsEnd web _, ?_⟩
  constructor
  · intro h
    cases h with
    | unreadable hread => simp only [updateRepository, resolveReplacements, hread]
    | typeError hread hmix => exact (updateRepository_typeError hread hmix).symm
    | raised hread hmix hres =>
      obtain ⟨key, hkey, he⟩ := resolvesInParallel_error_iff.1 hres
      obtain ⟨image, himage, rfl⟩ := mem_containerTagKeys.1 hkey
      exact (updateRepository_raised hread hmix
        ⟨image, himage, sequentialTag_eq_none.2 ⟨_, he⟩⟩).symm
    | @updated texts latestTags replacements hread hmix hres hreplacements =>
      obtain ⟨hok, hresolved⟩ := hres.resolved
      have hreplacements := hreplacements.trans (replacements_in_parallel hresolved)
      refine (updateRepository_updated hread hmix (fun image himage hnone => ?_) hreplacements).symm
      obtain ⟨e, he⟩ := sequentialTag_eq_none.1 hnone
      obtain ⟨v, hv⟩ := hok _ (mem_containerTagKeys.2 ⟨image, himage, rfl⟩)
      rw [he] at hv
      cases hv
  · rintro rfl
    cases hread : readTexts repo (containerDefinitionPaths table repo) with
    | error e =>
      have hrun : UpdatesImages table rejects (Pool.answers web) repo dryRun (.error e, repo) :=
        .unreadable hread
      simpa only [updateRepository, resolveReplacements, hread] using hrun
    | ok texts =>
      cases hmix : mixesTags (imagesOf texts) with
      | true =>
        rw [updateRepository_typeError hread hmix]
        exact .typeError hread hmix
      | false =>
        by_cases hnone : ∃ image ∈ imagesOf texts,
          sequentialTag rejects web image.repository image.tag = none
        · rw [updateRepository_raised hread hmix hnone]
          obtain ⟨image, himage, hnone⟩ := hnone
          obtain ⟨e, he⟩ := sequentialTag_eq_none.1 hnone
          exact .raised hread hmix
            (resolvesInParallel_error_iff.2 ⟨_, mem_containerTagKeys.2 ⟨image, himage, rfl⟩, he⟩)
        · have hsome : ∀ image ∈ imagesOf texts,
              sequentialTag rejects web image.repository image.tag ≠ none :=
            fun image himage h => hnone ⟨image, himage, h⟩
          have hok : ∀ key ∈ containerTagKeys (imagesOf texts), ∃ v,
              (resolveContainerTag rejects key).eval web = .ok v := by
            intro key hkey
            obtain ⟨image, himage, rfl⟩ := mem_containerTagKeys.1 hkey
            cases hv : (resolveContainerTag rejects (image.repository, image.tag)).eval web with
            | ok v => exact ⟨v, rfl⟩
            | error e => exact absurd (sequentialTag_eq_none.2 ⟨e, hv⟩) (hsome image himage)
          rw [updateRepository_updated hread hmix hsome rfl]
          obtain ⟨latestTags, hres, hresolved⟩ := exists_resolved hok
          exact .updated hread hmix hres (replacements_in_parallel hresolved).symm

end

/-! ## Workflows -/

section
variable {rejects : List Char → Bool} {web : Answers WebCall (fun _ => JsonResponse) WebError}
    {word : Char → Bool}
  {workflowTexts : List (List Char × List Char)} {dryRun : Bool}
  {out : Except WebError (List ActionUpdate × List (List Char × List Char))}

/-- The resolver without threads. -/
def sequentialGithubTag (rejects : List Char → Bool)
    (web : Answers WebCall (fun _ => JsonResponse) WebError)
    (repository : List Char) : Option (List Char) :=
  ((latestGithubTag rejects repository).eval web).toOption.join

theorem mem_actionEntries {repository : List Char} : repository ∈ actionEntries word workflowTexts ↔
    repository ∈ githubActionRepositories word (workflowTexts.map Prod.snd) := by
  rw [actionEntries, sortedTexts, List.mem_insertionSort, List.mem_dedup]

/-- The dictionary of the threads is that of the resolver. -/
theorem join_eq_resolveInParallel {entries repositories : List (List Char)}
    {latestTags : List Char → Option (Option (List Char))} (hmem : ∀ r, r ∈ entries ↔
    r ∈ repositories)
    (h : Resolved (latestGithubTag rejects) web entries latestTags) :
    (fun r => (latestTags r).join) =
    resolveInParallel repositories (sequentialGithubTag rejects web) := by
  funext r
  rw [resolveInParallel]
  by_cases hr : r ∈ repositories
  · rw [if_pos hr, (h r).1 ((hmem r).2 hr), sequentialGithubTag]
  · rw [if_neg hr, (h r).2 fun he => hr ((hmem r).1 he)]
    rfl

/-- The updates with the dictionaries of the threads. -/
theorem updateWorkflows_resolved
    {latestTags latestToolTags : List Char → Option (Option (List Char))}
    (h : Resolved (latestGithubTag rejects) web (actionEntries word workflowTexts) latestTags)
    (htool : Resolved (latestGithubTag rejects) web (toolEntries workflowTexts) latestToolTags) :
    updateWorkflows word workflowTexts dryRun (fun r => (latestTags r).join)
      (fun r => (latestToolTags r).join) =
      updateGithubActionVersions word workflowTexts (sequentialGithubTag rejects web) dryRun := by
  rw [join_eq_resolveInParallel (fun r => mem_actionEntries) h,
    join_eq_resolveInParallel (fun r => Iff.rfl) htool]
  rfl

/-- **Threads and workflows**: the threads always end; the update as it is run does in every run
    what the update without threads does, unless the lookup of an action or, if none of these does,
    of a tool raises, and then it raises what one of these raises. -/
theorem workflows_in_parallel :
    (∀ repositories, ThreadsEnd (latestGithubTag rejects) (Pool.answers web) repositories) ∧
    (UpdatesWorkflows rejects (Pool.answers web) word workflowTexts dryRun out ↔
      ((∀ r ∈ actionEntries word workflowTexts, ∃ v, (latestGithubTag rejects r).eval web = .ok v) ∧
          (∀ r ∈ toolEntries workflowTexts, ∃ v, (latestGithubTag rejects r).eval web = .ok v) ∧
          out = .ok (updateGithubActionVersions word workflowTexts (sequentialGithubTag rejects web)
            dryRun)) ∨
        (∃ r ∈ actionEntries word workflowTexts, ∃ e,
          (latestGithubTag rejects r).eval web = .error e ∧ out = .error e) ∨
        (∀ r ∈ actionEntries word workflowTexts, ∃ v,
          (latestGithubTag rejects r).eval web = .ok v) ∧
          ∃ r ∈ toolEntries workflowTexts, ∃ e,
            (latestGithubTag rejects r).eval web = .error e ∧ out = .error e) := by
  refine ⟨threadsEnd web _, ?_⟩
  constructor
  · intro h
    cases h with
    | actionsRaised hactions =>
      obtain ⟨r, hr, he⟩ := resolvesInParallel_error_iff.1 hactions
      exact Or.inr (Or.inl ⟨r, hr, _, he, rfl⟩)
    | toolsRaised hactions htools =>
      obtain ⟨r, hr, he⟩ := resolvesInParallel_error_iff.1 htools
      exact Or.inr (Or.inr ⟨hactions.resolved.1, r, hr, _, he, rfl⟩)
    | updated hactions htools =>
      obtain ⟨hok, hresolved⟩ := hactions.resolved
      obtain ⟨hoktool, hresolvedTool⟩ := htools.resolved
      exact Or.inl
        ⟨hok, hoktool, congrArg Except.ok (updateWorkflows_resolved hresolved hresolvedTool)⟩
  · rintro (⟨hok, hoktool, rfl⟩ | ⟨r, hr, e, he, rfl⟩ | ⟨hok, r, hr, e, he, rfl⟩)
    · obtain ⟨latestTags, hactions, hresolved⟩ := exists_resolved hok
      obtain ⟨latestToolTags, htools, hresolvedTool⟩ := exists_resolved hoktool
      rw [← updateWorkflows_resolved hresolved hresolvedTool]
      exact .updated hactions htools
    · exact .actionsRaised (resolvesInParallel_error_iff.2 ⟨r, hr, he⟩)
    · obtain ⟨latestTags, hactions, -⟩ := exists_resolved hok
      exact .toolsRaised hactions (resolvesInParallel_error_iff.2 ⟨r, hr, he⟩)

end

end FastapiTemplate.Management
