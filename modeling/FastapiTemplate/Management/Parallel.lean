/-
  `parallel.py`: worker threads that resolve entries, and the updates of
  workflows and images as they are run with them.
-/
import FastapiTemplate.Lib.Pool
import FastapiTemplate.Management.ContainerTree
import FastapiTemplate.Management.Registries
import FastapiTemplate.Management.WorkflowActions

namespace FastapiTemplate.Management

open Effects

/-- `_MAX_PARALLEL_WORKERS` -/
def MAX_PARALLEL_WORKERS : ℕ := 8

section
variable {ι C : Type} {R : C → Type} {ε α : Type}

/-- The loop over the futures as they complete; of a dictionary the newest entries come first. -/
def collectFutures : List (ι × α) → List (ι × Except ε α) → Except ε (List (ι × α))
  | resolvedEntries, [] => .ok resolvedEntries
  | _, (_, .error e) :: _ => .error e
  | resolvedEntries, (entry, .ok value) :: futures =>
    collectFutures ((entry, value) :: resolvedEntries) futures

variable [DecidableEq ι]

/-- `_resolve_in_parallel`, as the worker threads run: the dictionary that it returns, or what it
    raises.  The futures complete in any order, and the pool is left when all are done. -/
inductive ResolvesInParallel (resolver : ι → Prog C R ε α)
    (answer : (c : C) → Except ε (R c) → Prop)
    (entries : List ι) : Except ε (ι → Option α) → Prop
  | empty : entries = [] → ResolvesInParallel resolver answer entries (.ok fun _ => none)
  | run {pool futures} : entries ≠ [] →
      Pool.Reachable (min MAX_PARALLEL_WORKERS entries.length) resolver answer entries pool →
      pool.Done →
      List.Perm futures pool.finished →
      ResolvesInParallel resolver answer entries
        ((collectFutures [] futures).map fun resolvedEntries key => resolvedEntries.lookup key)

end

/-! ## Workflows -/

/-- `sorted` of a set. -/
def sortedTexts (texts : List (List Char)) : List (List Char) := texts.dedup.insertionSort (· ≤ ·)

/-- The loop over the workflows in `update_github_action_versions`, with the dictionaries of
    tags. -/
def updateWorkflows (word : Char → Bool) (workflowTexts : List (List Char × List Char))
    (dryRun : Bool)
    (latestTags latestToolTags : List Char → Option (List Char)) :
    List ActionUpdate × List (List Char × List Char) :=
  let results := workflowTexts.map fun w =>
    (w.1, updatedWorkflowActionText word w.1 w.2 latestTags latestToolTags)
  (results.flatMap fun r => r.2.2,
    (results.filter fun r => r.2.2 ≠ [] && !dryRun).map fun r => (r.1, r.2.1))

section
variable (rejects : List Char → Bool) (answer : (c : WebCall) → Except WebError JsonResponse → Prop)
  (word : Char → Bool) (workflowTexts : List (List Char × List Char)) (dryRun : Bool)

/-- The repositories whose tags `update_github_action_versions` looks up first. -/
def actionEntries : List (List Char) :=
  sortedTexts (githubActionRepositories word (workflowTexts.map Prod.snd))

/-- The repositories whose tags it looks up then. -/
def toolEntries : List (List Char) := workflowToolRepositories (workflowTexts.map Prod.snd)

/-- `update_github_action_versions` as it is run: what it returns and writes, or what it raises. -/
inductive UpdatesWorkflows : Except WebError (List ActionUpdate × List (List Char × List Char)) →
    Prop
  | actionsRaised {e} :
      ResolvesInParallel (latestGithubTag rejects) answer (actionEntries word workflowTexts)
        (.error e) →
      UpdatesWorkflows (.error e)
  | toolsRaised {latestTags e} :
      ResolvesInParallel (latestGithubTag rejects) answer (actionEntries word workflowTexts)
        (.ok latestTags) →
      ResolvesInParallel (latestGithubTag rejects) answer (toolEntries workflowTexts) (.error e) →
      UpdatesWorkflows (.error e)
  | updated {latestTags latestToolTags} :
      ResolvesInParallel (latestGithubTag rejects) answer (actionEntries word workflowTexts)
        (.ok latestTags) →
      ResolvesInParallel (latestGithubTag rejects) answer (toolEntries workflowTexts)
        (.ok latestToolTags) →
      UpdatesWorkflows
        (.ok (updateWorkflows word workflowTexts dryRun (fun r => (latestTags r).join)
        fun r => (latestToolTags r).join))

end

/-! ## Images -/

/-- The keys of `_resolve_container_tags`, sorted. -/
def containerTagKeys (images : List ContainerImage) : List (List Char × Option (List Char)) :=
  ((images.map fun image => (image.repository, image.tag)).dedup).insertionSort fun key key' =>
    key.1 < key'.1 ∨ key.1 = key'.1 ∧ key.2.getD [] ≤ key'.2.getD []

section
variable (table : LetterCase.CaseTable) (rejects : List Char → Bool)
  (answer : (c : WebCall) → Except WebError JsonResponse → Prop) (repo : Repository) (dryRun : Bool)

/-- The resolver that `_resolve_container_tags` gives to the worker threads. -/
def resolveContainerTag (key : List Char × Option (List Char)) : Web (Option (List Char)) :=
  fetchContainerImageTag rejects key.1 key.2

/-- The images of the definition files. -/
def imagesOf (texts : List (List Char)) : List ContainerImage :=
  (remoteContainerImages (texts.flatMap containerImageRefsFromText)).map Prod.snd

/-- `update_container_image_versions` as it is run: what it returns or raises, and the repository
    afterwards. -/
inductive UpdatesImages : Except ContainerError (List ContainerImageUpdate) × Repository → Prop
  | unreadable {e} : readTexts repo (containerDefinitionPaths table repo) = .error e →
      UpdatesImages (.error e, repo)
  | typeError {texts} : readTexts repo (containerDefinitionPaths table repo) = .ok texts →
      mixesTags (imagesOf texts) = true → UpdatesImages (.error .typeError, repo)
  | raised {texts e} : readTexts repo (containerDefinitionPaths table repo) = .ok texts →
      mixesTags (imagesOf texts) = false →
      ResolvesInParallel (resolveContainerTag rejects) answer (containerTagKeys (imagesOf texts))
        (.error e) →
      UpdatesImages (.error .resolverError, repo)
  | updated {texts latestTags replacements} :
      readTexts repo (containerDefinitionPaths table repo) = .ok texts →
      mixesTags (imagesOf texts) = false →
      ResolvesInParallel (resolveContainerTag rejects) answer (containerTagKeys (imagesOf texts))
        (.ok latestTags) →
      replacements = containerImageReplacements (texts.flatMap containerImageRefsFromText)
        (fun repository tag => (latestTags (repository, tag)).join) →
      UpdatesImages (if replacements = [] then (.ok [], repo)
        else replaceContainerRefsInRepo replacements dryRun repo
          (containerReferencePaths table repo))

end

end FastapiTemplate.Management
