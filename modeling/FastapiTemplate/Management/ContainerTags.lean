/-
  Choosing a container tag: `update_container_image_versions.py`, from the tags
  that a registry lists to the best one for the current tag.
-/
import FastapiTemplate.Management.Patterns
import Mathlib.Data.Prod.Lex

namespace FastapiTemplate.Management

open Regex

/-- `ContainerTagVersion`. -/
structure ContainerTagVersion where
  pre : List Char
  version : List ℕ
  suffix : List Char
  deriving DecidableEq

/-- `_CONTAINER_VERSION_RE`: `(?P<prefix>.*?)(?P<version>v?\d+(?:\.\d+)*)(?P<suffix>$|[-_].*)` -/
def CONTAINER_VERSION_RE : Regex :=
  concat [group "prefix" (star false dot),
    group "version"
      (concat [opt (lit ['v']), plus digit, star true (concat [lit ['.'], plus digit])]),
    group "suffix" (alt atEnd (concat [char fun c => c == '-' || c == '_', star true dot]))]

/-- `_RELEASE_TAG_RE`:
    `^RELEASE\.(?P<date>\d{4}-\d{2}-\d{2})T(?P<time>\d{2}-\d{2}-\d{2})Z(?P<suffix>.*)$` -/
def RELEASE_TAG_RE : Regex :=
  concat [lit "RELEASE.".toList,
    group "date" (concat [times digit 4, lit ['-'], times digit 2, lit ['-'], times digit 2]),
    lit ['T'],
    group "time" (concat [times digit 2, lit ['-'], times digit 2, lit ['-'], times digit 2]),
    lit ['Z'], group "suffix" (star true dot), atEnd]

/-- `_CONTAINER_BUILD_SUFFIX_RE`: `-p(?P<build>\d+)$` -/
def CONTAINER_BUILD_SUFFIX_RE : Regex :=
  concat [lit "-p".toList, group "build" (plus digit), atEnd]

/-- `_container_version_key`. -/
def containerVersionKey (version : List Char) : Option (List ℕ) :=
  let normalizedVersion := if ['v'].isPrefixOf version then version.drop 1 else version
  releaseNumbers normalizedVersion

/-- `_container_tag_version`. -/
def containerTagVersion (tag : List Char) : Option ContainerTagVersion := do
  let m ← CONTAINER_VERSION_RE.match? tag
  let version ← containerVersionKey (m.group "version")
  return { pre := m.group "prefix", version, suffix := m.group "suffix" }

/-- The tuples by which tags are compared. -/
abbrev TagRank := ℕ ×ₗ List ℕ ×ₗ ℕ

/-- `_suffix_preference`. -/
def suffixPreference (suffix : List Char) : ℕ :=
  if suffix = [] ∨ (CONTAINER_BUILD_SUFFIX_RE.fullmatch? suffix).isSome then 3 else 2

/-- `_container_version_with_build_suffix`. -/
def containerVersionWithBuildSuffix (version : ContainerTagVersion) : List ℕ :=
  match CONTAINER_BUILD_SUFFIX_RE.fullmatch? version.suffix with
  | none => version.version
  | some m => version.version ++ [Text.int (m.group "build")]

/-- `_release_container_tag_rank`. -/
def releaseContainerTagRank (tag : List Char) : Option TagRank :=
  (RELEASE_TAG_RE.match? tag).map fun m =>
    let releaseKey := ((m.group "date").splitOn '-' ++ (m.group "time").splitOn '-').map Text.int
    toLex (2, toLex (releaseKey, suffixPreference (m.group "suffix")))

/-- `_container_tag_rank`. -/
def containerTagRank (tag : List Char) : Option TagRank :=
  match releaseContainerTagRank tag with
  | some releaseRank => some releaseRank
  | none => (containerTagVersion tag).map fun version =>
    toLex (1, toLex (containerVersionWithBuildSuffix version, suffixPreference version.suffix))

/-- The loop of `_best_ranked_container_tag`: the best tag so far, with its rank. -/
def betterTag (best : Option (List Char × TagRank)) (tag : List Char) :
    Option (List Char × TagRank) :=
  match containerTagRank tag, best with
  | none, _ => best
  | some rank, none => some (tag, rank)
  | some rank, some (_, bestRank) => if bestRank < rank then some (tag, rank) else best

/-- `_best_ranked_container_tag`. -/
def bestRankedContainerTag (tags : List (List Char)) : Option (List Char) :=
  (tags.foldl betterTag none).map Prod.fst

/-- `_best_pinned_floating_container_tag`. -/
def bestPinnedFloatingContainerTag (currentTag : List Char) (tags : List (List Char)) :
    Option (List Char) :=
  let suffix := '-' :: currentTag
  bestRankedContainerTag (tags.filter fun tag => suffix.isSuffixOf tag)

/-- `_matches_container_tag_variant`. -/
def matchesContainerTagVariant (currentVersion : ContainerTagVersion) (versionPrefix : List ℕ)
    (tag : List Char) : Bool :=
  match containerTagVersion tag with
  | none => false
  | some candidateVersion =>
    candidateVersion.pre == currentVersion.pre && candidateVersion.suffix ==
      currentVersion.suffix &&
      candidateVersion.version.take versionPrefix.length == versionPrefix

/-- `_is_python_runtime_repository`. -/
def isPythonRuntimeRepository (repository : List Char) : Bool :=
  ["python".toList, "library/python".toList, "docker.io/library/python".toList].contains repository

/-- `_PYTHON_VERSION_PREFIX_LENGTH` -/
def PYTHON_VERSION_PREFIX_LENGTH : ℕ := 2

/-- `_required_container_version_prefix`. -/
def requiredContainerVersionPrefix (repository currentTag : List Char) (version : List ℕ) :
    List ℕ :=
  if isPythonRuntimeRepository repository ∧ PYTHON_VERSION_PREFIX_LENGTH ≤ version.length then
    version.take PYTHON_VERSION_PREFIX_LENGTH
  else if "python".toList.isPrefixOf currentTag ∧ PYTHON_VERSION_PREFIX_LENGTH ≤ version.length then
    version.take PYTHON_VERSION_PREFIX_LENGTH
  else version.take 1

/-- The candidates of `_best_same_variant_container_tag`. -/
def sameVariantTags (repository currentTag : List Char) (currentVersion : ContainerTagVersion)
    (tags : List (List Char)) : List (List Char) :=
  let versionPrefix := requiredContainerVersionPrefix repository currentTag currentVersion.version
  tags.filter (matchesContainerTagVariant currentVersion versionPrefix)

/-- `_best_same_variant_container_tag`. -/
def bestSameVariantContainerTag (repository currentTag : List Char) (tags : List (List Char)) :
    Option (List Char) := do
  let currentVersion ← containerTagVersion currentTag
  bestRankedContainerTag (sameVariantTags repository currentTag currentVersion tags)

/-- `_best_compatible_container_tag`. -/
def bestCompatibleContainerTag (repository currentTag : List Char) (tags : List (List Char)) :
    Option (List Char) :=
  match (bestSameVariantContainerTag repository currentTag tags).filter (· ≠ currentTag) with
  | some versionedMatch => some versionedMatch
  | none => (bestPinnedFloatingContainerTag currentTag tags).filter (· ≠ currentTag)

/-- `_latest_container_image_tag`; `registryTags` are the tags that the registry lists. -/
def latestContainerImageTag (registryTags : List Char → List (List Char)) (repository : List Char)
    (currentTag : Option (List Char)) : Option (List Char) :=
  let tags := registryTags repository
  if tags = [] then none
  else match currentTag with
    | none => bestRankedContainerTag tags
    | some currentTag =>
      if currentTag = "latest".toList then bestRankedContainerTag tags
      else bestCompatibleContainerTag repository currentTag tags

/-! ## Registries -/

/-- `_DOCKER_IO_REGISTRY` -/
def DOCKER_IO_REGISTRY : List Char := "docker.io".toList

/-- `_docker_hub_path`. -/
def dockerHubPath (repository : List Char) : List Char :=
  if repository.contains '/' then repository else "library/".toList ++ repository

/-- `_container_registry_and_path`. -/
def containerRegistryAndPath (repository : List Char) : List Char × List Char :=
  let (firstComponent, separator, remainingPath) := Text.partitionChars '/' repository
  if firstComponent = DOCKER_IO_REGISTRY ∧ separator then
    (DOCKER_IO_REGISTRY, dockerHubPath remainingPath)
  else
    let hasRegistry := firstComponent.contains '.' || firstComponent.contains ':' ||
      firstComponent = "localhost".toList
    if hasRegistry ∧ separator then (firstComponent, remainingPath)
    else (DOCKER_IO_REGISTRY, dockerHubPath repository)

end FastapiTemplate.Management
