/-
  `update_container_image_versions.py` over a repository: which files are read,
  what raises, and what is on disk afterwards.
-/
import FastapiTemplate.Lib.LetterCase
import FastapiTemplate.Management.ContainerImages
import Mathlib.Data.List.Lex

namespace FastapiTemplate.Management

/-! ## Repositories -/

/-- The parts of a path below the root of the repository. -/
abbrev RepoPath := List (List Char)

/-- What is at a path: a file with the text that `read_text` returns, if it can be read as UTF-8, or
    a directory. -/
inductive Node where
  | file (text : Option (List Char))
  | directory
  deriving DecidableEq

def Node.isFile : Node → Bool
  | file _ => true
  | directory => false

structure Repository where
  nodes : List (RepoPath × Node)
  nodup : (nodes.map Prod.fst).Nodup

namespace Repository

/-- `path.read_text(encoding="utf-8")`; `none` if it raises. -/
def readText (repo : Repository) (path : RepoPath) : Option (List Char) :=
  match repo.nodes.find? fun e => e.1 = path with
  | some (_, .file text) => text
  | _ => none

def writeNode (path : RepoPath) (text : List Char) (e : RepoPath × Node) : RepoPath × Node :=
  if e.1 = path then (e.1, .file (some text)) else e

theorem fst_writeNode {path : RepoPath} {text : List Char} {e : RepoPath × Node} :
    (writeNode path text e).1 = e.1 := by
  unfold writeNode
  split_ifs <;> rfl

/-- `path.write_text(text, encoding="utf-8")` -/
def writeText (repo : Repository) (path : RepoPath) (text : List Char) : Repository where
  nodes := repo.nodes.map (writeNode path text)
  nodup := by
    have hfst : Prod.fst ∘ writeNode path text = Prod.fst := funext fun _ => fst_writeNode
    rw [List.map_map, hfst]
    exact repo.nodup

end Repository

/-! ## The files -/

section
variable (table : LetterCase.CaseTable)

/-- `_is_container_definition_path`, for the name of a file. -/
def isContainerDefinitionName (name : List Char) : Bool :=
  let name := LetterCase.lower table name
  "dockerfile".toList.isPrefixOf name || name = "compose.yaml".toList || name =
    "compose.yml".toList ||
    "docker-compose".toList.isPrefixOf name

/-- The file is at the root or below `docker`, and has such a name. -/
def isContainerDefinition (path : RepoPath) (node : Node) : Bool :=
  node.isFile && match path with
    | [] => false
    | [name] => isContainerDefinitionName table name
    | directory :: path =>
      directory = "docker".toList && isContainerDefinitionName table (path.getLastD [])

/-- `path.suffix` -/
def suffix (name : List Char) : List Char :=
  let i := (Text.rfind '.' name).toNat
  if (name.take i).any (· ≠ '.') then name.drop i else []

def CONTAINER_REFERENCE_SUFFIXES : List (List Char) := [".md".toList, ".yaml".toList, ".yml".toList]

/-- The file is below `docs`, and has one of the suffixes. -/
def isDocument (path : RepoPath) (node : Node) : Bool :=
  node.isFile && match path with
    | [] => false
    | [_] => false
    | directory :: path =>
      directory = "docs".toList && CONTAINER_REFERENCE_SUFFIXES.contains (suffix (path.getLastD []))

def isContainerReference (path : RepoPath) (node : Node) : Bool :=
  isContainerDefinition table path node || path = ["README.md".toList] || isDocument path node

/-- The paths of the nodes that a predicate selects, sorted. -/
def Repository.paths (repo : Repository) (select : RepoPath → Node → Bool) : List RepoPath :=
  ((repo.nodes.filter fun e => select e.1 e.2).map Prod.fst).insertionSort (· ≤ ·)

/-- The node at the path is selected. -/
def Repository.selects (repo : Repository) (select : RepoPath → Node → Bool)
    (path : RepoPath) : Bool :=
  repo.nodes.any fun e => e.1 = path && select e.1 e.2

/-- `_container_definition_paths` -/
def containerDefinitionPaths (repo : Repository) : List RepoPath :=
  repo.paths (isContainerDefinition table)

/-- `_container_reference_paths` -/
def containerReferencePaths (repo : Repository) : List RepoPath :=
  repo.paths (isContainerReference table)

/-- The files of `_container_reference_paths`, with their texts. -/
def Repository.containerFiles (repo : Repository) : List ContainerFile :=
  (containerReferencePaths table repo).map fun path =>
    ⟨['/'].intercalate path, (repo.readText path).getD [],
      repo.selects (isContainerDefinition table) path⟩

end

/-! ## Runs -/

/-- What a run raises. -/
inductive ContainerError where
  /-- `OSError`, or `UnicodeDecodeError` -/
  | unreadable (path : RepoPath)
  /-- `sorted` compares a tag with `None`. -/
  | typeError
  /-- what the resolver raised -/
  | resolverError
  /-- `re.error` -/
  | reError
  deriving DecidableEq

/-- The resolver of tags; `none` if it raises. -/
abbrev FallibleTagResolver := List Char → Option (List Char) → Option (Option (List Char))

/-- The texts that `_container_image_references` reads. -/
def readTexts (repo : Repository) : List RepoPath → Except ContainerError (List (List Char))
  | [] => .ok []
  | path :: paths =>
    match repo.readText path with
    | none => .error (.unreadable path)
    | some text => (readTexts repo paths).map (text :: ·)

/-- The loop over the files in `_replace_container_refs`. -/
def replaceContainerRefsInRepo (replacements : Replacements) (dryRun : Bool) :
    Repository → List RepoPath → Except ContainerError (List ContainerImageUpdate) × Repository
  | repo, [] => (.ok [], repo)
  | repo, path :: paths =>
    match repo.readText path with
    | none => (.error (.unreadable path), repo)
    | some originalText =>
      match replaceContainerRefsInText (orderedReplacements replacements) originalText with
      | none => (.error .reError, repo)
      | some (updatedText, updates) =>
        let repo :=
          if updatedText ≠ originalText ∧ !dryRun then repo.writeText path updatedText else repo
        let (rest, repo) := replaceContainerRefsInRepo replacements dryRun repo paths
        (rest.map fun rest => updates.map (fun r => ⟨['/'].intercalate path, r.1, r.2⟩) ++ rest,
          repo)

theorem replaceContainerRefsInRepo_cons (replacements : Replacements) (dryRun : Bool)
    (repo : Repository) (path : RepoPath) (paths : List RepoPath) :
    replaceContainerRefsInRepo replacements dryRun repo (path :: paths) =
    match repo.readText path with
    | none => (.error (.unreadable path), repo)
    | some originalText =>
      match replaceContainerRefsInText (orderedReplacements replacements) originalText with
      | none => (.error .reError, repo)
      | some (updatedText, updates) =>
        let repo :=
          if updatedText ≠ originalText ∧ !dryRun then repo.writeText path updatedText else repo
        let (rest, repo) := replaceContainerRefsInRepo replacements dryRun repo paths
        (rest.map fun rest => updates.map (fun r => ⟨['/'].intercalate path, r.1, r.2⟩) ++ rest,
          repo) :=
  rfl

section
variable (table : LetterCase.CaseTable) (repo : Repository)
    (latestTagResolver : FallibleTagResolver)

/-- The replacements that `_container_image_replacements` computes, or what is raised before. -/
def resolveReplacements : Except ContainerError Replacements :=
  match readTexts repo (containerDefinitionPaths table repo) with
  | .error e => .error e
  | .ok texts =>
    let references := texts.flatMap containerImageRefsFromText
    let images := (remoteContainerImages references).map Prod.snd
    if mixesTags images then .error .typeError
    else if images.any fun image =>
      (latestTagResolver image.repository image.tag).isNone then .error .resolverError
    else .ok (containerImageReplacements references fun repository tag =>
      (latestTagResolver repository tag).getD none)

/-- `update_container_image_versions`: what it returns or raises, and the repository afterwards. -/
def updateRepository (dryRun : Bool) : Except ContainerError (List ContainerImageUpdate) ×
    Repository :=
  match resolveReplacements table repo latestTagResolver with
  | .error e => (.error e, repo)
  | .ok replacements =>
    if replacements = [] then (.ok [], repo)
    else replaceContainerRefsInRepo replacements dryRun repo (containerReferencePaths table repo)

end

end FastapiTemplate.Management
