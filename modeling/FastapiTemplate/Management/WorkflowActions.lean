/-
  `update_github_action_versions.py`: the action references and the Compose
  version of a workflow text.

  `word` tells which characters are those of words (`\w`), for `\b`.
-/
import FastapiTemplate.Management.Patterns

namespace FastapiTemplate.Management

open Regex

/-- `ActionUpdate`. -/
structure ActionUpdate where
  filePath : List Char
  repository : List Char
  oldRef : List Char
  newRef : List Char
  deriving DecidableEq

/-- `[^\s#]` -/
def isRefChar (c : Char) : Bool := !Text.isSpace c && c != '#'

/-- `_ACTION_USES_RE`:
    `(?P<prefix>\buses:\s*)(?P<repository>[A-Za-z0-9_.-]+/[A-Za-z0-9_.-]+)@(?P<ref>[^\s#]+)` -/
def ACTION_USES_RE (word : Char → Bool) : Regex :=
  concat [group "prefix" (concat [wordBoundary word, lit "uses:".toList, spaces]),
    group "repository" (concat [plus (char isNameChar), lit ['/'], plus (char isNameChar)]),
    lit ['@'], group "ref" (plus (char isRefChar))]

/-- `_YAML_VERSION_RE`:
    `^(?P<prefix>\s*version:\s*)(?P<ref>[^\s#]+)(?P<suffix>\s*(?:#.*)?)(?P<newline>\r?\n?)$` -/
def YAML_VERSION_RE : Regex :=
  concat [group "prefix" (concat [spaces, lit "version:".toList, spaces]),
    group "ref" (plus (char isRefChar)),
    group "suffix" (concat [spaces, opt (concat [lit ['#'], star true dot])]),
    group "newline" (concat [opt (lit ['\r']), opt (lit ['\n'])]), atEnd]

/-- `_MAJOR_REF_RE`: `v(?P<major>\d+)` -/
def MAJOR_REF_RE : Regex := concat [lit ['v'], group "major" (plus (char Text.isDecimal))]

/-- `_SETUP_COMPOSE_ACTION_REPOSITORY` -/
def SETUP_COMPOSE_ACTION_REPOSITORY : List Char := "docker/setup-compose-action".toList

/-- `_DOCKER_COMPOSE_REPOSITORY` -/
def DOCKER_COMPOSE_REPOSITORY : List Char := "docker/compose".toList

/-- `_major_version`. -/
def majorVersion (ref : List Char) : Option ℕ :=
  (MAJOR_REF_RE.match? ref).map fun m => Text.int (m.group "major")

/-- `_updated_action_ref`. -/
def updatedActionRef (currentRef latestTag : List Char) : List Char :=
  match majorVersion currentRef, majorVersion latestTag with
  | some currentMajor, some latestMajor =>
    if currentMajor = latestMajor then currentRef else latestTag
  | _, _ => currentRef

section
variable (workflowPath : List Char) (latestTags latestToolTags : List Char → Option (List Char))

/-- `replace_action` of `_updated_workflow_action_text`: the new text of a match, and its update. -/
def replaceAction (m : Match) : List Char × Option ActionUpdate :=
  let repository := m.group "repository"
  let oldRef := m.group "ref"
  match latestTags repository with
  | none => (m.text, none)
  | some latestTag =>
    let newRef := updatedActionRef oldRef latestTag
    if newRef = oldRef then (m.text, none)
    else (m.group "prefix" ++ repository ++ '@' :: newRef,
      some { filePath := workflowPath, repository, oldRef, newRef })

/-- The updates of actions in `_updated_workflow_action_text`. -/
def actionUpdates (word : Char → Bool) (workflowText : List Char) : List ActionUpdate :=
  ((ACTION_USES_RE word).finditer workflowText).filterMap fun m =>
    (replaceAction workflowPath latestTags m).2

/-- The text after the substitution in `_updated_workflow_action_text`. -/
def substituteActions (word : Char → Bool) (workflowText : List Char) : List Char :=
  (ACTION_USES_RE word).sub (fun m => (replaceAction workflowPath latestTags m).1) workflowText

/-- `_updated_setup_compose_version_line`. -/
def updatedSetupComposeVersionLine (line latestVersion : List Char) (inSetupComposeStep : Bool) :
    List Char × Option ActionUpdate :=
  if inSetupComposeStep then
    match YAML_VERSION_RE.match? line with
    | none => (line, none)
    | some m =>
      let oldVersion := m.group "ref"
      if oldVersion = latestVersion then (line, none)
      else (m.group "prefix" ++ latestVersion ++ m.group "suffix" ++ m.group "newline",
        some { filePath := workflowPath, repository := DOCKER_COMPOSE_REPOSITORY,
               oldRef := oldVersion, newRef := latestVersion })
  else (line, none)

end

/-- What the line scanner knows: whether it is in a step of the action, and how far the line with
    the action is indented. -/
structure StepScan where
  inSetupComposeStep : Bool
  actionIndent : Option ℕ
  deriving DecidableEq

/-- How far a line is indented. -/
def lineIndent (line : List Char) : ℕ := line.length - (Text.lstrip line).length

/-- The line mentions the action. -/
def usesSetupCompose (line : List Char) : Bool :=
  "uses: ".toList ++ SETUP_COMPOSE_ACTION_REPOSITORY ++ ['@'] <:+: Text.lstrip line

/-- A list item that ends a step whose action is indented by `indent`. -/
def endsStep (indent : ℕ) (line : List Char) : Bool :=
  lineIndent line ≤ indent && "- ".toList.isPrefixOf (Text.lstrip line)

/-- What the loops over the lines do first with a line. -/
def StepScan.next (scan : StepScan) (line : List Char) : StepScan :=
  let scan := if scan.inSetupComposeStep && scan.actionIndent.any fun indent => endsStep indent line
    then ⟨false, none⟩ else scan
  if usesSetupCompose line then ⟨true, some (lineIndent line)⟩ else scan

/-- The loop of `_updated_setup_compose_version_text`. -/
def updateLines (workflowPath latestVersion : List Char) :
    StepScan → List (List Char) → List (List Char × Option ActionUpdate)
  | _, [] => []
  | scan, line :: lines =>
    let scan := scan.next line
    updatedSetupComposeVersionLine workflowPath line latestVersion scan.inSetupComposeStep ::
      updateLines workflowPath latestVersion scan lines

/-- `_updated_setup_compose_version_text`. -/
def updatedSetupComposeVersionText (workflowPath workflowText : List Char)
    (latestToolTags : List Char → Option (List Char)) : List Char × List ActionUpdate :=
  match latestToolTags DOCKER_COMPOSE_REPOSITORY with
  | none => (workflowText, [])
  | some latestVersion =>
    let updatedLines :=
      updateLines workflowPath latestVersion ⟨false, none⟩ (Text.splitlinesKeepends workflowText)
    (updatedLines.flatMap Prod.fst, updatedLines.filterMap Prod.snd)

/-- `_updated_workflow_action_text`. -/
def updatedWorkflowActionText (word : Char → Bool) (workflowPath workflowText : List Char)
    (latestTags latestToolTags : List Char → Option (List Char)) :
    List Char × List ActionUpdate :=
  let updatedText := substituteActions workflowPath latestTags word workflowText
  let (updatedText, setupComposeUpdates) :=
    updatedSetupComposeVersionText workflowPath updatedText latestToolTags
  (updatedText, actionUpdates workflowPath latestTags word workflowText ++ setupComposeUpdates)

/-- The loop of `_setup_compose_version_refs`. -/
def versionRefs : StepScan → List (List Char) → List (List Char)
  | _, [] => []
  | scan, line :: lines =>
    let scan := scan.next line
    (if scan.inSetupComposeStep then
      ((YAML_VERSION_RE.match? line).map fun m => m.group "ref").toList else []) ++
      versionRefs scan lines

/-- `_setup_compose_version_refs`. -/
def setupComposeVersionRefs (workflowText : List Char) : List (List Char) :=
  versionRefs ⟨false, none⟩ (Text.splitlines workflowText)

/-- `_github_action_repositories`, as the repositories it contains. -/
def githubActionRepositories (word : Char → Bool) (workflowTexts : List (List Char)) :
    List (List Char) :=
  workflowTexts.flatMap fun text =>
    ((ACTION_USES_RE word).finditer text).map fun m => m.group "repository"

/-- `_workflow_tool_repositories`. -/
def workflowToolRepositories (workflowTexts : List (List Char)) : List (List Char) :=
  if workflowTexts.any fun text => setupComposeVersionRefs text ≠ [] then
    [DOCKER_COMPOSE_REPOSITORY] else []

/-- `_resolve_in_parallel`: the answers of the resolver for the entries. -/
def resolveInParallel (entries : List (List Char)) (resolver : List Char → Option (List Char)) :
    List Char → Option (List Char) :=
  fun entry => if entry ∈ entries then resolver entry else none

/-- `update_github_action_versions`, for the workflow files with their texts: the updates, and the
    files written. -/
def updateGithubActionVersions (word : Char → Bool) (workflowTexts : List (List Char × List Char))
    (resolver : List Char → Option (List Char)) (dryRun : Bool) :
    List ActionUpdate × List (List Char × List Char) :=
  let texts := workflowTexts.map Prod.snd
  let latestTags := resolveInParallel (githubActionRepositories word texts) resolver
  let latestToolTags := resolveInParallel (workflowToolRepositories texts) resolver
  let results := workflowTexts.map fun w =>
    (w.1, updatedWorkflowActionText word w.1 w.2 latestTags latestToolTags)
  (results.flatMap fun r => r.2.2,
    (results.filter fun r => r.2.2 ≠ [] && !dryRun).map fun r => (r.1, r.2.1))

end FastapiTemplate.Management
