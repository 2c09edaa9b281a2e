/-
  `sync_pyproject_dependency_versions.py`: the lower bounds of requirements.
-/
import FastapiTemplate.Management.Patterns

namespace FastapiTemplate.Management

open Regex

/-- `_NAME_RE`: `(?P<name>[A-Za-z0-9_.-]+)(?P<extras>\[[^\]]+\])?` -/
def NAME_RE : Regex :=
  concat [group "name" (plus (char isNameChar)),
    opt (group "extras" (concat [lit ['['], plus (char (· != ']')), lit [']']]))]

/-- `[^,; ]` -/
def isBoundChar (c : Char) : Bool := c != ',' && c != ';' && c != ' '

/-- `_LOWER_BOUND_RE`: `(?P<operator>>=|>)\s*[^,; ]+` -/
def LOWER_BOUND_RE : Regex :=
  concat [group "operator" (alt (lit ['>', '=']) (lit ['>'])), spaces, plus (char isBoundChar)]

/-- `_UPPER_BOUND_RE`: `(?:^|,)\s*(?P<operator><=|<)\s*(?P<version>[^,; ]+)` -/
def UPPER_BOUND_RE : Regex :=
  concat [alt (look fun before _ => before = []) (lit [',']), spaces,
    group "operator" (alt (lit ['<', '=']) (lit ['<'])), spaces,
    group "version" (plus (char isBoundChar))]

/-- `_requirement_name`. -/
def requirementName (requirement : List Char) : Option (List Char) :=
  (NAME_RE.match? requirement).map fun m => m.group "name"

/-- `_canonical_name`, for the names that requirements have. -/
def canonicalName (name : List Char) : List Char :=
  ((plus (char fun c => c == '-' || c == '_' || c == '.')).sub (fun _ => ['-']) name).map
    Char.toLower

/-- What is left of a requirement before its marker after the match of the name. -/
def specifierAfter (markerPrefix : List Char) (m : Match) : List Char :=
  Text.stripChars (markerPrefix.drop m.text.length)

/-- `_with_lower_bound`; `none` when `re` rejects the version as a replacement. -/
def withLowerBound (requirement version : List Char) : Option (List Char) :=
  let (markerPrefix, separator, markerSuffix) := Text.partitionChars ';' requirement
  match NAME_RE.match? markerPrefix with
  | none => some requirement
  | some m =>
    let requirementPrefix := m.group "name" ++ m.group "extras"
    let specifier := specifierAfter markerPrefix m
    let updated :=
      if specifier = [] then some (requirementPrefix ++ ">=".toList ++ version)
      else if (LOWER_BOUND_RE.search specifier).isSome then
        (template ["operator"] (">=".toList ++ version)).map fun f =>
          requirementPrefix ++ LOWER_BOUND_RE.subOne f specifier
      else some (requirementPrefix ++ ">=".toList ++ version ++ ',' :: specifier)
    updated.map fun updated => if separator then updated ++ ';' :: markerSuffix else updated

/-- `_version_key`. -/
def versionKey (version : List Char) : Option (List ℕ) := releaseNumbers version

/-- `_compare_versions`. -/
def compareVersions (left right : List Char) : Option ℤ :=
  match versionKey left, versionKey right with
  | some leftKey, some rightKey =>
    let maxLength := max leftKey.length rightKey.length
    let normalizedLeft := leftKey ++ List.replicate (maxLength - leftKey.length) 0
    let normalizedRight := rightKey ++ List.replicate (maxLength - rightKey.length) 0
    if normalizedLeft < normalizedRight then some (-1)
    else if normalizedRight < normalizedLeft then some 1
    else some 0
  | _, _ => none

/-- The version is within one upper bound. -/
def withinUpperBound (version : List Char) (upperBound : Match) : Bool :=
  match compareVersions version (upperBound.group "version") with
  | none => false
  | some comparison =>
    !(upperBound.group "operator" = ['<'] && 0 ≤ comparison) &&
      !(upperBound.group "operator" = ['<', '='] && 0 < comparison)

/-- `_satisfies_upper_bounds`. -/
def satisfiesUpperBounds (requirement version : List Char) : Bool :=
  let (markerPrefix, _, _) := Text.partitionChars ';' requirement
  match NAME_RE.match? markerPrefix with
  | none => true
  | some m =>
    (UPPER_BOUND_RE.finditer (specifierAfter markerPrefix m)).all (withinUpperBound version)

section
variable (lockedVersions latestVersionResolver : List Char → Option (List Char))

/-- The version that the lock has for the package of a requirement, or else the answer of the
    resolver. -/
def candidateVersion (requirement : List Char) : Option (List Char) :=
  (requirementName requirement).bind fun dependencyName =>
    match lockedVersions (canonicalName dependencyName) with
    | some version => some version
    | none => latestVersionResolver dependencyName

/-- `_target_dependency_version`. -/
def targetDependencyVersion (requirement : List Char) : Option (List Char) :=
  (candidateVersion lockedVersions latestVersionResolver requirement).filter
    (satisfiesUpperBounds requirement)

end

/-- `DependencyUpdate`. -/
structure DependencyUpdate where
  oldRequirement : List Char
  newRequirement : List Char
  deriving DecidableEq

/-- What `sync_pyproject_dependency_versions` raises. -/
inductive SyncError where
  /-- `re.error` -/
  | reError
  | runtimeError (message : List Char)
  deriving DecidableEq

/-- A requirement in quotes, as it stands in the text. -/
def quoted (requirement : List Char) : List Char := '"' :: requirement ++ ['"']

/-- One round of the loop of `sync_pyproject_dependency_versions`. -/
def syncRequirement (lockedVersions latestVersionResolver : List Char → Option (List Char))
    (updatedText requirement : List Char) :
    Except SyncError (List Char × Option DependencyUpdate) :=
  match targetDependencyVersion lockedVersions latestVersionResolver requirement with
  | none => .ok (updatedText, none)
  | some targetVersion =>
    match withLowerBound requirement targetVersion with
    | none => .error .reError
    | some updatedRequirement =>
      if updatedRequirement = requirement then .ok (updatedText, none)
      else if quoted requirement <:+: updatedText then
        .ok (Text.replaceFirst (quoted requirement) (quoted updatedRequirement) updatedText,
          some ⟨requirement, updatedRequirement⟩)
      else .error (.runtimeError
        ("Could not find dependency requirement in pyproject.toml: ".toList ++ requirement))

/-- The loop of `sync_pyproject_dependency_versions`. -/
def syncRequirements (lockedVersions latestVersionResolver : List Char → Option (List Char)) :
    List Char → List (List Char) → Except SyncError (List Char × List DependencyUpdate)
  | updatedText, [] => .ok (updatedText, [])
  | updatedText, requirement :: requirements => do
    let (updatedText, update) ←
      syncRequirement lockedVersions latestVersionResolver updatedText requirement
    let (updatedText, updates) ←
      syncRequirements lockedVersions latestVersionResolver updatedText requirements
    return (updatedText, update.toList ++ updates)

end FastapiTemplate.Management
