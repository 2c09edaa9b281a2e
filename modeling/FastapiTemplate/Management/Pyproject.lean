/-
  `sync_pyproject_dependency_versions.py`: which requirements a `pyproject.toml`
  has, and the whole run over its text.
-/
import FastapiTemplate.Lib.Toml
import FastapiTemplate.Management.Requirements

namespace FastapiTemplate.Management

open Toml

variable {α : Type}

/-- What a run raises. -/
inductive PyprojectError where
  | tomlDecodeError
  | keyError (key : List Char)
  | attributeError
  | typeError
  | syncError (e : SyncError)
  deriving DecidableEq

/-- `_read_toml` -/
def readToml (text : List Char) : Except PyprojectError (Table Empty) :=
  match loads (chars text) with
  | some data => .ok data
  | none => .error .tomlDecodeError

/-- `t[key]` -/
def item (t : Table α) (key : List Char) : Except PyprojectError (Value α) :=
  match t.get? key with
  | some v => .ok v
  | none => .error (.keyError key)

/-- A value that is used as a `dict`. -/
def asDict : Value α → Except PyprojectError (Table α)
  | .table entries => .ok entries
  | _ => .error .attributeError

/-- What `list.extend` takes from a value; the characters of a marked string are not known. -/
def elements : Value α → Except PyprojectError (List (Value α))
  | .array items => .ok items
  | .string s => .ok (s.map fun c => .string [c])
  | .table entries => .ok (entries.map fun e => .string e.1)
  | .scalar _ => .error .typeError
  | .mark _ => .error .typeError

/-- `requirements.extend(…)` with the lists of all groups. -/
def groupElements : Table α → Except PyprojectError (List (Value α))
  | [] => .ok []
  | e :: groups => do return (← elements e.2) ++ (← groupElements groups)

/-- `_direct_requirements` -/
def directRequirements (pyprojectData : Table α) : Except PyprojectError (List (Value α)) := do
  let project ← item pyprojectData "project".toList
  let project ← asDict project
  let dependencies ← elements ((project.get? "dependencies".toList).getD (.array []))
  let dependencyGroups ← asDict ((pyprojectData.get? "dependency-groups".toList).getD (.table []))
  let groupRequirements ← groupElements dependencyGroups
  let buildSystem ← asDict ((pyprojectData.get? "build-system".toList).getD (.table []))
  let requires ← elements ((buildSystem.get? "requires".toList).getD (.array []))
  return dependencies ++ groupRequirements ++ requires

section
variable (lockedVersions latestVersionResolver : List Char → Option (List Char))

/-- The loop of `sync_pyproject_dependency_versions`; `re` raises at a requirement that is no
    string. -/
def syncValues : List Char → List (Value α) →
    Except PyprojectError (List Char × List DependencyUpdate)
  | updatedText, [] => .ok (updatedText, [])
  | updatedText, .string requirement :: values => do
    let (updatedText, update) ←
      (syncRequirement lockedVersions latestVersionResolver updatedText requirement).mapError
        .syncError
    let (updatedText, updates) ← syncValues updatedText values
    return (updatedText, update.toList ++ updates)
  | _, _ :: _ => .error .typeError

/-- `sync_pyproject_dependency_versions`: the text of `pyproject.toml` after the run, and the
    updates. -/
def syncPyprojectDependencyVersions (dryRun : Bool) (pyprojectText : List Char) :
    Except PyprojectError (List Char × List DependencyUpdate) := do
  let pyprojectData ← readToml pyprojectText
  let requirements ← directRequirements pyprojectData
  let (updatedText, updates) ← syncValues lockedVersions latestVersionResolver pyprojectText
      requirements
  return (if updates ≠ [] ∧ dryRun = false then updatedText else pyprojectText, updates)

end

end FastapiTemplate.Management
