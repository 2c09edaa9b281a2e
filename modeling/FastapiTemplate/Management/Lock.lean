/-
  `sync_pyproject_dependency_versions.py`: the versions that `uv.lock` has, and
  the run over both files.
-/
import FastapiTemplate.Management.Pyproject

namespace FastapiTemplate.Management

open Toml

variable {α : Type}

/-- `package[key]`, where a text is expected. -/
def packageText (package : Value α) (key : List Char) : Except PyprojectError (List Char) :=
  match package with
  | .table entries => do
    match ← item entries key with
    | .string s => return s
    | _ => .error .typeError
  | _ => .error .typeError

/-- A package of the lock. -/
structure LockedPackage where
  name : List Char
  version : List Char
  deriving DecidableEq

/-- One round of the comprehension in `_locked_versions`. -/
def lockedPackage (package : Value α) : Except PyprojectError LockedPackage := do
  let name ← packageText package "name".toList
  let version ← packageText package "version".toList
  return ⟨name, version⟩

/-- The packages that `_locked_versions` goes through. -/
def lockedPackages (uvLock : Table α) : Except PyprojectError (List LockedPackage) := do
  let packages ← elements ((uvLock.get? "package".toList).getD (.array []))
  packages.mapM lockedPackage

/-- The `dict` of `_locked_versions`: of the packages with the same canonical name the last one
    counts. -/
def lockedVersion (packages : List LockedPackage) (name : List Char) : Option (List Char) :=
  (packages.reverse.find? fun package => canonicalName package.name = name).map
    LockedPackage.version

/-- `sync_pyproject_dependency_versions`, over the texts of both files. -/
def syncWithLock (latestVersionResolver : List Char → Option (List Char)) (dryRun : Bool)
    (pyprojectText uvLockText : List Char) :
    Except PyprojectError (List Char × List DependencyUpdate) := do
  let _ ← readToml pyprojectText
  let uvLock ← readToml uvLockText
  let packages ← lockedPackages uvLock
  syncPyprojectDependencyVersions (lockedVersion packages) latestVersionResolver dryRun
    pyprojectText

end FastapiTemplate.Management
