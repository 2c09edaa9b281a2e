/-
  When the versions of the lock still satisfy what the run writes
  (`keeps_lock_valid_iff`): one version of a package becomes the bound for all of
  its versions.
-/
import FastapiTemplate.Management.Lock
import FastapiTemplate.Proof.LowerBounds
import FastapiTemplate.Proof.Pyproject

namespace FastapiTemplate.Management

open Pep508 Toml
open Pep440 (Clause)

/-! ## The lock -/

section
variable {μ : Type} {packages : List LockedPackage} {name v w : List Char}

/-- The lock has the package at this version. -/
def IsLocked (packages : List LockedPackage) (name w : List Char) : Prop :=
  ∃ package ∈ packages, canonicalName package.name = canonicalName name ∧ package.version = w

/-- The version satisfies the requirement. -/
def Satisfies (w : List Char) (q : Requirement μ) : Prop :=
  (∃ version, Pep440.parse w = some version) ∧ ∀ c ∈ q.clauses, c.admits w = true

theorem lockedVersion_isLocked (h : lockedVersion packages (canonicalName name) = some v) :
    IsLocked packages name v := by
  obtain ⟨package, hfind, rfl⟩ := Option.map_eq_some_iff.1 h
  have hname : canonicalName package.name = canonicalName name := by
    simpa using List.find?_some hfind
  exact ⟨package, List.mem_reverse.1 (List.mem_of_find?_eq_some hfind), hname, rfl⟩

theorem exists_lockedVersion (h : IsLocked packages name w) :
    ∃ v, lockedVersion packages (canonicalName name) = some v := by
  obtain ⟨package, hmem, hname, -⟩ := h
  cases hfind : packages.reverse.find? fun package =>
    canonicalName package.name = canonicalName name with
  | none =>
    have hno := List.find?_eq_none.1 hfind package (List.mem_reverse.2 hmem)
    simp [hname] at hno
  | some package' => exact ⟨package'.version, by rw [lockedVersion, hfind]; rfl⟩

end

/-! ## What a run writes -/

section
variable {μ : Type} {readMarker : List Char → Option μ} {packages : List LockedPackage}
  {lockedVersions latestVersionResolver : List Char → Option (List Char)}
  {text text' r s v w : List Char} {requirements : List (List Char)}
    {updates : List DependencyUpdate}
  {q : Requirement μ}

/-- The requirement that stands in the place of `r` after a run. -/
def rewritten (updates : List DependencyUpdate) (r : List Char) : List Char :=
  match updates.find? fun u => u.oldRequirement = r with
  | some u => u.newRequirement
  | none => r

/-- An update of a requirement is what the version makes of it. -/
theorem rewritten_eq
    (hrun : syncRequirements lockedVersions latestVersionResolver text requirements =
      .ok (text', updates)) (hr : r ∈ requirements)
    (htarget : targetDependencyVersion lockedVersions latestVersionResolver r = some v)
    (hs : withLowerBound r v = some s) : rewritten updates r = s := by
  unfold rewritten
  cases hfind : updates.find? fun u => u.oldRequirement = r with
  | none =>
    -- otherwise there is an update
    by_contra hne
    have hmem : (⟨r, s⟩ : DependencyUpdate) ∈ updates :=
      (mem_updates hrun).2 ⟨hr, v, htarget, hs, fun heq => hne heq.symm⟩
    have hno := List.find?_eq_none.1 hfind _ hmem
    simp at hno
  | some u =>
    obtain rfl : u.oldRequirement = r := by simpa using List.find?_some hfind
    obtain ⟨-, v', htarget', hs', -⟩ := (mem_updates hrun).1 (List.mem_of_find?_eq_some hfind)
    rw [htarget] at htarget'
    cases htarget'
    rw [hs] at hs'
    exact (Option.some.inj hs').symm

theorem rewritten_none
    (hrun : syncRequirements lockedVersions latestVersionResolver text requirements =
      .ok (text', updates))
        (htarget : targetDependencyVersion lockedVersions latestVersionResolver r = none) :
    rewritten updates r = r := by
  unfold rewritten
  cases hfind : updates.find? fun u => u.oldRequirement = r with
  | none => rfl
  | some u =>
    obtain rfl : u.oldRequirement = r := by simpa using List.find?_some hfind
    obtain ⟨-, v', htarget', -⟩ := (mem_updates hrun).1 (List.mem_of_find?_eq_some hfind)
    rw [htarget] at htarget'
    cases htarget'

theorem rewritten_space
    (hrun : syncRequirements lockedVersions latestVersionResolver text requirements =
      .ok (text', updates)) (hr : r ∈ requirements) (hspace : r.head?.any wsp = true) :
      rewritten updates r = r := by
  cases htarget : targetDependencyVersion lockedVersions latestVersionResolver r with
  | none => exact rewritten_none hrun htarget
  | some v => exact rewritten_eq hrun hr htarget (withLowerBound_space hspace)

theorem otherClauses_subset {c : Clause} {cs : List Clause} (h : c ∈ otherClauses cs) : c ∈ cs := by
  rcases List.mem_append.1 h with h | h
  · exact (List.takeWhile_prefix _).subset h
  · exact (List.dropWhile_suffix _).subset (List.mem_of_mem_tail h)

/-- The version that the lock gives is compared with the upper bounds of the requirement only. -/
theorem target_locked (h : Pep508.parse readMarker r = some q) (hspace : ¬r.head?.any wsp = true)
    (hv : lockedVersion packages (canonicalName q.name) = some v) :
    targetDependencyVersion (lockedVersion packages) latestVersionResolver r =
      if satisfiesUpperBounds r v then some v else none := by
  obtain ⟨e, w, w', t, hW, -⟩ := exists_written readMarker h (head_of_not_space hspace)
  rw [targetDependencyVersion, candidateVersion, requirementName_written hW]
  simp only [Option.bind_some, hv, Option.filter_some]

/-- The lock is kept valid: the requirement is one that is left alone, or the version that becomes
    its bound is within its upper bounds only if it can take the bound, and all locked versions are
    from that bound on. -/
def KeepsLock (packages : List LockedPackage) (r name : List Char) : Prop :=
  r.head?.any wsp = true ∨
    ∀ v, lockedVersion packages (canonicalName name) = some v → satisfiesUpperBounds r v = true →
      keepsForm r = true ∧ ∀ w, IsLocked packages name w → Clause.admits ⟨.greaterEqual, v⟩ w = true

/-- One requirement. -/
theorem keepsLock_iff
    (hrun : syncRequirements (lockedVersion packages) latestVersionResolver text requirements =
      .ok (text', updates)) (hr : r ∈ requirements) (h : Pep508.parse readMarker r = some q)
    (hvalid : ∀ w, IsLocked packages q.name w → Satisfies w q) :
    (∀ w, IsLocked packages q.name w →
      ∃ q', Pep508.parse readMarker (rewritten updates r) = some q' ∧ Satisfies w q') ↔
    KeepsLock packages r q.name := by
  by_cases hspace : r.head?.any wsp = true
  · rw [rewritten_space hrun hr hspace]
    exact iff_of_true (fun w hw => ⟨q, h, hvalid w hw⟩) (.inl hspace)
  -- the new bound can be read, if the requirement keeps its form
  have hbounded : ∀ v, lockedVersion packages (canonicalName q.name) = some v →
      satisfiesUpperBounds r v = true →
      Pep508.parse readMarker (rewritten updates r) =
        if keepsForm r then some { q with clauses := bounded v q.clauses } else none := by
    intro v hv hupper
    have htarget : targetDependencyVersion (lockedVersion packages) latestVersionResolver r =
        some v := by
      rw [target_locked h hspace hv, if_pos hupper]
    obtain ⟨⟨version, hversion⟩, -⟩ := hvalid v (lockedVersion_isLocked hv)
    obtain ⟨⟨s, hs, hparse⟩, -⟩ :=
      parse_bounded h (head_of_not_space hspace) (isVersionText_of_parse hversion)
    rw [rewritten_eq hrun hr htarget hs, hparse]
  constructor
  · intro hall
    refine .inr fun v hv hupper => ?_
    have hread := hbounded v hv hupper
    have hkeeps : keepsForm r = true := by
      obtain ⟨q', hq', -⟩ := hall v (lockedVersion_isLocked hv)
      by_contra hno
      rw [hread, if_neg hno] at hq'
      cases hq'
    refine ⟨hkeeps, fun w hw => ?_⟩
    obtain ⟨q', hq', hsat⟩ := hall w hw
    rw [hread, if_pos hkeeps] at hq'
    cases hq'
    exact hsat.2 _ (mem_bounded.2 (.inl rfl))
  · intro hkeeps w hw
    obtain ⟨v, hv⟩ := exists_lockedVersion hw
    by_cases hupper : satisfiesUpperBounds r v = true
    · obtain ⟨hform, hlocked⟩ := hkeeps.resolve_left hspace v hv hupper
      have hread := hbounded v hv hupper
      rw [if_pos hform] at hread
      refine ⟨_, hread, (hvalid w hw).1, fun c hc => ?_⟩
      rcases mem_bounded.1 hc with rfl | hc
      · exact hlocked w hw
      · exact (hvalid w hw).2 c (otherClauses_subset hc)
    · have htarget : targetDependencyVersion (lockedVersion packages) latestVersionResolver r =
          none := by
        rw [target_locked h hspace hv, if_neg hupper]
      rw [rewritten_none hrun htarget]
      exact ⟨q, h, hvalid w hw⟩

end

/-! ## The run over both files -/

section
variable {μ : Type} {readMarker : List Char → Option μ}
    {latestVersionResolver : List Char → Option (List Char)}
  {dryRun : Bool} {pyprojectText uvLockText text' : List Char} {updates : List DependencyUpdate}
  {data uvLock : Table Empty} {values : List (Value Empty)} {packages : List LockedPackage}

theorem syncWithLock_ok (hdata : readToml pyprojectText = .ok data)
    (hvalues : directRequirements data = .ok values)
    (huvLock : readToml uvLockText = .ok uvLock) (hpackages : lockedPackages uvLock = .ok packages)
    (hrun : syncWithLock latestVersionResolver dryRun pyprojectText uvLockText =
    .ok (text', updates)) :
    ∃ requirements text₁, values = requirements.map .string ∧
      syncRequirements (lockedVersion packages) latestVersionResolver pyprojectText requirements =
        .ok (text₁, updates) := by
  unfold syncWithLock at hrun
  obtain ⟨_, -, hrun⟩ := except_bind_eq_ok.1 hrun
  obtain ⟨uvLock', huvLock', hrun⟩ := except_bind_eq_ok.1 hrun
  rw [huvLock] at huvLock'
  cases huvLock'
  obtain ⟨packages', hpackages', hrun⟩ := except_bind_eq_ok.1 hrun
  rw [hpackages] at hpackages'
  cases hpackages'
  obtain ⟨data', hdata', hrun⟩ := except_bind_eq_ok.1 hrun
  rw [hdata] at hdata'
  cases hdata'
  obtain ⟨values', hvalues', hrun⟩ := except_bind_eq_ok.1 hrun
  rw [hvalues] at hvalues'
  cases hvalues'
  obtain ⟨⟨text₁, updates'⟩, hsync, hrun⟩ := except_bind_eq_ok.1 hrun
  cases hrun
  obtain ⟨requirements, hrequirements, hsync⟩ := syncValues_ok hsync
  exact ⟨requirements, text₁, hrequirements, hsync⟩

/-- **The lock stays valid** if and only if it does for every requirement of the file. -/
theorem keeps_lock_valid_iff (hdata : readToml pyprojectText = .ok data)
    (hvalues : directRequirements data = .ok values) (huvLock : readToml uvLockText = .ok uvLock)
    (hpackages : lockedPackages uvLock = .ok packages)
    (hrun : syncWithLock latestVersionResolver dryRun pyprojectText uvLockText =
    .ok (text', updates))
    (hvalid : ∀ r q, .string r ∈ values → Pep508.parse readMarker r = some q →
      ∀ w, IsLocked packages q.name w → Satisfies w q) :
    (∀ r q, .string r ∈ values → Pep508.parse readMarker r = some q → ∀ w,
      IsLocked packages q.name w →
      ∃ q', Pep508.parse readMarker (rewritten updates r) = some q' ∧ Satisfies w q') ↔
    ∀ r q, .string r ∈ values → Pep508.parse readMarker r = some q →
      KeepsLock packages r q.name := by
  obtain ⟨requirements, text₁, rfl, hsync⟩ := syncWithLock_ok hdata hvalues huvLock hpackages hrun
  have hmem : ∀ r, (.string r : Value Empty) ∈ requirements.map .string → r ∈ requirements := by
    intro r hr
    obtain ⟨r', hr', heq⟩ := List.mem_map.1 hr
    cases heq
    exact hr'
  refine forall₂_congr fun r q => forall₂_congr fun hr h => ?_
  exact keepsLock_iff hsync (hmem r hr) h fun w hw => hvalid r q hr h w hw

end

namespace Sample

def pyproject (requirement : String) : List Char :=
  "[project]\ndependencies=[\"".toList ++ requirement.toList ++ "\"]\n".toList

/-- A lock with the versions of one package. -/
def lockText (versions : List String) : List Char :=
  versions.flatMap fun version =>
    "[[package]]\nname=\"a\"\nversion=\"".toList ++ version.toList ++ "\"\n".toList

def project (requirement : String) : Table Empty :=
  [("project".toList, .table [("dependencies".toList, .array [.string requirement.toList])])]

def package (version : String) : Value Empty :=
  .table [("name".toList, .string "a".toList), ("version".toList, .string version.toList)]

end Sample

theorem satisfies_lock {packages : List LockedPackage} {requirement : String}
    {q₀ : Requirement (List Char)}
    (hparse : Pep508.parse some requirement.toList = some q₀)
    (hall : ∀ package ∈ packages, (Pep440.parse package.version).isSome = true ∧
      ∀ c ∈ q₀.clauses, c.admits package.version = true) :
    ∀ r q, (.string r : Value Empty) ∈ [.string requirement.toList] → Pep508.parse some r = some q →
      ∀ w, IsLocked packages q.name w → Satisfies w q := by
  intro r q hr h w hw
  have heq := List.mem_singleton.1 hr
  injection heq with heq
  rw [heq, hparse] at h
  cases h
  obtain ⟨package, hmem, -, rfl⟩ := hw
  obtain ⟨hversion, hclauses⟩ := hall package hmem
  exact ⟨Option.isSome_iff_exists.1 hversion, hclauses⟩

theorem keeps_lock_valid_iff_single :
    (∀ r q, (.string r : Value Empty) ∈ [.string "a>=1".toList] → Pep508.parse some r = some q →
      ∀ w, IsLocked [⟨"a".toList, "2".toList⟩] q.name w →
        ∃ q', Pep508.parse some (rewritten [⟨"a>=1".toList, "a>=2".toList⟩] r) = some q' ∧
        Satisfies w q') ↔
    ∀ r q, (.string r : Value Empty) ∈ [.string "a>=1".toList] → Pep508.parse some r = some q →
      KeepsLock [⟨"a".toList, "2".toList⟩] r q.name := by
  have hdata : readToml (Sample.pyproject "a>=1") = .ok (Sample.project "a>=1") := rfl
  have huvLock : readToml (Sample.lockText ["2"]) =
      .ok [("package".toList, .array [Sample.package "2"])] := rfl
  have hrun : syncWithLock (fun _ => none) false (Sample.pyproject "a>=1") (Sample.lockText ["2"]) =
      .ok (Sample.pyproject "a>=2", [⟨"a>=1".toList, "a>=2".toList⟩]) := by decide
  have hparse : Pep508.parse some "a>=1".toList =
      some ⟨"a".toList, [], none, [⟨.greaterEqual, "1".toList⟩], none⟩ := by decide
  exact keeps_lock_valid_iff hdata rfl huvLock rfl hrun (satisfies_lock hparse (by decide))

/-- Of two locked versions the last one becomes the bound, which the first one is below. -/
theorem excludes_fork : ¬∀ (latestVersionResolver : List Char → Option (List Char)) (dryRun : Bool)
    (pyprojectText uvLockText text' : List Char) (updates : List DependencyUpdate)
      (data uvLock : Table Empty)
    (values : List (Value Empty)) (packages : List LockedPackage),
    readToml pyprojectText = .ok data → directRequirements data = .ok values →
    readToml uvLockText = .ok uvLock → lockedPackages uvLock = .ok packages →
    syncWithLock latestVersionResolver dryRun pyprojectText uvLockText = .ok (text', updates) →
    (∀ r q, .string r ∈ values → Pep508.parse (some : List Char → Option (List Char)) r = some q →
      ∀ w, IsLocked packages q.name w → Satisfies w q) →
    ∀ r q, .string r ∈ values → Pep508.parse (some : List Char → Option (List Char)) r = some q →
      ∀ w, IsLocked packages q.name w →
        ∃ q', Pep508.parse (some : List Char → Option (List Char)) (rewritten updates r) = some q' ∧
          Satisfies w q' := by
  intro h
  have hdata : readToml (Sample.pyproject "a>=1") = .ok (Sample.project "a>=1") := rfl
  have huvLock : readToml (Sample.lockText ["1", "2"]) =
      .ok [("package".toList, .array [Sample.package "1", Sample.package "2"])] := rfl
  have hrun : syncWithLock (fun _ => none) false (Sample.pyproject "a>=1")
      (Sample.lockText ["1", "2"]) =
      .ok (Sample.pyproject "a>=2", [⟨"a>=1".toList, "a>=2".toList⟩]) := by decide
  have hparse : Pep508.parse some "a>=1".toList =
      some ⟨"a".toList, [], none, [⟨.greaterEqual, "1".toList⟩], none⟩ := by decide
  have hnew : Pep508.parse some "a>=2".toList =
      some ⟨"a".toList, [], none, [⟨.greaterEqual, "2".toList⟩], none⟩ := by decide
  have hlocked :
      IsLocked [⟨"a".toList, "1".toList⟩, ⟨"a".toList, "2".toList⟩] "a".toList "1".toList :=
    ⟨_, List.mem_cons_self .., rfl, rfl⟩
  obtain ⟨q', hq', hsat⟩ := h _ _ _ _ _ _ _ _ _ _ hdata rfl huvLock rfl hrun
    (satisfies_lock hparse (by decide)) _ _ (List.mem_singleton_self _) hparse _ hlocked
  have hq' : Pep508.parse some "a>=2".toList = some q' := hq'
  rw [hnew] at hq'
  cases hq'
  exact absurd (hsat.2 _ (List.mem_singleton_self _)) (by decide)

end FastapiTemplate.Management
