/-
  When the updater rewrites only the lower bound of a requirement
  (`rewritten_iff`), and when the version it selects satisfies what it writes
  (`satisfiable_iff`).
-/
import FastapiTemplate.Proof.Requirements

namespace FastapiTemplate.Management

open Pep508
open Pep440 (Clause)

/-! ## The rewritten requirement -/

section
variable {μ : Type} {readMarker : List Char → Option μ} {r v : List Char} {q : Requirement μ}

/-- The clauses that the rewritten requirement is to have. -/
def wanted (v : List Char) (q : Requirement μ) : List Clause :=
  if q.url = none then bounded v q.clauses else q.clauses

/-- Only the lower bound differs. -/
def Rewritten (readMarker : List Char → Option μ) (r v : List Char) (q : Requirement μ) : Prop :=
  ∃ s q', withLowerBound r v = some s ∧ Pep508.parse readMarker s = some q' ∧ q'.name = q.name ∧
    q'.extras = q.extras ∧ q'.url = q.url ∧ q'.marker = q.marker ∧
    ∀ c, c ∈ q'.clauses ↔ c ∈ wanted v q

/-- **Only the lower bound is rewritten** exactly when the requirement keeps its form. A requirement
    that starts with white space is left as it is. -/
theorem rewritten_iff (h : Pep508.parse readMarker r = some q) (hv : isVersionText v = true) :
    Rewritten readMarker r v q ↔
      if r.head?.any wsp then ∀ c, c ∈ q.clauses ↔ c ∈ wanted v q else keepsForm r = true := by
  by_cases hspace : r.head?.any wsp = true
  · rw [if_pos hspace, Rewritten, withLowerBound_space hspace]
    constructor
    · rintro ⟨s, q', hs, hq', -, -, -, -, hclauses⟩
      cases hs
      rw [h] at hq'
      cases hq'
      exact hclauses
    · exact fun hclauses => ⟨r, q, rfl, h, rfl, rfl, rfl, rfl, hclauses⟩
  · rw [if_neg hspace, Rewritten]
    obtain ⟨⟨s, hs, hparse⟩, hurl⟩ := parse_bounded h (head_of_not_space hspace) hv
    rw [hs]
    constructor
    · rintro ⟨s', q', hs', hq', -⟩
      cases hs'
      by_contra hkeeps
      rw [hparse, if_neg hkeeps] at hq'
      cases hq'
    · intro hkeeps
      rw [if_pos hkeeps] at hparse
      refine ⟨s, _, rfl, hparse, rfl, rfl, rfl, rfl, fun c => ?_⟩
      rw [wanted, if_pos (hurl hkeeps)]

theorem rewritten_iff_extras :
    Rewritten some "sqlalchemy[asyncio]>=2.0.40,<3 ; python_version > '3.9'".toList "2.0.45".toList
      ⟨"sqlalchemy".toList, ["asyncio".toList], none,
        [⟨.greaterEqual, "2.0.40".toList⟩, ⟨.less, "3".toList⟩],
        some " python_version > '3.9'".toList⟩ ↔
    if "sqlalchemy[asyncio]>=2.0.40,<3 ; python_version > '3.9'".toList.head?.any wsp then
      ∀ c, c ∈ [⟨.greaterEqual, "2.0.40".toList⟩, ⟨.less, "3".toList⟩] ↔
        c ∈ wanted "2.0.45".toList (⟨"sqlalchemy".toList, ["asyncio".toList], none,
          [⟨.greaterEqual, "2.0.40".toList⟩, ⟨.less, "3".toList⟩],
          some " python_version > '3.9'".toList⟩ : Requirement (List Char))
    else keepsForm "sqlalchemy[asyncio]>=2.0.40,<3 ; python_version > '3.9'".toList = true :=
  rewritten_iff (by decide) (by decide)

/-- A bound at the end of parentheses takes the closing one with it. -/
theorem loses_parenthesis : ¬∀ (r v : List Char) (q : Requirement (List Char)),
    Pep508.parse some r = some q → isVersionText v = true → Rewritten some r v q := by
  intro h
  have hq : Pep508.parse some "foo (>=1.0)".toList =
      some ⟨"foo".toList, [], none, [⟨.greaterEqual, "1.0".toList⟩], none⟩ := by decide
  have hs' : withLowerBound "foo (>=1.0)".toList "2.0".toList = some "foo(>=2.0".toList := by decide
  have hnone : Pep508.parse some "foo(>=2.0".toList = none := by decide
  obtain ⟨s, q', hs, hq', -⟩ := h _ "2.0".toList _ hq (by decide)
  rw [hs'] at hs
  cases hs
  rw [hnone] at hq'
  cases hq'

/-! ## Satisfying the rewritten requirement -/

/-- All clauses but the first lower bound. -/
def otherClauses (cs : List Clause) : List Clause :=
  cs.takeWhile (fun c => !isLower c) ++ (cs.dropWhile fun c => !isLower c).tail

/-- The version satisfies the clauses, other than those that compare texts. -/
def SatisfiesAll (v : List Char) (cs : List Clause) : Prop :=
  ∀ c ∈ cs, c.op ≠ .arbitrary → c.admits v = true

theorem mem_bounded {cs : List Clause} {c : Clause} :
    c ∈ bounded v cs ↔ c = ⟨.greaterEqual, v⟩ ∨ c ∈ otherClauses cs := by
  unfold bounded otherClauses
  split_ifs with hany
  · simp only [List.mem_append, List.mem_cons]
    tauto
  · have hall : ∀ c ∈ cs, (!isLower c) = true := by
      intro c hc
      rw [Bool.not_eq_true, List.any_eq_false] at hany
      simpa using hany c hc
    rw [List.takeWhile_eq_self_iff.2 hall, List.dropWhile_eq_nil_iff.2 hall]
    simp

theorem isVersionText_of_parse {v : List Char} {w : Pep440.Version} (h : Pep440.parse v = some w) :
    isVersionText v = true := by
  obtain ⟨hne, hchars⟩ := Pep440.chars_of_parse h
  have hall : ∀ c ∈ v, versionChar c = true := by
    intro c hc
    have h := hchars c hc
    simp only [Pep440.isVersionChar, Bool.or_eq_true] at h
    simp only [versionChar, identChar, Bool.or_eq_true]
    tauto
  simp only [isVersionText, Bool.and_eq_true, decide_eq_true_eq, List.all_eq_true]
  exact ⟨hne, hall⟩

variable {lockedVersions latestVersionResolver : List Char → Option (List Char)}

/-- **The selected version satisfies the rewritten requirement** exactly when the requirement keeps
    its form and the version, which must not be a local one, satisfies its other clauses. -/
theorem satisfiable_iff (h : Pep508.parse readMarker r = some q) :
    (∀ v, targetDependencyVersion lockedVersions latestVersionResolver r = some v →
      ∃ s q', withLowerBound r v = some s ∧ Pep508.parse readMarker s = some q' ∧
        SatisfiesAll v q'.clauses) ↔
    ∀ v, targetDependencyVersion lockedVersions latestVersionResolver r = some v →
      if r.head?.any wsp then SatisfiesAll v q.clauses
      else keepsForm r = true ∧ (∃ w, Pep440.parse v = some w ∧ w.localLabel = []) ∧
        SatisfiesAll v (otherClauses q.clauses) := by
  refine forall₂_congr fun v _ => ?_
  by_cases hspace : r.head?.any wsp = true
  · rw [if_pos hspace, withLowerBound_space hspace]
    constructor
    · rintro ⟨s, q', hs, hq', hsat⟩
      cases hs
      rw [h] at hq'
      cases hq'
      exact hsat
    · exact fun hsat => ⟨r, q, rfl, h, hsat⟩
  · rw [if_neg hspace]
    have hr := head_of_not_space hspace
    constructor
    · rintro ⟨s, q', hs, hq', hsat⟩
      have hversion : isVersionText v = true := by
        obtain ⟨c, hc, hop⟩ := greaterEqual_of_rewritten h hr hs hq'
        have hadmits := hsat c hc (by rw [hop]; simp)
        obtain ⟨w, hw, -⟩ := Option.any_eq_true _ _ |>.1 hadmits
        exact isVersionText_of_parse hw
      obtain ⟨⟨s', hs', hparse⟩, -⟩ := parse_bounded h hr hversion
      rw [hs] at hs'
      cases hs'
      by_cases hkeeps : keepsForm r = true
      · rw [hparse, if_pos hkeeps] at hq'
        cases hq'
        refine ⟨hkeeps, ?_, fun c hc => hsat c (mem_bounded.2 (.inr hc))⟩
        exact Pep440.admits_greaterEqual_self.1 (hsat _ (mem_bounded.2 (.inl rfl)) (by simp))
      · rw [hparse, if_neg hkeeps] at hq'
        cases hq'
    · rintro ⟨hkeeps, ⟨w, hw, hlocal⟩, hsat⟩
      obtain ⟨⟨s, hs, hparse⟩, -⟩ := parse_bounded h hr (isVersionText_of_parse hw)
      rw [if_pos hkeeps] at hparse
      refine ⟨s, _, hs, hparse, fun c hc hop => ?_⟩
      rcases mem_bounded.1 hc with rfl | hc
      · exact Pep440.admits_greaterEqual_self.2 ⟨w, hw, hlocal⟩
      · exact hsat c hc hop

theorem satisfiable_iff_uvBuild :
    (∀ v, targetDependencyVersion (fun _ => none) (fun _ => some "0.11.8".toList)
        "uv_build>=0.11.0,<0.12.0".toList = some v →
      ∃ s q', withLowerBound "uv_build>=0.11.0,<0.12.0".toList v = some s ∧
        Pep508.parse some s = some q' ∧ SatisfiesAll v q'.clauses) ↔
    ∀ v, targetDependencyVersion (fun _ => none) (fun _ => some "0.11.8".toList)
        "uv_build>=0.11.0,<0.12.0".toList = some v →
      if "uv_build>=0.11.0,<0.12.0".toList.head?.any wsp then
        SatisfiesAll v [⟨.greaterEqual, "0.11.0".toList⟩, ⟨.less, "0.12.0".toList⟩]
      else keepsForm "uv_build>=0.11.0,<0.12.0".toList = true ∧
        (∃ w, Pep440.parse v = some w ∧ w.localLabel = []) ∧
        SatisfiesAll v
          (otherClauses [⟨.greaterEqual, "0.11.0".toList⟩, ⟨.less, "0.12.0".toList⟩]) :=
  satisfiable_iff (q := ⟨"uv_build".toList, [], none,
    [⟨.greaterEqual, "0.11.0".toList⟩, ⟨.less, "0.12.0".toList⟩], none⟩) (by decide)

/-- Only upper bounds are looked at: a pinned requirement gets a lower bound above its pin. -/
theorem unsatisfiable : ¬∀ (r : List Char) (q : Requirement (List Char))
    (lockedVersions latestVersionResolver : List Char → Option (List Char)) (v : List Char),
    Pep508.parse some r = some q → q.url = none →
    targetDependencyVersion lockedVersions latestVersionResolver r = some v →
    ∃ s q', withLowerBound r v = some s ∧ Pep508.parse some s = some q' ∧
    SatisfiesAll v q'.clauses := by
  intro h
  have hq : Pep508.parse some "foo==1.0".toList =
      some ⟨"foo".toList, [], none, [⟨.equal, "1.0".toList⟩], none⟩ := by decide
  have hs' : withLowerBound "foo==1.0".toList "2.0".toList = some "foo>=2.0,==1.0".toList := by
    decide
  have hnew : Pep508.parse some "foo>=2.0,==1.0".toList =
      some ⟨"foo".toList, [], none, [⟨.greaterEqual, "2.0".toList⟩, ⟨.equal, "1.0".toList⟩],
      none⟩ := by
    decide
  have hadmits : Clause.admits ⟨.equal, "1.0".toList⟩ "2.0".toList = false := by decide
  obtain ⟨s, q', hs, hq', hsat⟩ :=
    h _ _ (fun _ => some "2.0".toList) (fun _ => none) "2.0".toList hq rfl (by decide)
  rw [hs'] at hs
  cases hs
  rw [hnew] at hq'
  cases hq'
  have hclause := hsat ⟨.equal, "1.0".toList⟩ (by decide) (by decide)
  rw [hadmits] at hclause
  cases hclause

end

end FastapiTemplate.Management
