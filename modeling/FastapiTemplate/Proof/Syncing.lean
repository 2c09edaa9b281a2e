/-
  When syncing loosens no requirement (`never_loosens_iff`): the version of the
  lock or of the index is compared with upper bounds, and never with the lower
  bound that it replaces.
-/
import FastapiTemplate.Proof.Requirements

namespace FastapiTemplate.Management

open Regex Pep508 Spans
open Pep440 (Clause)

/-! ## The updates of a run -/

section
variable {lockedVersions latestVersionResolver : List Char → Option (List Char)}
  {text text' : List Char} {requirements : List (List Char)} {updates : List DependencyUpdate}
  {u : DependencyUpdate}

theorem except_bind_eq_ok {ε α β : Type} {x : Except ε α} {f : α → Except ε β} {b : β} :
    x.bind f = .ok b ↔ ∃ a, x = .ok a ∧ f a = .ok b := by
  cases x <;> simp [Except.bind]

/-- What one requirement is rewritten to. -/
def Rewrites (lockedVersions latestVersionResolver : List Char → Option (List Char))
    (u : DependencyUpdate) : Prop :=
  ∃ v, targetDependencyVersion lockedVersions latestVersionResolver u.oldRequirement = some v ∧
    withLowerBound u.oldRequirement v = some u.newRequirement ∧ u.newRequirement ≠ u.oldRequirement

/-- A round reports an update exactly when the requirement is rewritten. -/
theorem syncRequirement_ok {requirement : List Char} {update : Option DependencyUpdate}
    (h : syncRequirement lockedVersions latestVersionResolver text requirement =
    .ok (text', update)) :
    update = some u ↔
    u.oldRequirement = requirement ∧ Rewrites lockedVersions latestVersionResolver u := by
  unfold syncRequirement at h
  cases htarget : targetDependencyVersion lockedVersions latestVersionResolver requirement with
  | none =>
    rw [htarget] at h
    cases h
    constructor
    · nofun
    · rintro ⟨rfl, v, hv, -⟩
      rw [htarget] at hv
      cases hv
  | some v =>
    rw [htarget] at h
    cases hnew : withLowerBound requirement v with
    | none =>
      simp only [hnew] at h
      cases h
    | some new =>
      simp only [hnew] at h
      split_ifs at h with hsame hfound
      · cases h
        constructor
        · nofun
        · rintro ⟨rfl, v', hv', hnew', hne⟩
          rw [htarget] at hv'
          cases hv'
          rw [hnew] at hnew'
          cases hnew'
          exact absurd hsame hne
      · cases h
        constructor
        · rintro h
          cases h
          exact ⟨rfl, v, htarget, hnew, hsame⟩
        · rintro ⟨rfl, v', hv', hnew', -⟩
          rw [htarget] at hv'
          cases hv'
          rw [hnew] at hnew'
          cases hnew'
          rfl

/-- The updates of a run are those of its requirements. -/
theorem mem_updates (h : syncRequirements lockedVersions latestVersionResolver text requirements =
    .ok (text', updates)) :
    u ∈ updates ↔ u.oldRequirement ∈ requirements ∧
    Rewrites lockedVersions latestVersionResolver u := by
  induction requirements generalizing text updates with
  | nil =>
    cases h
    simp
  | cons requirement requirements ih =>
    obtain ⟨⟨text₁, update⟩, hstep, h⟩ := except_bind_eq_ok.1 h
    obtain ⟨⟨text₂, updates'⟩, hrest, h⟩ := except_bind_eq_ok.1 h
    cases h
    rw [List.mem_append, Option.mem_toList, syncRequirement_ok hstep, ih hrest, List.mem_cons]
    tauto

end

/-! ## Requirements that stay as they are -/

/-- The requirement has the bound already, and no white space that rewriting takes away. -/
def settled (r v : List Char) : Prop :=
  let s := afterName (r.takeWhile (· ≠ ';'))
  trim s = s ∧ (s.dropWhile (· ≠ '>')).takeWhile isBoundChar = ">=".toList ++ v

section
variable {μ : Type} {readMarker : List Char → Option μ} {r v p m core e gap w₀ e₀ y : List Char}
  {extras₀ : List (List Char)} {q : Requirement μ} {n : Match}
variable {pre eq w version z : List Char}

theorem bound_isBoundChar (hv : isVersionText v = true) :
    ∀ c ∈ ">=".toList ++ v, isBoundChar c = true := by
  have hsigns : ∀ c ∈ ">=".toList, isBoundChar c = true := by decide
  intro c hc
  exact (List.mem_append.1 hc).elim (hsigns c) fun hc =>
    isBoundChar_of_versionChar (versionText_chars hv c hc)

theorem not_wsp_of_versionChar {c : Char} (h : versionChar c = true) : wsp c = false := by
  rw [← isSpace_plain (plain_of_versionChar h)]
  exact not_isSpace_of_versionChar h

/-- A bound that reads `>=` and a version has no white space between them. -/
theorem sign_and_space {rest : List Char} (heq : eq = [] ∨ eq = ['=']) (hw : ∀ c ∈ w, wsp c = true)
    (hversion : isVersionText version = true) (hv : isVersionText v = true)
    (h : eq ++ (w ++ (version ++ z)) = '=' :: (v ++ rest)) : version ++ z = v ++ rest ∧ eq = ['='] ∧
    w = [] := by
  obtain ⟨d, ds, hd, hdv⟩ := versionText_head hversion
  obtain ⟨d', ds', hd', hdv'⟩ := versionText_head hv
  rcases heq with rfl | rfl
  · cases w with
    | nil =>
      rw [hd] at h
      have hsame : d = '=' := (List.cons.inj h).1
      rw [hsame] at hdv
      exact absurd hdv (by decide)
    | cons c w =>
      have hsame : c = '=' := (List.cons.inj h).1
      exact absurd (hw c (List.mem_cons_self ..)) (by rw [hsame]; decide)
  · have h : w ++ (version ++ z) = v ++ rest := (List.cons.inj h).2
    cases w with
    | nil => exact ⟨h, rfl, rfl⟩
    | cons c w =>
      rw [hd'] at h
      have hsame : c = d' := (List.cons.inj h).1
      have hc := hw c (List.mem_cons_self ..)
      rw [hsame, not_wsp_of_versionChar hdv'] at hc
      cases hc

/-- The text with a new bound is the old one exactly when the old one has that bound. -/
theorem rewritten_same_iff (hpre : '>' ∉ pre) (heq : eq = [] ∨ eq = ['='])
    (hw : ∀ c ∈ w, wsp c = true)
    (hversion : isVersionText version = true) (hv : isVersionText v = true)
    (hy : trim y = pre ++ '>' :: (eq ++ (w ++ (version ++ z)))) :
    pre ++ (">=".toList ++ v) ++ z.dropWhile isBoundChar = y ↔
      trim y = y ∧ (y.dropWhile (· ≠ '>')).takeWhile isBoundChar = ">=".toList ++ v := by
  have hstop : (z.dropWhile isBoundChar).head?.all (fun c => !isBoundChar c) = true :=
    dropWhile_head
  have hfirst : ∀ s : List Char, '>' ∉ s → ∀ c ∈ s, decide (c ≠ '>') = true := fun s hs c hc =>
    decide_eq_true fun h => hs (h ▸ hc)
  have hvchars : ∀ c ∈ v, isBoundChar c = true :=
    fun c hc => isBoundChar_of_versionChar (versionText_chars hv c hc)
  have hnew : ∀ c ∈ version ++ z.takeWhile isBoundChar, isBoundChar c = true := by
    intro c hc
    exact (List.mem_append.1 hc).elim
      (fun hc => isBoundChar_of_versionChar (versionText_chars hversion c hc))
      fun hc => List.mem_takeWhile_imp hc
  constructor
  · intro h
    have htake : (y.dropWhile (· ≠ '>')).takeWhile isBoundChar = ">=".toList ++ v := by
      have hdrop : y.dropWhile (· ≠ '>') = ">=".toList ++ v ++ z.dropWhile isBoundChar := by
        rw [← h, List.append_assoc]
        exact dropWhile_append_stop (hfirst pre hpre) (by simp)
      rw [hdrop]
      exact takeWhile_append_stop (bound_isBoundChar hv) hstop
    refine ⟨?_, htake⟩
    -- no white space stands around the text
    obtain ⟨a, b, hab, ha, hb⟩ := trim_spec y
    have hsplit : pre ++ '>' :: ('=' :: (v ++ z.dropWhile isBoundChar)) =
        (a ++ pre) ++ '>' :: (eq ++ (w ++ (version ++ (z ++ b)))) := by
      have htext : pre ++ (">=".toList ++ v) ++ z.dropWhile isBoundChar =
          pre ++ '>' :: ('=' :: (v ++ z.dropWhile isBoundChar)) := by simp
      rw [← htext, h, hab, hy]
      simp
    have hapre : '>' ∉ a ++ pre := by
      rw [List.mem_append, not_or]
      exact ⟨notMem_of_forall ha (by decide), hpre⟩
    obtain ⟨hpre', hrest⟩ :=
      takeWhile_unique (hfirst pre hpre) (by simp) (hfirst _ hapre) (by simp) hsplit
    have hanil : a = [] := by
      have hlen := congrArg List.length hpre'
      rw [List.length_append] at hlen
      exact List.eq_nil_of_length_eq_zero (by omega)
    obtain ⟨hversions, -, -⟩ := sign_and_space heq hw hversion hv (List.cons.inj hrest).2.symm
    have hzb : v ++ z.dropWhile isBoundChar = (version ++ z.takeWhile isBoundChar) ++
        (z.dropWhile isBoundChar ++ b) := by
      have hz : z.takeWhile isBoundChar ++ (z.dropWhile isBoundChar ++ b) = z ++ b := by
        rw [← List.append_assoc, List.takeWhile_append_dropWhile]
      rw [← hversions, List.append_assoc, hz]
    have hbnil : b = [] := by
      cases hd : z.dropWhile isBoundChar with
      | nil =>
        -- the version would end with white space
        rw [hd, List.append_nil, List.nil_append] at hzb
        refine List.eq_nil_iff_forall_not_mem.2 fun c hc => ?_
        have hcv : c ∈ v := by
          rw [hzb]
          exact List.mem_append_right _ hc
        have hspace := hb c hc
        rw [not_wsp_of_versionChar (versionText_chars hv c hcv)] at hspace
        cases hspace
      | cons c d =>
        rw [hd] at hzb hstop
        obtain ⟨-, hsame⟩ := takeWhile_unique hvchars hstop hnew (by simpa using hstop) hzb
        exact List.self_eq_append_right.1 hsame
    rw [hanil, hbnil, List.nil_append, List.append_nil] at hab
    exact hab.symm
  · rintro ⟨htrim, htake⟩
    have hdrop : y.dropWhile (· ≠ '>') = '>' :: (eq ++ (w ++ (version ++ z))) := by
      rw [← htrim, hy]
      exact dropWhile_append_stop (hfirst pre hpre) (by simp)
    rw [hdrop] at htake
    have hsplit := (List.takeWhile_append_dropWhile (p := isBoundChar)
      (l := '>' :: (eq ++ (w ++ (version ++ z))))).symm
    rw [htake] at hsplit
    generalize hD : ('>' :: (eq ++ (w ++ (version ++ z)))).dropWhile isBoundChar = D at hsplit
    have hDstop : D.head?.all (fun c => !isBoundChar c) = true := hD ▸ dropWhile_head
    obtain ⟨hversions, rfl, rfl⟩ := sign_and_space heq hw hversion hv
      (show eq ++ (w ++ (version ++ z)) = '=' :: (v ++ D) from (List.cons.inj hsplit).2)
    have hzv : (version ++ z.takeWhile isBoundChar) ++ z.dropWhile isBoundChar = v ++ D := by
      rw [List.append_assoc, List.takeWhile_append_dropWhile, hversions]
    obtain ⟨hsame, hrest⟩ := takeWhile_unique hnew hstop hvchars hDstop hzv
    rw [← htrim, hy, hrest, hversions]
    simp

end

section
variable {μ : Type} {readMarker : List Char → Option μ} {r v p m core e gap w₀ e₀ : List Char}
  {extras₀ : List (List Char)} {q : Requirement μ} {n : Match} {c : Clause}

/-- A requirement with a lower bound is left as it is exactly when it is settled. -/
theorem withLowerBound_same_iff (h : Pep508.parse readMarker r = some q)
    (hr : r.head?.all (fun c => !wsp c) = true) (hc : c ∈ q.clauses) (hlower : isLower c = true)
    (hv : isVersionText v = true) : withLowerBound r v = some r ↔ settled r v := by
  obtain ⟨p, m, core, e, n, gap, w₀, e₀, extras₀, ht⟩ := exists_taken h hr
  -- it has a lower bound, so the sign is there
  have hsign : '>' ∈ core := by
    by_contra hno
    rcases ht.cases with ⟨_, _, _, hnil⟩ | ⟨_, hspec, _⟩
    · rw [hnil] at hc
      cases hc
    · have hnot : isLower c = false := by
        rcases readSpecifier_some hspec with ⟨_, hnil⟩ | ⟨body, rfl, hbody⟩ | hbody
        · rw [hnil] at hc
          cases hc
        · exact readClauses_notLower hbody (fun hmem => hno (by simp [hmem])) c hc
        · exact readClauses_notLower hbody hno c hc
      rw [hnot] at hlower
      cases hlower
  obtain ⟨-, hspec, -⟩ := ht.cases.resolve_left fun ⟨_, _, hno, _⟩ => hno hsign
  obtain ⟨pre, eq, w, version, z, hrep⟩ := exists_replaced hspec ht.trimmed hsign hv
  have hpre : '>' ∉ gap ++ pre := ht.sign_notMem hrep.first
  have hspecifier : gap ++ core = (gap ++ pre) ++ '>' :: (eq ++ (w ++ (version ++ z))) := by
    rw [hrep.text, List.append_assoc]
  have hnew : boundedSpecifier (gap ++ core) v = gap ++ pre ++ (">=".toList ++ v) ++
      z.dropWhile isBoundChar := by
    obtain ⟨hfound, n, hsub⟩ := replace_bound hpre hrep.sign hrep.space hrep.version
    rw [hspecifier, boundedSpecifier, if_neg (by simp), if_pos hfound, hsub]
  have hy : trim (afterName p) = (gap ++ pre) ++ '>' :: (eq ++ (w ++ (version ++ z))) := by
    rw [ht.parts.textual, hspecifier]
  have hsame := rewritten_same_iff hpre hrep.sign hrep.space hrep.version hv hy
  have hr : r = q.name ++ e₀ ++ afterName p ++ m := by
    rw [ht.text]
    conv_lhs => rw [ht.parts.rest]
    simp
  have htext : withLowerBound r v = some r ↔
      gap ++ pre ++ (">=".toList ++ v) ++ z.dropWhile isBoundChar = afterName p := by
    rw [ht.withLowerBound (backslash_notMem hv), hnew, Option.some.injEq]
    conv_lhs => rw [hr]
    rw [List.append_left_inj, List.append_right_inj]
  rw [htext, hsame, settled, ht.takeWhile_marker]

variable {lockedVersions latestVersionResolver : List Char → Option (List Char)}
  {text text' : List Char} {requirements : List (List Char)} {updates : List DependencyUpdate}

/-- The version is not below the bound, and above it if the bound is strict. -/
def NotBelow (v : List Char) (c : Clause) : Prop :=
  ∃ a b, Pep440.parse c.version = some a ∧ Pep440.parse v = some b ∧ if c.op = .greater then a <
    b else a ≤ b

/-- What is written in place of the lower bounds of the old requirement is not below them. -/
def NotLoosened (readMarker : List Char → Option μ)
    (lockedVersions latestVersionResolver : List Char → Option (List Char)) (u : DependencyUpdate) :
    Prop :=
  ∃ v, targetDependencyVersion lockedVersions latestVersionResolver u.oldRequirement = some v ∧
    withLowerBound u.oldRequirement v = some u.newRequirement ∧
    ∀ q, Pep508.parse readMarker u.oldRequirement = some q →
      ∀ c ∈ q.clauses, isLower c = true → NotBelow v c

/-- The lock, or else the index, is not behind the lower bounds of the requirement: not unless an
    upper bound rejects its version or the requirement is left as it is. -/
def NotBehind (readMarker : List Char → Option μ)
    (lockedVersions latestVersionResolver : List Char → Option (List Char)) (r : List Char) :
    Prop :=
  ∀ v, candidateVersion lockedVersions latestVersionResolver r = some v →
    satisfiesUpperBounds r v = true →
    r.head?.any wsp = true ∨ settled r v ∨
      ∀ q, Pep508.parse readMarker r = some q → ∀ c ∈ q.clauses, isLower c = true → NotBelow v c

theorem target_eq_some : targetDependencyVersion lockedVersions latestVersionResolver r = some v ↔
    candidateVersion lockedVersions latestVersionResolver r = some v ∧
    satisfiesUpperBounds r v = true := by
  rw [targetDependencyVersion, Option.filter_eq_some_iff]

theorem candidate_versions (hversions : ∀ name v, lockedVersions name = some v ∨
      latestVersionResolver name = some v → isVersionText v = true)
    (h : candidateVersion lockedVersions latestVersionResolver r = some v) :
      isVersionText v = true := by
  obtain ⟨name, -, h⟩ := Option.bind_eq_some_iff.1 h
  cases hlocked : lockedVersions (canonicalName name) with
  | none =>
    simp only [hlocked] at h
    exact hversions _ _ (.inr h)
  | some v' =>
    simp only [hlocked] at h
    cases h
    exact hversions _ _ (.inl hlocked)

/-- **No requirement is loosened** exactly when neither the lock nor the index is behind its lower
    bounds. -/
theorem never_loosens_iff (hversions : ∀ name v, lockedVersions name = some v ∨
      latestVersionResolver name = some v → isVersionText v = true)
    (h : syncRequirements lockedVersions latestVersionResolver text requirements =
      .ok (text', updates)) :
    (∀ u ∈ updates, NotLoosened readMarker lockedVersions latestVersionResolver u) ↔
      ∀ r ∈ requirements, NotBehind readMarker lockedVersions latestVersionResolver r := by
  constructor
  · intro hall r hr v hcandidate hupper
    by_contra hno
    simp only [not_or] at hno
    obtain ⟨hspace, hsettled, hbelow⟩ := hno
    have hv := candidate_versions hversions hcandidate
    have htarget := target_eq_some.2 ⟨hcandidate, hupper⟩
    -- a requirement that is below its bound is rewritten, since it is not settled
    refine hbelow fun q hq c hc hlower => ?_
    have hhead := head_of_not_space hspace
    obtain ⟨⟨s, hs, -⟩, -⟩ := parse_bounded hq hhead hv
    have hne : s ≠ r := by
      rintro rfl
      exact hsettled ((withLowerBound_same_iff hq hhead hc hlower hv).1 hs)
    have hmem : (⟨r, s⟩ : DependencyUpdate) ∈ updates :=
      (mem_updates h).2 ⟨hr, v, htarget, hs, hne⟩
    obtain ⟨v', hv', -, hkept⟩ := hall _ hmem
    have hsame : v' = v := Option.some.inj (hv'.symm.trans htarget)
    exact hsame ▸ hkept q hq c hc hlower
  · intro hall u hu
    obtain ⟨hr, v, htarget, hs, hne⟩ := (mem_updates h).1 hu
    obtain ⟨hcandidate, hupper⟩ := target_eq_some.1 htarget
    have hspace : ¬u.oldRequirement.head?.any wsp = true := by
      intro hspace
      rw [withLowerBound_space hspace] at hs
      exact hne (Option.some.inj hs).symm
    refine ⟨v, htarget, hs, fun q hq c hc hlower => ?_⟩
    rcases hall _ hr v hcandidate hupper with hspace' | hsettled | hkept
    · exact absurd hspace' hspace
    · have hsame := (withLowerBound_same_iff hq (head_of_not_space hspace) hc hlower
        (candidate_versions hversions hcandidate)).2 hsettled
      rw [hsame] at hs
      exact absurd (Option.some.inj hs).symm hne
    · exact hkept q hq c hc hlower

theorem never_loosens_iff_pytest :
    (∀ u ∈ [(⟨"pytest>=9.0.0".toList, "pytest>=9.0.3".toList⟩ : DependencyUpdate)],
      NotLoosened (some : List Char → Option (List Char)) (fun _ => some "9.0.3".toList)
        (fun _ => none) u) ↔
    ∀ r ∈ ["pytest>=9.0.0".toList], NotBehind (some : List Char → Option (List Char))
      (fun _ => some "9.0.3".toList) (fun _ => none) r := by
  have hsync : syncRequirements (fun _ => some "9.0.3".toList) (fun _ => none)
      "dev = [\"pytest>=9.0.0\"]".toList ["pytest>=9.0.0".toList] =
        .ok ("dev = [\"pytest>=9.0.3\"]".toList,
          [⟨"pytest>=9.0.0".toList, "pytest>=9.0.3".toList⟩]) := by decide
  refine never_loosens_iff (fun name v h => ?_) hsync
  rcases h with h | h
  · cases h
    decide
  · cases h

/-- A lock that is behind takes `foo>=2.0` to `foo>=1.0`. -/
theorem loosens : ¬∀ (lockedVersions latestVersionResolver : List Char → Option (List Char))
    (text text' : List Char) (requirements : List (List Char)) (updates : List DependencyUpdate),
    syncRequirements lockedVersions latestVersionResolver text requirements = .ok (text', updates) →
    ∀ u ∈ updates, NotLoosened (some : List Char → Option (List Char)) lockedVersions
      latestVersionResolver u := by
  intro h
  obtain ⟨v, hv, -, hkept⟩ := h (fun _ => some "1.0".toList) (fun _ => none) "\"foo>=2.0\"".toList
    "\"foo>=1.0\"".toList ["foo>=2.0".toList] [⟨"foo>=2.0".toList, "foo>=1.0".toList⟩] (by decide) _
    (List.mem_singleton_self _)
  have hversion : v = "1.0".toList := by
    have htarget : targetDependencyVersion (fun _ => some "1.0".toList)
        (fun _ => none) "foo>=2.0".toList =
        some "1.0".toList := by decide
    exact Option.some.inj (hv.symm.trans htarget)
  have hq : Pep508.parse (some : List Char → Option (List Char)) "foo>=2.0".toList =
      some ⟨"foo".toList, [], none, [⟨.greaterEqual, "2.0".toList⟩], none⟩ := by decide
  obtain ⟨a, b, ha, hb, hle⟩ := hkept _ hq ⟨.greaterEqual, "2.0".toList⟩ (by decide) rfl
  have hold : Pep440.parse "2.0".toList = some ⟨0, [2, 0], none, none, none, []⟩ := by decide
  have hnew : Pep440.parse "1.0".toList = some ⟨0, [1, 0], none, none, none, []⟩ := by decide
  rw [hversion, hnew] at hb
  rw [hold] at ha
  cases ha
  cases hb
  exact absurd hle (by decide)

end

end FastapiTemplate.Management
