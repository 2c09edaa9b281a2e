/-
  Ranks of releases: when they follow the order of the releases
  (`rank_follows_release_iff`), and when the best ranked tag is a release
  (`chooses_release_iff`).
-/
import FastapiTemplate.Proof.Releases
import FastapiTemplate.Proof.TagStability

namespace FastapiTemplate.Management

/-! ## The order of releases -/

/-- The numbers are smaller, where missing ones count as zero. -/
def PadLt (a b : List ℕ) : Prop := ∃ i, (∀ j < i, a.getD j 0 = b.getD j 0) ∧ a.getD i 0 < b.getD i 0

/-- The first tag has a lower rank. -/
def Below (t u : List Char) : Prop :=
  ∃ r s, containerTagRank t = some r ∧ containerTagRank u = some s ∧ r < s

theorem append_lt_append_iff {p u v : List ℕ} : p ++ u < p ++ v ↔ u < v := by
  induction p with
  | nil => rfl
  | cons n p ih => simp [ih]

/-- Smaller numbers either differ at a place that both have, or end before the greater ones. -/
theorem PadLt.cases {a b : List ℕ} (h : PadLt a b) :
    (∃ p i j a' b', a = p ++ i :: a' ∧ b = p ++ j :: b' ∧ i < j) ∨ ∃ n rest, b =
    a ++ n :: rest := by
  induction a generalizing b with
  | nil =>
    cases b with
    | nil =>
      obtain ⟨i, -, hlt⟩ := h
      simp at hlt
    | cons n rest => exact .inr ⟨n, rest, rfl⟩
  | cons x a ih =>
    obtain ⟨i, heq, hlt⟩ := h
    cases b with
    | nil => simp at hlt
    | cons y b =>
      cases i with
      | zero => exact .inl ⟨[], x, y, a, b, rfl, rfl, by simpa using hlt⟩
      | succ i =>
        obtain rfl : x = y := by simpa using heq 0 (by omega)
        have htail : PadLt a b := by
          refine ⟨i, fun j hj => ?_, by simpa using hlt⟩
          simpa using heq (j + 1) (by omega)
        rcases ih htail with ⟨p, i, j, a', b', rfl, rfl, hij⟩ | ⟨n, rest, rfl⟩
        · exact .inl ⟨x :: p, i, j, a', b', rfl, rfl, hij⟩
        · exact .inr ⟨n, rest, rfl⟩

namespace Release

variable {r r' : Release}

theorem below_iff : Below r.text r'.text ↔
    r.release ++ r.buildNumber.toList < r'.release ++ r'.buildNumber.toList := by
  unfold Below
  rw [r.rank, r'.rank]
  simp [Prod.Lex.toLex_lt_toLex]

/-- The numbers of the lower release are the first ones of the other, its build stands against the
    next one, and is not smaller. -/
def BuildHides (r r' : Release) : Prop :=
  ∃ x n rest, r.buildNumber = some x ∧ r'.release = r.release ++ n :: rest ∧
    ¬(x < n ∨ (x = n ∧ (rest ≠ [] ∨ r'.buildNumber ≠ none)))

/-- **Ranks follow the order of releases** exactly when no build hides the next number of the
    greater one. -/
theorem rank_follows_release_iff :
    ((PadLt r.release r'.release → Below r.text r'.text) ∧
        (r.release = r'.release → ∀ x y, r.buildNumber = some x → r'.buildNumber = some y → x < y →
          Below r.text r'.text)) ↔
      ¬(PadLt r.release r'.release ∧ BuildHides r r') := by
  have hbuild : r.release = r'.release → ∀ x y, r.buildNumber = some x → r'.buildNumber = some y →
      x < y → Below r.text r'.text := by
    intro h x y hx hy hxy
    rw [below_iff, h, append_lt_append_iff, hx, hy]
    simpa [List.cons_lt_cons_iff] using hxy
  simp only [and_iff_left hbuild, not_and]
  refine forall_congr' fun hpad => ?_
  rw [below_iff]
  rcases hpad.cases with ⟨p, i, j, a, b, hr, hr', hij⟩ | ⟨n, rest, hr'⟩
  · -- they differ at a place that both have
    refine iff_of_true ?_ ?_
    · rw [hr, hr', List.append_assoc, List.append_assoc, append_lt_append_iff]
      simp [List.cons_lt_cons_iff, hij]
    · rintro ⟨x, n, rest, -, hpre, -⟩
      rw [hr, hr', List.append_assoc] at hpre
      have := List.append_cancel_left hpre
      simp only [List.cons_append, List.cons.injEq] at this
      omega
  · rw [hr', List.append_assoc, append_lt_append_iff]
    unfold BuildHides
    cases hx : r.buildNumber with
    | none => simp
    | some x =>
      have hmore : [] < rest ++ r'.buildNumber.toList ↔ rest ≠ [] ∨ r'.buildNumber ≠ none := by
        cases rest <;> cases r'.buildNumber <;> simp
      simp only [Option.toList_some, List.cons_append, List.cons_lt_cons_iff, hmore, hr',
        List.append_cancel_left_eq, List.cons.injEq, Option.some.injEq]
      constructor
      · rintro h ⟨x, n, rest, rfl, ⟨rfl, rfl⟩, hnot⟩
        exact hnot h
      · intro h
        by_contra hnot
        exact h ⟨x, n, rest, rfl, ⟨rfl, rfl⟩, hnot⟩

/-- The build of `1.2-p5` stands against the last number of `1.2.3`. -/
theorem build_hides_number : ¬∀ r r' : Release,
    (PadLt r.release r'.release → Below r.text r'.text) ∧
      (r.release = r'.release → ∀ x y, r.buildNumber = some x → r'.buildNumber = some y → x < y →
        Below r.text r'.text) := by
  intro h
  let r : Release := ⟨⟨false, [['1'], ['2']], by simp, by unfold IsNumeral; decide⟩, some ['5'],
    by unfold IsNumeral; decide⟩
  let r' : Release := ⟨⟨false, [['1'], ['2'], ['3']], by simp, by unfold IsNumeral; decide⟩, none,
    by simp⟩
  have hr : r.release = [1, 2] := by decide
  have hr' : r'.release = [1, 2, 3] := by decide
  have hbuild : r.buildNumber = some 5 := by decide
  have hbelow := below_iff.1 ((h r r').1 (by
    rw [hr, hr']
    exact ⟨2, by decide, by decide⟩))
  rw [hr, hr', hbuild] at hbelow
  revert hbelow
  decide

end Release

/-! ## The best ranked release -/

/-- The tag is a release. -/
def IsRelease (t : List Char) : Prop := ∃ r : Release, t = r.text

/-- The tag is no `RELEASE.<timestamp>` tag. -/
def NotStamped (t : List Char) : Prop := releaseContainerTagRank t = none

/-- Among the tags around a version, a release has greater numbers, or the same numbers and either
    stands before the version or does not share its preference of the suffix. -/
def BeatenByRelease (before after : List (List Char)) (v : ContainerTagVersion) : Prop :=
  ∃ u : Release,
    ((u.text ∈ before ∨ u.text ∈ after) ∧
        containerVersionWithBuildSuffix v < u.release ++ u.buildNumber.toList) ∨
      (containerVersionWithBuildSuffix v = u.release ++ u.buildNumber.toList ∧
        (u.text ∈ before ∨ (u.text ∈ after ∧ suffixPreference v.suffix < 3)))

section
variable {t : List Char} {v : ContainerTagVersion} {r : TagRank}

theorem suffixPreference_le {suffix : List Char} : suffixPreference suffix ≤ 3 := by
  unfold suffixPreference
  split <;> decide

theorem NotStamped.rank_iff (h : NotStamped t) : containerTagRank t = some r ↔
    ∃ v, containerTagVersion t = some v ∧
      r = toLex (1, toLex (containerVersionWithBuildSuffix v, suffixPreference v.suffix)) := by
  have hnone : releaseContainerTagRank t = none := h
  rw [containerTagRank, hnone]
  exact Option.map_eq_some_iff.trans (exists_congr fun v => and_congr_right fun _ => eq_comm)

/-- A `RELEASE.<timestamp>` tag ranks above every release. -/
theorem stamped_rank (h : ¬NotStamped t) : ∃ s, containerTagRank t = some s ∧
    ∀ u : Release, ∀ r, containerTagRank u.text = some r → r < s := by
  obtain ⟨s, hs⟩ := Option.ne_none_iff_exists'.1 h
  refine ⟨s, by rw [containerTagRank, hs], fun u r hr => ?_⟩
  unfold releaseContainerTagRank at hs
  obtain ⟨m, -, rfl⟩ := Option.map_eq_some_iff.1 hs
  rw [u.rank, Option.some.injEq] at hr
  subst hr
  exact Prod.Lex.toLex_lt_toLex.2 (.inl Nat.one_lt_two)

/-- What guards against a version, in its numbers and its suffix. -/
theorem beaten_iff {before after : List (List Char)}
    (hr : r = toLex (1, toLex (containerVersionWithBuildSuffix v, suffixPreference v.suffix))) :
    ((∃ u ∈ before, IsRelease u ∧ ∃ s, containerTagRank u = some s ∧ r ≤ s) ∨
        ∃ u ∈ after, IsRelease u ∧ ∃ s, containerTagRank u = some s ∧ r < s) ↔
      BeatenByRelease before after v := by
  subst hr
  constructor
  · rintro (⟨_, hu, ⟨u, rfl⟩, s, hs, hle⟩ | ⟨_, hu, ⟨u, rfl⟩, s, hs, hlt⟩)
    · rw [u.rank, Option.some.injEq] at hs
      subst hs
      simp only [Prod.Lex.toLex_le_toLex, lt_irrefl, false_or, true_and] at hle
      rcases hle with hlt | ⟨heq, -⟩
      · exact ⟨u, .inl ⟨.inl hu, hlt⟩⟩
      · exact ⟨u, .inr ⟨heq, .inl hu⟩⟩
    · rw [u.rank, Option.some.injEq] at hs
      subst hs
      simp only [Prod.Lex.toLex_lt_toLex, lt_irrefl, false_or, true_and] at hlt
      rcases hlt with hlt | ⟨heq, hpref⟩
      · exact ⟨u, .inl ⟨.inr hu, hlt⟩⟩
      · exact ⟨u, .inr ⟨heq, .inr ⟨hu, hpref⟩⟩⟩
  · rintro ⟨u, ⟨hu | hu, hlt⟩ | ⟨heq, hu | ⟨hu, hpref⟩⟩⟩
    · refine .inl ⟨_, hu, ⟨u, rfl⟩, _, u.rank, ?_⟩
      simp [Prod.Lex.toLex_le_toLex, hlt]
    · refine .inr ⟨_, hu, ⟨u, rfl⟩, _, u.rank, ?_⟩
      simp [Prod.Lex.toLex_lt_toLex, hlt]
    · refine .inl ⟨_, hu, ⟨u, rfl⟩, _, u.rank, ?_⟩
      simp [Prod.Lex.toLex_le_toLex, heq, suffixPreference_le]
    · refine .inr ⟨_, hu, ⟨u, rfl⟩, _, u.rank, ?_⟩
      simp [Prod.Lex.toLex_lt_toLex, heq, hpref]

/-- Releases guard a listing exactly when it has no `RELEASE.<timestamp>` tag and they beat every
    other version of it. -/
theorem guarded_release_iff {tags : List (List Char)} : GuardedBy IsRelease tags ↔
    (∀ t ∈ tags, NotStamped t) ∧ ∀ before t after v, tags = before ++ t :: after →
      containerTagVersion t = some v → ¬IsRelease t → BeatenByRelease before after v := by
  constructor
  · intro h
    have hstamped : ∀ t ∈ tags, NotStamped t := by
      intro t ht
      by_contra hnot
      obtain ⟨s, hs, habove⟩ := stamped_rank hnot
      obtain ⟨l₁, l₂, hl⟩ := List.append_of_mem ht
      have hrelease : ¬IsRelease t := by
        rintro ⟨u, rfl⟩
        exact lt_irrefl s (habove u s hs)
      rcases h l₁ t l₂ s hl hs hrelease with
        ⟨_, -, ⟨u, rfl⟩, r, hr, hle⟩ | ⟨_, -, ⟨u, rfl⟩, r, hr, hlt⟩
      · exact (habove u r hr).not_ge hle
      · exact (habove u r hr).not_gt hlt
    refine ⟨hstamped, fun before t after v hl hv ht => ?_⟩
    have hrank := (hstamped t (by simp [hl])).rank_iff.2 ⟨v, hv, rfl⟩
    exact (beaten_iff rfl).1 (h before t after _ hl hrank ht)
  · rintro ⟨hstamped, hbeaten⟩ l₁ t l₂ r hl hr ht
    obtain ⟨v, hv, hr⟩ := (hstamped t (by simp [hl])).rank_iff.1 hr
    exact (beaten_iff hr).2 (hbeaten l₁ t l₂ v hl hv ht)

end

/-- **The tag for an image without one, or with `latest`, is a release** exactly when there is no
    `RELEASE.<timestamp>` tag and a release beats the version of every tag that is none. -/
theorem chooses_release_iff {registryTags : List Char → List (List Char)} {repository : List Char}
    {c : Option (List Char)} (hc : c = none ∨ c = some "latest".toList)
    (hrelease : ∃ t ∈ registryTags repository, IsRelease t) :
    (∃ t, latestContainerImageTag registryTags repository c = some t ∧ IsRelease t) ↔
      (∀ t ∈ registryTags repository, NotStamped t) ∧
        ∀ before t after v, registryTags repository = before ++ t :: after →
          containerTagVersion t = some v → ¬IsRelease t → BeatenByRelease before after v := by
  have hbest : latestContainerImageTag registryTags repository c =
      bestRankedContainerTag (registryTags repository) := by
    rw [latestTag_eq]
    rcases hc with rfl | rfl
    · rfl
    · exact if_pos rfl
  obtain ⟨_, hmem, r, rfl⟩ := hrelease
  obtain ⟨b, hb⟩ := exists_bestRanked hmem r.rank
  rw [hbest, ← guarded_release_iff, ← bestRanked_all_iff, hb]
  simp

theorem chooses_release_iff_redis :
    (∃ t, latestContainerImageTag (fun _ => ["8-alpine".toList, "8".toList])
        "redis".toList (some "latest".toList) = some t ∧ IsRelease t) ↔
      (∀ t ∈ ["8-alpine".toList, "8".toList], NotStamped t) ∧
        ∀ before t after v, ["8-alpine".toList, "8".toList] = before ++ t :: after →
          containerTagVersion t = some v → ¬IsRelease t → BeatenByRelease before after v :=
  chooses_release_iff (.inr rfl) ⟨"8".toList, by simp,
    ⟨⟨false, [['8']], by simp, by unfold IsNumeral; decide⟩, none, by simp⟩, by decide⟩

/-- A release candidate of a later version is taken. -/
theorem chooses_candidate :
    ¬∀ (registryTags : List Char → List (List Char)) (repository : List Char),
    (∀ t ∈ registryTags repository, releaseContainerTagRank t = none) →
    (∃ t ∈ registryTags repository, IsRelease t) →
      ∃ t, latestContainerImageTag registryTags repository none = some t ∧ IsRelease t := by
  intro h
  obtain ⟨t, ht, r, rfl⟩ := h (fun _ => ["8".toList, "9.0-rc1".toList]) "redis".toList
    (by decide) ⟨"8".toList, by simp,
      ⟨⟨false, [['8']], by simp, by unfold IsNumeral; decide⟩, none, by simp⟩, by decide⟩
  have hbest :
      latestContainerImageTag (fun _ => ["8".toList, "9.0-rc1".toList]) "redis".toList none =
      some "9.0-rc1".toList := by decide
  rw [hbest, Option.some.injEq] at ht
  have hversion : containerTagVersion "9.0-rc1".toList = some ⟨[], [9, 0], "-rc1".toList⟩ := by
    decide
  rw [ht, r.tagVersion] at hversion
  have hsuffix : r.suffix = "-rc1".toList :=
    congrArg ContainerTagVersion.suffix (Option.some.inj hversion)
  unfold Release.suffix at hsuffix
  cases hb : r.build with
  | none =>
    rw [hb] at hsuffix
    exact absurd hsuffix (by decide)
  | some b =>
    rw [hb] at hsuffix
    exact absurd (List.cons.inj (List.cons.inj hsuffix).2).1 (by decide)

end FastapiTemplate.Management
