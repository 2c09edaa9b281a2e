/-
  When the container updater downgrades (`never_downgrades_iff`): it takes the
  first tag of the highest rank that the registry lists for the variant, and
  compares it with the current tag only for equality.
-/
import FastapiTemplate.Management.ContainerTags

namespace FastapiTemplate.Management

variable {tags : List (List Char)} {t : List Char} {r : TagRank}

/-- The first tag of the highest rank. -/
def FirstBest (tags : List (List Char)) (t : List Char) : Prop :=
  ∃ l₁ l₂ r, tags = l₁ ++ t :: l₂ ∧ containerTagRank t = some r ∧
    (∀ u ∈ l₁, ∀ s, containerTagRank u = some s → s < r) ∧
    ∀ u ∈ l₂, ∀ s, containerTagRank u = some s → s ≤ r

/-- What the loop has found after some tags. -/
theorem foldl_betterTag (tags : List (List Char)) :
    match tags.foldl betterTag none with
    | none => ∀ u ∈ tags, containerTagRank u = none
    | some (t, r) => containerTagRank t = some r ∧ ∃ l₁ l₂, tags = l₁ ++ t :: l₂ ∧
        (∀ u ∈ l₁, ∀ s, containerTagRank u = some s → s < r) ∧
        ∀ u ∈ l₂, ∀ s, containerTagRank u = some s → s ≤ r := by
  induction tags using List.reverseRecOn with
  | nil => exact fun u hu => (List.not_mem_nil hu).elim
  | append_singleton tags a ih =>
    rw [List.foldl_append, List.foldl_cons, List.foldl_nil]
    generalize tags.foldl betterTag none = best at ih
    cases hrank : containerTagRank a with
    | none =>
      have hbetter : betterTag best a = best := by
        unfold betterTag
        rw [hrank]
      rw [hbetter]
      cases best with
      | none =>
        intro u hu
        rcases List.mem_append.1 hu with hu | hu
        · exact ih u hu
        · rw [List.mem_singleton.1 hu, hrank]
      | some b =>
        obtain ⟨hr, l₁, l₂, rfl, h₁, h₂⟩ := ih
        refine ⟨hr, l₁, l₂ ++ [a], by simp, h₁, fun u hu s hs => ?_⟩
        rcases List.mem_append.1 hu with hu | hu
        · exact h₂ u hu s hs
        · rw [List.mem_singleton.1 hu, hrank] at hs
          cases hs
    | some rank =>
      cases best with
      | none =>
        have hbetter : betterTag none a = some (a, rank) := by
          unfold betterTag
          rw [hrank]
        rw [hbetter]
        refine ⟨hrank, tags, [], rfl, fun u hu s hs => ?_, nofun⟩
        rw [ih u hu] at hs
        cases hs
      | some b =>
        obtain ⟨t, r⟩ := b
        obtain ⟨hr, l₁, l₂, rfl, h₁, h₂⟩ := ih
        have hbetter : betterTag (some (t, r)) a =
            if r < rank then some (a, rank) else some (t, r) := by
          unfold betterTag
          rw [hrank]
        rw [hbetter]
        by_cases hlt : r < rank
        · -- the new tag beats the best so far, and with it all before
          rw [if_pos hlt]
          refine ⟨hrank, l₁ ++ t :: l₂, [], by simp, fun u hu s hs => ?_, nofun⟩
          rcases List.mem_append.1 hu with hu | hu
          · exact (h₁ u hu s hs).trans hlt
          · rcases List.mem_cons.1 hu with rfl | hu
            · rw [hr] at hs
              cases hs
              exact hlt
            · exact (h₂ u hu s hs).trans_lt hlt
        · rw [if_neg hlt]
          refine ⟨hr, l₁, l₂ ++ [a], by simp, h₁, fun u hu s hs => ?_⟩
          rcases List.mem_append.1 hu with hu | hu
          · exact h₂ u hu s hs
          · rw [List.mem_singleton.1 hu, hrank] at hs
            cases hs
            exact not_lt.1 hlt

/-- The best ranked tag is the first one of the highest rank. -/
theorem firstBest_of_bestRanked (h : bestRankedContainerTag tags = some t) : FirstBest tags t := by
  obtain ⟨⟨t', r⟩, hb, rfl⟩ := Option.map_eq_some_iff.1 h
  have hspec := foldl_betterTag tags
  rw [hb] at hspec
  obtain ⟨hr, l₁, l₂, htags, h₁, h₂⟩ := hspec
  exact ⟨l₁, l₂, r, htags, hr, h₁, h₂⟩

/-- Where some tag has a rank, there is a best one. -/
theorem exists_bestRanked {u : List Char} (hu : u ∈ tags) (hr : containerTagRank u = some r) :
    ∃ t, bestRankedContainerTag tags = some t := by
  have hspec := foldl_betterTag tags
  unfold bestRankedContainerTag
  generalize tags.foldl betterTag none = best at hspec
  cases best with
  | none =>
    rw [hspec u hu] at hr
    cases hr
  | some b => exact ⟨b.1, rfl⟩

/-- The first best tag stands before every other one, with at least its rank, or after it with a
    higher one. -/
theorem FirstBest.compare {b : List Char} (hb : FirstBest tags b) {l₁ l₂ : List (List Char)}
    (hl : tags = l₁ ++ t :: l₂) (ht : containerTagRank t = some r) :
    b = t ∨ (b ∈ l₁ ∧ ∃ s, containerTagRank b = some s ∧ r ≤ s) ∨
      b ∈ l₂ ∧ ∃ s, containerTagRank b = some s ∧ r < s := by
  obtain ⟨k₁, k₂, s, hk, hs, h₁, h₂⟩ := hb
  rcases List.append_eq_append_iff.1 (hk.symm.trans hl) with ⟨m, hm₁, hm₂⟩ | ⟨m, hm₁, hm₂⟩
  · cases m with
    | nil => exact .inl (List.cons.inj hm₂).1
    | cons c m =>
      obtain ⟨rfl, rfl⟩ := List.cons.inj hm₂
      exact .inr (.inl ⟨by simp [hm₁], s, hs, h₂ t (by simp) r ht⟩)
  · cases m with
    | nil => exact .inl (List.cons.inj hm₂).1.symm
    | cons c m =>
      obtain ⟨rfl, rfl⟩ := List.cons.inj hm₂
      exact .inr (.inr ⟨by simp, s, hs, h₁ t (by simp [hm₁]) r ht⟩)

/-- There is only one first tag of the highest rank. -/
theorem FirstBest.unique {b : List Char} (hb : FirstBest tags b) (ht : FirstBest tags t) :
    b = t := by
  obtain ⟨l₁, l₂, r, hl, hr, h₁, h₂⟩ := ht
  rcases hb.compare hl hr with h | ⟨hmem, s, hs, hle⟩ | ⟨hmem, s, hs, hlt⟩
  · exact h
  · exact absurd (h₁ b hmem s hs) (not_lt.2 hle)
  · exact absurd (h₂ b hmem s hs) (not_le.2 hlt)

theorem FirstBest.mem (ht : FirstBest tags t) : t ∈ tags := by
  obtain ⟨l₁, l₂, r, rfl, -⟩ := ht
  simp

theorem FirstBest.ranked (ht : FirstBest tags t) : ∃ r, containerTagRank t = some r := by
  obtain ⟨l₁, l₂, r, -, hr, -⟩ := ht
  exact ⟨r, hr⟩

theorem FirstBest.max (ht : FirstBest tags t) : ∃ r, containerTagRank t = some r ∧
    ∀ u ∈ tags, ∀ s, containerTagRank u = some s → s ≤ r := by
  obtain ⟨l₁, l₂, r, rfl, hr, h₁, h₂⟩ := ht
  refine ⟨r, hr, fun u hu s hs => ?_⟩
  rcases List.mem_append.1 hu with hu | hu
  · exact (h₁ u hu s hs).le
  · rcases List.mem_cons.1 hu with rfl | hu
    · exact (Option.some.inj (hs.symm.trans hr)).le
    · exact h₂ u hu s hs

/-- The first best tag is so among the ones like it as well. -/
theorem FirstBest.filter {p : List Char → Bool} (ht : FirstBest tags t) (hp : p t = true) :
    FirstBest (tags.filter p) t := by
  obtain ⟨l₁, l₂, r, rfl, hr, h₁, h₂⟩ := ht
  refine ⟨l₁.filter p, l₂.filter p, r, ?_, hr, fun u hu => h₁ u (List.mem_filter.1 hu).1,
    fun u hu => h₂ u (List.mem_filter.1 hu).1⟩
  rw [List.filter_append, List.filter_cons_of_pos hp]

theorem bestRanked_iff : bestRankedContainerTag tags = some t ↔ FirstBest tags t := by
  refine ⟨firstBest_of_bestRanked, fun ht => ?_⟩
  obtain ⟨r, hr⟩ := ht.ranked
  obtain ⟨u, hu⟩ := exists_bestRanked ht.mem hr
  rw [hu, ht.unique (firstBest_of_bestRanked hu)]

/-- Whichever ranked tag does not have the property, one with it comes before it in the order of the
    updater: by rank, and for the same rank by place. -/
def GuardedBy (P : List Char → Prop) (tags : List (List Char)) : Prop :=
  ∀ l₁ t l₂ r, tags = l₁ ++ t :: l₂ → containerTagRank t = some r → ¬P t →
    (∃ u ∈ l₁, P u ∧ ∃ s, containerTagRank u = some s ∧ r ≤ s) ∨
      ∃ u ∈ l₂, P u ∧ ∃ s, containerTagRank u = some s ∧ r < s

/-- The best tag has a property exactly when the tags are guarded by it. -/
theorem bestRanked_all_iff {P : List Char → Prop} :
    (∀ t, bestRankedContainerTag tags = some t → P t) ↔ GuardedBy P tags := by
  constructor
  · intro h l₁ t l₂ r hl hr ht
    have hmem : t ∈ tags := by
      rw [hl]
      simp
    obtain ⟨b, hb⟩ := exists_bestRanked hmem hr
    have hP := h b hb
    rcases (firstBest_of_bestRanked hb).compare hl hr with rfl | ⟨hb, hrank⟩ | ⟨hb, hrank⟩
    · exact absurd hP ht
    · exact Or.inl ⟨b, hb, hP, hrank⟩
    · exact Or.inr ⟨b, hb, hP, hrank⟩
  · intro h t ht
    obtain ⟨l₁, l₂, r, hl, hr, h₁, h₂⟩ := firstBest_of_bestRanked ht
    by_contra hP
    rcases h l₁ t l₂ r hl hr hP with ⟨u, hu, -, s, hs, hle⟩ | ⟨u, hu, -, s, hs, hlt⟩
    · exact absurd (h₁ u hu s hs) (not_lt.2 hle)
    · exact absurd (h₂ u hu s hs) (not_le.2 hlt)

/-- A tag with a version has a rank. -/
theorem rank_of_version {v : ContainerTagVersion} (h : containerTagVersion t = some v) :
    ∃ r, containerTagRank t = some r := by
  unfold containerTagRank
  cases releaseContainerTagRank t with
  | some r => exact ⟨r, rfl⟩
  | none => exact ⟨_, by rw [h]; rfl⟩

section
variable {repository currentTag : List Char} {current : ContainerTagVersion}

/-- A tag with the version of the current tag, or a later one. -/
def NotLower (current : ContainerTagVersion) (t : List Char) : Prop :=
  ∃ v, containerTagVersion t = some v ∧ current.version ≤ v.version

/-- Whichever candidate is lower than the current tag, one that is not lower comes before it in the
    order of the updater: by rank, and for the same rank by place. -/
def Guarded (current : ContainerTagVersion) (candidates : List (List Char)) : Prop :=
  ∀ l₁ t l₂, candidates = l₁ ++ t :: l₂ → ¬NotLower current t →
    (∃ u ∈ l₁, NotLower current u ∧ containerTagRank t ≤ containerTagRank u) ∨
      ∃ u ∈ l₂, NotLower current u ∧ containerTagRank t < containerTagRank u

theorem version_of_mem (ht : t ∈ sameVariantTags repository currentTag current tags) :
    ∃ v, containerTagVersion t = some v := by
  have hm := (List.mem_filter.1 ht).2
  unfold matchesContainerTagVariant at hm
  split at hm
  · cases hm
  · exact ⟨_, ‹_›⟩

/-- The updater takes a tag of the same variant that is lower than the current one exactly when the
    candidates are not guarded. -/
theorem best_notLower_iff (hcurrent : containerTagVersion currentTag = some current) :
    (∀ t, bestSameVariantContainerTag repository currentTag tags = some t → NotLower current t) ↔
      Guarded current (sameVariantTags repository currentTag current tags) := by
  have hbest : bestSameVariantContainerTag repository currentTag tags =
      bestRankedContainerTag (sameVariantTags repository currentTag current tags) := by
    rw [bestSameVariantContainerTag, hcurrent]
    rfl
  rw [hbest, bestRanked_all_iff]
  have hrank : ∀ {t}, t ∈ sameVariantTags repository currentTag current tags →
      ∃ r, containerTagRank t = some r := by
    intro t ht
    obtain ⟨v, hv⟩ := version_of_mem ht
    exact rank_of_version hv
  constructor
  · intro h l₁ t l₂ hl ht
    obtain ⟨r, hr⟩ := hrank (t := t) (by rw [hl]; simp)
    rw [hr]
    rcases h l₁ t l₂ r hl hr ht with ⟨u, hu, hP, s, hs, hle⟩ | ⟨u, hu, hP, s, hs, hlt⟩
    · exact Or.inl ⟨u, hu, hP, hs ▸ hle⟩
    · exact Or.inr ⟨u, hu, hP, hs ▸ hlt⟩
  · intro h l₁ t l₂ r hl hr ht
    rcases h l₁ t l₂ hl ht with ⟨u, hu, hP, hle⟩ | ⟨u, hu, hP, hlt⟩
    · obtain ⟨s, hs⟩ := hrank (t := u) (by rw [hl]; simp [hu])
      rw [hr, hs] at hle
      exact Or.inl ⟨u, hu, hP, s, hs, hle⟩
    · obtain ⟨s, hs⟩ := hrank (t := u) (by rw [hl]; simp [hu])
      rw [hr, hs] at hlt
      exact Or.inr ⟨u, hu, hP, s, hs, hlt⟩

theorem bestCompatible_eq_some
    (h : bestSameVariantContainerTag repository currentTag tags = some t) :
    bestCompatibleContainerTag repository currentTag tags = some t ↔ t ≠ currentTag := by
  unfold bestCompatibleContainerTag
  rw [h]
  by_cases ht : t = currentTag
  · subst ht
    cases bestPinnedFloatingContainerTag t tags <;> simp [Option.filter]
  · simp [Option.filter, ht]

/-- Tags of the same variant are ranked by their versions, without a build and without
    `RELEASE.<timestamp>` tags. -/
theorem version_le_of_rank (hbuild : CONTAINER_BUILD_SUFFIX_RE.fullmatch? current.suffix = none)
    (hstamped : ∀ u ∈ sameVariantTags repository currentTag current tags,
      releaseContainerTagRank u = none) {u : List Char} {s : TagRank} {v w : ContainerTagVersion}
    (ht : t ∈ sameVariantTags repository currentTag current tags)
    (hu : u ∈ sameVariantTags repository currentTag current tags)
    (hv : containerTagVersion t = some v) (hw : containerTagVersion u = some w)
    (hr : containerTagRank t = some r) (hs : containerTagRank u = some s) (hle : r ≤ s) :
    v.version ≤ w.version := by
  have hrank : ∀ {t : List Char} {v : ContainerTagVersion},
      t ∈ sameVariantTags repository currentTag current tags → containerTagVersion t = some v →
        containerTagRank t = some (toLex (1, toLex (v.version, suffixPreference v.suffix))) := by
    intro t v ht hv
    have hm := (List.mem_filter.1 ht).2
    have hsuffix : v.suffix = current.suffix := by
      simp only [matchesContainerTagVariant, hv, Bool.and_eq_true, beq_iff_eq] at hm
      exact hm.1.2
    have hnumbers : containerVersionWithBuildSuffix v = v.version := by
      simp only [containerVersionWithBuildSuffix, hsuffix, hbuild]
    rw [containerTagRank, hstamped t ht, hv, ← hnumbers]
    rfl
  rw [hrank ht hv, Option.some.injEq] at hr
  rw [hrank hu hw, Option.some.injEq] at hs
  subst hr hs
  simp only [Prod.Lex.toLex_le_toLex, lt_irrefl, false_or, true_and] at hle
  rcases hle with hlt | ⟨heq, -⟩
  · exact hlt.le
  · exact heq.le

/-- Where the current tag or a later one is listed, the candidates are guarded, without a build and
    without `RELEASE.<timestamp>` tags. -/
theorem guarded_of_listed (hbuild : CONTAINER_BUILD_SUFFIX_RE.fullmatch? current.suffix = none)
    (hstamped : ∀ u ∈ sameVariantTags repository currentTag current tags,
      releaseContainerTagRank u = none)
    (hlisted : ∃ u ∈ sameVariantTags repository currentTag current tags, NotLower current u) :
    Guarded current (sameVariantTags repository currentTag current tags) := by
  obtain ⟨u, hu, w, hw, hcurrent⟩ := hlisted
  obtain ⟨s, hs⟩ := rank_of_version hw
  obtain ⟨b, hb⟩ := exists_bestRanked hu hs
  have hbest := firstBest_of_bestRanked hb
  obtain ⟨rb, hrb, hmax⟩ := hbest.max
  obtain ⟨x, hx⟩ := version_of_mem hbest.mem
  have hle := version_le_of_rank hbuild hstamped hu hbest.mem hw hx hs hrb (hmax u hu s hs)
  have hnotLower : NotLower current b := ⟨x, hx, hcurrent.trans hle⟩
  intro l₁ t l₂ hl ht
  have hmem : t ∈ sameVariantTags repository currentTag current tags := by
    rw [hl]
    simp
  obtain ⟨v, hv⟩ := version_of_mem hmem
  obtain ⟨r, hr⟩ := rank_of_version hv
  rw [hr]
  rcases hbest.compare hl hr with rfl | ⟨hmem, s', hs', hle⟩ | ⟨hmem, s', hs', hlt⟩
  · exact absurd hnotLower ht
  · exact .inl ⟨b, hmem, hnotLower, hs' ▸ hle⟩
  · exact .inr ⟨b, hmem, hnotLower, hs' ▸ hlt⟩

/-- **The same-variant rule never downgrades** exactly when the candidates are guarded; where the
    current tag has no build and nothing is stamped, they are if it or a later one is listed. -/
theorem never_downgrades_iff (hcurrent : containerTagVersion currentTag = some current) :
    ((∀ t, bestCompatibleContainerTag repository currentTag tags = some t →
        bestSameVariantContainerTag repository currentTag tags = some t → NotLower current t) ↔
      Guarded current (sameVariantTags repository currentTag current tags)) ∧
    (CONTAINER_BUILD_SUFFIX_RE.fullmatch? current.suffix = none →
      (∀ u ∈ sameVariantTags repository currentTag current tags, releaseContainerTagRank u = none) →
      (∃ u ∈ sameVariantTags repository currentTag current tags, NotLower current u) →
        Guarded current (sameVariantTags repository currentTag current tags)) := by
  refine ⟨?_, guarded_of_listed⟩
  rw [← best_notLower_iff hcurrent]
  constructor
  · intro h t ht
    by_cases htc : t = currentTag
    · rw [htc]
      exact ⟨current, hcurrent, le_refl _⟩
    · exact h t ((bestCompatible_eq_some ht).2 htc) ht
  · exact fun h t _ ht => h t ht

end

theorem never_downgrades_iff_uv :
    (∀ t, bestCompatibleContainerTag "ghcr.io/astral-sh/uv".toList "0.11.8".toList
        ["0.11.8".toList, "0.10.1".toList, "0.9.28".toList] = some t →
      bestSameVariantContainerTag "ghcr.io/astral-sh/uv".toList "0.11.8".toList
        ["0.11.8".toList, "0.10.1".toList, "0.9.28".toList] = some t →
      NotLower ⟨[], [0, 11, 8], []⟩ t) ↔
      Guarded ⟨[], [0, 11, 8], []⟩ (sameVariantTags "ghcr.io/astral-sh/uv".toList "0.11.8".toList
        ⟨[], [0, 11, 8], []⟩ ["0.11.8".toList, "0.10.1".toList, "0.9.28".toList]) :=
  (never_downgrades_iff (by decide)).1

/-- A listing without the current tag and without later ones takes `postgres:16.4` to `16.3`. -/
theorem downgrades : ¬∀ (repository currentTag : List Char) (tags : List (List Char))
    (current : ContainerTagVersion), containerTagVersion currentTag = some current →
    ∀ t, bestCompatibleContainerTag repository currentTag tags = some t →
      bestSameVariantContainerTag repository currentTag tags = some t → NotLower current t := by
  intro h
  obtain ⟨v, hv, hle⟩ := h "postgres".toList "16.4".toList ["16.3".toList] ⟨[], [16, 4], []⟩
    (by decide) "16.3".toList (by decide) (by decide)
  have hversion : containerTagVersion "16.3".toList = some ⟨[], [16, 3], []⟩ := by decide
  rw [hversion] at hv
  cases hv
  exact absurd hle (by decide)

end FastapiTemplate.Management
