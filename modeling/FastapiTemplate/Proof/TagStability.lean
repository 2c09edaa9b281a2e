/-
  When a second selection over the same tags finds nothing new
  (`settles_iff`), and when the order of the tags does not matter
  (`latestTag_congr`).
-/
import FastapiTemplate.Proof.TagVariants

namespace FastapiTemplate.Management

/-! ## A second selection -/

/-- The tag is the best of its variant, and no ranked tag ends in it. -/
def Settled (repository : List Char) (tags : List (List Char)) (t : List Char) : Prop :=
  GuardedBy (· = t) (variantTags repository t tags) ∧
    ∀ u ∈ pinnedTags t tags, containerTagRank u = none

/-- Every tag that the selection can take is settled, or there is one that it takes before. -/
def Settles (repository : List Char) (tags : List (List Char)) : Option (List Char) → Prop
  | none => GuardedBy (Settled repository tags) tags
  | some currentTag =>
    if currentTag = "latest".toList then GuardedBy (Settled repository tags) tags
    else GuardedBy (fun t => t = currentTag ∨ Settled repository tags t)
        (variantTags repository currentTag tags) ∧
      (GuardedBy (· = currentTag) (variantTags repository currentTag tags) →
        GuardedBy (Settled repository tags) (pinnedTags currentTag tags))

section
variable {repository currentTag t : List Char} {tags : List (List Char)}
  {registryTags : List Char → List (List Char)}

theorem settled_iff : Settled repository tags t ↔
    bestCompatibleContainerTag repository t tags = none ∨
      bestCompatibleContainerTag repository t tags = some t := by
  have hall : (bestCompatibleContainerTag repository t tags = none ∨
      bestCompatibleContainerTag repository t tags = some t) ↔
      ∀ u, bestCompatibleContainerTag repository t tags = some u → u = t := by
    cases bestCompatibleContainerTag repository t tags <;> simp
  have hpinned : GuardedBy (· = t) (pinnedTags t tags) ↔
      ∀ u ∈ pinnedTags t tags, containerTagRank u = none := by
    rw [← bestRanked_all_iff, ← bestRanked_eq_none_iff]
    cases hbest : bestRankedContainerTag (pinnedTags t tags) with
    | none => simp
    | some b => simpa using ne_of_mem_pinnedTags (firstBest_of_bestRanked hbest).mem
  rw [hall, bestCompatible_all_iff, hpinned]
  simp only [or_self]
  exact ⟨fun h => ⟨h.1, fun _ => h.2⟩, fun h => ⟨h.1, h.2 h.1⟩⟩

theorem bestCompatible_nil : bestCompatibleContainerTag repository currentTag [] = none := by
  refine Option.eq_none_iff_forall_ne_some.2 fun t h => ?_
  rcases bestCompatible_iff.1 h with ⟨hbest, -⟩ | ⟨-, hbest⟩
  · exact List.not_mem_nil (mem_variantTags.1 hbest.mem).1
  · exact List.not_mem_nil (mem_pinnedTags.1 hbest.mem).1

/-- The selection without the test for an empty list, which makes no difference. -/
theorem latestTag_eq {c : Option (List Char)} : latestContainerImageTag registryTags repository c =
    match c with
    | none => bestRankedContainerTag (registryTags repository)
    | some currentTag =>
      if currentTag = "latest".toList then bestRankedContainerTag (registryTags repository)
      else bestCompatibleContainerTag repository currentTag (registryTags repository) := by
  unfold latestContainerImageTag
  simp only
  split
  · rename_i hnil
    rw [hnil]
    cases c with
    | none => rfl
    | some currentTag =>
      simp only
      split
      · rfl
      · rw [bestCompatible_nil]
  · rfl

theorem latestTag_ranked {c : Option (List Char)}
    (h : latestContainerImageTag registryTags repository c = some t) :
    ∃ r, containerTagRank t = some r := by
  rw [latestTag_eq] at h
  cases c with
  | none => exact (firstBest_of_bestRanked h).ranked
  | some currentTag =>
    simp only at h
    split at h
    · exact (firstBest_of_bestRanked h).ranked
    · rcases bestCompatible_iff.1 h with ⟨hbest, -⟩ | ⟨-, hbest⟩
      · exact hbest.ranked
      · exact hbest.ranked

/-- **A second selection finds nothing new** exactly when every tag that the first one can take is
    settled. -/
theorem settles_iff {c : Option (List Char)} :
    (∀ t, latestContainerImageTag registryTags repository c = some t →
      latestContainerImageTag registryTags repository (some t) = none ∨
        latestContainerImageTag registryTags repository (some t) = some t) ↔
      Settles repository (registryTags repository) c := by
  have hsecond : (∀ t, latestContainerImageTag registryTags repository c = some t →
      latestContainerImageTag registryTags repository (some t) = none ∨
        latestContainerImageTag registryTags repository (some t) = some t) ↔
      ∀ t, latestContainerImageTag registryTags repository c = some t →
        Settled repository (registryTags repository) t := by
    refine forall_congr' fun t => forall_congr' fun ht => ?_
    have hne : t ≠ "latest".toList := by
      rintro rfl
      obtain ⟨r, hr⟩ := latestTag_ranked ht
      have hnone : containerTagRank "latest".toList = none := by decide +kernel
      rw [hnone] at hr
      cases hr
    rw [settled_iff, latestTag_eq]
    simp only [hne, if_false]
  rw [hsecond, latestTag_eq]
  cases c with
  | none => exact bestRanked_all_iff
  | some currentTag =>
    unfold Settles
    simp only
    split
    · exact bestRanked_all_iff
    · exact bestCompatible_all_iff

end

/-- A tag of another flavour that ends in the tag selected first is selected next. -/
theorem changes_again : ¬∀ (registryTags : List Char → List (List Char)) (repository : List Char)
    (c : Option (List Char)) (t : List Char),
    latestContainerImageTag registryTags repository c = some t →
      latestContainerImageTag registryTags repository (some t) = none ∨
        latestContainerImageTag registryTags repository (some t) = some t := by
  intro h
  have hagain := h (fun _ => ["3.20".toList, "3.21".toList, "18-3.21".toList]) "example/app".toList
    (some "3.20".toList) "3.21".toList (by decide)
  revert hagain
  decide

/-! ## The order of the tags -/

/-- No two different tags share the highest rank. -/
def Untied (tags : List (List Char)) : Prop :=
  ∀ t ∈ tags, ∀ u ∈ tags, ∀ r, containerTagRank t = some r → containerTagRank u = some r →
    (∀ v ∈ tags, ∀ s, containerTagRank v = some s → s ≤ r) → t = u

/-- No two different candidates share the highest rank, in the lists that the selection gets to. -/
def UntiedCandidates (repository : List Char) (tags : List (List Char)) : Option (List Char) → Prop
  | none => Untied tags
  | some currentTag =>
    if currentTag = "latest".toList then Untied tags
    else Untied (variantTags repository currentTag tags) ∧
      (GuardedBy (· = currentTag) (variantTags repository currentTag tags) →
        Untied (pinnedTags currentTag tags))

section
variable {repository currentTag t : List Char} {tags tags' : List (List Char)}

/-- Without ties, the best tag depends only on which tags there are. -/
theorem firstBest_congr (hsame : ∀ t, t ∈ tags ↔ t ∈ tags') (h : Untied tags) :
    FirstBest tags t ↔ FirstBest tags' t := by
  have hto : ∀ {t}, FirstBest tags t → FirstBest tags' t := by
    intro t ht
    obtain ⟨r, hr, hmax⟩ := ht.max
    obtain ⟨b, hb⟩ := exists_bestRanked ((hsame t).1 ht.mem) hr
    have hb := firstBest_of_bestRanked hb
    obtain ⟨s, hs, hmax'⟩ := hb.max
    have hle : r ≤ s := hmax' t ((hsame t).1 ht.mem) r hr
    have hge : s ≤ r := hmax b ((hsame b).2 hb.mem) s hs
    obtain rfl := le_antisymm hle hge
    rw [h t ht.mem b ((hsame b).2 hb.mem) r hr hs hmax]
    exact hb
  refine ⟨hto, fun ht => ?_⟩
  obtain ⟨r, hr⟩ := ht.ranked
  obtain ⟨b, hb⟩ := exists_bestRanked ((hsame t).2 ht.mem) hr
  have hb := firstBest_of_bestRanked hb
  rw [ht.unique (hto hb)]
  exact hb

theorem bestRanked_congr (hsame : ∀ t, t ∈ tags ↔ t ∈ tags') (h : Untied tags) :
    bestRankedContainerTag tags = bestRankedContainerTag tags' := by
  refine Option.ext fun t => ?_
  rw [bestRanked_iff, bestRanked_iff, firstBest_congr hsame h]

theorem bestCompatible_sameTags (hsame : ∀ t, t ∈ tags ↔ t ∈ tags')
    (hvariant : Untied (variantTags repository currentTag tags))
    (hpinned : GuardedBy (· = currentTag) (variantTags repository currentTag tags) →
      Untied (pinnedTags currentTag tags)) :
    bestCompatibleContainerTag repository currentTag tags =
      bestCompatibleContainerTag repository currentTag tags' := by
  have hvariants : ∀ t, t ∈ variantTags repository currentTag tags ↔
      t ∈ variantTags repository currentTag tags' := fun t => by
    rw [mem_variantTags, mem_variantTags, hsame]
  have hpins : ∀ t, t ∈ pinnedTags currentTag tags ↔ t ∈ pinnedTags currentTag tags' := fun t => by
    rw [mem_pinnedTags, mem_pinnedTags, hsame]
  refine Option.ext fun t => ?_
  simp only [bestCompatible_iff, ← firstBest_congr hvariants hvariant]
  refine or_congr_right (and_congr_right fun hcurrent => firstBest_congr hpins (hpinned ?_))
  rw [← bestRanked_all_iff]
  exact fun u hu => hcurrent u (firstBest_of_bestRanked hu)

/-- **The order of the tags does not matter**, nor how often they are listed, as long as no two
    different candidates share the highest rank. -/
theorem latestTag_congr {registryTags registryTags' : List Char → List (List Char)}
    {c : Option (List Char)}
    (hsame : ∀ t, t ∈ registryTags repository ↔ t ∈ registryTags' repository)
    (h : UntiedCandidates repository (registryTags repository) c) :
    latestContainerImageTag registryTags repository c =
      latestContainerImageTag registryTags' repository c := by
  rw [latestTag_eq, latestTag_eq]
  cases c with
  | none => exact bestRanked_congr hsame h
  | some currentTag =>
    simp only [UntiedCandidates] at h ⊢
    split at h
    · rename_i hlatest
      rw [if_pos hlatest, if_pos hlatest]
      exact bestRanked_congr hsame h
    · rename_i hlatest
      rw [if_neg hlatest, if_neg hlatest]
      exact bestCompatible_sameTags hsame h.1 h.2

end

theorem latestTag_congr_redis :
    latestContainerImageTag (fun _ => ["8.6.1".toList, "8.6.2".toList]) "redis".toList none =
      latestContainerImageTag (fun _ => ["8.6.2".toList, "8.6.1".toList, "8.6.2".toList])
        "redis".toList none := by
  refine latestTag_congr (fun t => ?_) (fun t ht u hu r hr hs _ => ?_)
  · simp only [List.mem_cons, List.not_mem_nil, or_false]
    tauto
  · simp only [List.mem_cons, List.not_mem_nil, or_false] at ht hu
    have hne : containerTagRank "8.6.1".toList ≠ containerTagRank "8.6.2".toList := by decide
    rcases ht with rfl | rfl <;> rcases hu with rfl | rfl
    · rfl
    · exact absurd (hr.trans hs.symm) hne
    · exact absurd (hs.trans hr.symm) hne
    · rfl

/-- Two spellings of one version: the first one listed is taken. -/
theorem depends_on_order : ¬∀ (registryTags registryTags' : List Char → List (List Char))
    (repository : List Char) (c : Option (List Char)),
    (registryTags repository).Perm (registryTags' repository) →
      latestContainerImageTag registryTags repository c =
        latestContainerImageTag registryTags' repository c := by
  intro h
  have heq :=
    h (fun _ => ["1.2".toList, "v1.2".toList]) (fun _ => ["v1.2".toList, "1.2".toList]) [] none
    (List.Perm.swap ..)
  revert heq
  decide

end FastapiTemplate.Management
