/-
  The search for a compatible tag: which tag it takes (`bestCompatible_iff`),
  and when every tag it can take has a property (`bestCompatible_all_iff`).

  From it follow when the search keeps the variant of the current tag
  (`keeps_variant_iff`) and when a second search finds nothing new
  (`settles_iff`).
-/
import FastapiTemplate.Proof.ContainerTags
import FastapiTemplate.Proof.Releases

namespace FastapiTemplate.Management

section
variable {repository currentTag t : List Char} {tags : List (List Char)}

/-- The candidates of `_best_same_variant_container_tag`: none without a version. -/
def variantTags (repository currentTag : List Char) (tags : List (List Char)) : List (List Char) :=
  match containerTagVersion currentTag with
  | none => []
  | some current => sameVariantTags repository currentTag current tags

/-- The candidates of `_best_pinned_floating_container_tag`. -/
def pinnedTags (currentTag : List Char) (tags : List (List Char)) : List (List Char) :=
  tags.filter fun tag => ('-' :: currentTag).isSuffixOf tag

/-- The tag parses like the current one, with at least the numbers of `versionPrefix`. -/
def SameVariant (current : ContainerTagVersion) (versionPrefix : List ℕ) (t : List Char) : Prop :=
  ∃ v, containerTagVersion t = some v ∧ v.pre = current.pre ∧ v.suffix = current.suffix ∧
    versionPrefix <+: v.version

theorem matchesVariant_iff {current : ContainerTagVersion} {versionPrefix : List ℕ} :
    matchesContainerTagVariant current versionPrefix t = true ↔
      SameVariant current versionPrefix t := by
  unfold matchesContainerTagVariant SameVariant
  cases containerTagVersion t with
  | none => simp
  | some v =>
    rw [Bool.and_eq_true, Bool.and_eq_true, beq_iff_eq, beq_iff_eq, beq_iff_eq, and_assoc,
      eq_comm (a := v.version.take _), ← List.prefix_iff_eq_take]
    simp

theorem mem_variantTags : t ∈ variantTags repository currentTag tags ↔
    t ∈ tags ∧ ∃ current, containerTagVersion currentTag = some current ∧ SameVariant current
      (requiredContainerVersionPrefix repository currentTag current.version) t := by
  unfold variantTags
  cases containerTagVersion currentTag with
  | none => simp
  | some current => simp [sameVariantTags, List.mem_filter, matchesVariant_iff]

theorem bestSameVariant_eq : bestSameVariantContainerTag repository currentTag tags =
    bestRankedContainerTag (variantTags repository currentTag tags) := by
  unfold bestSameVariantContainerTag variantTags
  cases containerTagVersion currentTag <;> rfl

theorem mem_pinnedTags : t ∈ pinnedTags currentTag tags ↔
    t ∈ tags ∧ ∃ w, t = w ++ '-' :: currentTag := by
  rw [pinnedTags, List.mem_filter, List.isSuffixOf_iff_suffix]
  exact and_congr_right fun _ => exists_congr fun w => eq_comm

theorem ne_of_mem_pinnedTags (h : t ∈ pinnedTags currentTag tags) : t ≠ currentTag := by
  obtain ⟨-, w, rfl⟩ := mem_pinnedTags.1 h
  intro heq
  have hlength := congrArg List.length heq
  simp only [List.length_append, List.length_cons] at hlength
  omega

/-- **The search for a compatible tag** takes the best tag of the same variant, unless it is the
    current one, and else the best one that ends in the current one. -/
theorem bestCompatible_iff : bestCompatibleContainerTag repository currentTag tags = some t ↔
    (FirstBest (variantTags repository currentTag tags) t ∧ t ≠ currentTag) ∨
      ((∀ u, FirstBest (variantTags repository currentTag tags) u → u = currentTag) ∧
        FirstBest (pinnedTags currentTag tags) t) := by
  have hpinned : (bestPinnedFloatingContainerTag currentTag tags).filter (· ≠ currentTag) =
      bestRankedContainerTag (pinnedTags currentTag tags) := by
    show (bestRankedContainerTag (pinnedTags currentTag tags)).filter _ = _
    cases hbest : bestRankedContainerTag (pinnedTags currentTag tags) with
    | none => rfl
    | some b => simp [Option.filter, ne_of_mem_pinnedTags (firstBest_of_bestRanked hbest).mem]
  unfold bestCompatibleContainerTag
  rw [bestSameVariant_eq, hpinned]
  simp only [← bestRanked_iff]
  cases bestRankedContainerTag (variantTags repository currentTag tags) with
  | none => simp
  | some b =>
    by_cases hb : b = currentTag
    · simp [Option.filter, hb, eq_comm]
    · have hfilter : (some b).filter (· ≠ currentTag) = some b := by simp [Option.filter, hb]
      rw [hfilter]
      constructor
      · intro h
        exact .inl ⟨h, Option.some.inj h ▸ hb⟩
      · rintro (⟨h, -⟩ | ⟨h, -⟩)
        · exact h
        · exact absurd (h b rfl) hb

theorem bestRanked_eq_none_iff : bestRankedContainerTag tags = none ↔
    ∀ u ∈ tags, containerTagRank u = none := by
  constructor
  · intro h u hu
    by_contra hr
    obtain ⟨r, hr⟩ := Option.ne_none_iff_exists'.1 hr
    obtain ⟨b, hb⟩ := exists_bestRanked hu hr
    rw [h] at hb
    cases hb
  · intro h
    by_contra hb
    obtain ⟨b, hb⟩ := Option.ne_none_iff_exists'.1 hb
    have hbest := firstBest_of_bestRanked hb
    obtain ⟨r, hr⟩ := hbest.ranked
    rw [h b hbest.mem] at hr
    cases hr

/-- **Every tag that the search can take has a property** exactly when, but for the current tag, the
    tags of the same variant are guarded by it, and the ones that end in the current tag are too
    unless the search does not get to them. -/
theorem bestCompatible_all_iff {P : List Char → Prop} :
    (∀ t, bestCompatibleContainerTag repository currentTag tags = some t → P t) ↔
      GuardedBy (fun t => t = currentTag ∨ P t) (variantTags repository currentTag tags) ∧
        (GuardedBy (· = currentTag) (variantTags repository currentTag tags) →
          GuardedBy P (pinnedTags currentTag tags)) := by
  simp only [← bestRanked_all_iff, bestRanked_iff, bestCompatible_iff]
  constructor
  · intro h
    refine ⟨fun t ht => ?_, fun hcurrent t ht => h t (.inr ⟨hcurrent, ht⟩)⟩
    by_cases hne : t = currentTag
    · exact .inl hne
    · exact .inr (h t (.inl ⟨ht, hne⟩))
  · rintro ⟨hvariant, hpinned⟩ t (⟨ht, hne⟩ | ⟨hcurrent, ht⟩)
    · exact (hvariant t ht).resolve_left hne
    · exact hpinned hcurrent t ht

end

/-! ## Names of an image -/

section
variable {repository path : List Char}

theorem dockerHubPath_eq_iff : dockerHubPath path = "library/python".toList ↔
    path = "library/python".toList ∨ path = "python".toList := by
  unfold dockerHubPath
  split
  · rename_i h
    refine ⟨.inl, ?_⟩
    rintro (rfl | rfl)
    · rfl
    · exact absurd h (by decide)
  · rename_i h
    constructor
    · intro heq
      exact .inr (List.append_cancel_left heq)
    · rintro (rfl | rfl)
      · exact absurd (by decide) h
      · rfl

/-- The names of the Python image. -/
theorem registryAndPath_python_iff :
    containerRegistryAndPath repository = (DOCKER_IO_REGISTRY, "library/python".toList) ↔
      isPythonRuntimeRepository repository = true ∨ repository = "docker.io/python".toList := by
  constructor
  · intro h
    unfold containerRegistryAndPath at h
    simp only at h
    split at h
    · rename_i hdocker
      obtain ⟨hfirst, hsep⟩ := hdocker
      have heq := Text.partitionChars_eq (List.contains_iff_mem.1 hsep)
      rw [hfirst] at heq
      rw [heq]
      rcases dockerHubPath_eq_iff.1 (congrArg Prod.snd h) with hpath | hpath
      · rw [hpath]
        exact .inl (by decide)
      · rw [hpath]
        exact .inr (by decide)
    · rename_i hdocker
      split at h
      · rename_i hregistry
        exact absurd ⟨congrArg Prod.fst h, hregistry.2⟩ hdocker
      · rcases dockerHubPath_eq_iff.1 (congrArg Prod.snd h) with rfl | rfl
        · exact .inl (by decide)
        · exact .inl (by decide)
  · rintro (h | rfl)
    · unfold isPythonRuntimeRepository at h
      simp only [List.contains_cons, List.contains_nil, Bool.or_false, Bool.or_eq_true,
        beq_iff_eq] at h
      rcases h with rfl | rfl | rfl <;> decide
    · decide

end

/-! ## Keeping the variant -/

/-- The repository is an image of Python. -/
def IsPython (repository : List Char) : Prop :=
  containerRegistryAndPath repository = (DOCKER_IO_REGISTRY, "library/python".toList)

instance {repository : List Char} : Decidable (IsPython repository) :=
  inferInstanceAs (Decidable (_ = _))

/-- The numbers of a version that a tag of the same variant has to have: the major version, and for
    Python the minor one as well. -/
def fixedNumbers (repository : List Char) (version : List ℕ) : List ℕ :=
  version.take (if IsPython repository then 2 else 1)

/-- The tag is of the same variant as the current one, or the current one with a version before
    it. -/
def KeepsVariant (repository currentTag t : List Char) : Prop :=
  (∃ current, containerTagVersion currentTag = some current ∧
      SameVariant current (fixedNumbers repository current.version) t) ∨
    ∃ w : Dotted, t = w.text ++ '-' :: currentTag

section
variable {repository currentTag t : List Char} {tags : List (List Char)}

theorem take_fixedNumbers (h : repository ≠ "docker.io/python".toList) (version : List ℕ) :
    fixedNumbers repository version <+:
      requiredContainerVersionPrefix repository currentTag version := by
  have hone : version.take 1 <+: version.take 2 := List.take_prefix_take_left (by omega)
  unfold fixedNumbers requiredContainerVersionPrefix PYTHON_VERSION_PREFIX_LENGTH
  by_cases hpython : IsPython repository
  · have hruntime := (registryAndPath_python_iff.1 hpython).resolve_right h
    rw [if_pos hpython]
    by_cases hlength : 2 ≤ version.length
    · rewrite [if_pos ⟨hruntime, hlength⟩]
      exact List.prefix_rfl
    · rewrite [if_neg fun hc => hlength hc.2, if_neg fun hc => hlength hc.2,
        List.take_of_length_le (by omega), List.take_of_length_le (by omega)]
      exact List.prefix_rfl
  · rw [if_neg hpython]
    split
    · exact hone
    · split
      · exact hone
      · exact List.prefix_rfl

/-- Under its other names, an image keeps the variant among the tags of the same variant. -/
theorem keepsVariant_of_mem (h : repository ≠ "docker.io/python".toList)
    (ht : t ∈ variantTags repository currentTag tags) : KeepsVariant repository currentTag t := by
  obtain ⟨-, current, hcurrent, v, hv, hpre, hsuffix, hversion⟩ := mem_variantTags.1 ht
  exact .inl ⟨current, hcurrent, v, hv, hpre, hsuffix,
    (take_fixedNumbers h current.version).trans hversion⟩

/-- **The search keeps the variant of the current tag** exactly when the tags that end in it are
    guarded by those that have only a version before it, unless the search does not get to them,
    and, for one of the names of Python, the tags of the same variant by those with the same minor
    version. -/
theorem keeps_variant_iff :
    (∀ t, bestCompatibleContainerTag repository currentTag tags = some t →
      KeepsVariant repository currentTag t) ↔
      (repository = "docker.io/python".toList →
        GuardedBy (fun t => t = currentTag ∨ KeepsVariant repository currentTag t)
          (variantTags repository currentTag tags)) ∧
        (GuardedBy (· = currentTag) (variantTags repository currentTag tags) →
          GuardedBy (KeepsVariant repository currentTag) (pinnedTags currentTag tags)) := by
  rw [bestCompatible_all_iff]
  refine and_congr_left fun _ => ⟨fun h _ => h, fun h => ?_⟩
  by_cases hname : repository = "docker.io/python".toList
  · exact h hname
  · intro l₁ t l₂ r hl hr ht
    have hmem : t ∈ variantTags repository currentTag tags := by
      rw [hl]
      simp
    exact absurd (.inr (keepsVariant_of_mem hname hmem)) ht

end

/-- The tag `alpine` gets the Python version of another flavour that ends in it. -/
theorem switches_flavour :
    ¬∀ (repository currentTag : List Char) (tags : List (List Char)) (t : List Char),
    bestCompatibleContainerTag repository currentTag tags = some t →
      KeepsVariant repository currentTag t := by
  intro h
  rcases h "ghcr.io/astral-sh/uv".toList "alpine".toList
    ["0.9.30-alpine".toList, "python3.14-alpine".toList] "python3.14-alpine".toList
    (by decide +kernel) with ⟨current, hcurrent, -⟩ | ⟨w, hw⟩
  · have hnone : containerTagVersion "alpine".toList = none := by decide
    rw [hnone] at hcurrent
    cases hcurrent
  · have hw : "python3.14".toList ++ "-alpine".toList = w.text ++ "-alpine".toList := hw
    have hw : "python3.14".toList = w.text := List.append_cancel_right hw
    obtain ⟨c, rest, hc, hv⟩ := w.head_text
    rw [hc] at hw
    obtain ⟨rfl, -⟩ := List.cons.inj hw
    revert hv
    decide

/-! ## Names that make a difference -/

section
variable {repository repository' currentTag t : List Char} {tags : List (List Char)}
  {current : ContainerTagVersion}

theorem variantTags_congr
    (h : isPythonRuntimeRepository repository = isPythonRuntimeRepository repository') :
    variantTags repository currentTag tags = variantTags repository' currentTag tags := by
  unfold variantTags sameVariantTags requiredContainerVersionPrefix
  rw [h]

theorem bestCompatible_congr
    (h : variantTags repository currentTag tags = variantTags repository' currentTag tags) :
    bestCompatibleContainerTag repository currentTag tags =
      bestCompatibleContainerTag repository' currentTag tags := by
  refine Option.ext fun t => ?_
  rw [bestCompatible_iff, bestCompatible_iff, h]

/-- What the search could take under the recognised names of Python: a tag with the same minor
    version, or one that ends in the current tag where there is no other. -/
def TakenAsPython (currentTag : List Char) (tags : List (List Char)) (t : List Char) : Prop :=
  t ∈ variantTags "python".toList currentTag tags ∨
    (GuardedBy (· = currentTag) (variantTags "python".toList currentTag tags) ∧
      FirstBest (pinnedTags currentTag tags) t)

theorem requiredPrefix_python (version : List ℕ) :
    requiredContainerVersionPrefix "docker.io/python".toList currentTag version <+:
      requiredContainerVersionPrefix "python".toList currentTag version := by
  have hone : version.take 1 <+: version.take 2 := List.take_prefix_take_left (by omega)
  have hdocker : isPythonRuntimeRepository "docker.io/python".toList = false := by decide
  have hpython : isPythonRuntimeRepository "python".toList = true := by decide
  unfold requiredContainerVersionPrefix PYTHON_VERSION_PREFIX_LENGTH
  rw [hdocker, hpython]
  by_cases hlength : 2 ≤ version.length <;>
    simp only [hlength, and_true, and_false, if_true, if_false,
    Bool.false_eq_true]
  · split
    · exact List.prefix_rfl
    · exact hone
  · exact List.prefix_rfl

/-- Under the recognised names there are fewer candidates. -/
theorem variantTags_python : ∃ p, variantTags "python".toList currentTag tags =
    (variantTags "docker.io/python".toList currentTag tags).filter p := by
  unfold variantTags
  cases containerTagVersion currentTag with
  | none => exact ⟨fun _ => true, rfl⟩
  | some current =>
    refine ⟨matchesContainerTagVariant current
      (requiredContainerVersionPrefix "python".toList currentTag current.version), ?_⟩
    simp only [sameVariantTags, List.filter_filter]
    refine List.filter_congr fun t _ => ?_
    rw [Bool.eq_iff_iff, Bool.and_eq_true, matchesVariant_iff, matchesVariant_iff]
    refine ⟨fun ht => ⟨ht, ?_⟩, fun ht => ht.1⟩
    obtain ⟨v, hv, hpre, hsuffix, hversion⟩ := ht
    exact ⟨v, hv, hpre, hsuffix, (requiredPrefix_python current.version).trans hversion⟩

/-- The current tag is of its own variant. -/
theorem current_mem_variantTags (hmem : currentTag ∈ tags)
    (hversion : containerTagVersion currentTag = some current) :
    currentTag ∈ variantTags repository currentTag tags := by
  refine mem_variantTags.2 ⟨hmem, current, hversion, current, hversion, rfl, rfl, ?_⟩
  unfold requiredContainerVersionPrefix
  split
  · exact List.take_prefix ..
  · split
    · exact List.take_prefix ..
    · exact List.take_prefix ..

theorem bestCompatible_docker_iff :
    bestCompatibleContainerTag "docker.io/python".toList currentTag tags =
        bestCompatibleContainerTag "python".toList currentTag tags ↔
      GuardedBy (TakenAsPython currentTag tags)
        (variantTags "docker.io/python".toList currentTag tags) := by
  have hcurrent : ∀ {t}, FirstBest (variantTags "docker.io/python".toList currentTag tags) t →
      t ∉ variantTags "python".toList currentTag tags → t ≠ currentTag := by
    rintro t ht hmem rfl
    obtain ⟨htags, current, hversion, -⟩ := mem_variantTags.1 ht.mem
    exact hmem (current_mem_variantTags htags hversion)
  rw [← bestRanked_all_iff]
  simp only [TakenAsPython, ← bestRanked_all_iff, bestRanked_iff]
  constructor
  · intro h t ht
    by_cases hmem : t ∈ variantTags "python".toList currentTag tags
    · exact .inl hmem
    · have htaken := bestCompatible_iff.2 (.inl ⟨ht, hcurrent ht hmem⟩)
      rw [h] at htaken
      rcases bestCompatible_iff.1 htaken with ⟨ht', -⟩ | hpinned
      · exact absurd ht'.mem hmem
      · exact .inr hpinned
  · intro h
    refine Option.ext fun u => ?_
    by_cases hbest : ∃ t, FirstBest (variantTags "docker.io/python".toList currentTag tags) t
    · obtain ⟨t, ht⟩ := hbest
      by_cases hmem : t ∈ variantTags "python".toList currentTag tags
      · -- the best tag has the same minor version, and is the best of those as well
        have ht' : FirstBest (variantTags "python".toList currentTag tags) t := by
          obtain ⟨p, hp⟩ := variantTags_python
          rw [hp] at hmem ⊢
          exact ht.filter (List.mem_filter.1 hmem).2
        have hsame : ∀ v, FirstBest (variantTags "docker.io/python".toList currentTag tags) v ↔
            FirstBest (variantTags "python".toList currentTag tags) v := fun v =>
          ⟨fun hv => hv.unique ht ▸ ht', fun hv => hv.unique ht' ▸ ht⟩
        simp only [bestCompatible_iff, hsame]
      · obtain hpinned := (h t ht).resolve_left hmem
        rw [bestCompatible_iff.2 (.inl ⟨ht, hcurrent ht hmem⟩), bestCompatible_iff.2 (.inr hpinned)]
    · have hnone : ∀ v, ¬FirstBest (variantTags "python".toList currentTag tags) v := by
        intro v hv
        obtain ⟨r, hr⟩ := hv.ranked
        have hmem : v ∈ variantTags "docker.io/python".toList currentTag tags := by
          obtain ⟨p, hp⟩ := variantTags_python
          have hmem := hv.mem
          rw [hp] at hmem
          exact (List.mem_filter.1 hmem).1
        obtain ⟨b, hb⟩ := exists_bestRanked hmem hr
        exact hbest ⟨b, firstBest_of_bestRanked hb⟩
      have hnone' : ∀ v, ¬FirstBest (variantTags "docker.io/python".toList currentTag tags) v :=
        fun v hv => hbest ⟨v, hv⟩
      simp only [bestCompatible_iff, hnone, hnone']

/-- **The spelling of the repository makes no difference** exactly when none or both of the names
    are `docker.io/python`, or what the search takes under this name it also could take under the
    other names of Python. -/
theorem same_for_names_iff
    (h : containerRegistryAndPath repository = containerRegistryAndPath repository') :
    bestCompatibleContainerTag repository currentTag tags =
        bestCompatibleContainerTag repository' currentTag tags ↔
      (repository = "docker.io/python".toList ↔ repository' = "docker.io/python".toList) ∨
        GuardedBy (TakenAsPython currentTag tags)
          (variantTags "docker.io/python".toList currentTag tags) := by
  have hdocker : containerRegistryAndPath "docker.io/python".toList =
      (DOCKER_IO_REGISTRY, "library/python".toList) := registryAndPath_python_iff.2 (.inr rfl)
  -- a second name of Python is a recognised one
  have hsecond : ∀ {name}, containerRegistryAndPath "docker.io/python".toList =
      containerRegistryAndPath name → name ≠ "docker.io/python".toList →
      bestCompatibleContainerTag name currentTag tags =
        bestCompatibleContainerTag "python".toList currentTag tags := by
    intro name hname hne
    have hruntime := (registryAndPath_python_iff.1 (hname ▸ hdocker)).resolve_right hne
    exact bestCompatible_congr (variantTags_congr (hruntime.trans (by decide)))
  by_cases hr : repository = "docker.io/python".toList
  · by_cases hr' : repository' = "docker.io/python".toList
    · simp [hr, hr']
    · rw [hr] at h ⊢
      rw [hsecond h hr', bestCompatible_docker_iff]
      simp only [hr', iff_false, not_true_eq_false, false_or]
  · by_cases hr' : repository' = "docker.io/python".toList
    · rw [hr'] at h ⊢
      rw [hsecond h.symm hr, eq_comm, bestCompatible_docker_iff]
      simp only [hr, iff_true, false_or]
    · have hruntime : isPythonRuntimeRepository repository =
          isPythonRuntimeRepository repository' := by
        have hiff : IsPython repository ↔ IsPython repository' := by
          unfold IsPython
          rw [h]
        unfold IsPython at hiff
        simp only [registryAndPath_python_iff, hr, hr', or_false] at hiff
        exact Bool.eq_iff_iff.2 hiff
      simp only [bestCompatible_congr (variantTags_congr hruntime), hr, hr', true_or]

end

theorem same_for_names_iff_newer :
    bestCompatibleContainerTag "docker.io/python".toList "3.14-slim".toList ["3.14.4-slim".toList] =
        bestCompatibleContainerTag "python".toList "3.14-slim".toList ["3.14.4-slim".toList] ↔
      ("docker.io/python".toList = "docker.io/python".toList ↔
          "python".toList = "docker.io/python".toList) ∨
        GuardedBy (TakenAsPython "3.14-slim".toList ["3.14.4-slim".toList])
          (variantTags "docker.io/python".toList "3.14-slim".toList ["3.14.4-slim".toList]) :=
  same_for_names_iff (by decide)

/-- A later minor version is taken for `docker.io/python` only. -/
theorem differs_for_names :
    ¬∀ (repository repository' currentTag : List Char) (tags : List (List Char)),
    containerRegistryAndPath repository = containerRegistryAndPath repository' →
      bestCompatibleContainerTag repository currentTag tags =
        bestCompatibleContainerTag repository' currentTag tags := by
  intro h
  have heq := h "docker.io/python".toList "python".toList "3.14-slim".toList ["3.15.0-slim".toList]
    (by decide)
  revert heq
  decide

end FastapiTemplate.Management
