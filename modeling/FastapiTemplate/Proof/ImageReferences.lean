/-
  Image references read and written.

  * `parseContainerImageRef_tagged_iff`: the references with a tag and without
    a digest are a repository, a `:` and a tag.
  * `image_refs_round_trip`: what `_container_image_ref_with_tag` writes,
    `_parse_container_image_ref` reads, and the other way round.
-/
import FastapiTemplate.Management.ContainerImages

namespace FastapiTemplate.Management

/-- What an image reference may name as its repository: also one with a `:`, of a port or not. -/
structure IsRepository (r : List Char) : Prop where
  nonempty : r ≠ []
  noVariable : ¬['$', '{'] <+: r
  noDigest : '@' ∉ r

/-- What an image reference may name as its tag. -/
structure IsTag (t : List Char) : Prop where
  nonempty : t ≠ []
  noSlash : '/' ∉ t
  noColon : ':' ∉ t
  noAt : '@' ∉ t

variable {r t imageRef : List Char} {image : ContainerImage}

/-- A tag does not make a variable of its reference. -/
theorem IsRepository.noVariable_tagged (hr : IsRepository r) : ¬['$', '{'] <+: r ++ ':' :: t := by
  intro hbegins
  refine hr.noVariable (List.prefix_of_prefix_length_le hbegins (List.prefix_append ..) ?_)
  rcases r with _ | ⟨a, _ | ⟨b, r⟩⟩
  · exact absurd rfl hr.nonempty
  · simp at hbegins
  · simp

/-- What is read of a reference without a digest: the last `:` ends the repository unless a `/`
    follows it. -/
theorem parseContainerImageRef_tag (hvariable : ¬['$', '{'] <+: r ++ ':' :: t)
    (hat : '@' ∉ r ++ ':' :: t)
    (hcolon : ':' ∉ t) (hslash : '/' ∉ t) : parseContainerImageRef (r ++ ':' :: t) =
      if r = [] then none else some ⟨r, (some t).filter (· ≠ []), none⟩ := by
  have hlast : Text.rfind '/' (r ++ ':' :: t) < Text.rfind ':' (r ++ ':' :: t) :=
    (Text.rfind_lt_rfind_iff (by decide)).2 ⟨r, t, rfl, hcolon, hslash⟩
  have hindex : (Text.rfind ':' (r ++ ':' :: t)).toNat = r.length := by
    rw [Text.rfind_append_cons hcolon, Int.toNat_natCast]
  have htag : (r ++ ':' :: t).drop (r.length + 1) = t := by
    rw [← List.drop_drop, List.drop_left]
    rfl
  rw [parseContainerImageRef, if_neg (mt List.isPrefixOf_iff_prefix.1 hvariable),
    Text.partitionChars_of_notMem hat]
  simp only [if_pos hlast, hindex, List.take_left, htag]
  rfl

theorem withoutDigest_of_parse (h : parseContainerImageRef imageRef = some image)
    (hdigest : image.digest = none) :
    ¬['$', '{'] <+: imageRef ∧ '@' ∉ imageRef := by
  unfold parseContainerImageRef at h
  split at h
  · cases h
  · rename_i hvariable
    refine ⟨mt List.isPrefixOf_iff_prefix.2 hvariable, fun hat => ?_⟩
    have hsep : (Text.partitionChars '@' imageRef).2.1 = true := List.contains_iff_mem.2 hat
    simp only [hsep, if_true] at h
    split at h <;> split at h <;> cases h <;> cases hdigest

/-- Without a `:` after the last `/` there is no tag. -/
theorem lastColon_of_tag (h : parseContainerImageRef imageRef = some image)
    (hdigest : image.digest = none)
    (htag : image.tag = some t) : Text.rfind '/' imageRef < Text.rfind ':' imageRef := by
  obtain ⟨hvariable, hat⟩ := withoutDigest_of_parse h hdigest
  by_contra hlast
  rw [parseContainerImageRef, if_neg (mt List.isPrefixOf_iff_prefix.1 hvariable),
    Text.partitionChars_of_notMem hat] at h
  simp only [if_neg hlast] at h
  split at h
  · cases h
  · cases h
    cases htag

/-- The references that are read with a tag and without a digest. -/
theorem parseContainerImageRef_tagged_iff :
    parseContainerImageRef imageRef = some ⟨r, some t, none⟩ ↔
    IsRepository r ∧ IsTag t ∧ imageRef = r ++ ':' :: t := by
  constructor
  · intro h
    obtain ⟨hvariable, hat⟩ := withoutDigest_of_parse h rfl
    obtain ⟨before, after, rfl, hcolon, hslash⟩ :=
      (Text.rfind_lt_rfind_iff (by decide)).1 (lastColon_of_tag h rfl rfl)
    rw [parseContainerImageRef_tag hvariable hat hcolon hslash] at h
    split at h
    · cases h
    · rename_i hnonempty
      obtain ⟨hrepository, htag, -⟩ := ContainerImage.mk.injEq .. ▸ Option.some.inj h
      obtain ⟨hafter, ht⟩ := Option.filter_eq_some_iff.1 htag
      cases hafter
      obtain rfl := hrepository
      simp only [List.mem_append, List.mem_cons, not_or] at hat
      exact ⟨⟨hnonempty, fun hbegins => hvariable (hbegins.trans (List.prefix_append ..)), hat.1⟩,
        ⟨by simpa using ht, hslash, hcolon, hat.2.2⟩, rfl⟩
  · rintro ⟨hr, ht, rfl⟩
    have hat : '@' ∉ r ++ ':' :: t := by simp [hr.noDigest, ht.noAt]
    rw [parseContainerImageRef_tag hr.noVariable_tagged hat ht.noColon ht.noSlash,
      if_neg hr.nonempty]
    simp [ht.nonempty]

/-- A repository and a tag are read back from the reference they make, whatever colons the
    repository has; a reference with a tag and without a digest is the one its image makes. -/
theorem image_refs_round_trip :
    (∀ (image : ContainerImage) (t : List Char), IsRepository image.repository → IsTag t →
      parseContainerImageRef (containerImageRefWithTag image t) = some ⟨image.repository, some t,
      none⟩) ∧
    ∀ (imageRef : List Char) (image : ContainerImage) (t : List Char),
      parseContainerImageRef imageRef = some image → image.tag = some t → image.digest = none →
        containerImageRefWithTag image t = imageRef := by
  constructor
  · intro image t hr ht
    exact parseContainerImageRef_tagged_iff.2 ⟨hr, ht, rfl⟩
  · rintro imageRef ⟨r, tag, digest⟩ t hparse rfl rfl
    obtain ⟨-, -, rfl⟩ := parseContainerImageRef_tagged_iff.1 hparse
    rfl

namespace Sample

/-- A repository of a registry with a port. -/
def registryPort : ContainerImage := ⟨"registry.local:5000/team/app".toList, none, none⟩

end Sample

theorem image_refs_round_trip_port :
    parseContainerImageRef "registry.local:5000/team/app:1.2".toList =
      some ⟨"registry.local:5000/team/app".toList, some "1.2".toList, none⟩ ∧
    containerImageRefWithTag ⟨"registry.local:5000/team/app".toList, some "1.2".toList,
      none⟩ "1.2".toList =
      "registry.local:5000/team/app:1.2".toList := by
  have hread :=
    image_refs_round_trip.1 Sample.registryPort "1.2".toList ⟨by decide, by decide, by decide⟩
    ⟨by decide, by decide, by decide, by decide⟩
  exact ⟨hread, image_refs_round_trip.2 _ _ _ hread rfl rfl⟩

end FastapiTemplate.Management
