/-
  When the workflow updater moves an action to an older major
  (`never_older_major_iff`): whenever the latest tag has one.
-/
import FastapiTemplate.Management.WorkflowActions

namespace FastapiTemplate.Management

open Regex

section
variable {currentRef latestTag : List Char} {n k : ℕ}

theorem updatedActionRef_of_ne (hn : majorVersion currentRef = some n)
    (hk : majorVersion latestTag = some k) (h : n ≠ k) :
    updatedActionRef currentRef latestTag = latestTag := by
  unfold updatedActionRef
  rw [hn, hk]
  exact if_neg h

/-- A reference is only replaced by a tag with another major version. -/
theorem updatedActionRef_cases (h : updatedActionRef currentRef latestTag ≠ currentRef) :
    updatedActionRef currentRef latestTag = latestTag ∧ ∃ n k, majorVersion currentRef = some n ∧
      majorVersion latestTag = some k ∧ n ≠ k := by
  unfold updatedActionRef at h ⊢
  split at h
  · rename_i n k hn hk
    split at h
    · exact absurd rfl h
    · rename_i hne
      exact ⟨if_neg hne, n, k, hn, hk, hne⟩
  · exact absurd rfl h

end

/-- The reference that the substitution leaves for an action. -/
def settledRef (latestTags : List Char → Option (List Char)) (repository ref : List Char) :
    List Char :=
  (latestTags repository).elim ref (updatedActionRef ref)

variable {word : Char → Bool} {workflowPath workflowText : List Char}
  {latestTags : List Char → Option (List Char)} {u : ActionUpdate}

theorem settledRef_cases (latestTags : List Char → Option (List Char))
    (repository ref : List Char) :
    settledRef latestTags repository ref = ref ∨ ∃ tag n k, latestTags repository = some tag ∧
      majorVersion ref = some n ∧ majorVersion tag = some k ∧ n ≠ k ∧
      settledRef latestTags repository ref = tag := by
  cases htag : latestTags repository with
  | none => exact .inl (by rw [settledRef, htag, Option.elim_none])
  | some tag =>
    rw [settledRef, htag, Option.elim_some]
    by_cases hsame : updatedActionRef ref tag = ref
    · exact .inl hsame
    · obtain ⟨hnew, n, k, hn, hk, hne⟩ := updatedActionRef_cases hsame
      exact .inr ⟨tag, n, k, rfl, hn, hk, hne, hnew⟩

/-- A tag with another major version replaces the reference. -/
theorem settledRef_of_ne {repository ref tag : List Char} {n k : ℕ}
    (htag : latestTags repository = some tag)
    (hn : majorVersion ref = some n) (hk : majorVersion tag = some k) (hne : n ≠ k) :
    settledRef latestTags repository ref = tag ∧ tag ≠ ref := by
  refine ⟨?_, ?_⟩
  · rw [settledRef, htag, Option.elim_some, updatedActionRef_of_ne hn hk hne]
  · rintro rfl
    exact hne (Option.some.inj (hn.symm.trans hk))

/-- What `replace_action` does with a match, by the reference that is left. -/
theorem replaceAction_eq {m : Match} : replaceAction workflowPath latestTags m =
    if settledRef latestTags (m.group "repository") (m.group "ref") =
    m.group "ref" then (m.text, none)
    else (m.group "prefix" ++ m.group "repository" ++ '@' :: settledRef latestTags
      (m.group "repository") (m.group "ref"),
      some ⟨workflowPath, m.group "repository", m.group "ref",
        settledRef latestTags (m.group "repository") (m.group "ref")⟩) := by
  cases htag : latestTags (m.group "repository") with
  | none => simp only [replaceAction, htag, settledRef, Option.elim_none, if_pos]
  | some tag => simp only [replaceAction, htag, settledRef, Option.elim_some]

/-- The updates of actions: which reference they are for, and what is known of the tag. -/
theorem mem_actionUpdates :
    u ∈ actionUpdates workflowPath latestTags word workflowText ↔
      ∃ m ∈ (ACTION_USES_RE word).finditer workflowText, ∃ tag n k,
        latestTags (m.group "repository") = some tag ∧ majorVersion (m.group "ref") = some n ∧
          majorVersion tag = some k ∧ n ≠ k ∧
          u = ⟨workflowPath, m.group "repository", m.group "ref", tag⟩ := by
  rw [actionUpdates, List.mem_filterMap]
  refine exists_congr fun m => and_congr_right fun _ => ?_
  rw [replaceAction_eq]
  constructor
  · intro h
    split at h
    · cases h
    · rename_i hmoved
      obtain ⟨tag, n, k, htag, hn, hk, hne, hnew⟩ := (settledRef_cases ..).resolve_left hmoved
      rw [hnew] at h
      exact ⟨tag, n, k, htag, hn, hk, hne, (Option.some.inj h).symm⟩
  · rintro ⟨tag, n, k, htag, hn, hk, hne, rfl⟩
    obtain ⟨hnew, hmoved⟩ := settledRef_of_ne htag hn hk hne
    rw [hnew, if_neg hmoved]

/-- **The workflow updater never moves an action to an older major** exactly when no latest tag has
    an older major than a reference to its action. -/
theorem never_older_major_iff :
    (∀ u ∈ actionUpdates workflowPath latestTags word workflowText,
      ∀ n, majorVersion u.oldRef = some n → ∃ k, majorVersion u.newRef = some k ∧ n < k) ↔
      ∀ m ∈ (ACTION_USES_RE word).finditer workflowText, ∀ tag n k,
        latestTags (m.group "repository") = some tag → majorVersion (m.group "ref") = some n →
          majorVersion tag = some k → n ≤ k := by
  constructor
  · intro h m hm tag n k htag hn hk
    by_cases hne : n = k
    · exact hne.le
    · obtain ⟨k', hk', hlt⟩ := h ⟨workflowPath, m.group "repository", m.group "ref", tag⟩
        (mem_actionUpdates.2 ⟨m, hm, tag, n, k, htag, hn, hk, hne, rfl⟩) n hn
      obtain rfl : k = k' := Option.some.inj (hk.symm.trans hk')
      exact hlt.le
  · intro h u hu n hn
    obtain ⟨m, hm, tag, n', k, htag, hn', hk, hne, rfl⟩ := mem_actionUpdates.1 hu
    obtain rfl : n' = n := Option.some.inj (hn'.symm.trans hn)
    exact ⟨k, hk, lt_of_le_of_ne (h m hm tag n' k htag hn' hk) hne⟩

/-- A backport release as the latest one takes `actions/checkout` from `v6` to `v5`. -/
theorem older_major : ¬∀ (word : Char → Bool) (workflowPath workflowText : List Char)
    (latestTags : List Char → Option (List Char)),
    ∀ u ∈ actionUpdates workflowPath latestTags word workflowText,
      ∀ n, majorVersion u.oldRef = some n → ∃ k, majorVersion u.newRef = some k ∧ n < k := by
  intro h
  obtain ⟨k, hk, hlt⟩ := h (fun c => c.isAlphanum || c == '_') [] "uses: actions/checkout@v6".toList
    (fun _ => some "v5.0.1".toList)
    ⟨[], "actions/checkout".toList, "v6".toList, "v5.0.1".toList⟩ (by decide +kernel) 6
    (by decide)
  have hmajor : majorVersion "v5.0.1".toList = some 5 := by decide
  obtain rfl : 5 = k := Option.some.inj (hmajor.symm.trans hk)
  omega

end FastapiTemplate.Management
