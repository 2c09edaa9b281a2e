/-
  Where the update of the container images changes a definition file: at the
  references it collects, and wherever else their names stand.
-/
import FastapiTemplate.Proof.ContainerReplacements

namespace FastapiTemplate.Management

open Regex Runs

/-- The second text is the first one, with stretches changed where they are allowed to: `allowed`
    is asked with the text before the stretch. -/
inductive ChangedOnly (allowed : List Char → List Char → Prop) :
    List Char → List Char → List Char → Prop
  | nil {before : List Char} : ChangedOnly allowed before [] []
  | keep {before text text' : List Char} {c : Char} :
      ChangedOnly allowed (before ++ [c]) text text' →
      ChangedOnly allowed before (c :: text) (c :: text')
  | change {before old new text text' : List Char} : allowed before old →
      ChangedOnly allowed (before ++ old) text text' →
      ChangedOnly allowed before (old ++ text) (new ++ text')

section
variable {allowed : List Char → List Char → Prop} {before text text' : List Char}

theorem ChangedOnly.keep_append {chars : List Char}
    (h : ChangedOnly allowed (before ++ chars) text text') :
    ChangedOnly allowed before (chars ++ text) (chars ++ text') := by
  induction chars generalizing before with
  | nil => rwa [List.append_nil] at h
  | cons c chars ih =>
    refine .keep (ih ?_)
    rwa [List.append_assoc]

theorem ChangedOnly.refl : ChangedOnly allowed before text text := by
  have hkept : ChangedOnly allowed before (text ++ []) (text ++ []) := .keep_append .nil
  rwa [List.append_nil] at hkept

/-- Where one stretch may change, the text changes there or not at all. -/
theorem ChangedOnly.single {place old : List Char} (hne : old ≠ [])
    (hallowed : ∀ before o, allowed before o → before = place ∧ o = old)
    (h : ChangedOnly allowed before text text') : text' = text ∨
      ∃ y new tail, before ++ y = place ∧ text = y ++ (old ++ tail) ∧ text' =
      y ++ (new ++ tail) := by
  induction h with
  | nil => exact Or.inl rfl
  | @keep before text text' c _ ih =>
    rcases ih with rfl | ⟨y, new, tail, hplace, rfl, rfl⟩
    · exact Or.inl rfl
    · refine Or.inr ⟨c :: y, new, tail, ?_, rfl, rfl⟩
      rw [← hplace, List.append_assoc]
      rfl
  | @change before o new text text' ho _ ih =>
    obtain ⟨rfl, rfl⟩ := hallowed _ _ ho
    rcases ih with rfl | ⟨y, _, _, hplace, -, -⟩
    · exact Or.inr ⟨[], new, _, List.append_nil _, rfl, rfl⟩
    · rw [List.append_assoc, List.append_right_eq_self] at hplace
      exact absurd (List.append_eq_nil_iff.1 hplace).1 hne

end

/-! ## What is replaced -/

/-- The image of the reference gets another tag. -/
structure GetsTag (resolver : TagResolver) (ref : List Char) (image : ContainerImage) : Prop where
  parsed : parseContainerImageRef ref = some image
  remote : shouldSkipContainerImage image = false
  tag : ∃ latest, resolver image.repository image.tag = some latest ∧ some latest ≠ image.tag

section
variable (files : List ContainerFile) (resolver : TagResolver)

variable (readsImage : ContainerFile → List Char → List Char → Prop)

/-- A full `repository:tag` reference that is updated: one of the definition files names its image
    so.
    `readsImage` tells where Compose and Docker read the name of an external image, in which file
    and
    after which text. -/
def UpdatedFull (old : List Char) : Prop :=
  ∃ image, GetsTag resolver old image ∧ image.tag.isSome ∧ ∃ file ∈ files,
    file.isDefinition = true ∧
    ∃ before after, file.content = before ++ (old ++ after) ∧ readsImage file before old

/-- Where a definition file may change: where an external image is read, or at another occurrence
    of a full reference that is updated. -/
def MayChange (file : ContainerFile) (before old : List Char) : Prop :=
  readsImage file before old ∨ UpdatedFull files resolver readsImage old

variable {files resolver}

end

/-! ## The files after a run -/

section
variable {order : Replacements} {allowed : List Char → List Char → Prop} {before text : List Char}

end

namespace Sample

end Sample

end FastapiTemplate.Management
