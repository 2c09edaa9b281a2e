/-
  `update_container_image_versions.py`: the image references of the definition
  files, their replacements, and where these are written.
-/
import FastapiTemplate.Management.Patterns
import Mathlib.Data.Char
import Mathlib.Data.List.Sort

namespace FastapiTemplate.Management

open Regex

/-- `ContainerImage`. -/
structure ContainerImage where
  repository : List Char
  tag : Option (List Char)
  digest : Option (List Char)
  deriving DecidableEq

/-- `ContainerImageUpdate`. -/
structure ContainerImageUpdate where
  filePath : List Char
  oldRef : List Char
  newRef : List Char
  deriving DecidableEq

/-- A file of `_container_reference_paths`, with its characters on disk: a Dockerfile or Compose
    file (`_is_container_definition_path`), or a document that may mention images. -/
structure ContainerFile where
  filePath : List Char
  content : List Char
  isDefinition : Bool

/-- `path.read_text(encoding="utf-8")`, which ends every line with a line feed. -/
def ContainerFile.text (file : ContainerFile) : List Char := Text.universalNewlines file.content

/-! ## Patterns -/

def isQuote (c : Char) : Bool := c == '"' || c == '\''

/-- `_COMPOSE_IMAGE_RE`, with `MULTILINE`:
    `^(?P<prefix>\s*image:\s*["']?)(?P<image>[^\s"']+)(?P<suffix>["']?\s*(?:#.*)?)$` -/
def COMPOSE_IMAGE_RE : Regex :=
  concat [lineStart,
    group "prefix" (concat [spaces, lit "image:".toList, spaces, opt (char isQuote)]),
    group "image" (plus (char fun c => !Text.isSpace c && !isQuote c)),
    group "suffix" (concat [opt (char isQuote), spaces, opt (concat [lit ['#'], star true dot])]),
    lineEnd]

/-- A text of ASCII letters in upper or lower case. -/
def litIgnoreCase : List Char → Regex
  | [] => empty
  | c :: cs => seq (char (·.toLower == c.toLower)) (litIgnoreCase cs)

/-- `_DOCKER_FROM_RE`, with `IGNORECASE` and `MULTILINE`:
    `^(?P<prefix>\s*FROM\s+(?:--platform=\S+\s+)?)(?P<image>[^\s]+)(?P<suffix>.*)$` -/
def DOCKER_FROM_RE : Regex :=
  let notSpace := plus (char fun c => !Text.isSpace c)
  let someSpaces := plus (char Text.isSpace)
  concat [lineStart,
    group "prefix" (concat [spaces, litIgnoreCase "FROM".toList, someSpaces,
      opt (concat [litIgnoreCase "--platform=".toList, notSpace, someSpaces])]),
    group "image" notSpace, group "suffix" (star true dot), lineEnd]

/-- `[A-Za-z0-9_.:/@-]` -/
def isImageRefChar (c : Char) : Bool :=
  c.isAlphanum || c == '_' || c == '.' || c == ':' || c == '/' || c == '@' || c == '-'

/-- `[A-Za-z0-9_]` -/
def isTagStart (c : Char) : Bool := c.isAlphanum || c == '_'

/-- What may not follow a reference: `[A-Za-z0-9_:/@-]|\.[A-Za-z0-9_]`. -/
def continuesRef : List Char → Bool
  | [] => false
  | [c] => isImageRefChar c && c != '.'
  | c :: d :: _ => isImageRefChar c && c != '.' || c == '.' && isTagStart d

/-- `_CONTAINER_REF_LEADING_BOUNDARY`: `(?<![A-Za-z0-9_.:/@-])` -/
def CONTAINER_REF_LEADING_BOUNDARY : Regex :=
  look fun before _ => before.head?.all fun c => !isImageRefChar c

/-- `_CONTAINER_REF_TRAILING_BOUNDARY`: `(?!(?:[A-Za-z0-9_:/@-]|\.[A-Za-z0-9_]))` -/
def CONTAINER_REF_TRAILING_BOUNDARY : Regex := look fun _ after => !continuesRef after

/-- `_container_ref_pattern`. -/
def containerRefPattern (imageRef : List Char) : Regex :=
  concat [CONTAINER_REF_LEADING_BOUNDARY, lit imageRef, CONTAINER_REF_TRAILING_BOUNDARY]

/-! ## References -/

/-- `_container_image_refs_from_text`. -/
def containerImageRefsFromText (text : List Char) : List (List Char) :=
  [COMPOSE_IMAGE_RE, DOCKER_FROM_RE].flatMap fun pattern =>
    (pattern.finditer text).map fun m => m.group "image"

/-- `_container_image_references`, as the references it contains. -/
def containerImageReferences (files : List ContainerFile) : List (List Char) :=
  (files.filter (·.isDefinition)).flatMap fun file => containerImageRefsFromText file.text

/-- `_parse_container_image_ref`. -/
def parseContainerImageRef (imageRef : List Char) : Option ContainerImage :=
  if ['$', '{'].isPrefixOf imageRef then none
  else
    let (refWithoutDigest, separator, digest) := Text.partitionChars '@' imageRef
    let lastSlashIndex := Text.rfind '/' refWithoutDigest
    let tagSeparatorIndex := Text.rfind ':' refWithoutDigest
    let (repository, tag) :=
      if lastSlashIndex < tagSeparatorIndex then
        (refWithoutDigest.take tagSeparatorIndex.toNat,
          some (refWithoutDigest.drop (tagSeparatorIndex.toNat + 1)))
      else (refWithoutDigest, none)
    if repository = [] then none
    else some
      { repository
        tag := tag.filter (· ≠ [])
        digest := if separator then some digest else none }

/-- `_should_skip_container_image`. -/
def shouldSkipContainerImage (image : ContainerImage) : Bool :=
  image.digest.isSome || image.repository = "scratch".toList ||
    "localhost/".toList.isPrefixOf image.repository || image.tag = some "local".toList

/-- `_container_image_ref_with_tag`. -/
def containerImageRefWithTag (image : ContainerImage) (tag : List Char) : List Char :=
  image.repository ++ ':' :: tag

/-- `_should_replace_bare_container_doc_ref`. -/
def shouldReplaceBareContainerDocRef (image : ContainerImage) (imageRef : List Char) : Bool :=
  image.tag = some "latest".toList && imageRef ≠ image.repository && image.repository.contains '/'

/-- `_remote_container_images`: the references in order, with their images. -/
def remoteContainerImages (references : List (List Char)) : List (List Char × ContainerImage) :=
  (references.dedup.insertionSort (· ≤ ·)).filterMap fun imageRef =>
    ((parseContainerImageRef imageRef).filter fun image => !shouldSkipContainerImage image).map
      fun image => (imageRef, image)

/-! ## Replacements -/

/-- The replacements, a dictionary: old references, in the order in which they were added, with
    the new ones. -/
abbrev Replacements := List (List Char × List Char)

/-- `replacements[old] = new` -/
def Replacements.set (replacements : Replacements) (old new : List Char) : Replacements :=
  if replacements.any (·.1 = old) then
    replacements.map fun r => if r.1 = old then (old, new) else r
  else replacements ++ [(old, new)]

/-- `replacements.setdefault(old, new)` -/
def Replacements.setdefault (replacements : Replacements) (old new : List Char) : Replacements :=
  if replacements.any (·.1 = old) then replacements else replacements ++ [(old, new)]

/-- The resolver of tags: `_resolve_container_tags` asks it for every image. -/
abbrev TagResolver := List Char → Option (List Char) → Option (List Char)

/-- One round of the loop of `_container_image_replacements`. -/
def addReplacement (resolver : TagResolver) (replacements : Replacements)
    (entry : List Char × ContainerImage) : Replacements :=
  let (imageRef, image) := entry
  match resolver image.repository image.tag with
  | none => replacements
  | some latestTag =>
    if some latestTag = image.tag then replacements
    else
      let newRef := containerImageRefWithTag image latestTag
      if newRef = imageRef then replacements
      else
        let replacements := replacements.set imageRef newRef
        if shouldReplaceBareContainerDocRef image imageRef then
          replacements.setdefault image.repository newRef
        else replacements

/-- The loop of `_container_image_replacements`, with the tags resolved. -/
def containerImageReplacements (references : List (List Char)) (resolver : TagResolver) :
    Replacements :=
  (remoteContainerImages references).foldl (addReplacement resolver) []

/-- Two images have the same repository, and one of them has no tag: `sorted` cannot compare their
    keys in `_resolve_container_tags`. -/
def mixesTags (images : List ContainerImage) : Bool :=
  images.any fun image => images.any fun image' =>
    image.repository = image'.repository && image.tag.isNone && image'.tag.isSome

/-- `_container_image_replacements`; `none` if `sorted` raises `TypeError`. -/
def containerImageReplacements? (references : List (List Char)) (resolver : TagResolver) :
    Option Replacements :=
  if mixesTags ((remoteContainerImages references).map Prod.snd) then none
  else some (containerImageReplacements references resolver)

/-- `_replace_container_ref_in_text`; `none` if the new reference is no template for `re.sub`. -/
def replaceContainerRefInText (text oldRef newRef : List Char) : Option (List Char × Bool) :=
  (template [] newRef).map fun newRef =>
    let updatedText := (containerRefPattern oldRef).sub newRef text
    (updatedText, updatedText ≠ text)

/-- The loop over the replacements in `_replace_container_refs`, for the text of one file: the text
    it leaves, and the replacements it records. -/
def replaceContainerRefsInText : Replacements → List Char → Option (List Char × Replacements)
  | [], text => some (text, [])
  | (oldRef, newRef) :: replacements, text => do
    let (text, changed) ← replaceContainerRefInText text oldRef newRef
    let (text, updates) ← replaceContainerRefsInText replacements text
    return (text, if changed then (oldRef, newRef) :: updates else updates)

/-- `ordered_replacements`: the longest old references first, by `_replacement_length`. -/
def orderedReplacements (replacements : Replacements) : Replacements :=
  replacements.insertionSort fun r s => s.1.length ≤ r.1.length

/-- What a run did: the updates it returns, or `none` if it raised, and the texts it wrote. -/
structure ContainerRun where
  updates : Option (List ContainerImageUpdate)
  written : List (List Char × List Char)
  deriving DecidableEq

/-- The loop over the files in `_replace_container_refs`. -/
def replaceContainerRefs (replacements : Replacements) (dryRun : Bool) :
    List ContainerFile → ContainerRun
  | [] => ⟨some [], []⟩
  | file :: files =>
    match replaceContainerRefsInText (orderedReplacements replacements) file.text with
    | none => ⟨none, []⟩
    | some (updatedText, updates) =>
      let run := replaceContainerRefs replacements dryRun files
      { updates := run.updates.map fun rest =>
          updates.map (fun r => ⟨file.filePath, r.1, r.2⟩) ++ rest
        written :=
          if updatedText ≠ file.text ∧ !dryRun then (file.filePath, updatedText) :: run.written
          else run.written }

/-- `update_container_image_versions`, for the files of `_container_reference_paths`. -/
def updateContainerImageVersions (files : List ContainerFile) (resolver : TagResolver)
    (dryRun : Bool) : ContainerRun :=
  match containerImageReplacements? (containerImageReferences files) resolver with
  | none => ⟨none, []⟩
  | some replacements =>
    if replacements = [] then ⟨some [], []⟩ else replaceContainerRefs replacements dryRun files

end FastapiTemplate.Management
