/-
  The requests of `update_container_image_versions.py` and
  `update_github_action_versions.py`: the tags that registries list, and the
  releases of GitHub.
-/
import FastapiTemplate.Management.ContainerTags
import FastapiTemplate.Management.Http
import FastapiTemplate.Management.Patterns

namespace FastapiTemplate.Management

open Effects Regex

/-! ## Payloads -/

/-- `_tag_names_from_docker_hub_payload` -/
def tagNamesFromDockerHubPayload (payload : List (String × Json)) : List (List Char) :=
  match (payload.lookup "results").getD (.arr []) with
  | .arr payloadResults => payloadResults.filterMap fun payloadResult =>
    payloadResult.asDict.bind fun payloadResult => (payloadResult.lookup "name").bind Json.asStr
  | _ => []

/-- `_tag_names_from_registry_payload` -/
def tagNamesFromRegistryPayload (payload : List (String × Json)) : List (List Char) :=
  match (payload.lookup "tags").getD (.arr []) with
  | .arr tags => tags.filterMap Json.asStr
  | _ => []

/-- `_GHCR_NEXT_LINK_RE`: `<(?P<url>[^>]+)>;\s*rel="next"` -/
def GHCR_NEXT_LINK_RE : Regex :=
  concat [lit ['<'], group "url" (plus (char (· != '>'))), lit ['>', ';'], spaces,
    lit "rel=\"next\"".toList]

/-- `_next_ghcr_url` -/
def nextGhcrUrl (link : Option (List Char)) : Option (List Char) :=
  (link.bind GHCR_NEXT_LINK_RE.search).map fun m =>
    let url := m.group "url"
    if ['/'].isPrefixOf url then "https://ghcr.io".toList ++ url else url

/-! ## Pages -/

/-- `_MAX_REGISTRY_PAGES` -/
def MAX_REGISTRY_PAGES : ℕ := 20

/-- How a registry lists tags: the headers of its requests, the tags of a page, and the next
    page. -/
structure Listing where
  headers : List (List Char × List Char)
  names : List (String × Json) → List (List Char)
  nextUrl : List (String × Json) → Option (List Char) → Option (List Char)

section
variable (rejects : List Char → Bool)

/-- The loop of `_docker_hub_tags` and `_ghcr_tags`. -/
def Listing.pages (listing : Listing) : ℕ → List Char → Web (List (List Char))
  | 0, _ => return []
  | n + 1, url => do
    match ← jsonResponse rejects url listing.headers with
    | some ⟨.obj payload, link⟩ =>
      let tags := listing.names payload
      match listing.nextUrl payload link with
      | none => return tags
      | some nextUrl => return tags ++ (← listing.pages n nextUrl)
    | _ => return []

def dockerHubListing : Listing where
  headers := []
  names := tagNamesFromDockerHubPayload
  nextUrl payload _ := ((payload.lookup "next").bind Json.asStr).filter (· ≠ [])

/-- `_docker_hub_tags` -/
def dockerHubTags (repositoryPath : List Char) : Web (List (List Char)) :=
  dockerHubListing.pages rejects MAX_REGISTRY_PAGES
    ("https://hub.docker.com/v2/repositories/".toList ++ repositoryPath ++
    "/tags?page_size=100".toList)

/-- `urlencode({"service": "ghcr.io", "scope": f"repository:{repository_path}:pull"})`, where
    `quote`
    is `quote_plus` -/
def ghcrTokenUrl (repositoryPath : List Char) : List Char :=
  "https://ghcr.io/token?service=ghcr.io&scope=".toList ++
    Url.quotePlus ("repository:".toList ++ repositoryPath ++ ":pull".toList)

/-- `_ghcr_token` -/
def ghcrToken (repositoryPath : List Char) : Web (Option (List Char)) := do
  match ← jsonResponse rejects (ghcrTokenUrl repositoryPath) [] with
  | some ⟨.obj payload, _⟩ => return (payload.lookup "token").bind Json.asStr
  | _ => return none

def ghcrListing (token : List Char) : Listing where
  headers := [("Authorization".toList, "Bearer ".toList ++ token)]
  names := tagNamesFromRegistryPayload
  nextUrl _ link := nextGhcrUrl link

/-- `_ghcr_tags` -/
def ghcrTags (repositoryPath : List Char) : Web (List (List Char)) := do
  match ← ghcrToken rejects repositoryPath with
  | none => return []
  | some token =>
    let url := "https://ghcr.io/v2/".toList ++ repositoryPath ++ "/tags/list?n=1000".toList
    (ghcrListing token).pages rejects MAX_REGISTRY_PAGES url

/-- `_container_registry_tags` -/
def containerRegistryTags (repository : List Char) : Web (List (List Char)) :=
  let (registry, repositoryPath) := containerRegistryAndPath repository
  if registry = DOCKER_IO_REGISTRY then dockerHubTags rejects repositoryPath
  else if registry = "ghcr.io".toList then ghcrTags rejects repositoryPath
  else return []

/-- `_latest_container_image_tag` -/
def fetchContainerImageTag (repository : List Char) (currentTag : Option (List Char)) :
    Web (Option (List Char)) := do
  let tags ← containerRegistryTags rejects repository
  return latestContainerImageTag (fun _ => tags) repository currentTag

/-! ## Releases -/

/-- `_github_json` -/
def githubJson (url : List Char) : Web (Option Json) := do
  let response ← jsonResponse rejects url [("Accept".toList, "application/vnd.github+json".toList),
    ("User-Agent".toList, "modern-python-template-dependency-updater".toList)]
  return response.map (·.payload)

/-- What `_latest_github_tag` does where no release is named. -/
def firstGithubTag (repository : List Char) : Web (Option (List Char)) := do
  match ← githubJson rejects
    ("https://api.github.com/repos/".toList ++ repository ++ "/tags?per_page=1".toList) with
  | some (.arr (.obj tag :: _)) => return (tag.lookup "name").bind Json.asStr
  | _ => return none

/-- `_latest_github_tag`; a release that is no object has no `get`. -/
def latestGithubTag (repository : List Char) : Web (Option (List Char)) := do
  let latestRelease ← githubJson rejects
    ("https://api.github.com/repos/".toList ++ repository ++ "/releases/latest".toList)
  let tagName ← match latestRelease with
    | none | some .null => pure none
    | some (.obj latestRelease) => pure ((latestRelease.lookup "tag_name").bind Json.asStr)
    | some _ => throw .attributeError
  match tagName with
  | some tagName => return some tagName
  | none => firstGithubTag rejects repository

end

end FastapiTemplate.Management
