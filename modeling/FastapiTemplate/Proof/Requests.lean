/-
  What the updater asks the registries of images: at most twenty pages, over
  HTTPS, each the first one or named by a page before it; GHCR's token goes only
  with pages of GHCR's listing, and no tag is chosen that no page lists
  (`fetchContainerImageTag_adds`).  All worker threads keep to it, whatever the
  order of their requests (`registry_requests`).
-/
import FastapiTemplate.Lib.Log
import FastapiTemplate.Management.Parallel
import FastapiTemplate.Proof.TagVariants

namespace FastapiTemplate.Management

open Effects

/-- The requests of a run with their answers, newest first. -/
abbrev WebLog := Log WebCall (fun _ => JsonResponse) WebError

/-- The request was answered with an object. -/
def Answered (log : WebLog) (c : WebCall) (payload : List (String × Json))
    (link : Option (List Char)) : Prop :=
  ⟨c, .ok ⟨.obj payload, link⟩⟩ ∈ log

namespace Listing

variable (listing : Listing)

/-- The URL is the first one, or a page of the listing names it. -/
def Names (first : List Char) (log : WebLog) (url : List Char) : Prop :=
  url = first ∨ ∃ c payload link, Answered log c payload link ∧ c.headers = listing.headers ∧
    listing.nextUrl payload link = some url

/-- A request for a page of the listing. -/
def Asks (first : List Char) (log : WebLog) (c : WebCall) : Prop :=
  Url.scheme c.url = "https".toList ∧ c.headers = listing.headers ∧ listing.Names first log c.url

/-- A page of the listing has the tag. -/
def Lists (log : WebLog) (tag : List Char) : Prop :=
  ∃ c payload link, Answered log c payload link ∧ c.headers = listing.headers ∧
    tag ∈ listing.names payload

end Listing

/-! ## Pages -/

section
variable {rejects : List Char → Bool} {listing : Listing} {first url : List Char}
    {log log' : WebLog}

theorem Listing.Lists.mono {tag : List Char} (h : listing.Lists log tag) (hsuffix : log <:+ log') :
    listing.Lists log' tag := by
  obtain ⟨c, payload, link, hanswered, hc⟩ := h
  exact ⟨c, payload, link, hsuffix.subset hanswered, hc⟩

/-- What `_json_response` leaves in the log: the response that it returns, and no other. -/
structure Fetches (P : WebLog → WebCall → Prop) (url : List Char)
    (headers : List (List Char × List Char)) (log : WebLog)
    (r : Except WebError (Option JsonResponse)) (log' : WebLog) : Prop where
  adds : Adds P log 1 log'
  returned : ∀ response, r = .ok (some response) → log' = ⟨⟨url, headers⟩, .ok response⟩ :: log
  answered : ∀ c payload link, Answered log' c payload link →
    Answered log c payload link ∨ r = .ok (some ⟨.obj payload, link⟩)

/-- **A request for JSON** is made at most once, and only over HTTPS. -/
theorem jsonResponse_fetches {P : WebLog → WebCall → Prop} {headers : List (List Char × List Char)}
    (h : Url.scheme url = "https".toList → P log ⟨url, headers⟩) :
    wp logging (jsonResponse rejects url headers) (Fetches P url headers log) log := by
  unfold jsonResponse
  split_ifs with hrejects hscheme
  · exact ⟨.refl, fun response hr => (by cases hr), fun _ _ _ => .inl⟩
  · exact ⟨.refl, fun response hr => (by cases hr), fun _ _ _ => .inl⟩
  · refine wp_handle.2 (wp_bind.2 (wp_perform_logging.2 fun r => ?_))
    have hadds : ∀ r, Adds P log 1 (⟨⟨url, headers⟩, r⟩ :: log) :=
      fun r => .call .refl (h (not_not.1 hscheme))
    cases r with
    | ok response =>
      refine ⟨hadds _, fun response hr => (by cases hr; rfl), fun c payload link hmem => ?_⟩
      rcases List.mem_cons.1 hmem with heq | hmem
      · cases heq
        exact .inr rfl
      · exact .inl hmem
    | error e =>
      have hanswered : ∀ c payload link,
          Answered (⟨⟨url, headers⟩, .error e⟩ :: log) c payload link →
          Answered log c payload link := by
        intro c payload link hmem
        rcases List.mem_cons.1 hmem with heq | hmem
        · cases heq
        · exact hmem
      cases e <;> exact ⟨hadds _, fun response hr => (by cases hr), fun c payload link h =>
        .inl (hanswered c payload link h)⟩

/-- **The pages of a listing**: at most `n`, each named by one before it, and their tags. -/
theorem pages_adds {n : ℕ} (h : listing.Names first log url) :
    wp logging (listing.pages rejects n url) (fun r log' => Adds (listing.Asks first) log n log' ∧
      ∀ tags, r = .ok tags → ∀ tag ∈ tags, listing.Lists log' tag) log := by
  induction n generalizing url log with
  | zero => exact ⟨.refl, fun tags hr => by cases hr; simp⟩
  | succ n ih =>
    unfold Listing.pages
    have hone : ∀ {log'}, Adds (listing.Asks first) log 1 log' →
        Adds (listing.Asks first) log (n + 1) log' :=
      fun hadds => hadds.mono_le (Nat.le_add_left 1 n)
    refine wp_seq (jsonResponse_fetches fun hscheme => ⟨hscheme, rfl, h⟩)
      (fun response log' hfetched => ?_)
      fun e log' hfetched => ⟨hone hfetched.adds, fun tags hr => by cases hr⟩
    obtain ⟨hadds, hresponse, -⟩ := hfetched
    rcases response with _ | ⟨payload, link⟩
    · exact ⟨hone hadds, fun tags hr => by cases hr; simp⟩
    cases payload with
    | obj payload =>
      have hanswered : Answered log' ⟨url, listing.headers⟩ payload link := by
        rw [hresponse _ rfl]
        exact List.mem_cons_self
      have hlists : ∀ tag ∈ listing.names payload, listing.Lists log' tag :=
        fun tag htag => ⟨_, payload, link, hanswered, rfl, htag⟩
      cases hnext : listing.nextUrl payload link with
      | none =>
        simp only [hnext]
        exact ⟨hone hadds, fun tags hr => by cases hr; exact hlists⟩
      | some nextUrl =>
        simp only [hnext]
        refine wp_seq (ih (.inr ⟨_, payload, link, hanswered, rfl, hnext⟩))
          (fun tags log'' hrest => ?_)
          fun e log'' hrest =>
          ⟨(Nat.add_comm 1 n) ▸ hadds.trans hrest.1, fun tags hr => by cases hr⟩
        refine ⟨(Nat.add_comm 1 n) ▸ hadds.trans hrest.1, fun all hall => ?_⟩
        cases hall
        exact List.forall_mem_append.2 ⟨fun tag htag => (hlists tag htag).mono hrest.1.suffix,
          hrest.2 tags rfl⟩
    | _ => exact ⟨hone hadds, fun tags hr => by cases hr; simp⟩

end

/-! ## Registries -/

section
variable (repository : List Char) (log : WebLog)

/-- GHCR gave the token for the path. -/
def GaveToken (repositoryPath token : List Char) : Prop :=
  ∃ payload link, Answered log ⟨ghcrTokenUrl repositoryPath, []⟩ payload link ∧
    (payload.lookup "token").bind Json.asStr = some token

/-- What the registry of the repository may be asked after the requests of `log`. -/
def RegistryAsks (c : WebCall) : Prop :=
  let (registry, repositoryPath) := containerRegistryAndPath repository
  Url.scheme c.url = "https".toList ∧
    (registry = DOCKER_IO_REGISTRY ∧ dockerHubListing.Asks
        ("https://hub.docker.com/v2/repositories/".toList ++ repositoryPath ++
        "/tags?page_size=100".toList) log c ∨
      registry = "ghcr.io".toList ∧ (c = ⟨ghcrTokenUrl repositoryPath, []⟩ ∨
        ∃ token, GaveToken log repositoryPath token ∧ (ghcrListing token).Asks
          ("https://ghcr.io/v2/".toList ++ repositoryPath ++ "/tags/list?n=1000".toList) log c))

/-- A page of the registry of the repository has the tag. -/
def RegistryLists (tag : List Char) : Prop :=
  let (registry, _) := containerRegistryAndPath repository
  registry = DOCKER_IO_REGISTRY ∧ dockerHubListing.Lists log tag ∨
    registry = "ghcr.io".toList ∧ ∃ token, (ghcrListing token).Lists log tag

end

section
variable {rejects : List Char → Bool} {repository repositoryPath : List Char} {log : WebLog}

theorem GaveToken.mono {log' : WebLog} {token : List Char} (h : GaveToken log repositoryPath token)
    (hsuffix : log <:+ log') : GaveToken log' repositoryPath token := by
  obtain ⟨payload, link, hanswered, htoken⟩ := h
  exact ⟨payload, link, hsuffix.subset hanswered, htoken⟩

/-- The request for a token. -/
theorem ghcrToken_adds {P : WebLog → WebCall → Prop}
    (h : Url.scheme (ghcrTokenUrl repositoryPath) = "https".toList →
    P log ⟨ghcrTokenUrl repositoryPath, []⟩) :
    wp logging (ghcrToken rejects repositoryPath) (fun r log' => Adds P log 1 log' ∧
      ∀ token, r = .ok (some token) → GaveToken log' repositoryPath token) log := by
  refine wp_seq (jsonResponse_fetches h) (fun response log' hfetched => ?_)
    fun e log' hfetched => ⟨hfetched.adds, fun token hr => by cases hr⟩
  obtain ⟨hadds, hresponse, -⟩ := hfetched
  rcases response with _ | ⟨payload, link⟩
  · exact ⟨hadds, fun token hr => by cases hr⟩
  cases payload with
  | obj payload =>
    refine ⟨hadds, fun token hr => ⟨payload, link, ?_, Except.ok.inj hr⟩⟩
    rw [hresponse _ rfl]
    exact List.mem_cons_self
  | _ => exact ⟨hadds, fun token hr => by cases hr⟩

/-- The requests for the tags of a repository. -/
theorem containerRegistryTags_adds :
    wp logging (containerRegistryTags rejects repository) (fun r log =>
      Adds (RegistryAsks repository) [] (MAX_REGISTRY_PAGES + 1) log ∧
        ∀ tags, r = .ok tags → ∀ tag ∈ tags, RegistryLists repository log tag) [] := by
  unfold containerRegistryTags RegistryAsks RegistryLists
  generalize containerRegistryAndPath repository = registryAndPath
  obtain ⟨registry, repositoryPath⟩ := registryAndPath
  dsimp only
  split_ifs with hdocker hghcr
  · refine wp_mono (fun r log h => ⟨?_, fun tags hr tag htag => ?_⟩) (pages_adds (.inl rfl))
    · exact (h.1.imp fun l c _ hc => ⟨hc.1, .inl ⟨hdocker, hc⟩⟩).mono_le (Nat.le_succ _)
    · exact .inl ⟨hdocker, h.2 tags hr tag htag⟩
  · unfold ghcrTags
    refine wp_seq (ghcrToken_adds fun hscheme => ⟨hscheme, .inr ⟨hghcr, .inl rfl⟩⟩)
      (fun token log htoken => ?_)
      fun e log htoken => ⟨htoken.1.mono_le (Nat.le_add_left ..), fun tags hr => by cases hr⟩
    cases token with
    | none => exact ⟨htoken.1.mono_le (Nat.le_add_left ..), fun tags hr => by cases hr; simp⟩
    | some token =>
      have hgave := htoken.2 token rfl
      refine wp_mono (fun r log' h => ⟨?_, fun tags hr tag htag => ?_⟩) (pages_adds (.inl rfl))
      · exact (Nat.add_comm 1 MAX_REGISTRY_PAGES) ▸ htoken.1.trans
          (h.1.imp fun l c hl hc => ⟨hc.1, .inr ⟨hghcr, .inr ⟨token, hgave.mono hl, hc⟩⟩⟩)
      · exact .inr ⟨hghcr, token, h.2 tags hr tag htag⟩
  · exact ⟨.refl, fun tags hr => by cases hr; simp⟩

/-- The chosen tag is one of the listed ones. -/
theorem mem_of_latestContainerImageTag {tags : List (List Char)} {currentTag : Option (List Char)}
    {t : List Char}
    (h : latestContainerImageTag (fun _ => tags) repository currentTag = some t) : t ∈ tags := by
  unfold latestContainerImageTag at h
  dsimp only at h
  split_ifs at h with hempty
  cases currentTag with
  | none => exact (firstBest_of_bestRanked h).mem
  | some currentTag =>
    dsimp only at h
    split_ifs at h with hlatest
    · exact (firstBest_of_bestRanked h).mem
    · rcases bestCompatible_iff.1 h with ⟨hbest, -⟩ | ⟨-, hbest⟩
      · exact (mem_variantTags.1 hbest.mem).1
      · exact (mem_pinnedTags.1 hbest.mem).1

/-- **What a registry is asked for the tag of an image**: at most a token and twenty pages, each of
    them over HTTPS and named by an answer before it; and the tag that is chosen is on a page. -/
theorem fetchContainerImageTag_adds {currentTag : Option (List Char)} :
    wp logging (fetchContainerImageTag rejects repository currentTag) (fun r log =>
      Adds (RegistryAsks repository) [] (MAX_REGISTRY_PAGES + 1) log ∧
        ∀ tag, r = .ok (some tag) → RegistryLists repository log tag) [] := by
  refine wp_seq containerRegistryTags_adds (fun tags log h => ⟨h.1, fun tag hr => ?_⟩)
    fun e log h => ⟨h.1, fun tag hr => by cases hr⟩
  exact h.2 tags rfl tag (mem_of_latestContainerImageTag (Except.ok.inj hr))

end

/-! ## Threads -/

instance : Inhabited WebError := ⟨.failed⟩

/-- The keys of images, looked up by worker threads. -/
abbrev TagPool := Pool (List Char × Option (List Char)) WebCall (fun _ => JsonResponse) WebError
  (Option (List Char))

section
variable (answer : (c : WebCall) → Except WebError JsonResponse → Prop)

/-- What the worker threads ask the registries, and the tags that they choose. -/
structure AsksRegistries (pool : TagPool) : Prop where
  /-- what a thread is about to ask, after at most twenty answers -/
  requests : ∀ key c k, (key, .call c k) ∈ pool.working →
    ∃ log, Recorded (RegistryAsks key.1) answer MAX_REGISTRY_PAGES log ∧ RegistryAsks key.1 log c
  /-- a tag that was chosen is on a page -/
  tags : ∀ key tag, (key, .ok (some tag)) ∈ pool.finished →
    ∃ log, Recorded (RegistryAsks key.1) answer (MAX_REGISTRY_PAGES + 1) log ∧
    RegistryLists key.1 log tag

end

section
variable {rejects : List Char → Bool} {answer : (c : WebCall) → Except WebError JsonResponse → Prop}
    {n : ℕ}
  {entries : List (List Char × Option (List Char))} {pool : TagPool}

theorem keeps_of_reachable
    (h : Pool.Reachable n (resolveContainerTag rejects) answer entries pool) :
    pool.Keeps (resolveContainerTag rejects)
      (fun key => recorded (RegistryAsks key.1) answer (MAX_REGISTRY_PAGES + 1))
      (fun key r log => Recorded (RegistryAsks key.1) answer (MAX_REGISTRY_PAGES + 1) log ∧
        ∀ tag, r = .ok (some tag) → RegistryLists key.1 log tag) [] :=
  .recorded (fun _ => fetchContainerImageTag_adds) h

/-- **The requests of all worker threads**, however they are interleaved and answered. -/
theorem registry_requests (h : Pool.Reachable n (resolveContainerTag rejects) answer entries pool) :
    AsksRegistries answer pool where
  requests key c k hmem := by
    obtain ⟨log, hasks, m, hm, hhistory⟩ := (keeps_of_reachable h).can hmem
    exact ⟨log, ⟨hhistory.adds.mono_le (Nat.le_of_lt_succ hm), hhistory.answers⟩, hasks⟩
  tags key tag hmem := by
    obtain ⟨log, hhistory, hlists⟩ := (keeps_of_reachable h).finished _ hmem
    exact ⟨log, hhistory, hlists tag rfl⟩

/-- A thread that looks up `alpine`. -/
theorem registry_requests_alpine : AsksRegistries (fun _ _ => True)
    ⟨[], [(("alpine".toList, none), resolveContainerTag (fun _ => false) ("alpine".toList, none))],
    []⟩ :=
  @registry_requests (fun _ => false) (fun _ _ => True) 1 [("alpine".toList, none)] _
    (.single (.take Nat.one_pos))

end

end FastapiTemplate.Management
