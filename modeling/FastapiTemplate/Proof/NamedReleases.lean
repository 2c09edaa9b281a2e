/-
  The references that the updater writes into workflows: a run with worker
  threads writes what GitHub names as the latest release of the repository, or
  as its first tag where there is no release (`written_refs_named`).
-/
import FastapiTemplate.Proof.ListedTags
import FastapiTemplate.Proof.WorkflowActions

namespace FastapiTemplate.Management

open Effects

/-! ## Requests -/

section
variable (repository : List Char) (log : WebLog)

def latestReleaseUrl : List Char :=
  "https://api.github.com/repos/".toList ++ repository ++ "/releases/latest".toList

def firstTagUrl : List Char :=
  "https://api.github.com/repos/".toList ++ repository ++ "/tags?per_page=1".toList

/-- GitHub named the tag of the latest release. -/
def ReleaseNames (tag : List Char) : Prop :=
  ∃ c payload link, Answered log c payload link ∧ c.url = latestReleaseUrl repository ∧
    (payload.lookup "tag_name").bind Json.asStr = some tag

/-- GitHub listed the tag first. -/
def TagsName (tag : List Char) : Prop :=
  ∃ c payload tags link, ⟨c, .ok ⟨.arr (.obj payload :: tags), link⟩⟩ ∈ log ∧ c.url =
    firstTagUrl repository ∧
    (payload.lookup "name").bind Json.asStr = some tag

/-- What GitHub may be asked: the tags only where it named no release. -/
def GithubAsks (c : WebCall) : Prop :=
  Url.scheme c.url = "https".toList ∧ (c.url = latestReleaseUrl repository ∨
    c.url = firstTagUrl repository ∧ ∀ tag, ¬ReleaseNames repository log tag)

/-- What GitHub named. -/
def GithubNames (tag : List Char) : Prop :=
  ReleaseNames repository log tag ∨ TagsName repository log tag ∧
    ∀ tag, ¬ReleaseNames repository log tag

end

section
variable {rejects : List Char → Bool} {repository url : List Char} {log log' : WebLog}

/-- `_github_json` leaves in the log what it returns. -/
theorem githubJson_fetches {P : WebLog → WebCall → Prop}
    (h : ∀ headers, Url.scheme url = "https".toList → P log ⟨url, headers⟩) :
    wp logging (githubJson rejects url) (fun r log' => Adds P log 1 log' ∧
      (∀ payload, r = .ok (some payload) → ∃ headers link,
      log' = ⟨⟨url, headers⟩, .ok ⟨payload, link⟩⟩ :: log) ∧
      ∀ c payload link, Answered log' c payload link → Answered log c payload link ∨ r =
      .ok (some (.obj payload))) log := by
  refine wp_seq (jsonResponse_fetches (h _)) (fun response log' hfetched => ?_) fun e log'
    hfetched => ?_
  · refine ⟨hfetched.adds, fun payload hr => ?_, fun c payload link hanswered => ?_⟩
    · obtain ⟨response, rfl, rfl⟩ := Option.map_eq_some_iff.1 (Except.ok.inj hr)
      exact ⟨_, response.link, hfetched.returned response rfl⟩
    · refine (hfetched.answered c payload link hanswered).imp_right fun hr => ?_
      rw [Except.ok.inj hr]
      rfl
  · refine ⟨hfetched.adds, fun payload hr => (by cases hr), fun c payload link hanswered => ?_⟩
    refine (hfetched.answered c payload link hanswered).imp_right fun hr => ?_
    cases hr

/-- The request for the tags, where no release was named. -/
theorem firstGithubTag_adds (hadds : Adds (GithubAsks repository) [] 1 log)
    (hnone : ∀ tag, ¬ReleaseNames repository log tag) :
    wp logging (firstGithubTag rejects repository)
      (fun r log => Adds (GithubAsks repository) [] 2 log ∧
      ∀ tag, r = .ok (some tag) → GithubNames repository log tag) log := by
  refine wp_seq (githubJson_fetches fun headers hscheme => ⟨hscheme, .inr ⟨rfl, hnone⟩⟩)
    (fun tags log' h => ?_) fun e log' h => ⟨hadds.trans h.1, fun tag hr => by cases hr⟩
  obtain ⟨hadds', hreturned, -⟩ := h
  have hall := hadds.trans hadds'
  split
  · rename_i payload rest
    refine ⟨hall, fun tag hr => .inr ?_⟩
    obtain ⟨headers, link, rfl⟩ := hreturned _ rfl
    refine ⟨⟨_, payload, rest, link, List.mem_cons_self, rfl, Except.ok.inj hr⟩, ?_⟩
    rintro tag ⟨c, payload', link', hmem, hurl, hname⟩
    rcases List.mem_cons.1 hmem with heq | hmem
    · cases heq
    · exact hnone tag ⟨c, payload', link', hmem, hurl, hname⟩
  · exact ⟨hall, fun tag hr => by cases hr⟩

/-- **What GitHub is asked for the tag of an action**, and that it names the tag. -/
theorem latestGithubTag_adds : wp logging (latestGithubTag rejects repository) (fun r log =>
    Adds (GithubAsks repository) [] 2 log ∧ ∀ tag, r = .ok (some tag) →
      GithubNames repository log tag) [] := by
  refine wp_seq (githubJson_fetches fun headers hscheme => ⟨hscheme, .inl rfl⟩)
    (fun latestRelease log h => ?_)
    fun e log h => ⟨h.1.mono_le one_le_two, fun tag hr => by cases hr⟩
  obtain ⟨hadds, hreturned, hanswered⟩ := h
  have hnames {tag : List Char} (h : ReleaseNames repository log tag) :
      ∃ payload, latestRelease = some (.obj payload) ∧
      (payload.lookup "tag_name").bind Json.asStr = some tag := by
    obtain ⟨c, payload, link, hmem, -, hname⟩ := h
    rcases hanswered c payload link hmem with hmem | hr
    · cases hmem
    · exact ⟨payload, Except.ok.inj hr, hname⟩
  rcases latestRelease with _ | payload
  · refine firstGithubTag_adds hadds fun tag h => ?_
    obtain ⟨_, h, -⟩ := hnames h
    cases h
  cases payload with
  | null =>
    refine firstGithubTag_adds hadds fun tag h => ?_
    obtain ⟨_, h, -⟩ := hnames h
    cases h
  | obj payload =>
    cases hname : (payload.lookup "tag_name").bind Json.asStr with
    | some tagName =>
      simp only [hname]
      refine ⟨hadds.mono_le one_le_two, fun tag hr => .inl ?_⟩
      obtain ⟨headers, link, rfl⟩ := hreturned _ rfl
      cases hr
      exact ⟨_, payload, link, List.mem_cons_self, rfl, hname⟩
    | none =>
      simp only [hname]
      refine firstGithubTag_adds hadds fun tag h => ?_
      obtain ⟨payload', h, hname'⟩ := hnames h
      cases h
      rw [hname] at hname'
      cases hname'
  | _ => exact ⟨hadds.mono_le one_le_two, fun tag hr => by cases hr⟩

end

/-! ## Runs -/

/-- The update writes what GitHub named. -/
def NamedUpdate (answer : (c : WebCall) → Except WebError JsonResponse → Prop)
    (u : ActionUpdate) : Prop :=
  ∃ log, Recorded (GithubAsks u.repository) answer 2 log ∧ GithubNames u.repository log u.newRef

section
variable {workflowPath latestVersion : List Char} {latestToolTags : List Char → Option (List Char)}
    {u : ActionUpdate}

theorem newRef_of_updatedLine {line : List Char} {inStep : Bool}
    (h : (updatedSetupComposeVersionLine workflowPath line latestVersion inStep).2 = some u) :
    u.repository = DOCKER_COMPOSE_REPOSITORY ∧ u.newRef = latestVersion := by
  unfold updatedSetupComposeVersionLine at h
  split at h
  · split at h
    · cases h
    · dsimp only at h
      split at h
      · cases h
      · cases h
        exact ⟨rfl, rfl⟩
  · cases h

theorem newRef_of_updateLines {scan : StepScan} {lines : List (List Char)}
    (h : u ∈ (updateLines workflowPath latestVersion scan lines).filterMap Prod.snd) :
    u.repository = DOCKER_COMPOSE_REPOSITORY ∧ u.newRef = latestVersion := by
  induction lines generalizing scan with
  | nil => cases h
  | cons line lines ih =>
    obtain ⟨e, he, hu⟩ := List.mem_filterMap.1 h
    rcases List.mem_cons.1 he with rfl | he
    · exact newRef_of_updatedLine hu
    · exact ih (List.mem_filterMap.2 ⟨e, he, hu⟩)

/-- An update of the Compose version takes the latest one. -/
theorem newRef_of_versionUpdate {workflowText : List Char}
    (h : u ∈ (updatedSetupComposeVersionText workflowPath workflowText latestToolTags).2) :
    latestToolTags u.repository = some u.newRef := by
  unfold updatedSetupComposeVersionText at h
  split at h
  · cases h
  · rename_i latestVersion htag
    obtain ⟨hrepository, hnew⟩ := newRef_of_updateLines h
    rw [hrepository, hnew, htag]

/-- An update takes a tag from one of the dictionaries. -/
theorem newRef_of_update {word : Char → Bool} {workflowTexts : List (List Char × List Char)}
    {dryRun : Bool}
    {latestTags : List Char → Option (List Char)}
    (h : u ∈ (updateWorkflows word workflowTexts dryRun latestTags latestToolTags).1) :
    latestTags u.repository = some u.newRef ∨ latestToolTags u.repository = some u.newRef := by
  obtain ⟨r, hr, hu⟩ := List.mem_flatMap.1 h
  obtain ⟨w, -, rfl⟩ := List.mem_map.1 hr
  rcases List.mem_append.1 hu with hu | hu
  · obtain ⟨m, -, tag, n, k, htag, -, -, -, rfl⟩ := mem_actionUpdates.1 hu
    exact .inl htag
  · exact .inr (newRef_of_versionUpdate hu)

end

section
variable {rejects : List Char → Bool} {answer : (c : WebCall) → Except WebError JsonResponse → Prop}
  {word : Char → Bool} {workflowTexts : List (List Char × List Char)} {dryRun : Bool}
  {out : Except WebError (List ActionUpdate × List (List Char × List Char))}
  {updates : List ActionUpdate} {written : List (List Char × List Char)}

/-- What is in the dictionary of the threads, GitHub named. -/
theorem named_of_resolved {entries : List (List Char)}
    {latestTags : List Char → Option (Option (List Char))}
    {repository tag : List Char}
      (h : ResolvesInParallel (latestGithubTag rejects) answer entries (.ok latestTags))
    (htag : (latestTags repository).join = some tag) :
    ∃ log, Recorded (GithubAsks repository) answer 2 log ∧ GithubNames repository log tag := by
  obtain ⟨n, pool, hpool, hfinished⟩ := h.exists_finished (Option.join_eq_some_iff.1 htag)
  obtain ⟨log, hhistory, hnames⟩ :=
    (Pool.Keeps.recorded (fun _ => latestGithubTag_adds) hpool).finished _ hfinished
  exact ⟨log, hhistory, hnames tag rfl⟩

/-- **No run writes a reference that GitHub did not name**, whatever the workflows, the order of the
    requests and the answers. -/
theorem written_refs_named (h : UpdatesWorkflows rejects answer word workflowTexts dryRun out)
    (hok : out = .ok (updates, written)) : ∀ u ∈ updates, NamedUpdate answer u := by
  cases h with
  | actionsRaised => cases hok
  | toolsRaised => cases hok
  | @updated latestTags latestToolTags hactions htools =>
    intro u hu
    have hupdates : updates =
        (updateWorkflows word workflowTexts dryRun (fun r => (latestTags r).join)
        fun r => (latestToolTags r).join).1 := by
      rw [Except.ok.inj hok]
    rw [hupdates] at hu
    rcases newRef_of_update hu with htag | htag
    · exact named_of_resolved hactions htag
    · exact named_of_resolved htools htag

end

/-- GitHub names `v7` as the latest release. -/
def namesSeven : Answers WebCall (fun _ => JsonResponse) WebError :=
  fun _ => .ok ⟨.obj [("tag_name", .str "v7")], none⟩

/-- `actions/checkout` goes to `v7`. -/
theorem written_refs_named_checkout : NamedUpdate (Pool.answers namesSeven)
    ⟨"ci.yml".toList, "actions/checkout".toList, "v6".toList, "v7".toList⟩ := by
  have hentries : actionEntries (fun c => c.isAlphanum || c == '_')
      [("ci.yml".toList, "uses: actions/checkout@v6".toList)] = ["actions/checkout".toList] := by
    decide +kernel
  have htools : toolEntries [("ci.yml".toList, "uses: actions/checkout@v6".toList)] = [] := by
    decide +kernel
  have hactions : ResolvesInParallel (latestGithubTag fun _ => false)
      (Pool.answers namesSeven) ["actions/checkout".toList]
      (.ok fun key => if key = "actions/checkout".toList then some (some "v7".toList) else none) :=
    .single (by decide)
  rw [← hentries] at hactions
  have hrun :=
    @UpdatesWorkflows.updated (fun _ => false) (Pool.answers namesSeven)
    (fun c => c.isAlphanum || c == '_')
    [("ci.yml".toList, "uses: actions/checkout@v6".toList)] true _ _ hactions (.empty htools)
  refine written_refs_named hrun rfl _ ?_
  decide +kernel

end FastapiTemplate.Management
