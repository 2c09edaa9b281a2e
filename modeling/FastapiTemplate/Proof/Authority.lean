/-
  Who may do what.  The store changes only by what a request is entitled to
  (`writes_authorized`), and whoever only reads sees no account but the own one,
  unless it is of the staff (`reads_authorized`).

  So requests only add accounts, without privileges (`accounts_added`), and every
  session belongs to an account (`api_referential`).
-/
import FastapiTemplate.Proof.Replies

namespace FastapiTemplate

open Effects Locking Locking.Db

/-- The foreign key of the sessions. -/
def Store.Referential (s : Store) : Prop :=
  ∀ row ∈ s.refreshSessions, ∃ u ∈ s.users, u.id = row.userId

theorem Store.Referential.updateSession {s : Store} (h : s.Referential) {id : UUID}
    {f : RefreshSessionModel → RefreshSessionModel} (hf : ∀ row, (f row).userId = row.userId) :
    Store.Referential { s with refreshSessions := updateSession id f s.refreshSessions } := by
  intro row hrow
  obtain ⟨row₀, hrow₀, rfl⟩ := mem_updateSession.1 hrow
  obtain ⟨u, hu, hid⟩ := h row₀ hrow₀
  refine ⟨u, hu, hid.trans ?_⟩
  split
  · exact (hf row₀).symm
  · rfl

namespace Delivery

variable {S : Service} {v w w' : S.World} {i : ℕ} {sid : SessionId}
    {lab : Label (ApiRequest S.ext) Call}

/-! ## Steps -/

/-- The request `i` commits the work of its session. -/
structure ApiCommits (S : Service) (w w' : S.World) (i : ℕ) (sid : SessionId) (work : Work) :
    Prop where
  tracked : ∃ p l, w.procs i = some p ∧ ApiKnows S w i p.request l ∧
    Tracks S p.request (w.past i) l ∧
    l.loc.stage = .inside sid work ∧
    ∀ v ∈ work.writes, Basis S.toDeployment l.loc.saw (p.request.core S l.userId) v
  committed : w'.shared.db.committed = S.dialect.schema.replay w.shared.db.committed work.writes

/-- **What a step does to the committed store**: nothing, a commit, or administration. -/
theorem api_store_step (hS : S.store.Valid) (hw : S.system.Reachable w)
    (hs : S.system.Step w lab w') :
    w'.shared.db.committed = w.shared.db.committed ∨
      (∃ i sid work, lab = .call i (.commit sid) ∧ ApiCommits S w w' i sid work) ∨
      lab = .environment ∧ Administers w.shared w'.shared := by
  cases hs with
  | spawn => exact Or.inl rfl
  | environment he => exact Or.inr (Or.inr ⟨rfl, he⟩)
  | @call i req c k r s hi ha =>
    rcases ha.1.committed with ⟨h, -⟩ | ⟨sid, rfl, -, rfl⟩
    · exact Or.inl h
    · obtain ⟨l, ⟨hwp, hk⟩, hl⟩ := api_annotated hS hw hi
      obtain ⟨-, hc⟩ := hwp.1.resolve_left fun h => nomatch h.1
      have hc : Can S.toDeployment (req.core S l.userId) l.loc.saw l.loc.stage (.commit sid) := hc
      obtain ⟨work, hst⟩ : ∃ work, l.loc.stage = .inside sid work := by
        generalize l.loc.stage = st at hc
        cases hc
        exact ⟨_, rfl⟩
      have hin : Inside S.toDeployment (req.core S l.userId) l.loc.saw w.shared i sid work := by
        have hh := hk.knows.holds
        rwa [hst] at hh
      exact Or.inr (Or.inl ⟨i, sid, work, rfl, ⟨_, l, hi, hk, hl, hst, hin.basis⟩, hin.view⟩)

/-! ## Writes -/

/-- The workflow of a registration, or the one that stands for none. -/
theorem ApiRequest.core_createUser (requestBody : CreateUserRequestSchema S.ext)
    (userId : Option ℤ) :
    (∃ data, ValidRegistration.validate S.ext requestBody.toRegistrationFields = .ok data ∧
      ApiRequest.core S userId (.createUser requestBody) = .registerUser data) ∨
    ApiRequest.core S userId (.createUser requestBody) = .revokeToken ⟨""⟩ 0 := by
  simp only [ApiRequest.core]
  generalize ValidRegistration.validate S.ext requestBody.toRegistrationFields = validated
  cases validated with
  | ok data => exact Or.inl ⟨data, rfl, rfl⟩
  | error e => exact Or.inr rfl

/-- **What entitles a request to a write**, at moments of the request. -/
inductive Authorized (S : Service) (w : S.World) (i : ℕ) : ApiRequest S.ext → Write → Prop
  | register {requestBody data n p salt id} :
      ValidRegistration.validate S.ext requestBody.toRegistrationFields = .ok data →
      Admitted S.toDeployment data n p →
      Authorized S w i (.createUser requestBody) (.insertUser
        ((SQLAlchemyUserRepository.newUser p (S.ext.hashPassword salt n.password)).toModel id))
  /-- whoever signs in gets a session of their own -/
  | signIn {request username password store u row} : During w i store → u ∈ store.users →
      u.username = normalizeUsername S.ext username → u.isActive = true →
      S.ext.verifyPassword password u.passwordHash = .ok true → row.userId = u.id →
      Authorized S w i (.issueToken request username password) (.insertRefreshSession row)
  | rotate {token row data} : Holds w i token row → data.sessionId = row.id →
      data.expectedRefreshTokenHash = row.refreshTokenHash →
      Authorized S w i (.refreshToken token) (.setTokenHash data)
  /-- the owner revokes, who is active and holds the token -/
  | revoke {request credentials limited token userId row t} : Acts w i credentials userId →
      HeldActive w i userId (fun _ => True) → Holds w i token row → row.userId = userId →
      Authorized S w i (.revokeToken request credentials limited token) (.setRevokedAt row.id t)

section
variable {p : Proc (ApiRequest S.ext) Call Ret Exc Reply} {l : ApiLoc}

/-- A session that a request found active. -/
theorem holds_of_foundActive (hS : S.store.Valid) (hw : S.system.Reachable w)
    (hp : w.procs i = some p)
    {token : String} {row : RefreshSessionModel} {now : Instant}
    (h : FoundActive S.toDeployment (w.Saw i) token row now) : Holds w i token row := by
  obtain ⟨⟨sid, hrow⟩, hhash, hnow, ha⟩ := h
  obtain ⟨store, hd, hrows⟩ := session_during hS hw hp hrow
  exact ⟨⟨store, hd, ((hrows row).1 (List.mem_singleton_self row)).1⟩, hhash, now, hnow, ha⟩

/-- A request that has revoked a session acts for its user, who is an active account. -/
theorem Tracks.revoker (hS : S.store.Valid) (hw : S.system.Reachable w) (hp : w.procs i = some p)
    (hl : Tracks S p.request (w.past i) l) {id : UUID} {t : Instant}
    (hst : l.loc.stage.work = .wrote (.setRevokedAt id t)) : p.request.reads = false ∧
      ∃ credentials userId, p.request.credentials = some credentials ∧ l.userId = some userId ∧
        Acts w i credentials userId ∧ HeldActive w i userId fun _ => True := by
  obtain ⟨sid, hset⟩ := hl.revokes id t (Or.inr hst)
  obtain ⟨v, hm⟩ := System.moment_of_mem hw ((hl.saw _ _).2 hset)
  obtain ⟨k, hv⟩ := hm.request hp
  obtain ⟨hr, sid', userId, u, hsub, hu⟩ := (api_told hm.reachable hv).1
  have hle := hm.leads.past i
  obtain ⟨credentials, hc⟩ := hsub.credentials
  obtain ⟨-, store, hd, hmem, hid, ha⟩ :=
    activeUser_held hS hw hp (ne_createUser hc) (Heard.mono hle _ _ hu)
  have huser : l.userId = some userId := by
    rcases hl.ready with hout | hno | hready
    · rw [hout] at hst
      cases hst
    · rw [hno] at hc
      cases hc
    · obtain ⟨userId', huser⟩ := Option.isSome_iff_exists.1 hready
      rw [huser, (hl.subject userId' huser).unique (hsub.mono hle)]
  exact ⟨hr, credentials, userId, hc, huser, hsub.acts hle hc, store, hd, u, hmem, hid, ha, trivial⟩

/-- A request is entitled to the write of its work. -/
theorem authorized_of_basis (hS : S.store.Valid) (hw : S.system.Reachable w)
    (hp : w.procs i = some p)
    (hk : ApiKnows S w i p.request l) (hl : Tracks S p.request (w.past i) l) {v : Write}
    (hst : l.loc.stage.work = .wrote v)
    (hb : Basis S.toDeployment l.loc.saw (p.request.core S l.userId) v) :
    Authorized S w i p.request v := by
  have hb := hb.mono hk.knows.seen
  obtain ⟨req, prog⟩ := p
  simp only at hb hl ⊢
  generalize hcore : req.core S l.userId = core at hb
  -- whose workflow this is
  cases req with
  | createUser requestBody =>
    rcases ApiRequest.core_createUser requestBody l.userId with ⟨data, hvalid, heq⟩ | heq <;>
      rw [heq] at hcore <;> subst hcore
    · cases hb with
      | insertUser ha => exact .register hvalid ha
    · cases hb with
      | setRevokedAt =>
        obtain ⟨-, credentials, userId, hcred, -⟩ := hl.revoker hS hw hp hst
        cases hcred
  | issueToken request username password =>
    subst hcore
    cases hb with
    | @insertRefreshSession data context u token id createdAt hv =>
      obtain ⟨⟨sid, hrow⟩, hactive, hverify⟩ := hv
      obtain ⟨store, hd, hrows⟩ := username_during hS hw hp (fun _ => nofun) hrow
      obtain ⟨hu, hname⟩ := (hrows u).1 (List.mem_singleton_self u)
      exact .signIn hd hu hname hactive hverify rfl
  | refreshToken token =>
    subst hcore
    cases hb with
    | setTokenHash hf => exact .rotate (holds_of_foundActive hS hw hp hf) rfl hf.2.1.symm
  | revokeToken request credentials limited token =>
    subst hcore
    cases hb with
    | @setRevokedAt data userId row now revokedAt hf huser =>
      obtain ⟨-, _, userId, hcred, hown, hacts, hheld⟩ := hl.revoker hS hw hp hst
      cases hcred
      rw [hown] at huser
      exact .revoke hacts hheld (holds_of_foundActive hS hw hp hf) huser
  | currentUser | staffUserLookup =>
    subst hcore
    cases hb with
    | setRevokedAt =>
      obtain ⟨hreads, -⟩ := hl.revoker hS hw hp hst
      cases hreads

/-- Who commits a write is entitled to it. -/
theorem ApiCommits.authorized (hS : S.store.Valid) (hw : S.system.Reachable w) {v : Write}
    (h : ApiCommits S w w' i sid (.wrote v)) :
    ∃ p, w.procs i = some p ∧ Authorized S w i p.request v := by
  obtain ⟨p, l, hp, hk, hl, hst, hb⟩ := h.tracked
  have hwork : l.loc.stage.work = .wrote v := by
    rw [hst]
    rfl
  exact ⟨p, hp, authorized_of_basis hS hw hp hk hl hwork (hb v (List.mem_singleton_self v))⟩

end

/-- **The store changes only by what a request is entitled to**, or by administration. -/
theorem writes_authorized (hS : S.store.Valid) (hw : S.system.Reachable w)
    (hs : S.system.Step w lab w') : w'.shared.db.committed = w.shared.db.committed ∨
      (∃ i sid p v, lab = .call i (.commit sid) ∧ w.procs i = some p ∧
        Authorized S w i p.request v ∧
        w'.shared.db.committed = v.apply w.shared.db.committed) ∨
      lab = .environment ∧ Administers w.shared w'.shared := by
  rcases api_store_step hS hw hs with hcom | ⟨i, sid, work, rfl, hc⟩ | hadm
  · exact Or.inl hcom
  · cases work with
    | idle | pending => exact Or.inl hc.committed
    | wrote v =>
      obtain ⟨p, hp, hv⟩ := hc.authorized hS hw
      exact Or.inr (Or.inl ⟨i, sid, p, v, rfl, hp, hv, hc.committed⟩)
  · exact Or.inr (Or.inr hadm)

/-- The calls of Bob's registration. -/
def Sample.signUp (n : ℕ) : List (Action (ApiRequest Sample.service.ext) Choice) :=
  Sample.serve 0 (.createUser FastapiTemplate.Sample.bob) n { userId := 3, salt := "first" }

/-- The names of the accounts. -/
def Sample.usernames (w : Sample.service.World) : List String :=
  w.shared.db.committed.users.map (·.username)

theorem writes_authorized_bob : ∃ w lab w', Sample.service.system.Step w lab w' ∧
    Sample.usernames w = ["alice", "root"] ∧ Sample.usernames w' = ["alice", "root", "bob"] ∧
    (w'.shared.db.committed = w.shared.db.committed ∨
      (∃ i sid p v, lab = .call i (.commit sid) ∧ w.procs i = some p ∧
        Authorized Sample.service w i p.request v ∧
        w'.shared.db.committed = v.apply w.shared.db.committed) ∨
      lab = .environment ∧ Administers w.shared w'.shared) := by
  have hrun : (Sample.service.schedule (Sample.signUp 11)).any
      (Sample.usernames · = ["alice", "root"]) = true := by decide +kernel
  have hrun' : (Sample.service.schedule (Sample.signUp 11 ++
      [.answer 0 { userId := 3, salt := "first" }])).any
      (Sample.usernames · = ["alice", "root", "bob"]) = true := by decide +kernel
  obtain ⟨w, hw, h⟩ := (Option.any_eq_true _ _).1 hrun
  obtain ⟨w', hw', h'⟩ := (Option.any_eq_true _ _).1 hrun'
  obtain ⟨lab, hs, -⟩ := Service.schedule_step Sample.service hw hw'
  exact ⟨w, lab, w', hs, of_decide_eq_true h, of_decide_eq_true h', writes_authorized Sample.valid
    (Service.schedule_reachableIf _ (fun _ _ _ _ _ => trivial) hw) hs⟩

/-! ## Reads -/

/-- What the user of a request that only reads may read: the own account, and for the staff the one
    that is looked up. -/
inductive MayRead (S : Service) (w : S.World) (i : ℕ) (userId : ℤ) : ApiRequest S.ext → Stmt → Prop
  | own {req} : MayRead S w i userId req (.selectActiveUser userId)
  | staff {credentials target} : HeldActive w i userId (·.isStaff = true) →
      MayRead S w i userId (.staffUserLookup credentials target) (.selectUsers [target])

/-- **Whoever only reads sees no account but the own one, unless it is of the staff.** -/
theorem reads_authorized (hS : S.store.Valid) (hw : S.system.Reachable w) {req : ApiRequest S.ext}
    {q : Stmt} {k : Except Exc q.Ret → App Reply}
    (hp : w.procs i = some ⟨req, .call (.sql sid q) k⟩) (hreads : req.reads = true) :
    ∃ credentials userId, req.credentials = some credentials ∧ Acts w i credentials userId ∧
      MayRead S w i userId req q := by
  have hself : w.past i <:+ w.past i := List.suffix_rfl
  have hasks : Queries S req (w.past i) q := (api_told hw hp).1
  cases hasks.reads hreads with
  | actor hsub =>
    obtain ⟨credentials, hc⟩ := hsub.credentials
    exact ⟨credentials, _, hc, hsub.acts hself hc, .own⟩
  | target hsub hstaff =>
    exact ⟨_, _, rfl, hsub.acts hself rfl, .staff (hstaff.held hS hw hp fun _ => nofun)⟩

/-- Whether the request `i` only reads, and the statement it is about to make. -/
def Sample.asks (w : Sample.service.World) (i : ℕ) : Option (Bool × Stmt) :=
  match w.procs i with
  | some ⟨req, .call (.sql _ q) _⟩ => some (req.reads, q)
  | _ => none

theorem Sample.asks_spec {w : Sample.service.World} {i : ℕ} {reads : Bool} {q : Stmt}
    (h : Sample.asks w i = some (reads, q)) :
    ∃ req sid k, w.procs i = some ⟨req, .call (.sql sid q) k⟩ ∧ req.reads = reads := by
  unfold Sample.asks at h
  split at h <;> cases h
  exact ⟨_, _, _, ‹_›, rfl⟩

theorem reads_authorized_lookup : ∃ w req credentials userId,
    Sample.service.schedule (Sample.lookup 8) = some w ∧ req.credentials = some credentials ∧
      Acts w 0 credentials userId ∧ MayRead Sample.service w 0 userId req (.selectUsers [1]) := by
  have hrun : (Sample.service.schedule (Sample.lookup 8)).any
      (Sample.asks · 0 = some (true, .selectUsers [1])) = true := by decide +kernel
  obtain ⟨w, hw, h⟩ := (Option.any_eq_true _ _).1 hrun
  obtain ⟨req, sid, k, hp, hreads⟩ := Sample.asks_spec (of_decide_eq_true h)
  obtain ⟨credentials, userId, h⟩ := reads_authorized Sample.valid
    (Service.schedule_reachableIf _ (fun _ _ _ _ _ => trivial) hw) hp hreads
  exact ⟨w, req, credentials, userId, hw, h⟩

/-! ## Accounts -/

/-- A step keeps the accounts, by their identifiers. -/
theorem users_keep_step (hS : S.store.Valid) (hw : S.system.Reachable w)
    (hs : S.system.Step w lab w') {u : UserModel} (hu : u ∈ w.shared.db.committed.users) :
    ∃ u' ∈ w'.shared.db.committed.users, u'.id = u.id := by
  rcases api_store_step hS hw hs with hcom | ⟨i, sid, work, -, hc⟩ | ⟨-, f, hf, hadm⟩
  · exact ⟨u, hcom ▸ hu, rfl⟩
  · rw [hc.committed]
    rcases work.short with hws | ⟨v, hws⟩ <;> rw [hws]
    · exact ⟨u, hu, rfl⟩
    · exact ⟨u, v.apply_users _ hu, rfl⟩
  · rw [hadm]
    exact ⟨f u, List.mem_map_of_mem hu, (hf u).1⟩

theorem users_keep (hS : S.store.Valid) (hv : S.system.Reachable v) (hl : S.system.Leads v w)
    {u : UserModel} (hu : u ∈ v.shared.db.committed.users) :
    ∃ u' ∈ w.shared.db.committed.users, u'.id = u.id := by
  induction hl with
  | refl => exact ⟨u, hu, rfl⟩
  | step hl hs ih =>
    obtain ⟨u₁, hu₁, hid₁⟩ := ih
    obtain ⟨u₂, hu₂, hid₂⟩ := users_keep_step hS (hv.leads hl) hs hu₁
    exact ⟨u₂, hu₂, hid₂.trans hid₁⟩

/-- The account was inserted for a registration of the run. -/
def Registered (w : S.World) (u : UserModel) : Prop :=
  ∃ i p requestBody data n, ∃ pd : PersistUserDTO S.ext, ∃ salt, w.procs i = some p ∧
    p.request = .createUser requestBody ∧
    ValidRegistration.validate S.ext requestBody.toRegistrationFields = .ok data ∧
    Admitted S.toDeployment data n pd ∧
    u = (SQLAlchemyUserRepository.newUser pd (S.ext.hashPassword salt n.password)).toModel u.id

theorem Registered.step (hs : S.system.Step w lab w') {u : UserModel} (h : Registered w u) :
    Registered w' u := by
  obtain ⟨i, p, requestBody, data, n, pd, salt, hp, hreq, h⟩ := h
  obtain ⟨p', hp', hreq'⟩ := hs.request hp
  exact ⟨i, p', requestBody, data, n, pd, salt, hp', hreq'.trans hreq, h⟩

/-- A registered account has no privileges. -/
theorem Registered.unprivileged {u : UserModel} (h : Registered w u) :
    u.isActive = true ∧ u.isStaff = false ∧ u.isSuperuser = false := by
  obtain ⟨i, p, requestBody, data, n, pd, salt, -, -, -, hadmitted, hu⟩ := h
  obtain ⟨-, -, hflags⟩ := persistUserData_ok hadmitted.persist
  rw [hu]
  exact hflags

/-- Only registrations insert accounts. -/
theorem Authorized.registered {p : Proc (ApiRequest S.ext) Call Ret Exc Reply} {row : UserModel}
    (hp : w.procs i = some p) (h : Authorized S w i p.request (.insertUser row)) :
    Registered w row := by
  obtain ⟨req, prog⟩ := p
  cases h with
  | register hvalid hadmitted =>
    exact ⟨i, _, _, _, _, _, _, hp, rfl, hvalid, hadmitted, rfl⟩

/-- **Requests only add accounts**: as long as nobody administers the service, the accounts stay as
    they are, in whatever order its requests run, and every new one is an active account without
    privileges that a registration asked for. -/
theorem accounts_added (hS : S.store.Valid)
    (hw : S.system.ReachableIf (fun _ l => l ≠ .environment) w) :
    ∃ accounts, w.shared.db.committed.users = S.store.users ++ accounts ∧ ∀ u ∈ accounts,
      (u.isActive = true ∧ u.isStaff = false ∧ u.isSuperuser = false) ∧ Registered w u := by
  suffices h : ∃ accounts, w.shared.db.committed.users = S.store.users ++ accounts ∧
      ∀ u ∈ accounts, Registered w u from
    h.imp fun _ ha => ⟨ha.1, fun u hu => ⟨(ha.2 u hu).unprivileged, ha.2 u hu⟩⟩
  refine System.ReachableIf.induct (I := fun w : S.World => ∃ accounts,
    w.shared.db.committed.users = S.store.users ++ accounts ∧ ∀ u ∈ accounts,
    Registered w u) ?_ ?_ hw
  · rintro s rfl
    exact ⟨[], (List.append_nil _).symm, nofun⟩
  rintro w lab w' hw hs hlab ⟨accounts, husers, hall⟩
  have hold : ∀ u ∈ accounts, Registered w' u := fun u hu => (hall u hu).step hs
  rcases api_store_step hS hw hs with hcom | ⟨i, sid, work, -, hc⟩ | ⟨henv, -⟩
  · exact ⟨accounts, hcom ▸ husers, hold⟩
  · rw [hc.committed]
    cases work with
    | idle | pending => exact ⟨accounts, husers, hold⟩
    | wrote v =>
      obtain ⟨p, hp, hv⟩ := hc.authorized hS hw
      cases v with
      | insertUser row =>
        refine ⟨accounts ++ [row], ?_, fun u hu => ?_⟩
        · rw [← List.append_assoc, ← husers]
          rfl
        · rcases List.mem_append.1 hu with hu | hu
          · exact hold u hu
          · rw [List.mem_singleton.1 hu]
            exact (hv.registered hp).step hs
      | insertRefreshSession | setTokenHash | setRevokedAt => exact ⟨accounts, husers, hold⟩
  · exact absurd henv hlab

theorem accounts_added_bob : ∃ w accounts, Sample.service.schedule (Sample.signUp 14) = some w ∧
    w.shared.db.committed.users = Sample.service.store.users ++ accounts ∧
    accounts.map (·.username) = ["bob"] ∧ ∀ u ∈ accounts,
      (u.isActive = true ∧ u.isStaff = false ∧ u.isSuperuser = false) ∧ Registered w u := by
  have hrun : (Sample.service.schedule (Sample.signUp 14)).any
      (Sample.usernames · = ["alice", "root", "bob"]) = true := by decide +kernel
  obtain ⟨w, hw, hrun⟩ := (Option.any_eq_true _ _).1 hrun
  obtain ⟨accounts, husers, hall⟩ := accounts_added Sample.valid
    (Service.schedule_reachableIf _ (fun _ _ _ l hl he => by rw [he] at hl; cases hl) hw)
  have husernames : w.shared.db.committed.users.map (·.username) = _ := of_decide_eq_true hrun
  rw [husers, List.map_append] at husernames
  have hbob : accounts.map (·.username) = ["bob"] :=
    List.append_cancel_left
      (show ["alice", "root"] ++ _ = ["alice", "root"] ++ ["bob"] from husernames)
  exact ⟨w, accounts, hw, husers, hbob, hall⟩

/-! ## The foreign key -/

/-- What a request found in the committed store has an account with its identifier from then on. -/
theorem During.user (hS : S.store.Valid) {store : Store} (hd : During w i store) {u : UserModel}
    (hu : u ∈ store.users) : ∃ u' ∈ w.shared.db.committed.users, u'.id = u.id := by
  obtain ⟨c, r, v, hm, rfl⟩ := hd
  exact users_keep hS hm.reachable hm.leads hu

/-- The account of a session that is inserted. -/
theorem Authorized.owner {req : ApiRequest S.ext} {row : RefreshSessionModel}
    (h : Authorized S w i req (.insertRefreshSession row)) :
    ∃ store u, During w i store ∧ u ∈ store.users ∧ u.id = row.userId := by
  cases h with
  | signIn hd hu _ _ _ hid => exact ⟨_, _, hd, hu, hid.symm⟩

/-- The accounts of the sessions after a write are committed before it. -/
theorem Authorized.referential (hS : S.store.Valid) {req : ApiRequest S.ext} {wr : Write}
    (h : Authorized S w i req wr) (href : w.shared.db.committed.Referential) :
    ∀ row ∈ (wr.apply w.shared.db.committed).refreshSessions,
      ∃ u ∈ w.shared.db.committed.users, u.id = row.userId := by
  cases wr with
  | insertUser => exact href
  | insertRefreshSession row =>
    intro r hr
    rcases List.mem_append.1 hr with hr | hr
    · exact href r hr
    · obtain rfl := List.mem_singleton.1 hr
      obtain ⟨store, u, hd, hu, hid⟩ := h.owner
      obtain ⟨u', hu', hid'⟩ := hd.user hS hu
      exact ⟨u', hu', hid'.trans hid⟩
  | setTokenHash data => exact href.updateSession (f := (·.withTokenHash data)) fun _ => rfl
  | setRevokedAt id t => exact href.updateSession (f := (·.withRevokedAt t)) fun _ => rfl

/-- **Every session belongs to an account**, in every run. -/
theorem api_referential (hS : S.store.Valid) (href : S.store.Referential)
    (hw : S.system.Reachable w) : w.shared.db.committed.Referential := by
  refine System.ReachableIf.induct (I :=
    fun w : S.World => w.shared.db.committed.Referential) ?_ ?_ hw
  · rintro s rfl
    exact href
  rintro w lab w' hw hs - ih
  rcases api_store_step hS hw hs with hcom | ⟨i, sid, work, -, hc⟩ | ⟨-, f, hf, hadm⟩
  · rw [hcom]
    exact ih
  · rw [hc.committed]
    cases work with
    | idle | pending => exact ih
    | wrote v =>
      obtain ⟨p, hp, hv⟩ := hc.authorized hS hw
      intro r hr
      obtain ⟨u, hu, hid⟩ := hv.referential hS ih r hr
      exact ⟨u, v.apply_users _ hu, hid⟩
  · rw [hadm]
    intro r hr
    obtain ⟨u, hu, hid⟩ := ih r hr
    exact ⟨f u, List.mem_map_of_mem hu, (hf u).1.trans hid⟩

/-- `root` signs in. -/
def Sample.signIn (i n : ℕ) (ch : Choice) : List (Action (ApiRequest Sample.service.ext) Choice) :=
  Sample.serve i (.issueToken ⟨⟨.http, .https, "POST".toList, "localhost".toList,
    "/api/v1/auth/token".toList, [], []⟩, [], none⟩ "root" FastapiTemplate.Sample.password) n ch

/-- `root` signs in once. -/
def Sample.signInOnce : List (Action (ApiRequest Sample.service.ext) Choice) :=
  Sample.signIn 0 18 { token := FastapiTemplate.Sample.tokenA, uuid := 7 }

/-- The owners of the sessions. -/
def Sample.owners (w : Sample.service.World) : List ℤ :=
  w.shared.db.committed.refreshSessions.map (·.userId)

theorem api_referential_signIn : ∃ w, Sample.service.schedule Sample.signInOnce = some w ∧
    Sample.owners w = [2] ∧ w.shared.db.committed.Referential := by
  have hrun : (Sample.service.schedule Sample.signInOnce).any (Sample.owners · = [2]) = true := by
    decide +kernel
  obtain ⟨w, hw, h⟩ := (Option.any_eq_true _ _).1 hrun
  exact ⟨w, hw, of_decide_eq_true h, api_referential Sample.valid nofun
    (Service.schedule_reachableIf _ (fun _ _ _ _ _ => trivial) hw)⟩

end Delivery

end FastapiTemplate
