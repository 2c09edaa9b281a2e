/-
  Every reply is right about the database: what it says of an account or of a
  session was committed at a moment during the request (`replies_justified`).
-/
import FastapiTemplate.Proof.AccessTokens
import FastapiTemplate.Proof.Moments
import FastapiTemplate.Proof.Registration

namespace FastapiTemplate.Delivery

open Effects

variable {S : Service} {w : S.World} {i : ℕ} {req : ApiRequest S.ext}

/-- The credentials stood for the user at an instant that the request read. -/
def Acts (w : S.World) (i : ℕ) (credentials : Option String) (userId : ℤ) : Prop :=
  ∃ now, w.Saw i .now now ∧ S.subject now credentials = some userId

/-- The access token was signed for the user, with an instant that the request read. -/
def Signed (w : S.World) (i : ℕ) (userId : ℤ) (tokens : TokenDTO) : Prop :=
  ∃ iat, w.Saw i .now iat ∧ S.jwt.encode (accessPayload S.toDeployment userId iat)
    S.settings.jwt.secretKey S.settings.jwt.algorithm = some tokens.accessToken

/-- The row of the token, active at an instant that the request read. -/
structure Holds (w : S.World) (i : ℕ) (token : String) (row : RefreshSessionModel) : Prop where
  committed : ∃ store, During w i store ∧ row ∈ store.refreshSessions
  hash : row.refreshTokenHash = hashRefreshToken S.ext token
  active : ∃ now, w.Saw i .now now ∧ row.ActiveAt now

/-- The account with the identifier was committed and active. -/
def HeldActive (w : S.World) (i : ℕ) (userId : ℤ) (P : UserModel → Prop) : Prop :=
  ∃ store, During w i store ∧ ∃ u ∈ store.users, u.id = userId ∧ u.isActive = true ∧ P u

/-- **What a reply says of the database**, at moments of its request. -/
inductive Justified (S : Service) (w : S.World) (i : ℕ) : ApiRequest S.ext → Reply → Prop
  | loggedIn {request username password store u tokens} : During w i store → u ∈ store.users →
      u.username = normalizeUsername S.ext username → u.isActive = true →
      S.ext.verifyPassword password u.passwordHash = .ok true → Signed w i u.id tokens →
      Justified S w i (.issueToken request username password) (.ok (.token tokens))
  | badCredentials {request username password store} : During w i store →
      (∀ u ∈ store.users, u.username = normalizeUsername S.ext username → u.isActive = true →
        S.ext.verifyPassword password u.passwordHash ≠ .ok true) →
      Justified S w i (.issueToken request username password)
        (.error ⟨401, "Invalid username or password".toList, []⟩)
  | refreshed {token row tokens} : Holds w i token row → HeldActive w i row.userId (fun _ => True) →
      Signed w i row.userId tokens → Justified S w i (.refreshToken token) (.ok (.token tokens))
  /-- another rotation of the session came first -/
  | rotated {token row store} : Holds w i token row → During w i store →
      (∀ row' ∈ store.refreshSessions, row'.id = row.id →
        row'.refreshTokenHash ≠ hashRefreshToken S.ext token) →
      Justified S w i (.refreshToken token) (.error ⟨401, "Invalid refresh token".toList, []⟩)
  | inactiveOwner {token row store u} : Holds w i token row → During w i store → u ∈ store.users →
      u.id = row.userId → u.isActive = false →
      Justified S w i (.refreshToken token) (.error ⟨401, "Invalid refresh token".toList, []⟩)
  | unknownToken {req' : ApiRequest S.ext} {token store} : req'.presented = some token →
      During w i store →
      (∀ row ∈ store.refreshSessions, row.refreshTokenHash ≠ hashRefreshToken S.ext token) →
      Justified S w i req' (.error ⟨401, "Invalid refresh token".toList, []⟩)
  | expiredToken {req' : ApiRequest S.ext} {token row store now} : req'.presented = some token →
      During w i store → row ∈ store.refreshSessions →
      row.refreshTokenHash = hashRefreshToken S.ext token → w.Saw i .now now → ¬row.ActiveAt now →
      Justified S w i req' (.error ⟨401, "Refresh token expired or revoked".toList, []⟩)
  | revoked {request credentials limited token userId row} : Acts w i credentials userId →
      HeldActive w i userId (fun _ => True) → Holds w i token row → row.userId = userId →
      Justified S w i (.revokeToken request credentials limited token) (.ok .none)
  | foreignToken {request credentials limited token userId row store} :
      Acts w i credentials userId → During w i store → row ∈ store.refreshSessions →
      row.refreshTokenHash = hashRefreshToken S.ext token → row.userId ≠ userId →
      Justified S w i (.revokeToken request credentials limited token)
        (.error ⟨401, "Invalid refresh token".toList, []⟩)
  | throttled {request credentials limited token userId httpException} :
      Acts w i credentials userId →
      callThrottler limited 1 (userThrottlerKey S.table request userId) = some httpException →
      Justified S w i (.revokeToken request credentials limited token) (.error httpException)
  | created {requestBody data n p salt row sid} :
      ValidRegistration.validate S.ext requestBody.toRegistrationFields = .ok data →
      Admitted S.toDeployment data n p →
      row = (SQLAlchemyUserRepository.newUser p (S.ext.hashPassword salt n.password)).toModel
        row.id →
      (i, sid) ∈ w.shared.sessions → (sid, [.insertUser row]) ∈ w.shared.db.log →
      Justified S w i (.createUser requestBody)
        (.ok (.user (UserSchema.ofUser (userFromModel row))))
  | weakPassword {requestBody n} : Registers S (.createUser requestBody) n →
      isWeakPassword S.settings.password n = true →
      Justified S w i (.createUser requestBody)
        (.error ⟨400, "Password does not meet the strength requirements".toList, []⟩)
  | duplicate {requestBody n store u} : Registers S (.createUser requestBody) n →
      During w i store → u ∈ store.users →
      u.username = n.username ∨ u.email = n.email ∨ S.ext.emailStr n.email = some u.email →
      Justified S w i (.createUser requestBody)
        (.error ⟨409, "A user with the given username or email already exists".toList, []⟩)
  | currentUser {credentials userId store u} : Acts w i credentials userId → During w i store →
      u ∈ store.users → u.id = userId → u.isActive = true →
      Justified S w i (.currentUser credentials) (.ok (.user (UserSchema.ofUser (userFromModel u))))
  | lookedUp {credentials target userId store u} : Acts w i credentials userId →
      HeldActive w i userId (·.isStaff = true) → During w i store → u ∈ store.users →
      u.id = target → Justified S w i (.staffUserLookup credentials target)
        (.ok (.user (UserSchema.ofUser (userFromModel u))))
  | noTarget {credentials target userId store} : Acts w i credentials userId →
      HeldActive w i userId (·.isStaff = true) → During w i store →
      (∀ u ∈ store.users, u.id ≠ target) → Justified S w i (.staffUserLookup credentials target)
        (.error ⟨404, "User not found".toList, []⟩)
  | denied {credentials target userId} : Acts w i credentials userId →
      HeldActive w i userId (·.isStaff = false) →
      Justified S w i (.staffUserLookup credentials target)
        (.error ⟨403, "Permission denied".toList, []⟩)
  | unknownUser {req' : ApiRequest S.ext} {credentials userId store} :
      req'.credentials = some credentials → Acts w i credentials userId → During w i store →
      (∀ u ∈ store.users, u.id = userId → u.isActive = false) →
      Justified S w i req' (.error (bearerAuthenticationError "User not found"))
  | missingCredentials {req' : ApiRequest S.ext} : req'.credentials = some none →
      Justified S w i req' (.error (bearerAuthenticationError "Not authenticated"))
  | unauthenticated {req' : ApiRequest S.ext} {token now httpException} :
      req'.credentials = some (some token) → w.Saw i .now now →
      jwtAuthAt S now (some token) = .ok (.error httpException) →
      Justified S w i req' (.error httpException)

/-! ## Facts about the database -/

section
variable {p : Proc (ApiRequest S.ext) Call Ret Exc Reply} (hS : S.store.Valid)
  (hw : S.system.Reachable w) (hp : w.procs i = some p)
include hS hw hp

theorem Found.during {token : String} {row : RefreshSessionModel} {h : AppPast}
    (hh : h <:+ w.past i) (hf : Found S h token row) : ∃ store, During w i store ∧
      row ∈ store.refreshSessions ∧ row.refreshTokenHash = hashRefreshToken S.ext token := by
  obtain ⟨sid, hf⟩ := hf
  obtain ⟨store, hd, hrows⟩ := session_during hS hw hp (World.mem_past.1 (hh.subset hf))
  exact ⟨store, hd, (hrows row).1 (List.mem_singleton_self row)⟩

theorem Found.holds {token : String} {row : RefreshSessionModel} {now : Instant} {h : AppPast}
    (hh : h <:+ w.past i) (hf : Found S h token row) (hn : Heard h .now now)
      (ha : row.ActiveAt now) :
    Holds w i token row := by
  obtain ⟨store, hd, hrow, hhash⟩ := hf.during hS hw hp hh
  exact ⟨⟨store, hd, hrow⟩, hhash, now, World.mem_past.1 (hh.subset hn), ha⟩

theorem activeUser_held (hreg : ∀ requestBody, p.request ≠ .createUser requestBody)
    {sid : SessionId} {userId : ℤ} {u : UserModel}
    (hs : Heard (w.past i) (.sql sid (.selectActiveUser userId)) [u]) : u.id = userId ∧
      ∃ store, During w i store ∧ u ∈ store.users ∧ u.id = userId ∧ u.isActive = true := by
  obtain ⟨store, hd, hrows⟩ := activeUser_during hS hw hp hreg (World.mem_past.1 hs)
  have hu := (hrows u).1 (List.mem_singleton_self u)
  exact ⟨hu.2.1, store, hd, hu⟩

/-- The session that was rotated, and its user. -/
theorem Reloaded.during (hreg : ∀ requestBody, p.request ≠ .createUser requestBody) {token : String}
    {u : UserModel} (hr : Reloaded S (w.past i) token u) :
    ∃ row store, Holds w i token row ∧ During w i store ∧ u ∈ store.users ∧ u.id = row.userId := by
  obtain @⟨sid, sid', row, row', data, now, newer, older, users, heq, hfound, hnow, ha, hid,
      hupdate,
    husers, hu, huser⟩ := hr
  have holder : older <:+ w.past i := ⟨newer ++ [_], by rw [heq, List.append_assoc]; rfl⟩
  obtain ⟨sid'', hrow⟩ := hfound
  have howner := reload_during hS hw hp heq hupdate hrow hid
  obtain ⟨store, hd, hrows⟩ := users_during hS hw hp hreg (World.mem_past.1 husers)
  exact ⟨row, store, Found.holds hS hw hp holder ⟨sid'', hrow⟩ hnow ha, hd, ((hrows u).1 hu).1,
    huser.trans howner⟩

end

theorem Subject.acts {h : AppPast} {userId : ℤ} {credentials : Option String}
    (hh : h <:+ w.past i) (hs : Subject S req h userId)
      (hreq : req.credentials = some credentials) :
    Acts w i credentials userId := by
  obtain ⟨now, hn, hsub⟩ := hs
  rw [hreq] at hsub
  exact ⟨now, World.mem_past.1 (hh.subset (heard_of_firstAnswer hn)), hsub⟩

/-- The exceptions that calls raise. -/
theorem error_answered (hw : S.system.Reachable w) {c : Call} {e : Exc}
    (h : ⟨c, .error e⟩ ∈ w.past i) :
    e.isExternal = true ∨ (∃ orig, e = .integrityError orig) ∨ e = .staleData := by
  obtain ⟨v, hm⟩ := System.moment_of_mem hw h
  obtain ⟨req, k, s, -, ha, -⟩ := hm.answered
  rcases ha.1.inv with ha | ⟨code, hr, -⟩
  · cases ha with
    | violation => exact Or.inr (Or.inl ⟨_, rfl⟩)
    | stale => exact Or.inr (Or.inr rfl)
  · cases hr
    exact Or.inl rfl

/-! ## Rejections -/

section
variable {httpException : HTTPException}

theorem handle_invalidRefreshToken {token : String} (hp : req.presented = some token) :
    req.handleException .invalidRefreshToken = some ⟨401, "Invalid refresh token".toList, []⟩ := by
  cases req <;> first | rfl | cases hp

theorem handle_expiredRefreshToken {token : String} (hp : req.presented = some token) :
    req.handleException .expiredRefreshToken =
      some ⟨401, "Refresh token expired or revoked".toList, []⟩ := by
  cases req <;> first | rfl | cases hp

theorem handle_unknownUser
    (hh : req.handleException .authenticatedUserNotFound = some httpException) :
    httpException = bearerAuthenticationError "User not found" := by
  cases req <;> cases hh <;> rfl

/-- The exceptions that no controller translates. -/
theorem handle_none {e : Exc} (he : e.isExternal = true ∨ (∃ orig, e = .integrityError orig) ∨
    e = .staleData ∨ e = .multipleResultsFound ∨ e = .noResultFound ∨ e = .attributeError ∨
    e = .userRepositoryConflict ∨ (∃ fields, e = .validationError fields) ∨ e = NESTED_UOW_ERROR ∨
    e = INACTIVE_UOW_ERROR) : req.handleException e = none := by
  rcases he with he | ⟨orig, rfl⟩ | rfl | rfl | rfl | rfl | rfl | ⟨fields, rfl⟩ | rfl | rfl
  · cases e with
    | external code => cases req <;> rfl
    | _ => cases he
  all_goals cases req <;> rfl

end

theorem Registers.request {n : RegisterUserDTO S.ext} (h : Registers S req n) :
    ∃ requestBody, req = .createUser requestBody := by
  obtain ⟨requestBody, -, rfl, -⟩ := h
  exact ⟨requestBody, rfl⟩

/-- A registration needs no credentials. -/
theorem ne_createUser {credentials : Option String} (h : req.credentials = some credentials) :
    ∀ requestBody, req ≠ .createUser requestBody := by
  rintro requestBody rfl
  cases h

theorem Subject.credentials {h : AppPast} {userId : ℤ} (hs : Subject S req h userId) :
    ∃ credentials, req.credentials = some credentials := by
  obtain ⟨now, -, hsub⟩ := hs
  obtain ⟨credentials, hc, -⟩ := Option.bind_eq_some_iff.1 hsub
  exact ⟨credentials, hc⟩

/-- No call of a registration raises what `create` raises. -/
theorem Registers.no_conflict {n : RegisterUserDTO S.ext} (h : Registers S req n)
    (hw : S.system.Reachable w) : ¬Cause S req (w.past i) .userRepositoryConflict := by
  obtain ⟨requestBody, rfl⟩ := h.request
  intro hc
  cases hc with
  | answered ha _ => rcases error_answered hw ha with he | ⟨_, he⟩ | he <;> cases he
  | verification hreq => cases hreq
  | invalid _ hi =>
    obtain ⟨fields, he⟩ := hi.eq
    cases he

section
variable {prog : App Reply} (hS : S.store.Valid) (hw : S.system.Reachable w)
  (hp : w.procs i = some ⟨req, prog⟩)
include hS hw hp

/-- **What a controller translates is right about the database.** -/
theorem translated_justified {e : Exc} {httpException : HTTPException}
    (hc : Cause S req (w.past i) e) (hh : req.handleException e = some httpException) :
    Justified S w i req (.error httpException) := by
  have hnone : ∀ {e}, req.handleException e = some httpException → req.handleException e = none →
      Justified S w i req (.error httpException) := fun h₁ h₂ => by
    rw [h₁] at h₂
    cases h₂
  have hself : w.past i <:+ w.past i := List.suffix_rfl
  cases hc with
  | answered ha _ =>
    refine hnone hh (handle_none ?_)
    rcases error_answered hw ha with he | he | he
    · exact Or.inl he
    · exact Or.inr (Or.inl he)
    · exact Or.inr (Or.inr (Or.inl he))
  | nested | inactive | ambiguous | missing | orphan => exact hnone hh (handle_none (by simp))
  | invalid _ hi =>
    obtain ⟨fields, rfl⟩ := hi.eq
    exact hnone hh (handle_none (by simp))
  | unrecognized => exact hnone hh (handle_none (by simp))
  | @verification request username password sid e u hreq hr hv =>
    subst hreq
    obtain ⟨store, hd, hrows⟩ := username_during hS hw hp (fun _ => nofun) (World.mem_past.1 hr)
    cases e <;> cases hh
    refine .badCredentials hd fun u' hu' hname ha => ?_
    obtain rfl := List.mem_singleton.1 ((hrows u').2 ⟨hu', hname⟩)
    rw [hv]
    exact nofun
  | @invalidCredentials request username password sid row hreq hr hv =>
    subst hreq
    cases hh
    obtain ⟨store, hd, hrows⟩ := username_during hS hw hp (fun _ => nofun) (World.mem_past.1 hr)
    refine .badCredentials hd fun u hu hname ha => ?_
    have hu : u ∈ row.toList := (hrows u).2 ⟨hu, hname⟩
    rw [hv u (Option.mem_toList.1 hu) ha]
    exact nofun
  | @unknownUser sid userId _ hu hr =>
    obtain rfl := handle_unknownUser hh
    obtain ⟨credentials, hcred⟩ := hu.credentials
    obtain ⟨store, hd, hrows⟩ :=
      activeUser_during hS hw hp (ne_createUser hcred) (World.mem_past.1 hr)
    refine .unknownUser hcred (hu.acts hself hcred) hd fun u hu hid => ?_
    rw [← Bool.not_eq_true]
    exact fun ha => absurd ((hrows u).2 ⟨hu, hid, ha⟩) List.not_mem_nil
  | @denied credentials target sid userId actor hreq hu hr hstaff =>
    subst hreq
    cases hh
    obtain ⟨-, store, hd, hactor, hid, ha⟩ := activeUser_held hS hw hp (fun _ => nofun) hr
    exact .denied (hu.acts hself rfl) ⟨store, hd, actor, hactor, hid, ha, hstaff⟩
  | unknownToken hp' hr =>
    rw [handle_invalidRefreshToken hp'] at hh
    cases hh
    obtain ⟨store, hd, hrows⟩ := session_during hS hw hp (World.mem_past.1 hr)
    exact .unknownToken hp' hd fun row hrow hhash =>
      absurd ((hrows row).2 ⟨hrow, hhash⟩) List.not_mem_nil
  | expired hp' hf hn ha =>
    rw [handle_expiredRefreshToken hp'] at hh
    cases hh
    obtain ⟨store, hd, hrow, hhash⟩ := hf.during hS hw hp hself
    exact .expiredToken hp' hd hrow hhash (World.mem_past.1 hn) ha
  | @foreign sid token userId row u hp' hu hr hf hne =>
    obtain ⟨credentials, hcred⟩ := hu.credentials
    rw [handle_invalidRefreshToken hp'] at hh
    cases hh
    obtain ⟨rfl, -⟩ := activeUser_held hS hw hp (ne_createUser hcred) hr
    obtain ⟨store, hd, hrow, hhash⟩ := hf.during hS hw hp hself
    cases req with
    | revokeToken =>
      cases hp'
      cases hcred
      exact .foreignToken (hu.acts hself rfl) hd hrow hhash hne
    | refreshToken => cases hcred
    | _ => cases hp'
  | @raced sid token row now data rowcount hreq hf hn ha hid he hr hne =>
    subst hreq
    cases hh
    obtain ⟨store, hd, rfl⟩ := update_during hS hw hp (World.mem_past.1 hr)
    refine .rotated (hf.holds hS hw hp hself hn ha) hd fun row' hrow' hid' hhash => hne ?_
    exact (hd.valid hS).tokenHashMatches_length hrow' (hid'.trans hid.symm) (hhash.trans he.symm)
  | inactiveUser hreq hr ha =>
    subst hreq
    cases hh
    obtain ⟨row, store, hrow, hd, hu, hid⟩ := hr.during hS hw hp (fun _ => nofun)
    exact .inactiveOwner hrow hd hu hid ha
  | weakPassword hn hweak =>
    obtain ⟨requestBody, rfl⟩ := hn.request
    cases hh
    exact .weakPassword hn hweak
  | duplicate hn hr hne =>
    obtain ⟨requestBody, rfl⟩ := hn.request
    cases hh
    obtain ⟨store, hd, hrows⟩ := usernameOrEmail_during hS hw hp (World.mem_past.1 hr)
    obtain ⟨u, hu⟩ := List.exists_mem_of_ne_nil _ hne
    obtain ⟨hu, hdup⟩ := hrows u hu
    exact .duplicate hn hd hu (hdup.imp_right Or.inl)
  | @taken n p sid passwordHash orig hn hpersist ha hdup =>
    obtain ⟨requestBody, rfl⟩ := hn.request
    cases hh
    obtain ⟨store, hd, u, hu, hdup⟩ := insertUser_during hS hw hp (World.mem_past.1 ha)
    obtain ⟨husername, hemail, -⟩ := persistUserData_ok hpersist
    refine .duplicate hn hd hu (hdup.imp (fun h => h.trans husername) fun h => Or.inr ?_)
    rw [hemail, h]
    rfl
  | translated hn hc => exact absurd hc (hn.no_conflict hw)

/-! ## Replies -/

theorem SawStaff.held {userId : ℤ} (hreg : ∀ requestBody, req ≠ .createUser requestBody)
    (h : SawStaff (w.past i) userId) : HeldActive w i userId (·.isStaff = true) := by
  obtain ⟨sid, actor, hs, hstaff⟩ := h
  obtain ⟨-, store, hd, hu, hid, ha⟩ := activeUser_held hS hw hp hreg hs
  exact ⟨store, hd, actor, hu, hid, ha, hstaff⟩

/-- What is rejected. -/
theorem rejects_justified {httpException : HTTPException}
    (hr : Rejects S (w.past i) req httpException) :
    Justified S w i req (.error httpException) := by
  have hself : w.past i <:+ w.past i := List.suffix_rfl
  cases hr with
  | missing hcred => exact .missingCredentials hcred
  | unauthenticated hcred hn hdec => exact .unauthenticated hcred (World.mem_past.1 hn) hdec
  | throttled hsub hthrottled => exact .throttled (hsub.acts hself rfl) hthrottled
  | translated hc hh => exact translated_justified hS hw hp hc hh
  | currentUser hsub hr =>
    obtain ⟨store, hd, hrows⟩ := activeUser_during hS hw hp (fun _ => nofun) (World.mem_past.1 hr)
    refine .unknownUser rfl (hsub.acts hself rfl) hd fun u hu hid => ?_
    rw [← Bool.not_eq_true]
    exact fun ha => absurd ((hrows u).2 ⟨hu, hid, ha⟩) List.not_mem_nil
  | staffUserLookup hsub hstaff hr =>
    obtain ⟨store, hd, hrows⟩ := users_during hS hw hp (fun _ => nofun) (World.mem_past.1 hr)
    refine .noTarget (hsub.acts hself rfl) (hstaff.held hS hw hp fun _ => nofun) hd fun u hu hid =>
      ?_
    exact absurd ((hrows u).2 ⟨hu, by simp [hid]⟩) List.not_mem_nil

omit hp in
/-- A user that is returned was inserted for the request, and is committed. -/
theorem createUser_justified {requestBody : CreateUserRequestSchema S.ext} {user : UserSchema}
    (hp : w.procs i = some ⟨.createUser requestBody, .ret (.ok (.user user))⟩) :
    Justified S w i (.createUser requestBody) (.ok (.user user)) := by
  obtain ⟨l, ⟨hwp, hk⟩, -⟩ := api_annotated hS hw hp
  have hends : ApiEnds S (.createUser requestBody) (.ok (.ok (.user user))) l := hwp
  rcases hends with ⟨resp, -, heq, sid, wr, hst, hbasis, houtcome⟩ | ⟨-, hno⟩
  · obtain ⟨account, rfl, rfl⟩ : ∃ account, resp = .user account ∧ user =
        UserSchema.ofUser account := by
      cases resp <;> cases heq
      exact ⟨_, rfl, rfl⟩
    obtain ⟨row, rfl, rfl⟩ : ∃ row, wr = .insertUser row ∧ account = userFromModel row := by
      cases houtcome
      exact ⟨_, rfl, rfl⟩
    have hh := hk.knows.holds
    rw [hst] at hh
    obtain ⟨howns, hlog, -⟩ := hh
    obtain ⟨data, hdata⟩ := hbasis.registers
    have hvalid : ValidRegistration.validate S.ext requestBody.toRegistrationFields = .ok data := by
      cases hv : ValidRegistration.validate S.ext requestBody.toRegistrationFields <;>
        simp only [ApiRequest.core, hv] at hdata <;> cases hdata
      rfl
    rw [hdata] at hbasis
    cases hbasis with
    | insertUser hadmitted => exact .created hvalid hadmitted rfl howns.mem hlog
  · exact absurd rfl (hno rfl _)

omit hp in
/-- A response is right about the database. -/
theorem responds_justified {body : Body} (hp : w.procs i = some ⟨req, .ret (.ok body)⟩) :
    Justified S w i req (.ok body) := by
  have hself : w.past i <:+ w.past i := List.suffix_rfl
  have hconcludes : Responds S (w.past i) req body := api_told hw hp
  have hsigned : ∀ {payload key algorithm token},
      Heard (w.past i) (.jwtEncode payload key algorithm) token →
      S.jwt.encode payload key algorithm = some token :=
    fun h => signed_during hw (World.mem_past.1 h)
  cases hconcludes with
  | @issueToken request username password u iat token hv hiat ht =>
    obtain ⟨⟨sid, hrow⟩, ha, hverify⟩ := hv
    obtain ⟨store, hd, hrows⟩ := username_during hS hw hp (fun _ => nofun) (World.mem_past.1 hrow)
    obtain ⟨hu, hname⟩ := (hrows u).1 (List.mem_singleton_self u)
    exact .loggedIn hd hu hname ha hverify ⟨iat, World.mem_past.1 hiat, hsigned ht⟩
  | @refreshToken token u iat tokens hr ha hiat ht =>
    obtain ⟨row, store, hrow, hd, hu, hid⟩ := hr.during hS hw hp (fun _ => nofun)
    rw [hid] at ht
    exact .refreshed hrow ⟨store, hd, u, hu, hid, ha, trivial⟩ ⟨iat, World.mem_past.1 hiat,
      hsigned ht⟩
  | @revokeToken request credentials limited token userId sid row now u hsub hu hf hn ha hid =>
    obtain ⟨rfl, store, hd, hu⟩ := activeUser_held hS hw hp (fun _ => nofun) hu
    exact .revoked (hsub.acts hself rfl) ⟨store, hd, u, hu.1, hu.2.1, hu.2.2, trivial⟩
      (hf.holds hS hw hp hself hn ha) hid
  | @createUser requestBody user => exact createUser_justified hS hw hp
  | @currentUser credentials userId sid u hsub hu =>
    obtain ⟨-, store, hd, hu, hid, ha⟩ := activeUser_held hS hw hp (fun _ => nofun) hu
    exact .currentUser (hsub.acts hself rfl) hd hu hid ha
  | @staffUserLookup credentials target actorUserId sid u hsub hstaff hu =>
    obtain ⟨store, hd, hrows⟩ := users_during hS hw hp (fun _ => nofun) (World.mem_past.1 hu)
    obtain ⟨hu, hid⟩ := (hrows u).1 (List.mem_singleton_self u)
    exact .lookedUp (hsub.acts hself rfl) (hstaff.held hS hw hp fun _ => nofun) hd hu
      (List.mem_singleton.1 hid)

omit hp in
/-- **Every reply is right about the database at moments during its request.** -/
theorem replies_justified {reply : Reply} (hp : w.procs i = some ⟨req, .ret reply⟩) :
    Justified S w i req reply := by
  cases reply with
  | error httpException => exact rejects_justified hS hw hp (api_told hw hp)
  | ok body => exact responds_justified hS hw hp

end

/-! ## A sample service -/

namespace Sample

/-- An account of the staff. -/
def root : UserModel :=
  ⟨2, "root", "root@example.com", "Root", "Admin", FastapiTemplate.Sample.passwordHash, true,
    true, false⟩

/-- The access token that `root` gets at the instant 0. -/
def rootToken : String :=
  "eyJhbGciOiJIUzI1NiIsInR5cCI6IkpXVCJ9.eyJzdWIiOiIyIiwiZXhwIjo5MDAsImlhdCI6MCwidHlwIjoiYXQrand0In0." ++
    "FkKpCeIz3RG1wb0qlwk_Q2qmdRODWbclAMvWygNr4dY"

/-- Two accounts, of which one is of the staff. -/
def service : Service where
  toDeployment := { FastapiTemplate.Sample.deployment .sqlite with
    store := ⟨(FastapiTemplate.Sample.deployment .sqlite).store.users ++ [root], []⟩ }
  jwt := FastapiTemplate.Sample.pyJWT
    (accessPayload (FastapiTemplate.Sample.deployment .sqlite) 2 0) rootToken
  maxStrDigits := 4300
  table := LetterCase.asciiTable
  requestInfo := {}

theorem valid : service.store.Valid := by
  constructor <;> simp [service, FastapiTemplate.Sample.deployment, root]

/-- The request `i` is served until it has made `n` calls. -/
def serve (i : ℕ) (req : ApiRequest service.ext) (n : ℕ) (ch : Choice) :
    List (Action (ApiRequest service.ext) Choice) :=
  .spawn i req :: List.replicate n (.answer i ch)

/-- A minute later `root` looks up the other account. -/
def lookup (n : ℕ) : List (Action (ApiRequest service.ext) Choice) :=
  serve 0 (.staffUserLookup (some rootToken) 1) n { now := 60000000 }

/-- The reply to the request `i`. -/
def reply (w : service.World) (i : ℕ) : Option Reply :=
  match w.procs i with
  | some ⟨_, .ret reply⟩ => some reply
  | _ => none

theorem reply_spec {w : service.World} {i : ℕ} {r : Reply} (h : reply w i = some r) :
    ∃ req, w.procs i = some ⟨req, .ret r⟩ := by
  unfold reply at h
  split at h <;> cases h
  exact ⟨_, ‹_›⟩

end Sample

theorem replies_justified_lookup :
    ∃ w req user, Sample.service.schedule (Sample.lookup 14) = some w ∧
    w.procs 0 = some ⟨req, .ret (.ok (.user user))⟩ ∧ user.username = "alice" ∧
    Justified Sample.service w 0 req (.ok (.user user)) := by
  have hrun :
      (Sample.service.schedule (Sample.lookup 14)).any (fun w => Sample.reply w 0 = some (.ok (.user
      ⟨1, "alice", "alice@example.com", "Alice", "Doe", false, false⟩))) = true := by decide +kernel
  obtain ⟨w, hw, hrun⟩ := (Option.any_eq_true _ _).1 hrun
  obtain ⟨req, hp⟩ := Sample.reply_spec (of_decide_eq_true hrun)
  exact ⟨w, req, _, hw, hp, rfl, replies_justified Sample.valid
    (Service.schedule_reachableIf _ (fun _ _ _ _ _ => trivial) hw) hp⟩

end FastapiTemplate.Delivery
