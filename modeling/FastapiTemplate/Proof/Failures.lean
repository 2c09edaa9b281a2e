/-
  The exceptions that no controller translates, so that the client gets a server
  error: each has a reason outside the workflows (`failures_explained`).  The
  ones the code raises against impossible states are never raised.
-/
import FastapiTemplate.Proof.Authority

namespace FastapiTemplate

open Effects Locking Locking.Db

/-! ## Errors of statements -/

variable {ext : Externals} {d : Dialect} {i : ℕ} {s s' : State} {sid : SessionId}

/-- A flush is stale only if the row of a pending change is gone. -/
theorem Answer.stale {f : Call → Bool}
    (h : Answer ext d f i s (.flush sid) (.error .staleData) s') :
    ∃ c ∈ s.pending sid, ∀ row ∈ (s.db.view d.schema sid).refreshSessions, row.id ≠ c.1 := by
  obtain ⟨ch, h⟩ := h
  unfold perform at h
  split at h
  · simp only [respond, State.flush] at h
    split at h
    · split at h
      · cases h
      · rename_i hgone
        simpa using hgone
    · cases h
  · split at h <;> cases h
  · split at h
    · obtain ⟨r, -, hr⟩ := Option.map_eq_some_iff.1 h
      cases hr
    · cases h

variable {store : Store} {userId : ℤ} {cs : List UniqueConstraint} {c : UniqueConstraint}

theorem Stmt.run_insertRefreshSession_error {row : RefreshSessionModel}
    (h : (Stmt.insertRefreshSession row).run store userId = .error cs) (hc : c ∈ cs) :
    ∃ r ∈ store.refreshSessions, r.id = row.id ∨ r.refreshTokenHash = row.refreshTokenHash := by
  simp only [run] at h
  split at h <;> cases h
  simp only [Store.sessionViolations, List.mem_append, List.mem_ite_nil_right, List.mem_singleton,
    List.any_eq_true, decide_eq_true_eq] at hc
  rcases hc with ⟨⟨r, hr, hid⟩, -⟩ | ⟨⟨r, hr, hhash⟩, -⟩
  · exact ⟨r, hr, Or.inl hid⟩
  · exact ⟨r, hr, Or.inr hhash⟩

theorem Stmt.run_updateTokenHash_error {data : ReplaceRefreshSessionTokenDTO}
    (h : (Stmt.updateTokenHash data).run store userId = .error cs) (hc : c ∈ cs) :
    ∃ r ∈ store.refreshSessions, r.refreshTokenHash = data.refreshTokenHash := by
  simp only [run] at h
  split at h <;> cases h
  simp only [Store.updateViolations, List.mem_ite_nil_right, List.any_eq_true,
    decide_eq_true_eq] at hc
  obtain ⟨⟨-, r, hr, -, hhash⟩, -⟩ := hc
  exact ⟨r, hr, hhash⟩

/-! ## Reasons -/

namespace Delivery

variable {S : Service} {w v : S.World} {p : Proc (ApiRequest S.ext) Call Ret Exc Reply}

/-- **Why a request ends with a server error.** -/
inductive Explained (S : Service) (w : S.World) (i : ℕ) : ApiRequest S.ext → Exc → Prop
  /-- the database, the driver or a library failed -/
  | outside {req e c} : ⟨i, c, .error e⟩ ∈ w.trace → e.isExternal = true → Explained S w i req e
  /-- PyJWT accepts the access token, and its claims are no ones of the service -/
  | claims {req : ApiRequest S.ext} {token now e} : req.credentials = some (some token) →
      w.Saw i .now now → jwtAuthAt S now (some token) = .error e → Explained S w i req e
  /-- the stored hash is none that the library can verify -/
  | hash {request username password store u e} : During w i store → u ∈ store.users →
      u.username = normalizeUsername S.ext username →
      S.ext.verifyPassword password u.passwordHash = .error e →
      Explained S w i (.issueToken request username password) e
  | data {requestBody e} : Invalid S requestBody e → Explained S w i (.createUser requestBody) e
  /-- the identifier of a session was drawn before -/
  | identifier {req id row store orig} : w.Saw i .uuid7 id → During w i store →
      row ∈ store.refreshSessions → row.id = id → Explained S w i req (.integrityError orig)
  /-- the digest of a token is the one of another -/
  | digest {req n token row store orig} : w.Saw i (.tokenUrlsafe n) token → During w i store →
      row ∈ store.refreshSessions → row.refreshTokenHash = hashRefreshToken S.ext token →
      Explained S w i req (.integrityError orig)

section
variable (hS : S.store.Valid) (hw : S.system.Reachable w) (hp : w.procs i = some p)
include hS hw hp

/-! ## Impossible states -/

omit hw in
/-- The context variable is unset before a request enters its block, and set from then on. -/
theorem scope_entered {sc : Option FastapiTemplate.Scope}
    (hm : S.system.Moment w i .scopeGet (.ok sc) v) : sc = none ↔ ¬InScope (v.past i) := by
  obtain ⟨l, he⟩ := executes_of_moment hS hm hp nofun
  obtain rfl : sc = l.loc.stage.scope := he.answered sc rfl
  have hout : l.loc.stage = .outside ↔ ¬InScope (v.past i) := by
    rw [InScope, not_exists]
    exact he.tracks.entered.trans (forall_congr' fun sid => not_congr (he.tracks.saw _ _).symm)
  rw [← hout]
  have hcan := he.can
  generalize l.loc.stage = st at hcan ⊢
  cases hcan with
  | scopeGet hlooks => cases st with
    | outside | inside | broken => simp [Stage.scope]
    | opened | committed | aborted => exact hlooks.elim

/-- No select by a unique key answers several rows. -/
theorem not_ambiguous : ¬Ambiguous (w.past i) := by
  have hone : ∀ {sid q} {a : q.Ret}, Heard (w.past i) (.sql sid q) a →
      ∃ view : Store, view.Valid ∧ ∃ userId, ∃ e : Effect q, q.run view userId = .ok e ∧
      e.ret = a :=
    fun hs => by
      obtain ⟨-, view, -, hvalid, -, -, hrun⟩ := saw_view hS hw hp (World.mem_past.1 hs)
      exact ⟨view, hvalid, hrun⟩
  have hfew : ¬(2 ≤ 1) := by omega
  intro ha
  cases ha with
  | activeUser hs hlen =>
    obtain ⟨view, hvalid, userId, e, he, rfl⟩ := hone hs
    cases he
    exact hfew (hlen.trans
      (length_filter_le_one hvalid.userIds fun u hu => (of_decide_eq_true hu).1))
  | username hs hlen =>
    obtain ⟨view, hvalid, userId, e, he, rfl⟩ := hone hs
    cases he
    exact hfew (hlen.trans (length_filter_le_one hvalid.usernames fun u hu => of_decide_eq_true hu))
  | user hs hlen =>
    obtain ⟨view, hvalid, userId, e, he, rfl⟩ := hone hs
    cases he
    exact hfew (hlen.trans (length_filter_le_one hvalid.userIds fun u hu =>
      List.mem_singleton.1 (of_decide_eq_true hu)))
  | hash hs hlen =>
    obtain ⟨view, hvalid, userId, e, he, rfl⟩ := hone hs
    cases he
    exact hfew (hlen.trans (length_filter_le_one hvalid.tokenHashes fun row hrow =>
      of_decide_eq_true hrow))
  | session hs hlen =>
    obtain ⟨view, hvalid, userId, e, he, rfl⟩ := hone hs
    cases he
    exact hfew (hlen.trans (length_filter_le_one hvalid.sessionIds fun row hrow =>
      of_decide_eq_true hrow))

/-- A session that was updated is found again. -/
theorem not_missing {sid : SessionId} {data : ReplaceRefreshSessionTokenDTO}
    {newer older : AppPast} :
    w.past i ≠ newer ++ ⟨.sql sid (.selectSessionByHash data.refreshTokenHash false), .ok []⟩ ::
      ⟨.sql sid (.updateTokenHash data), .ok (1 : ℕ)⟩ :: older := by
  intro hpast
  obtain ⟨v, hm, hv⟩ := System.moment hw hpast
  obtain ⟨l, he⟩ := executes_of_moment hS hm hp nofun
  obtain ⟨work, hst, -, hin⟩ := he.inside
  have hupdate : Heard (v.past i) (.sql sid (.updateTokenHash data)) (1 : ℕ) := by
    rw [hv]
    exact heard_cons_self
  obtain rfl : work = .wrote (.setTokenHash data) :=
    he.tracks.recorded.work _ _ hst _ _ _ _ ((he.tracks.saw _ _).1 hupdate) rfl
  obtain ⟨row, hrow, hid, -⟩ := (hin.fits _ (List.mem_singleton_self _)).1
  have hmem : row.withTokenHash data ∈ (v.shared.db.view S.dialect.schema sid).refreshSessions := by
    rw [hin.view]
    exact mem_updateSession.2 ⟨row, hrow, if_pos hid⟩
  obtain ⟨userId, e, hrun, hret⟩ := he.run rfl
  cases hrun
  exact List.filter_eq_nil_iff.1 hret _ hmem (decide_eq_true rfl)

/-- No row of a change that is flushed is gone. -/
theorem not_stale {c : Call} : ⟨c, .error .staleData⟩ ∉ w.past i := by
  intro hmem
  obtain ⟨v, hm⟩ := System.moment_of_mem hw hmem
  have hflush : ∃ sid, c = .flush sid := by
    obtain ⟨req, k, s, -, ha, -⟩ := hm.answered
    rcases ha.1.inv with ha | ⟨_, hr, -⟩
    · cases ha with
      | stale => exact ⟨_, rfl⟩
    · cases hr
  obtain ⟨sid, rfl⟩ := hflush
  obtain ⟨l, he⟩ := executes_of_moment hS hm hp nofun
  obtain ⟨work, hst⟩ : ∃ work, l.loc.stage = .inside sid work := by
    have hcan := he.can
    generalize l.loc.stage = st at hcan
    cases hcan
    exact ⟨_, rfl⟩
  have hin : Inside S.toDeployment (p.request.core S l.userId) l.loc.saw v.shared i sid work := by
    have hh := he.knows.knows.holds
    rwa [hst] at hh
  obtain ⟨s, ha⟩ := he.answer
  obtain ⟨⟨id, t⟩, hchange, hgone⟩ := ha.stale
  rw [hin.pending] at hchange
  have hb := hin.change _ hchange
  generalize p.request.core S l.userId = core at hb
  cases hb with
  | @setRevokedAt data userId row now revokedAt hf huser =>
    obtain ⟨⟨sid', hrow⟩, -⟩ := hf
    obtain ⟨r, hr, hcont⟩ := hin.row_in_view (fun row' ⟨sid'', hash, rows, hs, hmem⟩ =>
      (api_inv hS hm.reachable).rows i row' ⟨sid'', hash, rows, he.knows.knows.seen _ _ hs, hmem⟩)
      ⟨sid', _, _, hrow, List.mem_singleton_self row⟩
    exact hgone r hr hcont.id

omit hw in
/-- The account of a session in the view of a transaction is committed. -/
theorem Executes.owner (href : S.store.Referential) {q : Stmt} {sid : SessionId}
    {r : Except Exc q.Ret}
    {l : ApiLoc} (hm : S.system.Moment w i (.sql sid q) r v)
    (he : Executes S v i p.request (.sql sid q) r l) {row : RefreshSessionModel}
    (hrow : row ∈ (v.shared.db.view S.dialect.schema sid).refreshSessions) :
    ∃ u ∈ v.shared.db.committed.users, u.id = row.userId := by
  obtain ⟨work, hst, -, hin⟩ := he.inside
  rw [hin.view] at hrow
  have hcommitted := api_referential hS href hm.reachable
  cases work with
  | idle | pending => exact hcommitted row hrow
  | wrote wr =>
    obtain ⟨k, hv⟩ := hm.request hp
    have hwork : l.loc.stage.work = .wrote wr := by
      rw [hst]
      rfl
    have hauth := authorized_of_basis hS hm.reachable hv he.knows he.tracks hwork
      (hin.basis _ (List.mem_singleton_self _))
    exact hauth.referential hS hcommitted row hrow

/-- The account of a session is found. -/
theorem not_orphan (href : S.store.Referential) {sid : SessionId} {hash : String} {forUpdate : Bool}
    {row : RefreshSessionModel} {users : List UserModel} {newer older : AppPast}
    (hpast : w.past i = newer ++ ⟨.sql sid (.selectUsers [row.userId]), .ok users⟩ ::
      ⟨.sql sid (.selectSessionByHash hash forUpdate), .ok [row]⟩ :: older) :
    ∃ u ∈ users, u.id = row.userId := by
  obtain ⟨v₂, hm₂, hpast₂⟩ := System.moment hw hpast
  have hpast₁ : v₂.past i = [] ++
      ⟨.sql sid (.selectSessionByHash hash forUpdate), .ok [row]⟩ :: older := hpast₂
  obtain ⟨v₁, hm₁, -⟩ := System.moment hm₂.reachable hpast₁
  obtain ⟨k, hp₂⟩ := hm₂.request hp
  obtain ⟨l₁, he₁⟩ := executes_of_moment hS hm₁ hp₂ nofun
  obtain ⟨l₂, he₂⟩ := executes_of_moment hS hm₂ hp nofun
  -- the session is selected together with an account
  obtain ⟨id₁, e₁, hrun₁, hret₁⟩ := he₁.run rfl
  cases hrun₁
  have hrow : row ∈ (v₁.shared.db.view S.dialect.schema sid).refreshSessions := by
    have hrow : row ∈ List.filter (fun row => decide (row.refreshTokenHash = hash))
        (v₁.shared.db.view S.dialect.schema sid).refreshSessions := by
      rw [show List.filter _ _ = [row] from hret₁]
      exact List.mem_singleton_self row
    exact (List.mem_filter.1 hrow).1
  obtain ⟨u, hu, hid⟩ := he₁.owner hS hp₂ href hm₁ hrow
  -- which is still there when its users are
  obtain ⟨u', hu', hid'⟩ := users_keep hS hm₁.reachable hm₁.leads hu
  obtain ⟨id₂, e₂, hrun₂, hret₂⟩ := he₂.run rfl
  cases hrun₂
  obtain ⟨work, -, -, hin⟩ := he₂.inside
  refine ⟨u', ?_, hid'.trans hid⟩
  have hview : u' ∈ (v₂.shared.db.view S.dialect.schema sid).users := by
    rw [hin.view]
    rcases work.short with hws | ⟨wr, hws⟩ <;> rw [hws]
    · exact hu'
    · exact wr.apply_users _ hu'
  rw [← show List.filter _ _ = users from hret₂]
  exact List.mem_filter.2 ⟨hview, by simp [hid'.trans hid]⟩

/-! ## What calls raise -/

/-- A violated constraint is on the identifier or on the token that a session was to get, if no
    account was inserted. -/
theorem violation_explained {sid : SessionId} {q : Stmt} {orig : DriverError}
    (hq : ∀ values, q ≠ .insertUser values)
    (h : ⟨.sql sid q, .error (.integrityError orig)⟩ ∈ w.past i) :
    Explained S w i p.request (.integrityError orig) := by
  obtain ⟨v, hm⟩ := System.moment_of_mem hw h
  obtain ⟨l, he⟩ := executes_of_moment hS hm hp nofun
  obtain ⟨work, hst, hnil, hin⟩ := he.inside
  obtain ⟨userId, cs, c, hcs, hc, -, -⟩ := he.violation rfl
  have hwrite := Stmt.run_error hcs
  have hd : During w i v.shared.db.committed := ⟨_, _, v, hm, rfl⟩
  have hsaw : ∀ {c a}, l.loc.saw c a → w.Saw i c a := fun hs =>
    World.mem_past.1 (Heard.mono (hm.leads.past i) _ _ ((he.tracks.saw _ _).2 hs))
  rw [hin.view, hnil (Or.inl hwrite)] at hcs
  have hbasis : ∀ a wr, q.outcome a = some wr →
      Basis S.toDeployment l.loc.saw (p.request.core S l.userId) wr := by
    have hcan := he.can
    generalize l.loc.stage = st at hcan
    cases hcan with
    | read hread => rw [hread] at hwrite; cases hwrite
    | write hb => exact hb
  cases q with
  | insertUser values => exact absurd rfl (hq values)
  | insertRefreshSession row =>
    obtain ⟨r, hr, hid | hhash⟩ := Stmt.run_insertRefreshSession_error hcs hc
    · have hdrawn := he.asks.identifier row rfl
      exact .identifier (hsaw ((he.tracks.saw _ _).1 hdrawn)) hd hr hid
    · have hb := hbasis () _ rfl
      generalize p.request.core S l.userId = core at hb
      cases hb with
      | insertRefreshSession _ hminted _ => exact .digest (hsaw hminted) hd hr hhash
  | updateTokenHash data =>
    obtain ⟨r, hr, hhash⟩ := Stmt.run_updateTokenHash_error hcs hc
    have hb := hbasis (1 : ℕ) _ rfl
    generalize p.request.core S l.userId = core at hb
    cases hb with
    | setTokenHash _ hminted _ _ => exact .digest (hsaw hminted) hd hr hhash
  | _ => cases hwrite

/-- The exceptions of calls are explained, but for those of an insertion of an account. -/
theorem raised_explained {c : Call} {e : Exc} (h : ⟨c, .error e⟩ ∈ w.past i)
    (hne : ∀ sid values orig, c = .sql sid (.insertUser values) → e ≠ .integrityError orig) :
    Explained S w i p.request e := by
  obtain ⟨v, hm⟩ := System.moment_of_mem hw h
  obtain ⟨req, k, s, -, ha, -⟩ := hm.answered
  rcases ha.1.inv with ha | ⟨code, hr, -⟩
  · cases ha with
    | violation =>
      exact violation_explained hS hw hp (fun values hq => hne _ values _ (by rw [hq]) rfl) h
    | stale => exact absurd h (not_stale hS hw hp)
  · cases hr
    exact .outside (World.mem_past.1 h) rfl

/-- `create` recognizes every duplicate. -/
theorem not_unrecognized {sid : SessionId} {values : NewUser} {orig : DriverError}
    (h : ⟨.sql sid (.insertUser values), .error (.integrityError orig)⟩ ∈ w.past i) :
    isDuplicateUserIntegrityError orig = true := by
  obtain ⟨v, hm⟩ := System.moment_of_mem hw h
  obtain ⟨l, he⟩ := executes_of_moment hS hm hp nofun
  obtain ⟨userId, cs, c, hcs, hc, hacc, rfl⟩ := he.violation rfl
  obtain ⟨husername, hemail⟩ := isDuplicate_violation S.dialect
  rcases Stmt.run_insertUser_error hcs hacc hc with ⟨rfl, -⟩ | ⟨rfl, -⟩
  · exact husername
  · exact hemail

end

/-- The request of an access token that PyJWT accepts. -/
theorem ApiRequest.handles_unknownUser {req : ApiRequest S.ext} {credentials : Option String}
    (hc : req.credentials = some credentials)
      (hne : ∀ credentials, req ≠ .currentUser credentials) :
    req.handleException .authenticatedUserNotFound ≠ none := by
  cases req with
  | currentUser credentials => exact absurd rfl (hne credentials)
  | revokeToken | staffUserLookup => exact nofun
  | _ => cases hc

/-- **Every server error has a reason outside the workflows.** -/
theorem failures_explained (hS : S.store.Valid) (href : S.store.Referential)
    (hw : S.system.Reachable w) {req : ApiRequest S.ext} {e : Exc}
    (hp : w.procs i = some ⟨req, .raise e⟩) : Explained S w i req e := by
  have hconcludes : Concludes S req (w.past i) (.error e) := api_told hw hp
  rcases hconcludes with ⟨token, now, hcred, hnow, hjwt⟩ | ⟨hc, hnone | hclock⟩
  · exact .claims hcred (World.mem_past.1 hnow) hjwt
  · cases hc with
    | answered h hne => exact raised_explained hS hw hp h hne
    | nested hpast hno =>
      obtain ⟨v, hm, hv⟩ := System.moment hw hpast
      have hsome := (scope_entered hS hp hm).2 (by rwa [hv])
      cases hsome
    | inactive hpast hin =>
      obtain ⟨v, hm, hv⟩ := System.moment hw hpast
      rw [← hv] at hin
      exact absurd hin ((scope_entered hS hp hm).1 rfl)
    | ambiguous ha => exact absurd ha (not_ambiguous hS hw hp)
    | missing hpast => exact absurd hpast (not_missing hS hw hp)
    | orphan hpast hno =>
      obtain ⟨u, hu, hid⟩ := not_orphan hS hw hp href hpast
      exact absurd hid (hno u hu)
    | verification hreq hr hv =>
      subst hreq
      obtain ⟨store, hd, hrows⟩ := username_during hS hw hp (fun _ => nofun) (World.mem_past.1 hr)
      obtain ⟨hu, hname⟩ := (hrows _).1 (List.mem_singleton_self _)
      exact .hash hd hu hname hv
    | invalidCredentials hreq | raced hreq | inactiveUser hreq =>
      subst hreq
      cases hnone
    | unknownUser hne hu =>
      obtain ⟨credentials, hcred⟩ := hu.credentials
      exact absurd hnone (ApiRequest.handles_unknownUser hcred hne)
    | denied hreq =>
      subst hreq
      cases hnone
    | unknownToken hp' | foreign hp' =>
      rw [handle_invalidRefreshToken hp'] at hnone
      cases hnone
    | expired hp' =>
      rw [handle_expiredRefreshToken hp'] at hnone
      cases hnone
    | weakPassword hn | duplicate hn | taken hn | translated hn =>
      obtain ⟨requestBody, rfl⟩ := hn.request
      cases hnone
    | invalid hreq hi =>
      subst hreq
      exact .data hi
    | unrecognized h hdup =>
      rw [not_unrecognized hS hw hp h] at hdup
      cases hdup
  · exact raised_explained hS hw hp hclock nofun

/-- `root` signs in twice, and the second session draws the identifier of the first. -/
def Sample.collision : List (Action (ApiRequest Sample.service.ext) Choice) :=
  Sample.signInOnce ++
    Sample.signIn 1 15 { session := 1, token := FastapiTemplate.Sample.tokenB, uuid := 7 }

/-- What the request `i` raised. -/
def Sample.raised (w : Sample.service.World) (i : ℕ) : Option Exc :=
  match w.procs i with
  | some ⟨_, .raise e⟩ => some e
  | _ => none

theorem Sample.raised_spec {w : Sample.service.World} {i : ℕ} {e : Exc}
    (h : Sample.raised w i = some e) : ∃ req, w.procs i = some ⟨req, .raise e⟩ := by
  unfold Sample.raised at h
  split at h <;> cases h
  exact ⟨_, ‹_›⟩

theorem failures_explained_collision : ∃ w req orig,
    Sample.service.schedule Sample.collision = some w ∧
      w.procs 1 = some ⟨req, .raise (.integrityError orig)⟩ ∧
      Explained Sample.service w 1 req (.integrityError orig) := by
  have hrun : (Sample.service.schedule Sample.collision).any (fun w => Sample.raised w 1 =
      some (.integrityError (Sample.service.dialect.violation .refreshSessionsPkey))) = true := by
    decide +kernel
  obtain ⟨w, hw, hrun⟩ := (Option.any_eq_true _ _).1 hrun
  obtain ⟨req, hp⟩ := Sample.raised_spec (of_decide_eq_true hrun)
  exact ⟨w, req, _, hw, hp, failures_explained Sample.valid nofun
    (Service.schedule_reachableIf _ (fun _ _ _ _ _ => trivial) hw) hp⟩

end Delivery

end FastapiTemplate
