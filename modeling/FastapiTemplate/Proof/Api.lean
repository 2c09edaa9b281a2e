/-
  The requests of the service follow the protocol of the workflows: a request
  that writes is one of them behind its dependencies, and one that reads ends its
  unit of work without a write.

  A world of the service is seen as a world of the workflows (`Service.World.core`)
  by forgetting what the programs are.  So the invariant of the workflows holds of
  the service (`apiSound`).
-/
import FastapiTemplate.Proof.ApiPast
import FastapiTemplate.Proof.Executions

namespace FastapiTemplate

open Effects Locking Locking.Db

variable {D : Deployment} {w : D.World} {i : ℕ} {req req' : Request D.ext} {l : Loc} {c : Call}
  {r : Except Exc (Ret c)} {s : State} {p : Proc (Request D.ext) Call Ret Exc Response}

/-! ## Calls outside a unit of work -/

/-- Outside a unit of work nothing depends on the request. -/
theorem Knows.outside (h : Knows D w i req l) (hl : l.stage = .outside) : Knows D w i req' l := by
  refine ⟨h.seen, h.failed, h.clock, ?_⟩
  have hh := h.holds
  rw [hl] at hh ⊢
  exact hh

/-- What a call that changes neither transactions nor scopes leaves known. -/
theorem Knows.quiet (hq : c.quiet = true) (h : Knows D w i req l)
    (ha : Answer D.ext D.dialect Call.mayFail i w.shared c r s) :
    Knows D (w.reply i c r s p) i req (l.after c r) := by
  have hfailed : l.failed = true → ∃ c' e, ⟨i, c', .error e⟩ ∈ (w.reply i c r s p).trace ∧
      e.isExternal = true := fun hl => by
    obtain ⟨c', e, he, hx⟩ := h.failed hl
    exact ⟨c', e, List.mem_cons_of_mem _ he, hx⟩
  refine ⟨fun c' a hs => ?_, fun hf => ?_, fun t ht => ?_, ?_⟩
  · cases r with
    | error e => exact List.mem_cons_of_mem _ (h.seen c' a hs)
    | ok b =>
      rcases List.mem_cons.1 hs with hs | hs
      · cases hs
        exact List.mem_cons_self ..
      · exact List.mem_cons_of_mem _ (h.seen c' a hs)
  · cases r with
    | ok b => exact hfailed hf
    | error e => exact (Bool.or_eq_true_iff.1 hf).elim hfailed fun hx =>
      ⟨c, e, List.mem_cons_self .., hx⟩
  · have hclock := ha.frame.clock
    cases r with
    | error e => exact (h.clock t ht).trans hclock
    | ok b =>
      rcases List.mem_cons.1 ht with ht | ht
      · cases ht
        rcases ha.inv with ha | ⟨_, hr, -⟩
        · cases ha
          exact le_rfl
        · cases hr
      · exact (h.clock t ht).trans hclock
  · rw [Loc.stage_after, Stage.after_quiet _ hq]
    exact h.holds.quiet hq ha

/-- Such a call keeps the invariant, wherever it is made. -/
theorem Inv.quiet (hq : c.quiet = true) (hI : Inv D w)
    (ha : Answer D.ext D.dialect Call.mayFail i w.shared c r s) : Inv D (w.reply i c r s p) := by
  obtain ⟨hdb, hp, hsc, hse⟩ := ha.quiet hq
  have hlog : ∀ u, s.Logged u ↔ w.shared.Logged u := fun u => by simp [State.Logged, hdb]
  refine ⟨?_, fun j hj => ?_, fun j row hrow => ?_⟩
  · exact {
      twoPhase := hdb ▸ hI.state.twoPhase
      valid := hdb ▸ hI.state.valid
      owner := hse ▸ hI.state.owner
      stranger := fun u hu => by
        obtain ⟨h₁, h₂, h₃⟩ := hI.state.stranger u (hse ▸ hu)
        exact ⟨hdb ▸ h₁, hp ▸ h₂, (hlog u).not.2 h₃⟩
      log := hdb ▸ hI.state.log
      created := fun row hr hnew => by
        rw [World.reply_shared, hdb] at hr
        exact (hI.state.created row hr hnew).trans ha.frame.clock }
  · by_cases hij : j = i
    · subst hij
      rw [World.reply_self] at hj
      cases hj
    · rw [World.reply_ne _ _ _ _ _ _ _ hij] at hj
      rw [World.reply_shared, hsc, hse]
      exact hI.idle j hj
  · rw [World.reply_shared, hdb]
    refine hI.rows j row ?_
    obtain ⟨sid, hash, rows, hs, hm⟩ := hrow
    rcases World.saw_reply hs with hs | ⟨rfl, heq⟩
    · exact ⟨sid, hash, rows, hs, hm⟩
    · cases heq
      cases hq

/-- And what the others know. -/
theorem Knows.other_now {j : ℕ} {r : Except Exc (Ret .now)}
    (ha : Answer D.ext D.dialect Call.mayFail i w.shared .now r s) (hj : j ≠ i)
    (h : Knows D w j req l) : Knows D (w.reply i .now r s p) j req l where
  seen c' a hs := List.mem_cons_of_mem _ (h.seen c' a hs)
  failed hf := by
    obtain ⟨c', e, he, hx⟩ := h.failed hf
    exact ⟨c', e, List.mem_cons_of_mem _ he, hx⟩
  clock t ht := (h.clock t ht).trans ha.frame.clock
  holds := by
    have hdb := (ha.quiet rfl).1
    refine h.holds.frame ha.frame hj (fun _ _ => nofun) (fun u v _ _ hfit => ?_)
      fun u row _ _ _ hm => ?_
    · rwa [World.reply_shared, hdb]
    · rwa [World.reply_shared, hdb]

/-- The invariant is about the shared state, the history and which processes exist. -/
theorem Inv.congr {v : D.World} (hI : Inv D w) (hs : v.shared = w.shared)
    (ht : v.trace = w.trace) (hp : ∀ i, v.procs i = none → w.procs i = none) : Inv D v := by
  refine ⟨hs ▸ hI.state, fun i hi => hs ▸ hI.idle i (hp i hi), fun i row hrow => ?_⟩
  obtain ⟨sid, hash, rows, hm, hr⟩ := hrow
  rw [hs]
  exact hI.rows i row ⟨sid, hash, rows, by simpa [World.Saw, ht] using hm, hr⟩

/-! ## Blocks that write nothing -/

/-- The workflow committed no write. -/
def Loc.Unwritten (l : Loc) : Prop := ∀ sid w, l.stage ≠ .committed sid (.wrote w)

theorem Loc.Uncommitted.unwritten (h : l.Uncommitted) : l.Unwritten := fun sid w => h sid (.wrote w)

theorem Loc.Unwritten.of_stage {st : Stage} (h : l.stage = st)
    (hst : ∀ sid w, st ≠ .committed sid (.wrote w)) : l.Unwritten := fun sid w => h ▸ hst sid w

/-- `async with uow: body`, for a body that only reads. -/
theorem asyncWith_reads {α : Type} {body : App α} (hl : l.stage = .outside)
    (hbody : ∀ sid l', l'.stage = .inside sid .idle →
      Block req sid l' body fun _ l'' => l''.stage = .inside sid .idle) :
    wp (protocolSpec D req) (asyncWith body) (fun _ l' => l'.Unwritten) l := by
  refine wp_seq (aenter_spec hl) ?_ fun e l' h => h.1.unwritten
  rintro ⟨⟩ l₁ ⟨-, sid, h₁⟩
  refine wp_bind.2 (wp_attempt.2 (wp_mono (fun r l₂ hr => ?_) (hbody sid l₁ h₁)))
  cases r with
  | ok a =>
    refine wp_seq (aexit_none_spec hr.2) ?_ fun e l₃ h => h.1.unwritten
    rintro ⟨⟩ l₃ ⟨-, h₃⟩
    exact .of_stage h₃ nofun
  | error e => exact wp_seq (aexit_some_spec hr) (fun _ l₃ h => h.1.unwritten) fun e' l₃ h =>
    h.1.unwritten

section
variable (hreq : ∀ e, Anticipated D req e)
include hreq

theorem getActiveUserById_unwritten (userId : ℤ) (hl : l.stage = .outside) :
    wp (protocolSpec D req) (GetActiveUserByIdUseCase.execute userId)
      (fun _ l' => l'.Unwritten) l := by
  refine asyncWith_reads hl fun sid l₁ h₁ => (userRepository_spec h₁).bind ?_
  rintro _ l₂ - ⟨h₂, rfl⟩
  exact (getActiveById_spec hreq h₂ userId).mono fun _ _ _ h => h.1

theorem getById_spec {sid : SessionId} (hl : l.stage = .inside sid .idle) (userId : ℤ) :
    Block req sid l (SQLAlchemyUserRepository.getById ⟨sid⟩ userId) fun _ l' =>
      l'.stage = .inside sid .idle := by
  refine (Block.read hl rfl rfl fun _ _ => rfl).bind ?_
  rintro rows l₁ - ⟨h₁, -, -⟩
  refine (scalarOneOrNone_spec hreq h₁).bind ?_
  rintro r l₂ - ⟨rfl, -⟩
  exact .pure h₁

theorem staffUserLookup_unwritten (userId actorUserId : ℤ) (hl : l.stage = .outside) :
    wp (protocolSpec D req) (StaffUserLookupUseCase.execute userId actorUserId)
      (fun _ l' => l'.Unwritten) l := by
  refine asyncWith_reads hl fun sid l₁ h₁ => (userRepository_spec h₁).bind ?_
  rintro _ l₂ - ⟨h₂, rfl⟩
  refine (getActiveById_spec hreq h₂ actorUserId).bind ?_
  rintro r l₃ - ⟨h₃, -⟩
  cases r with
  | none => exact .throw h₃ (hreq _)
  | some actor =>
    refine (Block.ofExcept (P := fun _ l' => l' = l₃) h₃ (fun _ _ => rfl) fun e _ => hreq e).bind ?_
    rintro _ l₄ - rfl
    refine (userRepository_spec h₃).bind ?_
    rintro _ l₅ - ⟨h₅, rfl⟩
    exact getById_spec hreq h₅ userId

end

/-! ## The requests of the service -/

namespace Delivery

variable {S : Service}

/-- The workflow of a registration that is validated again. -/
def registration {ext : Externals} :
    Except Exc (RegisterUserDTO ext) → FastapiTemplate.Request ext
  | .ok data => .registerUser data
  | .error _ => .revokeToken ⟨""⟩ 0

/-- The workflow of a request, for its user; reading requests have none, and this one, whose errors
    are all anticipated, stands for theirs. -/
def ApiRequest.core (S : Service) (userId : Option ℤ) :
    ApiRequest S.ext → FastapiTemplate.Request S.ext
  | .issueToken request username password =>
    .issueToken ⟨username, password⟩
      { userAgent := String.ofList (getUserAgent S.table S.requestInfo request)
        ipAddressTrace := (getUserIpTrace S.table S.requestInfo request).map String.ofList }
  | .refreshToken token => .refreshToken ⟨token⟩
  | .revokeToken _ _ _ token => .revokeToken ⟨token⟩ (userId.getD 0)
  | .createUser requestBody =>
    registration (ValidRegistration.validate S.ext requestBody.toRegistrationFields)
  | .currentUser _ | .staffUserLookup .. => .revokeToken ⟨""⟩ (userId.getD 0)

/-- What a request knows: its user, once authenticated, and what its workflow knows. -/
structure ApiLoc where
  userId : Option ℤ
  loc : Loc

/-- The first instant a request reads is the one that its token is decoded at. -/
def ApiLoc.after (S : Service) (req : ApiRequest S.ext) (l : ApiLoc) :
    (c : Call) → Except Exc (Ret c) → ApiLoc
  | .now, .ok t =>
    ⟨l.userId.or (req.credentials.bind (S.subject t)), l.loc.after .now (.ok t)⟩
  | c, r => ⟨l.userId, l.loc.after c r⟩

/-- The request is past its authentication, if it needs one. -/
def ApiLoc.Ready (req : ApiRequest S.ext) (l : ApiLoc) : Prop :=
  req.credentials = none ∨ l.userId.isSome = true

@[simp] theorem ApiLoc.after_loc (req : ApiRequest S.ext) (l : ApiLoc) (c : Call)
    (r : Except Exc (Ret c)) : (l.after S req c r).loc = l.loc.after c r := by
  unfold ApiLoc.after
  split <;> rfl

theorem ApiLoc.Ready.after_userId {req : ApiRequest S.ext} {l : ApiLoc} (h : l.Ready req) (c : Call)
    (r : Except Exc (Ret c)) : (l.after S req c r).userId = l.userId := by
  unfold ApiLoc.after
  split
  · rcases h with h | h
    · simp [h]
    · obtain ⟨userId, h⟩ := Option.isSome_iff_exists.1 h
      simp [h]
  · rfl

/-- The protocol of a request: it may read the clock before anything else. -/
def apiSpec (S : Service) (req : ApiRequest S.ext) : Spec Call Ret Exc ApiLoc where
  can l c := c = .now ∧ l.loc.stage = .outside ∧ l.loc.seen = [] ∨
    l.Ready req ∧ Can S.toDeployment (req.core S l.userId) l.loc.saw l.loc.stage c
  next l c r l' := l' = l.after S req c r ∧
    (protocolSpec S.toDeployment (req.core S l.userId)).next l.loc c r (l.loc.after c r)

/-- The body of the response to what a workflow returns. -/
def Body.ofResponse : Response → Body
  | .token tokens => .token tokens
  | .none => .none
  | .user account => .user (UserSchema.ofUser account)

/-- How a request ends: it responds with what its workflow committed, or it committed nothing. -/
def ApiEnds (S : Service) (req : ApiRequest S.ext) (out : Except Exc Reply) (l : ApiLoc) : Prop :=
  (∃ resp, req.reads = false ∧ out = .ok (.ok (.ofResponse resp)) ∧
    Ends S.toDeployment (req.core S l.userId) (.ok resp) l.loc) ∨
  l.loc.Unwritten ∧ (req.reads = false → ∀ body, out ≠ .ok (.ok body))

section
variable {req : ApiRequest S.ext} {l : ApiLoc}

theorem ApiEnds.raised {e : Exc} (h : l.loc.Unwritten) : ApiEnds S req (.error e) l :=
  Or.inr ⟨h, fun _ _ heq => by cases heq⟩

theorem ApiEnds.rejected {httpException : HTTPException} (h : l.loc.Unwritten) :
    ApiEnds S req (.ok (.error httpException)) l :=
  Or.inr ⟨h, fun _ _ heq => by cases heq⟩

/-- A workflow follows the protocol of the request it serves. -/
theorem wp_workflow {α : Type} {p : App α} {Q : Except Exc α → Loc → Prop} (h : l.Ready req)
    (hp : wp (protocolSpec S.toDeployment (req.core S l.userId)) p Q l.loc) :
    wp (apiSpec S req) p (fun r l' => Q r l'.loc ∧ l'.userId = l.userId) l := by
  refine wp_mono (fun r l' hr => ⟨hr.1, hr.2.2⟩)
    (wp_simulate (f := ApiLoc.loc) (J := fun l' => l'.Ready req ∧ l'.userId = l.userId)
      ?_ ?_ ⟨h, rfl⟩ hp)
  · rintro l' c ⟨hready, huser⟩ hc
    exact Or.inr ⟨hready, huser ▸ hc⟩
  · rintro l' c r l'' ⟨hready, huser⟩ - ⟨rfl, hn⟩
    have hu := hready.after_userId c r
    exact ⟨by rw [l'.after_loc, ← huser]; exact hn,
      hready.imp_right fun hs => by rw [hu]; exact hs, hu.trans huser⟩

/-- How a workflow that writes ends, for the body of the response to what it returns. -/
def Returns {α : Type} (D : Deployment) (req : FastapiTemplate.Request D.ext) (body : α → Body) :
    Except Exc α → Loc → Prop
  | .ok a, l => ∃ resp, Body.ofResponse resp = body a ∧ Ends D req (.ok resp) l
  | .error _, l => l.Unwritten

/-- The workflow of a request, before its result becomes the response of a use case. -/
theorem wp_returns {D : Deployment} {req : FastapiTemplate.Request D.ext} {l : Loc} {α : Type}
    {p : App α} {f : α → Response} (body : α → Body) (hbody : ∀ a, Body.ofResponse (f a) = body a)
    (h : wp (protocolSpec D req) (do return f (← p)) (Ends D req) l) :
    wp (protocolSpec D req) p (Returns D req body) l := by
  refine wp_mono (fun r l' hr => ?_) (wp_bind.1 h)
  cases r with
  | ok a => exact ⟨f a, hbody a, hr⟩
  | error e => exact hr.1.unwritten

/-- A wrapped endpoint around a workflow that writes. -/
theorem wrapRoute_ends {α : Type} {p : App α} (body : α → Body)
    {handleException : Exc → Option HTTPException} (hreq : req.reads = false) (h : l.Ready req)
    (hp : wp (protocolSpec S.toDeployment (req.core S l.userId)) p
      (Returns S.toDeployment (req.core S l.userId) body) l.loc) :
    wp (apiSpec S req) (wrapRoute handleException do return .ok (body (← p)))
      (ApiEnds S req) l := by
  refine wp_handle.2 (wp_bind.2 (wp_mono (fun r l' hr => ?_) (wp_workflow h hp)))
  obtain ⟨hends, huser⟩ := hr
  cases r with
  | ok a =>
    obtain ⟨resp, hbody, hends⟩ := hends
    refine Or.inl ⟨resp, hreq, by rw [hbody], ?_⟩
    rw [huser]
    exact hends
  | error e =>
    dsimp only [cont]
    split
    · exact .rejected hends
    · exact .raised hends

/-- A wrapped endpoint around a workflow that only reads. -/
theorem wrapRoute_unwritten {α : Type} {p : App α} {f : α → App Reply}
    {handleException : Exc → Option HTTPException} (hreq : req.reads = true) (h : l.Ready req)
    (hf : ∀ a, ∃ reply, f a = pure reply)
    (hp : wp (protocolSpec S.toDeployment (req.core S l.userId)) p
      (fun _ l' => l'.Unwritten) l.loc) :
    wp (apiSpec S req) (wrapRoute handleException (p >>= f)) (ApiEnds S req) l := by
  have hnot : ∀ out : Except Exc Reply, req.reads = false → ∀ body, out ≠ .ok (.ok body) := by
    intro out
    rw [hreq]
    exact nofun
  refine wp_handle.2 (wp_bind.2 (wp_mono (fun r l' hr => ?_) (wp_workflow h hp)))
  cases r with
  | ok a =>
    obtain ⟨reply, hreply⟩ := hf a
    simp only [cont, hreply]
    exact Or.inr ⟨hr.1, hnot _⟩
  | error e =>
    dsimp only [cont]
    split
    · exact Or.inr ⟨hr.1, hnot _⟩
    · exact Or.inr ⟨hr.1, hnot _⟩

/-- The authentication reads the clock, and knows the user from then on. -/
theorem jwtAuth_ends {credentials : Option String} (hreq : req.credentials = some credentials)
    (hl : l.loc.stage = .outside) (hu : l.userId = none) (hnew : l.loc.seen = []) :
    wp (apiSpec S req) (jwtAuth S credentials) (fun r l' => l'.loc.stage = .outside ∧
      ∀ state, r = .ok (.ok state) →
        ∃ userId, state.userId = some userId ∧ l'.userId = some userId) l := by
  unfold jwtAuth
  cases credentials with
  | none =>
    show wp (apiSpec S req) (Prog.ofExcept (jwtAuthAt S 0 none)) _ l
    refine wp_ofExcept.2 ⟨hl, fun state hstate => ?_⟩
    obtain ⟨userId, token, hnone, -⟩ := jwtAuthAt_ok hstate
    cases hnone
  | some token =>
    refine wp_bind.2 ⟨Or.inl ⟨rfl, hl, hnew⟩, ?_⟩
    rintro r l' ⟨rfl, -⟩
    have hstage : (l.after S req .now r).loc.stage = .outside := by
      rw [l.after_loc, Loc.stage_after, hl]
      cases r <;> rfl
    cases r with
    | error e => exact ⟨hstage, fun state hstate => by cases hstate⟩
    | ok now =>
      show wp (apiSpec S req) (Prog.ofExcept (jwtAuthAt S now (some token))) _ _
      refine wp_ofExcept.2 ⟨hstage, fun state hstate => ?_⟩
      obtain ⟨userId, token', -, huser, hsub⟩ := jwtAuthAt_ok hstate
      refine ⟨userId, huser, ?_⟩
      show l.userId.or (req.credentials.bind (S.subject now)) = some userId
      rw [hu, hreq]
      exact hsub

/-- Behind the authentication the user is known, and no unit of work has begun. -/
theorem authenticated_ends {credentials : Option String} {endpoint : ℤ → App Reply}
    (hreq : req.credentials = some credentials) (hl : l.loc.stage = .outside) (hu : l.userId = none)
    (hnew : l.loc.seen = [])
    (h : ∀ userId l', l'.userId = some userId → l'.loc.stage = .outside →
      wp (apiSpec S req) (endpoint userId) (ApiEnds S req) l') :
    wp (apiSpec S req) (authenticated S credentials endpoint) (ApiEnds S req) l := by
  refine wp_bind.2 (wp_mono (fun r l' hr => ?_) (jwtAuth_ends hreq hl hu hnew))
  obtain ⟨hl', hstate⟩ := hr
  have hun : l'.loc.Unwritten := .of_stage hl' fun _ _ heq => by cases heq
  cases r with
  | error e => exact .raised hun
  | ok out =>
    cases out with
    | error httpException => exact .rejected hun
    | ok state =>
      obtain ⟨userId, huser, hu'⟩ := hstate state rfl
      simp only [cont, huser]
      exact h userId l' hu' hl'

end

/-- The endpoint of a registration, with the exception translation of its controller. -/
theorem createUser_returns (requestBody : CreateUserRequestSchema S.ext) {l : Loc}
    (hl : l.stage = .outside) :
    wp (protocolSpec S.toDeployment (ApiRequest.core S none (.createUser requestBody)))
      (CreateUserController.endpoint S.settings requestBody)
      (Returns S.toDeployment (ApiRequest.core S none (.createUser requestBody)) .user) l := by
  have hhandled : ∀ {req : FastapiTemplate.Request S.ext} {e : Exc} {l' : Loc}, l'.Unwritten →
      wp (protocolSpec S.toDeployment req) (CreateUserController.handleException e)
        (Returns S.toDeployment req .user) l' := by
    intro req e l' hun
    unfold CreateUserController.handleException
    split <;> exact hun
  refine wp_handle.2 (wp_bind.2 (wp_ofExcept.2 ?_))
  simp only [ApiRequest.core]
  generalize ValidRegistration.validate S.ext requestBody.toRegistrationFields = validated
  cases validated with
  | error e => exact hhandled (.of_stage hl nofun)
  | ok data =>
    refine wp_bind.2 (wp_mono (fun r l' hr => ?_)
      (wp_returns (fun user => .user (UserSchema.ofUser user)) (fun _ => rfl)
        (registerUser_conforms data hl)))
    cases r with
    | ok user => exact hr
    | error e => exact hhandled hr

/-- **Every request of the service follows its protocol.** -/
theorem api_conforms (req : ApiRequest S.ext) {l : ApiLoc} (hl : l.loc.stage = .outside)
    (hu : l.userId = none) (hnew : l.loc.seen = []) :
    wp (apiSpec S req) (req.execute S) (ApiEnds S req) l := by
  cases req with
  | issueToken request username password =>
    exact wrapRoute_ends .token rfl (Or.inl rfl)
      (wp_returns .token (fun _ => rfl) (issueToken_conforms _ _ hl))
  | refreshToken token =>
    exact wrapRoute_ends .token rfl (Or.inl rfl)
      (wp_returns .token (fun _ => rfl) (refreshToken_conforms _ hl))
  | revokeToken request credentials limited token =>
    refine authenticated_ends rfl hl hu hnew fun userId l' hu' hl' => ?_
    split
    · exact .rejected (.of_stage hl' nofun)
    · have hcore : ApiRequest.core S l'.userId (.revokeToken request credentials limited token) =
          .revokeToken ⟨token⟩ userId := by rw [hu']; rfl
      refine wrapRoute_ends (fun _ => .none) rfl (Or.inr (by rw [hu']; rfl)) ?_
      rw [hcore]
      exact wp_returns (f := fun _ => .none) (fun _ => .none) (fun _ => rfl)
        (revokeToken_conforms _ userId hl')
  | createUser requestBody =>
    refine wrapRoute_ends .user rfl (Or.inl rfl) ?_
    rw [hu]
    exact createUser_returns requestBody hl
  | currentUser credentials =>
    refine authenticated_ends rfl hl hu hnew fun userId l' hu' hl' => ?_
    refine wrapRoute_unwritten rfl (Or.inr (by rw [hu']; rfl)) (fun a => ?_)
      (getActiveUserById_unwritten anticipated_revokeToken userId hl')
    cases a <;> exact ⟨_, rfl⟩
  | staffUserLookup credentials userId =>
    refine authenticated_ends rfl hl hu hnew fun actorUserId l' hu' hl' => ?_
    refine wrapRoute_unwritten rfl (Or.inr (by rw [hu']; rfl)) (fun a => ?_)
      (staffUserLookup_unwritten anticipated_revokeToken userId actorUserId hl')
    cases a <;> exact ⟨_, rfl⟩

/-! ## Soundness -/

/-- The world of the workflows. -/
def workflows (w : S.World) : S.toDeployment.World where
  shared := w.shared
  procs i := (w.procs i).map fun p => ⟨p.request.core S none, .raise .attributeError⟩
  trace := w.trace

theorem workflows_procs_eq_none {w : S.World} {i : ℕ} :
    (workflows w).procs i = none ↔ w.procs i = none := Option.map_eq_none_iff

/-- What a local state of a request knows of the world. -/
structure ApiKnows (S : Service) (w : S.World) (i : ℕ) (req : ApiRequest S.ext) (l : ApiLoc) :
    Prop where
  knows : Knows S.toDeployment (workflows w) i (req.core S l.userId) l.loc
  userId : ∀ userId, l.userId = some userId →
    ∃ now, w.Saw i .now now ∧ req.credentials.bind (S.subject now) = some userId

/-- The protocol of the service. -/
def Service.protocol (S : Service) :
    Protocol State (ApiRequest S.ext) Call Ret Exc Reply ApiLoc where
  spec := apiSpec S
  start := ⟨none, ⟨.outside, [], false⟩⟩
  fin := ApiEnds S
  knows := ApiKnows S

section
variable {w : S.World} {i : ℕ} {req : ApiRequest S.ext} {l : ApiLoc} {c : Call}
  {r : Except Exc (Ret c)} {s : State} {p : Proc (ApiRequest S.ext) Call Ret Exc Reply}

/-- Whoever the user of a request is, its clock was read by the request. -/
theorem ApiKnows.userId_after (h : ApiKnows S w i req l) : ∀ userId,
    (l.after S req c r).userId = some userId → ∃ now, (w.reply i c r s p).Saw i .now now ∧
      req.credentials.bind (S.subject now) = some userId := by
  intro userId hu
  have hold : l.userId = some userId → ∃ now, (w.reply i c r s p).Saw i .now now ∧
      req.credentials.bind (S.subject now) = some userId := fun hu => by
    obtain ⟨now, hs, hsub⟩ := h.userId userId hu
    exact ⟨now, List.mem_cons_of_mem _ hs, hsub⟩
  unfold ApiLoc.after at hu
  split at hu
  · rename_i t
    rcases Option.or_eq_some_iff.1 hu with hu | ⟨-, hu⟩
    · exact hold hu
    · exact ⟨t, List.mem_cons_self .., hu⟩
  · exact hold hu

/-- The clock read outside a unit of work answers as the protocol expects. -/
theorem protocol_now {D : Deployment} {w : D.World} {req : FastapiTemplate.Request D.ext} {l : Loc}
    {r : Except Exc (Ret .now)} (h : Knows D w i req l) (hl : l.stage = .outside)
    (ha : Answer D.ext D.dialect Call.mayFail i w.shared .now r s) :
    (protocolSpec D req).next l .now r (l.after .now r) := by
  refine ⟨rfl, ?_⟩
  have hh := h.holds
  rw [hl] at hh
  rcases ha.inv with ha | ⟨code, rfl, hf, -⟩
  · cases ha
    exact fun row hrow => absurd hrow (hh.2.2 row)
  · exact ⟨hf, Or.inl rfl⟩

/-- A step of a request keeps the invariant and what it knows. -/
theorem ApiKnows.own (hI : Inv S.toDeployment (workflows w)) (h : ApiKnows S w i req l)
    (hc : (apiSpec S req).can l c)
    (ha : Answer S.ext S.dialect Call.mayFail i w.shared c r s) :
    Inv S.toDeployment (workflows (w.reply i c r s p)) ∧
      (apiSpec S req).next l c r (l.after S req c r) ∧
      ApiKnows S (w.reply i c r s p) i req (l.after S req c r) := by
  have hcongr : ∀ q, Inv S.toDeployment ((workflows w).reply i c r s q) →
      Inv S.toDeployment (workflows (w.reply i c r s p)) := fun q hI =>
    hI.congr rfl rfl fun j hj => by
      by_cases hij : j = i
      · subst hij
        rw [workflows_procs_eq_none, World.reply_self] at hj
        cases hj
      · rw [workflows_procs_eq_none, World.reply_ne _ _ _ _ _ _ _ hij] at hj
        rw [World.reply_ne _ _ _ _ _ _ _ hij]
        exact workflows_procs_eq_none.2 hj
  have hknows : ∀ q userId, Knows S.toDeployment ((workflows w).reply i c r s q) i
      (req.core S userId) (l.loc.after c r) → (l.after S req c r).userId = userId →
      ApiKnows S (w.reply i c r s p) i req (l.after S req c r) := fun q userId hk hu =>
    ⟨by rw [hu, l.after_loc]; exact ⟨hk.seen, hk.failed, hk.clock, hk.holds⟩, h.userId_after⟩
  rcases hc with ⟨rfl, hl, -⟩ | ⟨hready, hc⟩
  · let q : Proc _ Call Ret Exc Response := ⟨req.core S none, .raise .attributeError⟩
    have hk : Knows S.toDeployment ((workflows w).reply i .now r s q) i (req.core S l.userId)
      (l.loc.after .now r) := h.knows.quiet rfl ha
    have hout : (l.loc.after .now r).stage = .outside := by
      rw [Loc.stage_after, hl]
      exact Stage.after_quiet _ rfl
    exact ⟨hcongr q (hI.quiet rfl ha), ⟨rfl, protocol_now h.knows hl ha⟩,
      hknows q _ (hk.outside hout) rfl⟩
  · have hrows : ∀ row, SawRow l.loc.saw row →
        ∃ r ∈ w.shared.db.committed.refreshSessions, row.Continues r := fun row hrow =>
      hI.rows i row (by
        obtain ⟨sid, hash, rows, hs, hm⟩ := hrow
        exact ⟨sid, hash, rows, h.knows.seen _ _ hs, hm⟩)
    let k : Except Exc (Ret c) → Prog Call Ret Exc Response := fun _ => .raise .attributeError
    -- the process of the workflows that makes the call
    let v : S.toDeployment.World := (workflows w).setProc i ⟨req.core S l.userId, .call c k⟩
    have hv : Inv S.toDeployment v := hI.congr rfl rfl fun j hj => by
      by_cases hij : j = i
      · subst hij
        rw [World.setProc_self] at hj
        cases hj
      · rwa [World.setProc_ne _ _ _ _ hij] at hj
    have hkv : Knows S.toDeployment v i (req.core S l.userId) l.loc :=
      ⟨h.knows.seen, h.knows.failed, h.knows.clock, h.knows.holds⟩
    have hI' := (hv.call hkv hc (World.setProc_self ..) ha).congr (v := (workflows w).reply i c r s
      ⟨req.core S l.userId, k r⟩) rfl rfl fun j hj => by
        by_cases hij : j = i
        · subst hij
          rw [World.reply_self] at hj
          cases hj
        · rw [World.reply_ne _ _ _ _ _ _ _ hij] at hj
          rw [World.reply_ne _ _ _ _ _ _ _ hij, World.setProc_ne _ _ _ _ hij]
          exact hj
    exact ⟨hcongr _ hI', ⟨rfl, h.knows.holds.next rfl hI.state hrows hc ha⟩,
      hknows ⟨req.core S l.userId, k r⟩ _ (h.knows.own hI hc ha) (hready.after_userId c r)⟩

end

/-- **The protocol of the service is sound** for a store that satisfies the constraints. -/
theorem apiSound (hS : S.store.Valid) :
    S.protocol.Sound S.system fun w => Inv S.toDeployment (workflows w) where
  init s hs := ((sound hS).init s hs).congr rfl rfl fun _ _ => rfl
  conforms req _ := api_conforms req rfl rfl rfl
  spawn w i req hI hi _ := by
    obtain ⟨h₁, h₂⟩ := (sound hS).spawn (workflows w) i (req.core S none) hI
      (workflows_procs_eq_none.2 hi) trivial
    refine ⟨h₁.congr rfl rfl fun j hj => ?_, ⟨h₂.seen, h₂.failed, h₂.clock, h₂.holds⟩, nofun⟩
    by_cases hij : j = i
    · subst hij
      rw [workflows_procs_eq_none, World.setProc_self] at hj
      cases hj
    · rw [workflows_procs_eq_none, World.setProc_ne _ _ _ _ hij] at hj
      rw [World.setProc_ne _ _ _ _ hij]
      exact workflows_procs_eq_none.2 hj
  spawn_other w i p j req l _ _ _ h :=
    ⟨⟨h.knows.seen, h.knows.failed, h.knows.clock, h.knows.holds⟩, h.userId⟩
  own w i req l c k r s hI h hc hi ha := by
    obtain ⟨hI', hn, hk⟩ := h.own hI hc ha.1
    exact ⟨hI', _, hn, hk⟩
  other w i req l c k r s hI h hc hi ha j req' l' hj h' := by
    let q : Proc _ Call Ret Exc Response := ⟨req.core S none, .raise .attributeError⟩
    have hk : Knows S.toDeployment ((workflows w).reply i c r s q) j
        (req'.core S l'.userId) l'.loc := by
      rcases hc with ⟨rfl, -⟩ | ⟨-, hc⟩
      · exact h'.knows.other_now ha.1 hj
      · exact h.knows.other hI hc ha.1 hj h'.knows
    refine ⟨⟨hk.seen, hk.failed, hk.clock, hk.holds⟩, fun userId hu => ?_⟩
    obtain ⟨now, hs, hsub⟩ := h'.userId userId hu
    exact ⟨now, List.mem_cons_of_mem _ hs, hsub⟩
  environment w s hI ha := by
    obtain ⟨h₁, h₂⟩ := (sound hS).environment (workflows w) s hI ha
    refine ⟨h₁, fun j req l h => ⟨h₂ j _ l.loc h.knows, h.userId⟩⟩

end Delivery

end FastapiTemplate
