/-
  What every request tells by itself: which calls it makes after what, what its
  response looks back on, and for every exception the calls that caused it.

  Nothing here is about the database or other requests: any answer may come.
-/
import FastapiTemplate.Delivery.Api
import FastapiTemplate.Lib.History
import FastapiTemplate.Proof.Block

namespace FastapiTemplate

open Effects

abbrev AppPast := Past Call Ret Exc

/-- The answers of a past. -/
def Heard (h : AppPast) : History := fun c a => ⟨c, .ok a⟩ ∈ h

theorem Heard.mono {h h' : AppPast} (hs : h <:+ h') : ∀ c a, Heard h c a → Heard h' c a :=
  fun _ _ ha => hs.subset ha

@[simp] theorem heard_cons_self {h : AppPast} {c : Call} {a : Ret c} :
    Heard (⟨c, .ok a⟩ :: h) c a :=
  List.mem_cons_self ..

/-- The answer that came first. -/
def firstAnswer (h : AppPast) : Option (Σ c : Call, Except Exc (Ret c)) :=
  (h.filter fun e => e.2.isOk).getLast?

theorem firstAnswer_mono {h h' : AppPast} {x : Σ c : Call, Except Exc (Ret c)} (hs : h <:+ h')
    (hx : firstAnswer h = some x) : firstAnswer h' = some x := by
  obtain ⟨newer, rfl⟩ := hs
  have hx : (h.filter fun e => e.2.isOk).getLast? = some x := hx
  simp [firstAnswer, hx]

theorem heard_of_firstAnswer {h : AppPast} {c : Call} {a : Ret c}
    (hx : firstAnswer h = some ⟨c, .ok a⟩) : Heard h c a :=
  List.mem_of_mem_filter (List.mem_of_getLast? hx)

theorem firstAnswer_cons {h : AppPast} {c : Call} {a : Ret c} (hno : ∀ c a, ¬Heard h c a) :
    firstAnswer (⟨c, .ok a⟩ :: h) = some ⟨c, .ok a⟩ := by
  have hnil : (h.filter fun e => e.2.isOk) = [] := by
    rw [List.filter_eq_nil_iff]
    rintro ⟨c', r⟩ he hok
    cases r with
    | error e => cases hok
    | ok b => exact hno c' b he
  rw [firstAnswer, List.filter_cons_of_pos rfl, hnil, List.getLast?_singleton]

/-- The call inserts an account. -/
def Call.insertsUser : Call → Bool
  | .sql _ (.insertUser _) => true
  | _ => false

/-- The statement neither looks for duplicates nor inserts a session. -/
def Stmt.plain : Stmt → Bool
  | .selectUserByUsernameOrEmail .. | .insertRefreshSession _ => false
  | _ => true

/-- The factory made a session. -/
def InScope (h : AppPast) : Prop := ∃ sid, Heard h .sessionFactory sid

theorem InScope.mono {h h' : AppPast} (hs : h <:+ h') (hi : InScope h) : InScope h' :=
  hi.imp fun _ => Heard.mono hs _ _

/-- No statement was answered since. -/
def Unasked (h h' : AppPast) : Prop := ∀ sid q a, Heard h' (.sql sid q) a → Heard h (.sql sid q) a

theorem Unasked.cons {h : AppPast} {c : Call} {r : Except Exc (Ret c)}
    (hc : ∀ sid q, c ≠ .sql sid q) : Unasked h (⟨c, r⟩ :: h) := by
  intro sid q a ha
  rcases List.mem_cons.1 ha with ha | ha
  · exact absurd (congrArg Sigma.fst ha).symm (hc sid q)
  · exact ha

theorem Unasked.trans {h h' h'' : AppPast} (hu : Unasked h h') (hu' : Unasked h' h'') :
    Unasked h h'' := fun sid q a ha => hu sid q a (hu' sid q a ha)

theorem InScope.of_cons {h : AppPast} {c : Call} {r : Except Exc (Ret c)}
    (hi : InScope (⟨c, r⟩ :: h)) (hc : c ≠ .sessionFactory) : InScope h := by
  obtain ⟨sid, hs⟩ := hi
  rcases List.mem_cons.1 hs with hs | hs
  · exact absurd (congrArg Sigma.fst hs).symm hc
  · exact ⟨sid, hs⟩

/-- A select by a unique key answered several rows. -/
inductive Ambiguous (h : AppPast) : Prop
  | activeUser {sid userId} {rows : List UserModel} :
    Heard h (.sql sid (.selectActiveUser userId)) rows →
      2 ≤ rows.length → Ambiguous h
  | username {sid name} {rows : List UserModel} :
    Heard h (.sql sid (.selectUserByUsername name)) rows →
      2 ≤ rows.length → Ambiguous h
  | user {sid userId} {rows : List UserModel} : Heard h (.sql sid (.selectUsers [userId])) rows →
      2 ≤ rows.length → Ambiguous h
  | hash {sid hash forUpdate} {rows : List RefreshSessionModel} :
      Heard h (.sql sid (.selectSessionByHash hash forUpdate)) rows → 2 ≤ rows.length → Ambiguous h
  | session {sid id} {rows : List RefreshSessionModel} :
      Heard h (.sql sid (.selectSessionForUpdate id)) rows → 2 ≤ rows.length → Ambiguous h

theorem Ambiguous.mono {h h' : AppPast} (hs : h <:+ h') (ha : Ambiguous h) : Ambiguous h' := by
  cases ha with
  | activeUser hr hl => exact .activeUser (Heard.mono hs _ _ hr) hl
  | username hr hl => exact .username (Heard.mono hs _ _ hr) hl
  | user hr hl => exact .user (Heard.mono hs _ _ hr) hl
  | hash hr hl => exact .hash (Heard.mono hs _ _ hr) hl
  | session hr hl => exact .session (Heard.mono hs _ _ hr) hl

/-! ## Requests -/

namespace Delivery

/-- The requests that only read. -/
def ApiRequest.reads {ext : Externals} : ApiRequest ext → Bool
  | .currentUser _ | .staffUserLookup .. => true
  | _ => false

/-- The credentials of a request that needs some. -/
def ApiRequest.credentials {ext : Externals} : ApiRequest ext → Option (Option String)
  | .revokeToken _ credentials _ _ | .currentUser credentials | .staffUserLookup credentials _ =>
    some credentials
  | _ => none

/-- The user that the credentials stand for at an instant. -/
def Service.subject (S : Service) (now : Instant) (credentials : Option String) : Option ℤ :=
  (JWTAuth.call S.jwt S.maxStrDigits S.settings.jwt true now credentials ⟨none, none⟩).2.userId

/-- The credentials of the request stood for the user at the instant that it read first. -/
def Subject (S : Service) (req : ApiRequest S.ext) (h : AppPast) (userId : ℤ) : Prop :=
  ∃ now, firstAnswer h = some ⟨.now, .ok now⟩ ∧ req.credentials.bind (S.subject now) = some userId

/-- The refresh token that a request presents. -/
def ApiRequest.presented {ext : Externals} : ApiRequest ext → Option String
  | .refreshToken token | .revokeToken _ _ _ token => some token
  | _ => none

/-- The session of the token was looked up. -/
def Found (S : Service) (h : AppPast) (token : String) (row : RefreshSessionModel) : Prop :=
  ∃ sid, Heard h (.sql sid (.selectSessionByHash (hashRefreshToken S.ext token) true)) [row]

/-- The session of the token was found active, updated, and loaded again with its user. -/
inductive Reloaded (S : Service) (h : AppPast) (token : String) (u : UserModel) : Prop
  | intro {sid sid' row row' data now newer older} {users : List UserModel} :
      h = newer ++ ⟨.sql sid (.selectSessionByHash data.refreshTokenHash false),
      .ok [row']⟩ :: older →
      Found S older token row → Heard older .now now → row.ActiveAt now → row.id = data.sessionId →
      Heard older (.sql sid' (.updateTokenHash data)) (1 : ℕ) →
      Heard h (.sql sid (.selectUsers [row'.userId])) users → u ∈ users → u.id = row'.userId →
      Reloaded S h token u

/-- The request registers the data, once they are normalized. -/
def Registers (S : Service) (req : ApiRequest S.ext) (n : RegisterUserDTO S.ext) : Prop :=
  ∃ requestBody data, req = .createUser requestBody ∧
    ValidRegistration.validate S.ext requestBody.toRegistrationFields = .ok data ∧
    normalizeRegisterUserData S.ext data = .ok n

/-- The data of a registration are not valid: as they came, normalized, or without the password. -/
inductive Invalid (S : Service) (requestBody : CreateUserRequestSchema S.ext) (e : Exc) : Prop
  | body : ValidRegistration.validate S.ext requestBody.toRegistrationFields = .error e →
      Invalid S requestBody e
  | normalized {data} : ValidRegistration.validate S.ext requestBody.toRegistrationFields =
    .ok data →
      normalizeRegisterUserData S.ext data = .error e → Invalid S requestBody e
  | persisted {n} : Registers S (.createUser requestBody) n → persistUserData n = .error e →
      Invalid S requestBody e

theorem Invalid.eq {S : Service} {requestBody : CreateUserRequestSchema S.ext} {e : Exc}
    (h : Invalid S requestBody e) : ∃ fields, e = .validationError fields := by
  cases h with
  | body he | normalized _ he => exact ⟨_, ValidRegistration.validate_error he⟩
  | persisted _ he =>
    unfold persistUserData at he
    split at he <;> cases he
    exact ⟨_, rfl⟩

/-! ## Causes of exceptions -/

/-- The calls that lead to an exception. -/
inductive Cause (S : Service) (req : ApiRequest S.ext) (h : AppPast) : Exc → Prop
  /-- a call raised it; what an insertion of a user raises is told apart below -/
  | answered {c e} : ⟨c, .error e⟩ ∈ h →
      (∀ sid values orig, c = .sql sid (.insertUser values) → e ≠ .integrityError orig) →
      Cause S req h e
  | nested {scope newer older} : h = newer ++ ⟨.scopeGet, .ok (some scope)⟩ :: older →
      ¬InScope older → Cause S req h NESTED_UOW_ERROR
  | inactive {newer older} : h = newer ++ ⟨.scopeGet, .ok none⟩ :: older → InScope older →
      Cause S req h INACTIVE_UOW_ERROR
  | ambiguous : Ambiguous h → Cause S req h .multipleResultsFound
  /-- the row of a session was updated, and is not found -/
  | missing {sid data newer older} : h = newer ++
      ⟨.sql sid (.selectSessionByHash data.refreshTokenHash false), .ok []⟩ ::
      ⟨.sql sid (.updateTokenHash data), .ok (1 : ℕ)⟩ :: older → Cause S req h .noResultFound
  /-- the user of a session is not found -/
  | orphan {sid hash forUpdate newer older} {row : RefreshSessionModel} {users : List UserModel} :
      h = newer ++ ⟨.sql sid (.selectUsers [row.userId]), .ok users⟩ ::
        ⟨.sql sid (.selectSessionByHash hash forUpdate), .ok [row]⟩ :: older →
      (∀ u ∈ users, u.id ≠ row.userId) → Cause S req h .attributeError
  | verification {request username password sid e} {u : UserModel} :
      req = .issueToken request username password →
      Heard h (.sql sid (.selectUserByUsername (normalizeUsername S.ext username))) [u] →
      S.ext.verifyPassword password u.passwordHash = .error e → Cause S req h e
  | invalidCredentials {request username password sid} {row : Option UserModel} :
      req = .issueToken request username password →
      Heard h (.sql sid (.selectUserByUsername (normalizeUsername S.ext username))) row.toList →
      (∀ u, row = some u → u.isActive = true →
        S.ext.verifyPassword password u.passwordHash = .ok false) →
      Cause S req h .invalidCredentials
  | unknownUser {sid userId} : (∀ credentials, req ≠ .currentUser credentials) →
      Subject S req h userId → Heard h (.sql sid (.selectActiveUser userId)) [] →
      Cause S req h .authenticatedUserNotFound
  | denied {credentials target sid userId} {actor : UserModel} :
      req = .staffUserLookup credentials target → Subject S req h userId →
      Heard h (.sql sid (.selectActiveUser userId)) [actor] → actor.isStaff = false →
      Cause S req h PERMISSION_DENIED_ERROR
  | unknownToken {sid token} : req.presented = some token →
      Heard h (.sql sid (.selectSessionByHash (hashRefreshToken S.ext token) true)) [] →
      Cause S req h .invalidRefreshToken
  | expired {token now row} : req.presented = some token → Found S h token row →
      Heard h .now now → ¬row.ActiveAt now → Cause S req h .expiredRefreshToken
  /-- the session of the token has another user -/
  | foreign {sid token userId row} {u : UserModel} : req.presented = some token →
      Subject S req h userId → Heard h (.sql sid (.selectActiveUser userId)) [u] →
      Found S h token row → row.userId ≠ u.id → Cause S req h .invalidRefreshToken
  /-- the row of the session was not updated -/
  | raced {sid token row now data} {rowcount : ℕ} : req = .refreshToken token →
      Found S h token row → Heard h .now now → row.ActiveAt now → data.sessionId = row.id →
      data.expectedRefreshTokenHash = hashRefreshToken S.ext token →
      Heard h (.sql sid (.updateTokenHash data)) rowcount → rowcount ≠ 1 →
      Cause S req h .invalidRefreshToken
  | inactiveUser {token u} : req = .refreshToken token → Reloaded S h token u →
      u.isActive = false → Cause S req h .invalidRefreshToken
  | weakPassword {n} : Registers S req n → isWeakPassword S.settings.password n = true →
      Cause S req h .weakPassword
  | duplicate {n sid} {rows : List UserModel} : Registers S req n →
      Heard h (.sql sid (.selectUserByUsernameOrEmail n.username n.email)) rows → rows ≠ [] →
      Cause S req h .userAlreadyExists
  /-- an insertion found the row of another registration -/
  | taken {n p sid passwordHash orig} : Registers S req n → persistUserData n = .ok p →
      ⟨.sql sid (.insertUser (SQLAlchemyUserRepository.newUser p passwordHash)),
        .error (.integrityError orig)⟩ ∈ h → isDuplicateUserIntegrityError orig = true →
      Cause S req h .userAlreadyExists
  | translated {n} : Registers S req n → Cause S req h .userRepositoryConflict →
      Cause S req h .userAlreadyExists
  | invalid {requestBody e} : req = .createUser requestBody → Invalid S requestBody e →
    Cause S req h e
  /-- a violated constraint that `create` does not take for a duplicate -/
  | unrecognized {sid values orig} :
    ⟨.sql sid (.insertUser values), .error (.integrityError orig)⟩ ∈ h →
      isDuplicateUserIntegrityError orig = false → Cause S req h (.integrityError orig)

theorem Subject.mono {S : Service} {req : ApiRequest S.ext} {h h' : AppPast} {userId : ℤ}
    (hs : h <:+ h') (hu : Subject S req h userId) : Subject S req h' userId :=
  hu.imp fun _ hn => ⟨firstAnswer_mono hs hn.1, hn.2⟩

theorem Subject.unique {S : Service} {req : ApiRequest S.ext} {h : AppPast} {userId userId' : ℤ}
    (hu : Subject S req h userId) (hu' : Subject S req h userId') : userId = userId' := by
  obtain ⟨now, hn, hs⟩ := hu
  obtain ⟨now', hn', hs'⟩ := hu'
  rw [hn] at hn'
  cases hn'
  exact Option.some.inj (hs.symm.trans hs')

theorem Found.mono {S : Service} {h h' : AppPast} {token : String} {row : RefreshSessionModel}
    (hs : h <:+ h') (hf : Found S h token row) : Found S h' token row :=
  hf.imp fun _ => Heard.mono hs _ _

theorem Reloaded.mono {S : Service} {h h' : AppPast} {token : String} {u : UserModel}
    (hs : h <:+ h') (hr : Reloaded S h token u) : Reloaded S h' token u := by
  obtain ⟨before, rfl⟩ := hs
  obtain ⟨heq, hfound, hnow, ha, hid, hupdate, husers, hu, huser⟩ := hr
  exact ⟨by rw [heq, ← List.append_assoc], hfound, hnow, ha, hid, hupdate,
    List.mem_append_right _ husers, hu, huser⟩

theorem Cause.mono {S : Service} {req : ApiRequest S.ext} {h h' : AppPast} {e : Exc}
    (hs : h <:+ h') (hc : Cause S req h e) : Cause S req h' e := by
  have hsub : ∀ {userId}, Subject S req h userId → Subject S req h' userId := Subject.mono hs
  have hfound : ∀ {token row}, Found S h token row → Found S h' token row := Found.mono hs
  have hreloaded : ∀ {token u}, Reloaded S h token u → Reloaded S h' token u := Reloaded.mono hs
  obtain ⟨before, rfl⟩ := hs
  have hmem : ∀ {x}, x ∈ h → x ∈ before ++ h := List.mem_append_right _
  induction hc with
  | answered ha hne => exact .answered (hmem ha) hne
  | nested heq hn => exact .nested (by rw [heq, ← List.append_assoc]) hn
  | inactive heq hi => exact .inactive (by rw [heq, ← List.append_assoc]) hi
  | ambiguous ha => exact .ambiguous (ha.mono (List.suffix_append _ _))
  | missing heq => exact .missing (by rw [heq, ← List.append_assoc])
  | orphan heq hu => exact .orphan (by rw [heq, ← List.append_assoc]) hu
  | verification hreq hr hv => exact .verification hreq (hmem hr) hv
  | invalidCredentials hreq hr hv => exact .invalidCredentials hreq (hmem hr) hv
  | unknownUser hreq hu hr => exact .unknownUser hreq (hsub hu) (hmem hr)
  | denied hreq hu hr hstaff => exact .denied hreq (hsub hu) (hmem hr) hstaff
  | unknownToken hp hr => exact .unknownToken hp (hmem hr)
  | expired hp hr hn ha => exact .expired hp (hfound hr) (hmem hn) ha
  | foreign hp hu hr hrow hne => exact .foreign hp (hsub hu) (hmem hr) (hfound hrow) hne
  | raced hp hf hn ha hid he hr hne => exact .raced hp (hfound hf) (hmem hn) ha hid he (hmem hr) hne
  | inactiveUser hp hr ha => exact .inactiveUser hp (hreloaded hr) ha
  | weakPassword hn hw => exact .weakPassword hn hw
  | duplicate hn hr hu => exact .duplicate hn (hmem hr) hu
  | taken hn hp ha hd => exact .taken hn hp (hmem ha) hd
  | translated hn _ ih => exact .translated hn ih
  | invalid hreq hi => exact .invalid hreq hi
  | unrecognized ha hd => exact .unrecognized (hmem ha) hd

/-! ## What a request asks -/

/-- The user is an active account of the staff. -/
def SawStaff (h : AppPast) (userId : ℤ) : Prop :=
  ∃ sid, ∃ actor : UserModel, Heard h (.sql sid (.selectActiveUser userId)) [actor] ∧
    actor.isStaff = true

/-- What a request that only reads may select: its own user, and once that one is known as staff the
    user that is looked up. -/
inductive Selects (S : Service) (h : AppPast) : ApiRequest S.ext → Stmt → Prop
  | actor {req userId} : Subject S req h userId → Selects S h req (.selectActiveUser userId)
  | target {credentials userId target} : Subject S (.staffUserLookup credentials target) h userId →
      SawStaff h userId → Selects S h (.staffUserLookup credentials target) (.selectUsers [target])

/-- The payload is that of an access token issued at an instant that was read. -/
def Issues (D : Deployment) (h : AppPast) (payload : List (String × Claim)) : Prop :=
  ∃ userId iat, payload = accessPayload D userId iat ∧ Heard h .now iat

/-- What a request may ask the database. -/
structure Queries (S : Service) (req : ApiRequest S.ext) (h : AppPast) (q : Stmt) : Prop where
  reads : req.reads = true → Selects S h req q
  /-- duplicates are looked for before an account is inserted -/
  duplicates : ∀ username email, q = .selectUserByUsernameOrEmail username email →
    ∀ sid values id, ¬Heard h (.sql sid (.insertUser values)) id
  /-- a session is inserted under an identifier that was drawn -/
  identifier : ∀ row, q = .insertRefreshSession row → Heard h .uuid7 row.id

/-- The credentials stand for a user that was selected as active. -/
def SawActor (S : Service) (req : ApiRequest S.ext) (h : AppPast) : Prop :=
  ∃ sid userId, ∃ u : UserModel, Subject S req h userId ∧
    Heard h (.sql sid (.selectActiveUser userId)) [u]

/-- What a request may call after a past. -/
def Asks (S : Service) (req : ApiRequest S.ext) (h : AppPast) : Call → Prop
  | .sql _ q => Queries S req h q
  | .setRevokedAt .. => req.reads = false ∧ SawActor S req h
  | .jwtEncode payload key algorithm => req.reads = false ∧ Issues S.toDeployment h payload ∧
      key = S.settings.jwt.secretKey ∧ algorithm = S.settings.jwt.algorithm
  | .tokenUrlsafe _ | .uuid7 | .hashPassword _ => req.reads = false
  | _ => True

/-- What a program of a request tells by itself: its result, or the cause of its exception. -/
def Says {α : Type} (S : Service) (req : ApiRequest S.ext) (h : AppPast) (p : App α)
    (P : α → AppPast → Prop) : Prop :=
  Tells (Asks S req) (fun e h => Cause S req h e) h p P

variable {S : Service} {req : ApiRequest S.ext} {h : AppPast}

theorem SawActor.mono {h' : AppPast} (hs : h <:+ h') (ha : SawActor S req h) :
    SawActor S req h' := by
  obtain ⟨sid, userId, u, hu, hr⟩ := ha
  exact ⟨sid, userId, u, hu.mono hs, Heard.mono hs _ _ hr⟩

/-- A call that inserts no account. -/
theorem Says.call {c : Call} {P : Ret c → AppPast → Prop} (hc : Asks S req h c)
    (hne : c.insertsUser = false) (hP : ∀ a, P a (⟨c, .ok a⟩ :: h)) :
    Says S req h (FastapiTemplate.call c) P :=
  Tells.perform hc hP fun _ => .answered (List.mem_cons_self ..) fun sid values _ heq => by
    rw [heq] at hne
    cases hne

/-- The scope was asked for after it was left, or never entered. -/
theorem inactive_cause {h₁ : AppPast} (heq : h₁ = ⟨.scopeGet, .ok none⟩ :: h) (hs : InScope h) :
    Cause S req h₁ INACTIVE_UOW_ERROR := by
  have heq : h₁ = [] ++ ⟨.scopeGet, .ok none⟩ :: h := heq
  exact .inactive heq hs

/-! ## Repositories -/

theorem currentScope_tells (hs : InScope h) :
    Says S req h currentScope fun _ h' => Unasked h h' := by
  refine Tells.bind (Says.call (P := fun a h' => h' = ⟨.scopeGet, .ok a⟩ :: h) trivial rfl
    fun _ => rfl) ?_
  rintro (_ | scope) _ - rfl
  · exact Tells.throw (inactive_cause rfl hs)
  · exact Tells.pure (.cons nofun)

theorem userRepository_tells (hs : InScope h) :
    Says S req h userRepository fun _ h' => Unasked h h' :=
  (currentScope_tells hs).bind fun _ _ _ hu => Tells.pure hu

theorem refreshSessionRepository_tells (hs : InScope h) :
    Says S req h refreshSessionRepository fun _ _ => True :=
  (currentScope_tells hs).bind fun _ _ _ _ => Tells.pure trivial

theorem scalarOneOrNone_tells {α : Type} {rows : List α} (hamb : 2 ≤ rows.length → Ambiguous h) :
    Says S req h (scalarOneOrNone rows) fun r h' => h' = h ∧ rows = r.toList := by
  match rows with
  | [] => exact Tells.pure ⟨rfl, rfl⟩
  | [_] => exact Tells.pure ⟨rfl, rfl⟩
  | _ :: _ :: _ => exact Tells.throw (.ambiguous (hamb (by simp)))

theorem asks_sql (hr : req.reads = false) {sid : SessionId} {q : Stmt} (hq : q.plain = true) :
    Asks S req h (.sql sid q) where
  reads hreads := absurd hreads (by simp [hr])
  duplicates username email heq := by
    rw [heq] at hq
    cases hq
  identifier row heq := by
    rw [heq] at hq
    cases hq

/-- A select of one row. -/
theorem oneRow_tells {c : Call} {α β : Type} (rows : Ret c → List α) (f : α → β)
    (hc : Asks S req h c) (hne : c.insertsUser = false)
    (hamb : ∀ a h', Heard h' c a → 2 ≤ (rows a).length → Ambiguous h') :
    Says S req h (do
      let a ← FastapiTemplate.call c
      return (← scalarOneOrNone (rows a)).map f) fun r h' =>
        ∃ a, ∃ row : Option α, rows a = row.toList ∧ r = row.map f ∧ Heard h' c a := by
  refine Tells.bind (Says.call (P := fun a h' => Heard h' c a) hc hne fun _ => heard_cons_self) ?_
  rintro a h₁ - ha
  refine Tells.bind (scalarOneOrNone_tells (hamb a h₁ ha)) ?_
  rintro row _ - ⟨rfl, hrow⟩
  exact Tells.pure ⟨a, row, hrow, rfl, ha⟩

section
variable (repository : SQLAlchemyUserRepository)

theorem getActiveById_tells {userId : ℤ}
    (hc : Asks S req h (.sql repository.session (.selectActiveUser userId))) :
    Says S req h (repository.getActiveById userId) fun r h' => ∃ row : Option UserModel,
      r = row.map userFromModel ∧
        Heard h' (.sql repository.session (.selectActiveUser userId)) row.toList := by
  refine (oneRow_tells (c := .sql repository.session (.selectActiveUser userId))
    (fun rows : List UserModel => rows) _ hc rfl fun _ _ => .activeUser).mono ?_ fun _ _ _ h => h
  rintro r h' - ⟨_, row, rfl, hr, hrow⟩
  exact ⟨row, hr, hrow⟩

theorem getByUsername_tells (hr : req.reads = false) (username : String) :
    Says S req h (repository.getByUsername username) fun r h' => ∃ row : Option UserModel,
      r = row.map userFromModel ∧
        Heard h' (.sql repository.session (.selectUserByUsername username)) row.toList := by
  refine (oneRow_tells (c := .sql repository.session (.selectUserByUsername username))
    (fun rows : List UserModel => rows) _ (asks_sql hr rfl) rfl fun _ _ => .username).mono ?_
    fun _ _ _ h => h
  rintro r h' - ⟨_, row, rfl, hr, hrow⟩
  exact ⟨row, hr, hrow⟩

theorem getById_tells {userId : ℤ}
    (hc : Asks S req h (.sql repository.session (.selectUsers [userId]))) :
    Says S req h (repository.getById userId) fun r h' => ∃ row : Option UserModel,
      r = row.map userFromModel ∧
        Heard h' (.sql repository.session (.selectUsers [userId])) row.toList := by
  refine (oneRow_tells (c := .sql repository.session (.selectUsers [userId]))
    (fun rows : List UserModel => rows) _ hc rfl fun _ _ => .user).mono ?_ fun _ _ _ h => h
  rintro r h' - ⟨_, row, rfl, hr, hrow⟩
  exact ⟨row, hr, hrow⟩

end

section
variable (repository : SQLAlchemyRefreshSessionRepository)

/-- The user of a loaded session: found among those that were loaded for it, or missing there. -/
theorem userOf_tells {hash : String} {forUpdate : Bool} {row : RefreshSessionModel}
    {users : List UserModel} {older : AppPast}
    (heq : h = ⟨.sql repository.session (.selectUsers [row.userId]), .ok users⟩ ::
      ⟨.sql repository.session (.selectSessionByHash hash forUpdate), .ok [row]⟩ :: older) :
    Says S req h (SQLAlchemyRefreshSessionRepository.userOf users row) fun user h' =>
      h' = h ∧ ∃ u ∈ users, user = userFromModel u ∧ u.id = row.userId := by
  unfold SQLAlchemyRefreshSessionRepository.userOf
  split
  · rename_i u hu
    exact Tells.pure ⟨rfl, u, List.mem_of_find?_eq_some hu, rfl, by simpa using List.find?_some hu⟩
  · rename_i hnone
    have heq : h = [] ++ ⟨.sql repository.session (.selectUsers [row.userId]), .ok users⟩ ::
        ⟨.sql repository.session (.selectSessionByHash hash forUpdate), .ok [row]⟩ :: older := heq
    exact Tells.throw (.orphan heq fun u hu => by simpa using List.find?_eq_none.1 hnone u hu)

variable (hr : req.reads = false)
include hr

/-- The users of selected sessions: none is selected for no session. -/
theorem loadUsers_tells (rows : List RefreshSessionModel) :
    Says S req h (repository.loadUsers rows) fun users h' => (rows = [] → h' = h) ∧
      ∀ row, rows = [row] →
        h' = ⟨.sql repository.session (.selectUsers [row.userId]), .ok users⟩ :: h := by
  cases rows with
  | nil => exact Tells.pure ⟨fun _ => rfl, nofun⟩
  | cons row rows =>
    refine Says.call (asks_sql hr rfl) rfl fun users => ⟨nofun, fun row' heq => ?_⟩
    cases heq
    rfl

theorem getByTokenHash_tells (hash : String) :
    Says S req h (repository.getByTokenHash hash) fun r h' =>
      match r with
      | none => Heard h' (.sql repository.session (.selectSessionByHash hash true)) []
      | some session => ∃ (row : RefreshSessionModel) (user : User), user.id = row.userId ∧
          session = refreshSessionFromModel row user ∧
          Heard h' (.sql repository.session (.selectSessionByHash hash true)) [row] := by
  refine Tells.bind (Says.call (P := fun a h' => h' = ⟨_, .ok a⟩ :: h) (asks_sql hr rfl) rfl
    fun _ => rfl) ?_
  rintro (rows : List RefreshSessionModel) h₁ - h₁eq
  refine Tells.bind (loadUsers_tells repository hr rows) ?_
  rintro users h₂ hle ⟨-, hone⟩
  have hheard : Heard h₂ (.sql repository.session (.selectSessionByHash hash true)) rows :=
    Heard.mono hle _ _ (by rw [h₁eq]; exact heard_cons_self)
  refine Tells.bind (scalarOneOrNone_tells fun hlen => .hash hheard hlen) ?_
  rintro (_ | row) _ - ⟨rfl, hrows⟩
  · rw [show rows = [] from hrows] at hheard
    exact Tells.pure hheard
  · have h₂eq := hone row hrows
    rw [show rows = [row] from hrows] at h₁eq hheard
    rw [h₁eq] at h₂eq
    refine Tells.bind (userOf_tells repository h₂eq) ?_
    rintro user _ - ⟨rfl, u, -, rfl, hid⟩
    exact Tells.pure ⟨row, userFromModel u, hid, rfl, hheard⟩

/-- The session after a rotation comes with its user, as it was selected then. -/
theorem replaceTokenHash_tells (data : ReplaceRefreshSessionTokenDTO) :
    Says S req h (repository.replaceTokenHash data) fun r h' =>
      match r with
      | none => ∃ rowcount : ℕ, rowcount ≠ 1 ∧
          Heard h' (.sql repository.session (.updateTokenHash data)) rowcount
      | some session => ∃ (u : UserModel) (row' : RefreshSessionModel) (users : List UserModel)
          (newer older : AppPast), session.user = userFromModel u ∧ h <:+ older ∧
          h' = newer ++
            ⟨.sql repository.session (.selectSessionByHash data.refreshTokenHash false),
            .ok [row']⟩ ::
            older ∧
          Heard older (.sql repository.session (.updateTokenHash data)) (1 : ℕ) ∧
          Heard h' (.sql repository.session (.selectUsers [row'.userId])) users ∧ u ∈ users ∧
          u.id = row'.userId := by
  refine Tells.bind (Says.call (P := fun a h' => h' = ⟨_, .ok a⟩ :: h) (asks_sql hr rfl) rfl
    fun _ => rfl) ?_
  rintro (rowcount : ℕ) h₁ - h₁eq
  by_cases hcount : rowcount ≠ 1
  · rw [if_pos hcount]
    exact Tells.pure ⟨rowcount, hcount, by rw [h₁eq]; exact heard_cons_self⟩
  rw [if_neg hcount]
  obtain rfl : rowcount = 1 := not_not.1 hcount
  refine Tells.bind (Says.call (P := fun a h' => h' = ⟨_, .ok a⟩ :: h₁) (asks_sql hr rfl) rfl
    fun _ => rfl) ?_
  rintro (rows : List RefreshSessionModel) h₂ - h₂eq
  refine Tells.bind (loadUsers_tells repository hr rows) ?_
  rintro users h₃ hle ⟨hnil, hone⟩
  match rows with
  | [] =>
    have hmissing : h₃ = [] ++
        ⟨.sql repository.session (.selectSessionByHash data.refreshTokenHash false), .ok []⟩ ::
        ⟨.sql repository.session (.updateTokenHash data), .ok (1 : ℕ)⟩ :: h := by
      rw [hnil rfl, h₂eq, h₁eq]
      rfl
    exact Tells.bind (P := fun _ _ => False) (Tells.throw (.missing hmissing)) nofun
  | [row] =>
    have h₃eq := hone row rfl
    rw [h₂eq] at h₃eq
    refine Tells.bind (Tells.pure (P := fun a h' => a = row ∧ h' = h₃) ⟨rfl, rfl⟩) ?_
    rintro row _ - ⟨rfl, rfl⟩
    refine Tells.bind (userOf_tells repository h₃eq) ?_
    rintro user _ - ⟨rfl, u, hu, rfl, hid⟩
    refine Tells.pure ⟨u, row, users, [_], h₁, rfl, ?_, by rw [h₃eq, h₁eq]; rfl, ?_, ?_, hu, hid⟩
    · rw [h₁eq]
      exact List.suffix_cons _ _
    · rw [h₁eq]
      exact heard_cons_self
    · rw [h₃eq]
      exact heard_cons_self
  | row :: row' :: rows =>
    have hheard : Heard h₃ (.sql repository.session
        (.selectSessionByHash data.refreshTokenHash false)) (row :: row' :: rows) :=
      Heard.mono hle _ _ (by rw [h₂eq]; exact heard_cons_self)
    exact Tells.bind (P :=
      fun _ _ => False) (Tells.throw (.ambiguous (.hash hheard (by simp)))) nofun

theorem revoke_tells (sessionId : UUID) (revokedAt : Instant) (hactor : SawActor S req h) :
    Says S req h (repository.revoke sessionId revokedAt) fun _ _ => True := by
  refine Tells.bind (Says.call (P := fun a h' => h' = ⟨_, .ok a⟩ :: h) (asks_sql hr rfl) rfl
    fun _ => rfl) ?_
  rintro (rows : List RefreshSessionModel) h₁ - h₁eq
  have hactor : SawActor S req h₁ := by
    rw [h₁eq]
    exact hactor.mono (List.suffix_cons _ _)
  refine Tells.bind
    (scalarOneOrNone_tells fun hlen => .session (by rw [h₁eq]; exact heard_cons_self)
    hlen) ?_
  rintro (_ | row) _ - ⟨rfl, -⟩
  · exact Tells.pure trivial
  · exact Says.call ⟨hr, hactor⟩ rfl fun _ => trivial

end

/-! ## Services -/

section
variable (hr : req.reads = false) (hs : InScope h)
include hr hs

theorem authenticateUser_tells {data : IssueTokenDTO} {request : Delivery.Request}
    (hreq : req = .issueToken request data.username data.password) :
    Says S req h (authenticateUser S.ext data.username data.password) fun r h' =>
      match r with
      | none => ∃ sid, ∃ row : Option UserModel,
          Heard h' (.sql sid (.selectUserByUsername (normalizeUsername S.ext data.username)))
            row.toList ∧
          ∀ u, row = some u → u.isActive = true →
            S.ext.verifyPassword data.password u.passwordHash = .ok false
      | some user => ∃ u, user = userFromModel u ∧ Verified S.toDeployment (Heard h') data u := by
  refine Tells.bind (userRepository_tells hs) ?_
  rintro repository h₁ - -
  refine Tells.bind (getByUsername_tells repository hr _) ?_
  rintro _ h₂ - ⟨row, rfl, hrow⟩
  cases row with
  | none => exact Tells.pure ⟨_, none, hrow, nofun⟩
  | some u =>
    cases ha : (userFromModel u).isActive with
    | false =>
      simp only [Option.map_some, ha]
      refine Tells.pure ⟨_, some u, hrow, fun u' hu hactive => ?_⟩
      cases hu
      exact absurd (ha.symm.trans hactive) nofun
    | true =>
      simp only [Option.map_some, ha]
      refine Tells.bind (Tells.ofExcept (P := fun b h' => h' = h₂ ∧
        S.ext.verifyPassword data.password u.passwordHash = .ok b) (fun b hb => ⟨rfl, hb⟩)
        fun e he => .verification hreq hrow he) ?_
      rintro b _ - ⟨rfl, hb⟩
      cases b with
      | false =>
        refine Tells.pure ⟨_, some u, hrow, fun u' hu _ => ?_⟩
        cases hu
        exact hb
      | true => exact Tells.pure ⟨u, rfl, ⟨_, hrow⟩, ha, hb⟩

theorem createRefreshSession_tells (user : User) (userAgent : String)
    (ipAddressTrace : Option String) :
    Says S req h
      (createRefreshSession S.ext S.settings.refreshSession user userAgent ipAddressTrace)
      fun _ _ => True := by
  refine Tells.bind (Says.call (P := fun _ _ => True) hr rfl fun _ => trivial) ?_
  rintro refreshToken h₁ h₀₁ -
  refine Tells.bind (Says.call (P := fun _ _ => True) trivial rfl fun _ => trivial) ?_
  rintro createdAt h₂ h₁₂ -
  refine Tells.bind (refreshSessionRepository_tells (hs.mono (h₀₁.trans h₁₂))) ?_
  rintro repository h₃ - -
  refine Tells.bind (Says.call (P := fun id h' => Heard h' .uuid7 id) hr rfl
    fun _ => heard_cons_self) ?_
  rintro id h₄ - hid
  refine Tells.bind (P := fun _ _ => True) ?_ fun _ _ _ _ => Tells.pure trivial
  have hasks : ∀ row : RefreshSessionModel, row.id = id →
      Queries S req h₄ (.insertRefreshSession row) := fun row hrow =>
    ⟨fun hreads => absurd hreads (by simp [hr]), nofun, fun row' heq => by
      cases heq
      rw [hrow]
      exact hid⟩
  exact Tells.bind (Says.call (P := fun _ _ => True) (hasks _ rfl) rfl fun _ => trivial)
    fun _ _ _ _ => Tells.pure trivial

section
variable {token : String} (hp : req.presented = some token)
include hp

omit hs in
/-- The session of the presented token is the one of its row. -/
theorem getActiveRefreshSession_tells (repository : SQLAlchemyRefreshSessionRepository) :
    Says S req h (getActiveRefreshSession repository (hashRefreshToken S.ext token))
      fun session h' =>
      ∃ row now, session.id = row.id ∧ session.user.id = row.userId ∧ Found S h' token row ∧
        Heard h' .now now ∧ row.ActiveAt now := by
  refine Tells.bind (getByTokenHash_tells repository hr _) ?_
  rintro (_ | session) h₁ - hrow
  · exact Tells.throw (.unknownToken hp hrow)
  · obtain ⟨row, user, huser, rfl, hrow⟩ := hrow
    refine Tells.bind (Says.call (P := fun now h' => Heard h' .now now) trivial rfl
      fun _ => heard_cons_self) ?_
    rintro (now : Instant) h₂ hle hnow
    have hrow₂ : Found S h₂ token row := ⟨_, Heard.mono hle _ _ hrow⟩
    by_cases ha : row.ActiveAt now
    · have hactive : (refreshSessionFromModel row user).isActiveAt now = true := by
        simpa [RefreshSession.isActiveAt, refreshSessionFromModel,
          RefreshSessionModel.ActiveAt] using ha
      simp only [hactive, Bool.not_true, Bool.false_eq_true, if_false]
      exact Tells.pure ⟨row, now, rfl, huser, hrow₂, hnow, ha⟩
    · have hactive : (refreshSessionFromModel row user).isActiveAt now = false := by
        rw [← Bool.not_eq_true]
        exact fun h => ha (by
          simpa [RefreshSession.isActiveAt, refreshSessionFromModel,
            RefreshSessionModel.ActiveAt] using h)
      simp only [hactive, Bool.not_false, if_true]
      exact Tells.bind (P := fun _ _ => False) (Tells.throw (.expired hp hrow₂ hnow ha)) nofun

omit hp in
/-- The session after a rotation comes with its user, as it was selected then. -/
theorem rotateRefreshToken_tells (hreq : req = .refreshToken token) :
    Says S req h (rotateRefreshToken S.ext S.settings.refreshSession token) fun r h' =>
      ∃ u, r.session.user = userFromModel u ∧ Reloaded S h' token u := by
  have hp : req.presented = some token := by rw [hreq]; rfl
  refine Tells.bind (refreshSessionRepository_tells hs) ?_
  rintro repository h₁ h₀₁ -
  refine Tells.bind (getActiveRefreshSession_tells hr hp repository) ?_
  rintro session h₂ h₁₂ ⟨row, now, hid, -, hfound, hnow, ha⟩
  refine Tells.bind (Says.call (P := fun _ _ => True) hr rfl fun _ => trivial) ?_
  rintro newRefreshToken h₃ h₂₃ -
  refine Tells.bind (Says.call (P := fun _ _ => True) trivial rfl fun _ => trivial) ?_
  rintro usedAt h₄ h₃₄ -
  refine Tells.bind (refreshSessionRepository_tells
    (hs.mono (h₀₁.trans (h₁₂.trans (h₂₃.trans h₃₄))))) ?_
  rintro repository h₅ h₄₅ -
  have hle := h₂₃.trans (h₃₄.trans h₄₅)
  refine Tells.bind (replaceTokenHash_tells repository hr _) ?_
  rintro (_ | session) h₆ h₅₆ hloaded
  · obtain ⟨rowcount, hcount, hupdate⟩ := hloaded
    have hle' := hle.trans h₅₆
    exact Tells.throw (.raced hreq (hfound.mono hle') (Heard.mono hle' _ _ hnow) ha hid rfl hupdate
      hcount)
  · obtain ⟨u, row', users, newer, older, huser, hold, heq, hupdate, husers, hu, hrow'⟩ := hloaded
    exact Tells.pure ⟨u, huser, heq, hfound.mono (hle.trans hold),
      Heard.mono (hle.trans hold) _ _ hnow,
      ha, hid.symm, hupdate, husers, hu, hrow'⟩

theorem revokeRefreshToken_tells {userId : ℤ} {sid' : SessionId} {u : UserModel}
    (hu : Subject S req h userId) (hrow : Heard h (.sql sid' (.selectActiveUser userId)) [u]) :
    Says S req h (revokeRefreshToken S.ext token (userFromModel u)) fun _ h' =>
      ∃ row now, Found S h' token row ∧ Heard h' .now now ∧ row.ActiveAt now ∧ row.userId =
        u.id := by
  refine Tells.bind (refreshSessionRepository_tells hs) ?_
  rintro repository h₁ h₀₁ -
  refine Tells.bind (getActiveRefreshSession_tells hr hp repository) ?_
  rintro session h₂ h₁₂ ⟨row, now, -, huser, hfound, hnow, ha⟩
  by_cases ho : session.user.id ≠ (userFromModel u).id
  · simp only [if_pos ho]
    rw [huser] at ho
    have hle := h₀₁.trans h₁₂
    exact Tells.bind (P := fun _ _ => False)
      (Tells.throw (.foreign hp (hu.mono hle) (Heard.mono hle _ _ hrow) hfound ho)) nofun
  · simp only [if_neg ho]
    refine Tells.bind (refreshSessionRepository_tells (hs.mono (h₀₁.trans h₁₂))) ?_
    rintro repository h₃ h₂₃ -
    refine Tells.bind (Says.call (P := fun _ _ => True) trivial rfl fun _ => trivial) ?_
    rintro revokedAt h₄ h₃₄ -
    have hle := h₀₁.trans (h₁₂.trans (h₂₃.trans h₃₄))
    refine (revoke_tells repository hr session.id revokedAt
      ⟨_, _, u, hu.mono hle, Heard.mono hle _ _ hrow⟩).mono (fun _ h₅ h₄₅ _ => ?_) fun _ _ _ he =>
      he
    have hle := h₂₃.trans (h₃₄.trans h₄₅)
    exact ⟨row, now, hfound.mono hle, Heard.mono hle _ _ hnow, ha,
      huser.symm.trans (not_not.1 ho)⟩

end

omit hs in
/-- An access token is signed for the user, with the instant just read. -/
theorem buildTokenResult_tells (user : User) (refreshToken : String) :
    Says S req h (buildTokenResult S.settings.jwt user refreshToken) fun r h' =>
      ∃ iat, Heard h' .now iat ∧ Heard h' (.jwtEncode (accessPayload S.toDeployment user.id iat)
        S.settings.jwt.secretKey S.settings.jwt.algorithm) r.accessToken := by
  refine Tells.bind (P := fun t h' => ∃ iat, Heard h' .now iat ∧
    Heard h' (.jwtEncode (accessPayload S.toDeployment user.id iat) S.settings.jwt.secretKey
      S.settings.jwt.algorithm) t) ?_ fun t h' _ ht => Tells.pure ht
  refine Tells.bind (Says.call (P := fun iat h' => Heard h' .now iat) trivial rfl
    fun _ => heard_cons_self) ?_
  rintro (iat : Instant) h₁ - hiat
  refine Says.call ⟨hr, ⟨user.id, iat, rfl, hiat⟩, rfl, rfl⟩ rfl fun t => ⟨iat, ?_, heard_cons_self⟩
  exact List.mem_cons_of_mem _ hiat

end

/-! ## Units of work -/

theorem aenter_tells (hs : ¬InScope h) :
    Says S req h aenter fun _ h' => InScope h' ∧ Unasked h h' := by
  refine Tells.bind (Says.call (P := fun a h' => h' = ⟨.scopeGet, .ok a⟩ :: h) trivial rfl
    fun _ => rfl) ?_
  rintro (_ | scope) h₁ - h₁eq
  · have hu₁ : Unasked h h₁ := h₁eq ▸ .cons nofun
    refine Tells.bind (Says.call (P := fun _ h' => InScope h' ∧ Unasked h h') trivial rfl
      fun sid => ⟨⟨sid, heard_cons_self⟩, hu₁.trans (.cons nofun)⟩) ?_
    rintro sid h₂ - ⟨hs₂, hu₂⟩
    refine Tells.bind (Says.call (P := fun _ h' => InScope h' ∧ Unasked h h') trivial rfl
      fun _ => ⟨hs₂.mono (List.suffix_cons _ _), hu₂.trans (.cons nofun)⟩) ?_
    rintro - h₃ - ⟨hs₃, hu₃⟩
    exact Says.call trivial rfl fun _ =>
      ⟨hs₃.mono (List.suffix_cons _ _), hu₃.trans (.cons nofun)⟩
  · have h₁eq : h₁ = [] ++ ⟨.scopeGet, .ok (some scope)⟩ :: h := h₁eq
    exact Tells.throw (.nested h₁eq hs)

theorem closeScope_tells (scope : FastapiTemplate.Scope) :
    Says S req h (closeScope scope) fun _ _ => True :=
  Tells.bind (Says.call (P := fun _ _ => True) trivial rfl fun _ => trivial) fun _ _ _ _ =>
    Says.call trivial rfl fun _ => trivial

theorem aexit_tells (hs : InScope h) (exc : Option Exc) :
    Says S req h (aexit exc) fun _ _ => True := by
  refine Tells.bind (Says.call (P := fun a h' => h' = ⟨.scopeGet, .ok a⟩ :: h) trivial rfl
    fun _ => rfl) ?_
  rintro (_ | scope) h₁ - h₁eq
  · exact Tells.throw (inactive_cause h₁eq hs)
  · have hfinish : Says S req h₁ (finishTransaction scope exc.isSome) fun _ _ => True := by
      cases exc with
      | some e => exact Says.call (c := .rollback _) trivial rfl fun _ => trivial
      | none =>
        refine Tells.bind (Says.call (P := fun _ _ => True) (c := .flush _) trivial rfl
          fun _ => trivial) fun _ _ _ _ => ?_
        exact Says.call (c := .commit _) trivial rfl fun _ => trivial
    refine Tells.bind (hfinish.handle fun e h₂ _ he => ?_) fun _ _ _ _ => closeScope_tells scope
    exact (closeScope_tells scope).bind fun _ _ hle _ => Tells.throw (Cause.mono hle he)

/-- `async with uow: body`, where no session was made before. -/
theorem asyncWith_tells {α : Type} {body : App α} {P : α → AppPast → Prop} (hs : ¬InScope h)
    (hP : ∀ a h h', h <:+ h' → P a h → P a h')
    (hbody : ∀ h', h <:+ h' → InScope h' → Unasked h h' → Says S req h' body P) :
    Says S req h (asyncWith body) P := by
  refine Tells.bind (aenter_tells hs) ?_
  rintro - h₁ h₀₁ ⟨hs₁, hu₁⟩
  refine (hbody h₁ h₀₁ hs₁ hu₁).attempt (fun a h₂ h₁₂ ha => ?_) fun e h₂ h₁₂ he => ?_
  · exact (aexit_tells (hs₁.mono h₁₂) none).bind fun _ h₃ hle _ => Tells.pure (hP a _ _ hle ha)
  · exact (aexit_tells (hs₁.mono h₁₂) (some e)).bind fun _ h₃ hle _ =>
      Tells.throw (Cause.mono hle he)

/-! ## Use cases -/

section
variable (hs : ¬InScope h)
include hs

/-- Whoever signs in was found by the username, and the password verified. -/
theorem issueToken_tells (hr : req.reads = false) (data : IssueTokenDTO)
    {request : Delivery.Request}
    (hreq : req = .issueToken request data.username data.password)
    (context : TokenRequestContextDTO) :
    Says S req h (IssueTokenUseCase.execute S.ext S.settings data context) fun token h' =>
      ∃ u iat, Verified S.toDeployment (Heard h') data u ∧ Heard h' .now iat ∧
        Heard h' (.jwtEncode (accessPayload S.toDeployment u.id iat) S.settings.jwt.secretKey
          S.settings.jwt.algorithm) token.accessToken := by
  refine asyncWith_tells hs ?_ fun h₁ _ hs₁ _ => ?_
  · rintro token h₁ h₂ hle ⟨u, iat, hv, hiat, ht⟩
    exact ⟨u, iat, Verified.mono (Heard.mono hle) hv, Heard.mono hle _ _ hiat,
      Heard.mono hle _ _ ht⟩
  refine Tells.bind (authenticateUser_tells hr hs₁ hreq) ?_
  rintro (_ | user) h₂ h₁₂ huser
  · obtain ⟨sid, row, hrow, hverify⟩ := huser
    exact Tells.throw (.invalidCredentials hreq hrow hverify)
  · obtain ⟨u, rfl, hv⟩ := huser
    refine Tells.bind (createRefreshSession_tells hr (hs₁.mono h₁₂) _ _ _) ?_
    rintro r h₃ h₂₃ -
    refine (buildTokenResult_tells hr _ _).mono (fun token h₄ h₃₄ ht => ?_) fun _ _ _ he => he
    obtain ⟨iat, hiat, ht⟩ := ht
    exact ⟨u, iat, Verified.mono (Heard.mono (h₂₃.trans h₃₄)) hv, hiat, ht⟩

/-- Whoever a rotation returns tokens for was loaded with the session, as an active user. -/
theorem refreshToken_tells (hr : req.reads = false) (data : RefreshTokenDTO)
    (hreq : req = .refreshToken data.refreshToken) :
    Says S req h (RefreshTokenUseCase.execute S.ext S.settings data) fun token h' =>
      ∃ u iat, Reloaded S h' data.refreshToken u ∧ u.isActive = true ∧ Heard h' .now iat ∧
        Heard h' (.jwtEncode (accessPayload S.toDeployment u.id iat) S.settings.jwt.secretKey
          S.settings.jwt.algorithm) token.accessToken := by
  refine asyncWith_tells hs ?_ fun h₁ _ hs₁ _ => ?_
  · rintro token h₁ h₂ hle ⟨u, iat, hu, ha, hiat, ht⟩
    exact ⟨u, iat, hu.mono hle, ha, Heard.mono hle _ _ hiat, Heard.mono hle _ _ ht⟩
  refine Tells.bind (rotateRefreshToken_tells hr hs₁ hreq) ?_
  rintro r h₂ - ⟨u, huser, hu⟩
  cases ha : r.session.user.isActive with
  | false =>
    simp only [Bool.not_false, if_true]
    rw [huser] at ha
    exact Tells.throw (.inactiveUser hreq hu ha)
  | true =>
    simp only [Bool.not_true, Bool.false_eq_true, if_false]
    refine (buildTokenResult_tells hr _ _).mono (fun token h₃ h₂₃ ht => ?_) fun _ _ _ he => he
    obtain ⟨iat, hiat, ht⟩ := ht
    rw [huser] at ha ht
    exact ⟨u, iat, hu.mono h₂₃, ha, hiat, ht⟩

/-- Whoever revokes a token is the active user of its session, which was active too. -/
theorem revokeToken_tells (hr : req.reads = false) (data : RefreshTokenDTO)
    (hp : req.presented = some data.refreshToken) {userId : ℤ} (hu : Subject S req h userId) :
    Says S req h (RevokeTokenUseCase.execute S.ext data userId) fun _ h' =>
      ∃ sid, ∃ u : UserModel, Heard h' (.sql sid (.selectActiveUser userId)) [u] ∧
        ∃ row now, Found S h' data.refreshToken row ∧ Heard h' .now now ∧ row.ActiveAt now ∧
          row.userId = u.id := by
  refine asyncWith_tells hs ?_ fun h₁ h₀₁ hs₁ _ => ?_
  · rintro token h₁ h₂ hle ⟨sid, u, hu, row, now, hfound, hnow, ha, huser⟩
    exact ⟨sid, u, Heard.mono hle _ _ hu, row, now, hfound.mono hle, Heard.mono hle _ _ hnow, ha,
      huser⟩
  refine Tells.bind (userRepository_tells hs₁) ?_
  rintro repository h₂ h₁₂ -
  refine Tells.bind (getActiveById_tells repository (asks_sql hr rfl)) ?_
  rintro _ h₃ h₂₃ ⟨row, rfl, hrow⟩
  have hu₃ := hu.mono (h₀₁.trans (h₁₂.trans h₂₃))
  cases row with
  | none =>
    exact Tells.throw (.unknownUser (fun credentials heq => by rw [heq] at hp; cases hp) hu₃ hrow)
  | some u =>
    refine (revokeRefreshToken_tells hr (hs₁.mono (h₁₂.trans h₂₃)) hp hu₃ hrow).mono
      (fun _ h₄ hle hfound => ?_) fun _ _ _ he => he
    exact ⟨_, u, Heard.mono hle _ _ hrow, hfound⟩

theorem getActiveUserById_tells {userId : ℤ} (hu : Subject S req h userId) :
    Says S req h (GetActiveUserByIdUseCase.execute userId) fun r h' => ∃ sid,
      ∃ row : Option UserModel, r = row.map userFromModel ∧
        Heard h' (.sql sid (.selectActiveUser userId)) row.toList := by
  refine asyncWith_tells hs ?_ fun h₁ h₀₁ hs₁ _ => ?_
  · rintro r h₁ h₂ hle ⟨sid, row, hr, hrow⟩
    exact ⟨sid, row, hr, Heard.mono hle _ _ hrow⟩
  refine Tells.bind (userRepository_tells hs₁) ?_
  rintro repository h₂ h₁₂ -
  refine (getActiveById_tells repository ⟨fun _ => .actor (hu.mono (h₀₁.trans h₁₂)), nofun,
    nofun⟩).mono
    (fun r h₃ _ hr => ⟨_, hr⟩) fun _ _ _ he => he

/-- The lookup reads its target only for an active actor of the staff. -/
theorem staffUserLookup_tells {credentials : Option String} {target actorUserId : ℤ}
    (hu : Subject S (.staffUserLookup credentials target) h actorUserId) :
    Says S (.staffUserLookup credentials target) h
      (StaffUserLookupUseCase.execute target actorUserId) fun r h' => SawStaff h' actorUserId ∧
        ∃ sid, ∃ row : Option UserModel, r = row.map userFromModel ∧
          Heard h' (.sql sid (.selectUsers [target])) row.toList := by
  refine asyncWith_tells hs ?_ fun h₁ h₀₁ hs₁ _ => ?_
  · rintro r h₁ h₂ hle ⟨⟨sid', actor, ha, hstaff⟩, sid, row, hr, hrow⟩
    exact ⟨⟨sid', actor, Heard.mono hle _ _ ha, hstaff⟩, sid, row, hr, Heard.mono hle _ _ hrow⟩
  refine Tells.bind (userRepository_tells hs₁) ?_
  rintro repository h₂ h₁₂ -
  have hu₂ := hu.mono (h₀₁.trans h₁₂)
  refine Tells.bind (getActiveById_tells repository ⟨fun _ => .actor hu₂, nofun, nofun⟩) ?_
  rintro _ h₃ h₂₃ ⟨row, rfl, hrow⟩
  have hu₃ := hu₂.mono h₂₃
  cases row with
  | none => exact Tells.throw (.unknownUser (fun _ => nofun) hu₃ hrow)
  | some actor =>
    refine Tells.bind (Tells.ofExcept (P := fun _ h' => h' = h₃ ∧ actor.isStaff = true)
      (fun _ hok => ⟨rfl, ?_⟩) fun e he => ?_) ?_
    · cases hstaff : actor.isStaff with
      | true => rfl
      | false => simp [checkAccess, userFromModel, hstaff] at hok
    · cases hstaff : actor.isStaff with
      | true => simp [checkAccess, userFromModel, hstaff] at he
      | false =>
        obtain rfl : PERMISSION_DENIED_ERROR = e := by
          simpa [checkAccess, userFromModel, hstaff] using he
        exact .denied rfl hu₃ hrow hstaff
    · rintro - _ - ⟨rfl, hstaff⟩
      refine Tells.bind (userRepository_tells (hs₁.mono (h₁₂.trans h₂₃))) ?_
      rintro repository' h₄ h₃₄ -
      have hactor : SawStaff h₄ actorUserId := ⟨_, actor, Heard.mono h₃₄ _ _ hrow, hstaff⟩
      refine (getById_tells repository' ⟨fun _ => .target (hu₃.mono h₃₄) hactor, nofun, nofun⟩).mono
        (fun r h₅ hle hr => ?_) fun _ _ _ he => he
      obtain ⟨sid', actor', ha', hstaff'⟩ := hactor
      exact ⟨⟨sid', actor', Heard.mono hle _ _ ha', hstaff'⟩, _, hr⟩

omit hs in
/-- `create`: a violated constraint is recognized as a duplicate, or it is raised. -/
theorem create_tells (hr : req.reads = false) (repository : SQLAlchemyUserRepository)
    {n : RegisterUserDTO S.ext} {data : PersistUserDTO S.ext} (hn : Registers S req n)
    (hdata : persistUserData n = .ok data) (passwordHash : String) :
    Tells (Asks S req) (fun e h' => Cause S req h' e ∨
        e = .userRepositoryConflict ∧ Cause S req h' .userAlreadyExists) h
      (repository.create data passwordHash) fun _ _ => True := by
  refine Tells.bind (Tells.handle (P := fun _ _ => True) (F := fun e h' =>
    ⟨.sql repository.session (.insertUser
      (SQLAlchemyUserRepository.newUser data passwordHash)), .error e⟩ ∈ h')
    (Tells.perform (asks_sql hr rfl) (fun _ => trivial) fun e => List.mem_cons_self ..) ?_)
    fun _ _ _ _ => Tells.pure trivial
  rintro e h₁ - he
  cases e with
  | integrityError orig =>
    dsimp only
    split
    · exact Tells.throw (Or.inr ⟨rfl, .taken hn hdata he ‹_›⟩)
    · rename_i hdup
      exact Tells.throw (Or.inl (.unrecognized he (by simpa using hdup)))
  | _ => exact Tells.throw (Or.inl (.answered he nofun))

theorem registerUser_tells {requestBody : CreateUserRequestSchema S.ext}
    (hreq : req = .createUser requestBody) (hnew : ∀ sid q a, ¬Heard h (.sql sid q) a)
    {data : RegisterUserDTO S.ext}
    (hdata : ValidRegistration.validate S.ext requestBody.toRegistrationFields = .ok data) :
    Says S req h (RegisterUserUseCase.execute S.settings data) fun _ _ => True := by
  have hr : req.reads = false := by rw [hreq]; rfl
  refine Tells.bind (Tells.ofExcept (P := fun n h' => h' = h ∧ Registers S req n)
    (fun n hok => ⟨rfl, requestBody, data, hreq, hdata, hok⟩) fun e he =>
      .invalid hreq (.normalized hdata he)) ?_
  rintro n h - ⟨rfl, hn⟩
  refine Tells.bind (Tells.ofExcept (P := fun _ h' => h' = h) (fun _ _ => rfl) fun e he => ?_) ?_
  · unfold validatePassword at he
    split at he <;> cases he
    exact .weakPassword hn ‹_›
  rintro - h - rfl
  refine Tells.bind (Says.call (P := fun a h' => h' = ⟨_, .ok a⟩ :: h) hr rfl fun _ => rfl) ?_
  rintro passwordHash _ - rfl
  have hs' : ¬InScope (⟨.hashPassword n.password, .ok passwordHash⟩ :: h) := fun hin =>
    hs (hin.of_cons nofun)
  refine asyncWith_tells hs' (fun _ _ _ _ _ => trivial) fun h₁ _ hs₁ hu₁ => ?_
  refine Tells.bind (userRepository_tells hs₁) ?_
  rintro repository h₂ h₁₂ hu₂
  have hunasked : Unasked h h₂ :=
    (Unasked.cons (c := .hashPassword n.password) nofun).trans (hu₁.trans hu₂)
  refine Tells.bind (P :=
    fun existing h' => existing.isSome = true → Cause S req h' .userAlreadyExists)
    ?_ ?_
  · refine Tells.bind (Says.call (P := fun rows h' => Heard h'
      (.sql repository.session (.selectUserByUsernameOrEmail n.username n.email)) rows)
      ⟨fun hreads => absurd hreads (by simp [hr]), fun _ _ _ sid values id hin =>
        hnew _ _ _ (hunasked _ _ _ hin), nofun⟩ rfl fun _ => heard_cons_self) ?_
    rintro (rows : List UserModel) h₃ - hrows
    refine Tells.pure fun hsome => .duplicate hn hrows ?_
    rintro rfl
    cases hsome
  rintro existing h₃ h₂₃ hexisting
  cases existing with
  | some user => exact Tells.throw (hexisting rfl)
  | none =>
    refine Tells.handle (F := fun e h' => Cause S req h' e ∨
      e = .userRepositoryConflict ∧ Cause S req h' .userAlreadyExists) ?_ fun e h₄ _ he => ?_
    · refine Tells.bind
        ((userRepository_tells (hs₁.mono (h₁₂.trans h₂₃))).mono (fun _ _ _ _ => trivial)
        fun _ _ _ => Or.inl) ?_
      rintro repository' h₄ - -
      refine Tells.bind (Tells.ofExcept (P := fun p _ => persistUserData n = .ok p)
        (fun _ hok => hok) fun e he => Or.inl (.invalid hreq (.persisted (hreq ▸ hn) he)))
        fun p _ _ hp => create_tells hr repository' hn hp passwordHash
    · split
      · rcases he with he | ⟨-, he⟩
        · exact Tells.throw (he.translated hn)
        · exact Tells.throw he
      · rename_i hne
        rcases he with he | ⟨he, -⟩
        · exact Tells.throw he
        · exact absurd he hne

end

/-! ## Endpoints -/

/-- The exceptions that the controller of a request translates. -/
def ApiRequest.handleException {ext : Externals} : ApiRequest ext → Exc → Option HTTPException
  | .issueToken .. => IssueTokenController.handleException
  | .refreshToken _ => RefreshTokenController.handleException
  | .revokeToken .. => RevokeTokenController.handleException
  | .createUser _ => fun
    | .weakPassword => some ⟨400, "Password does not meet the strength requirements".toList, []⟩
    | .userAlreadyExists =>
      some ⟨409, "A user with the given username or email already exists".toList, []⟩
    | .httpException statusCode detail => some ⟨statusCode, detail.toList, []⟩
    | _ => none
  | .currentUser _ => fun _ => none
  | .staffUserLookup .. => StaffUserLookupController.handleException

/-- What a response looks back on. -/
inductive Responds (S : Service) (h : AppPast) : ApiRequest S.ext → Body → Prop
  | issueToken {request username password u iat token} :
      Verified S.toDeployment (Heard h) ⟨username, password⟩ u → Heard h .now iat →
      Heard h (.jwtEncode (accessPayload S.toDeployment u.id iat) S.settings.jwt.secretKey
        S.settings.jwt.algorithm) token.accessToken →
      Responds S h (.issueToken request username password) (.token token)
  | refreshToken {refreshToken u iat token} : Reloaded S h refreshToken u → u.isActive = true →
      Heard h .now iat →
      Heard h (.jwtEncode (accessPayload S.toDeployment u.id iat) S.settings.jwt.secretKey
        S.settings.jwt.algorithm) token.accessToken →
      Responds S h (.refreshToken refreshToken) (.token token)
  | revokeToken {request credentials limited refreshToken userId sid row now} {u : UserModel} :
      Subject S (.revokeToken request credentials limited refreshToken) h userId →
      Heard h (.sql sid (.selectActiveUser userId)) [u] → Found S h refreshToken row →
      Heard h .now now → row.ActiveAt now → row.userId = u.id →
      Responds S h (.revokeToken request credentials limited refreshToken) .none
  | createUser {requestBody user} : Responds S h (.createUser requestBody) (.user user)
  | currentUser {credentials userId sid} {u : UserModel} :
      Subject S (.currentUser credentials) h userId →
      Heard h (.sql sid (.selectActiveUser userId)) [u] →
      Responds S h (.currentUser credentials) (.user (UserSchema.ofUser (userFromModel u)))
  | staffUserLookup {credentials target actorUserId sid} {u : UserModel} :
      Subject S (.staffUserLookup credentials target) h actorUserId → SawStaff h actorUserId →
      Heard h (.sql sid (.selectUsers [target])) [u] →
      Responds S h (.staffUserLookup credentials target)
        (.user (UserSchema.ofUser (userFromModel u)))

/-- What an `HTTPException` looks back on. -/
inductive Rejects (S : Service) (h : AppPast) : ApiRequest S.ext → HTTPException → Prop
  | missing {req' : ApiRequest S.ext} : req'.credentials = some none →
      Rejects S h req' (bearerAuthenticationError "Not authenticated")
  | unauthenticated {req' : ApiRequest S.ext} {token now httpException} :
      req'.credentials = some (some token) → Heard h .now now →
      jwtAuthAt S now (some token) = .ok (.error httpException) → Rejects S h req' httpException
  | throttled {request credentials limited refreshToken userId httpException} :
      Subject S (.revokeToken request credentials limited refreshToken) h userId →
      callThrottler limited 1 (userThrottlerKey S.table request userId) = some httpException →
      Rejects S h (.revokeToken request credentials limited refreshToken) httpException
  | translated {req' : ApiRequest S.ext} {e httpException} : Cause S req' h e →
      req'.handleException e = some httpException → Rejects S h req' httpException
  | currentUser {credentials userId sid} : Subject S (.currentUser credentials) h userId →
      Heard h (.sql sid (.selectActiveUser userId)) [] →
      Rejects S h (.currentUser credentials) (bearerAuthenticationError "User not found")
  | staffUserLookup {credentials target actorUserId sid} :
      Subject S (.staffUserLookup credentials target) h actorUserId → SawStaff h actorUserId →
      Heard h (.sql sid (.selectUsers [target])) [] →
      Rejects S h (.staffUserLookup credentials target) ⟨404, "User not found".toList, []⟩

/-- What the end of a request looks back on. -/
def Concludes (S : Service) (req : ApiRequest S.ext) (h : AppPast) : Except Exc Reply → Prop
  | .ok (.ok body) => Responds S h req body
  | .ok (.error httpException) => Rejects S h req httpException
  | .error e => (∃ token now, req.credentials = some (some token) ∧ Heard h .now now ∧
      jwtAuthAt S now (some token) = .error e) ∨
      Cause S req h e ∧ (req.handleException e = none ∨ ⟨.now, .error e⟩ ∈ h)

section
variable {P : Reply → AppPast → Prop}

/-- A wrapped endpoint concludes as its request does, if it responds or rejects rightly. -/
theorem wrapRoute_tells {method : App Reply} {handleException : Exc → Option HTTPException}
    (hh : ∀ e, handleException e = req.handleException e)
    (hm : Says S req h method fun reply h' => Concludes S req h' (.ok reply)) :
    wp (pastSpec (Asks S req)) (wrapRoute handleException method) (fun r h' => Concludes S req h' r)
      h := by
  refine wp_handle.2 (wp_mono (fun r h' hr => ?_) hm)
  cases r with
  | ok reply => exact hr.2
  | error e =>
    have hc : Cause S req h' e := hr.2
    dsimp only
    rw [hh]
    split
    · exact .translated hc ‹_›
    · exact Or.inr ⟨hc, Or.inl ‹_›⟩

/-- The two translations of `create_user`, of its own exceptions and of `HTTPException`s. -/
theorem createUser_concludes (requestBody : CreateUserRequestSchema S.ext) :
    wp (pastSpec (Asks S (.createUser requestBody)))
      (wrapRoute CreateUserController.httpException (CreateUserController.createUser S requestBody))
      (fun r h' => Concludes S (.createUser requestBody) h' r) [] := by
  have hcore : Says S (.createUser requestBody) []
      (FastapiTemplate.CreateUserController.createUser S.settings requestBody)
      fun _ _ => True := by
    refine Tells.bind (Tells.ofExcept (P := fun data h' => h' = [] ∧
      ValidRegistration.validate S.ext requestBody.toRegistrationFields = .ok data)
      (fun _ hok => ⟨rfl, hok⟩) fun e he => .invalid rfl (.body he)) ?_
    rintro data _ - ⟨rfl, hdata⟩
    have hs : ¬InScope [] := fun h => h.elim fun _ => nofun
    exact (registerUser_tells hs rfl (fun _ _ _ => List.not_mem_nil) hdata).bind fun _ _ _ _ =>
      Tells.pure trivial
  refine wp_handle.2 (wp_bind.2 (wp_handle.2 (wp_mono (fun r h' hr => ?_) hcore)))
  cases r with
  | ok user => exact .createUser
  | error e =>
    have hc : Cause S (.createUser requestBody) h' e := hr.2
    cases e with
    | weakPassword => exact .translated hc rfl
    | userAlreadyExists => exact .translated hc rfl
    | httpException statusCode detail => exact .translated hc rfl
    | _ => exact Or.inr ⟨hc, Or.inl rfl⟩

theorem jwtAuthAt_ok {now : Instant} {credentials : Option String}
    {state : AuthenticatedRequestState} (h : jwtAuthAt S now credentials = .ok (.ok state)) :
    ∃ userId token, credentials = some token ∧ state.userId = some userId ∧
      S.subject now credentials = some userId := by
  unfold jwtAuthAt at h
  split at h
  · rename_i token state' hcall
    obtain rfl : state' = state := by simpa using h
    have hsub : S.subject now credentials = state'.userId := by rw [Service.subject, hcall]
    rw [hsub]
    unfold JWTAuth.call at hcall
    cases credentials with
    | none => cases hcall
    | some token =>
      dsimp only at hcall
      split at hcall
      · cases hcall
      · split at hcall
        · cases hcall
        · obtain ⟨-, rfl⟩ := Prod.mk.inj hcall
          exact ⟨_, token, rfl, rfl, rfl⟩
  · cases h
  · cases h

/-- Behind the authentication the credentials stood for the user at the instant that was read. -/
theorem authenticated_tells {credentials : Option String} {endpoint : ℤ → App Reply}
    (hreq : req.credentials = some credentials)
    (he : ∀ userId h', ¬InScope h' → Subject S req h' userId →
      wp (pastSpec (Asks S req)) (endpoint userId) (fun r h'' => Concludes S req h'' r) h') :
    wp (pastSpec (Asks S req)) (authenticated S credentials endpoint)
      (fun r h' => Concludes S req h' r) [] := by
  cases credentials with
  | none => exact .missing hreq
  | some token =>
    refine wp_bind.2 (wp_bind.2 ⟨trivial, ?_⟩)
    rintro r h₁ rfl
    cases r with
    | error e =>
      exact Or.inr ⟨.answered (List.mem_cons_self ..) nofun, Or.inr (List.mem_cons_self ..)⟩
    | ok now =>
      have hs : ¬InScope [(⟨.now, .ok now⟩ : Σ c : Call, Except Exc (Ret c))] := fun hin =>
        (hin.of_cons nofun).elim fun _ => nofun
      show wp _ (Prog.ofExcept (jwtAuthAt S now (some token))) _ _
      refine wp_ofExcept.2 ?_
      match hdec : jwtAuthAt S now (some token) with
      | .error e => exact Or.inl ⟨token, now, hreq, heard_cons_self, hdec⟩
      | .ok (.error httpException) =>
        exact .unauthenticated hreq heard_cons_self hdec
      | .ok (.ok state) =>
        obtain ⟨userId, token', -, hstate, hsub⟩ := jwtAuthAt_ok hdec
        simp only [cont, hstate]
        refine he userId _ hs ⟨now, rfl, ?_⟩
        rw [hreq]
        exact hsub

end

/-- **Every request concludes as its past says.** -/
theorem execute_tells (req : ApiRequest S.ext) :
    wp (pastSpec (Asks S req)) (req.execute S) (fun r h => Concludes S req h r) [] := by
  have hnil : ¬InScope [] := fun h => h.elim fun _ => nofun
  cases req with
  | issueToken request username password =>
    refine wrapRoute_tells (fun _ => rfl) (Tells.bind
      (issueToken_tells hnil rfl ⟨username, password⟩ rfl _) ?_)
    rintro token h - ⟨u, iat, hv, hiat, ht⟩
    exact Tells.pure (.issueToken hv hiat ht)
  | refreshToken refreshToken =>
    refine wrapRoute_tells (fun _ => rfl) (Tells.bind (refreshToken_tells hnil rfl ⟨refreshToken⟩
      rfl) ?_)
    rintro token h - ⟨u, iat, hu, ha, hiat, ht⟩
    exact Tells.pure (.refreshToken hu ha hiat ht)
  | revokeToken request credentials limited refreshToken =>
    refine authenticated_tells rfl fun userId h hs hsub => ?_
    split
    · exact .throttled hsub ‹_›
    · refine wrapRoute_tells (fun _ => rfl) (Tells.bind (revokeToken_tells hs rfl _ rfl hsub) ?_)
      rintro - h' hle ⟨sid, u, hu, row, now, hfound, hnow, ha, huser⟩
      exact Tells.pure (.revokeToken (hsub.mono hle) hu hfound hnow ha huser)
  | createUser requestBody => exact createUser_concludes requestBody
  | currentUser credentials =>
    refine authenticated_tells rfl fun userId h hs hsub => ?_
    refine wrapRoute_tells (fun _ => rfl) (Tells.bind (getActiveUserById_tells hs hsub) ?_)
    rintro _ h' hle ⟨sid, row, rfl, hrow⟩
    cases row with
    | none => exact Tells.pure (.currentUser (hsub.mono hle) hrow)
    | some u => exact Tells.pure (.currentUser (hsub.mono hle) hrow)
  | staffUserLookup credentials target =>
    refine authenticated_tells rfl fun actorUserId h hs hsub => ?_
    refine wrapRoute_tells (fun _ => rfl) (Tells.bind (staffUserLookup_tells hs hsub) ?_)
    rintro _ h' hle ⟨hstaff, sid, row, rfl, hrow⟩
    cases row with
    | none => exact Tells.pure (.staffUserLookup (hsub.mono hle) hstaff hrow)
    | some u => exact Tells.pure (.staffUserLookup (hsub.mono hle) hstaff hrow)

end Delivery

end FastapiTemplate
