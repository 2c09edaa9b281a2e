/-
  The protocol an execution follows: the stages of its unit of work, the calls
  it makes at each stage, what each of its writes is based on, and how it ends.

  The protocol says nothing about other executions.  That every use case
  follows it is shown in `Proof.Conforms`, and that what it expects of the
  answers is right in any interleaving in `Proof.Transactions`.
-/
import FastapiTemplate.Core.UseCases
import FastapiTemplate.Proof.Statements

namespace FastapiTemplate

open Effects Locking

/-! ## Stages -/

/-- What an execution did in its transaction: nothing yet, a change that is not flushed, or its
    one write. -/
inductive Work where
  | idle
  | pending (id : UUID) (revokedAt : Instant)
  | wrote (write : Write)

namespace Work

def writes : Work → List Write
  | wrote w => [w]
  | _ => []

def changes : Work → List (UUID × Instant)
  | pending id t => [(id, t)]
  | _ => []

/-- After a statement with its answer. -/
def after (work : Work) (q : Stmt) (a : q.Ret) : Work :=
  match q.outcome a with
  | some w => wrote w
  | none => work

/-- After a flush. -/
def flushed : Work → Work
  | pending id t => wrote (.setRevokedAt id t)
  | work => work

end Work

/-- Where an execution stands. -/
inductive Stage where
  | outside
  | opened (session : SessionId)
  | inside (session : SessionId) (work : Work)
  /-- a statement failed: nothing but the end of the transaction may follow -/
  | broken (session : SessionId)
  | committed (session : SessionId) (work : Work)
  | aborted (session : SessionId)

namespace Stage

def scope : Stage → Option Scope
  | inside sid _ | broken sid => some (Scope.of sid)
  | _ => none

def work : Stage → Work
  | inside _ work | committed _ work => work
  | _ => .idle

def after : Stage → (c : Call) → Except Exc (Ret c) → Stage
  | outside, .sessionFactory, .ok sid => opened sid
  | opened sid, .scopeSet _, .ok _ => inside sid .idle
  | inside sid work, .sql _ q, .ok a => inside sid (work.after q a)
  | inside sid _, .sql _ _, .error _ => broken sid
  | inside sid _, .setRevokedAt _ id t, .ok _ => inside sid (.pending id t)
  | inside sid work, .flush _, .ok _ => inside sid work.flushed
  | inside sid _, .flush _, .error _ => broken sid
  | inside sid work, .commit _, .ok _ => committed sid work
  | inside sid _, .commit _, .error _ => aborted sid
  | inside sid _, .rollback _, _ => aborted sid
  | broken sid, .rollback _, _ => aborted sid
  | broken sid, .close _, _ => aborted sid
  | st, _, _ => st

/-- The context variable is looked at before, in and at the end of a block. -/
def Looks : Stage → Prop
  | outside | inside _ _ | broken _ => True
  | _ => False

end Stage

/-- The answers an execution got, as a relation. -/
abbrev History := (c : Call) → Ret c → Prop

/-- What an execution knows: its stage, the answers it got, and whether a call failed for outside
    reasons. -/
structure Loc where
  stage : Stage
  seen : List (Σ c : Call, Ret c)
  failed : Bool

def Loc.saw (l : Loc) : History := fun c a => ⟨c, a⟩ ∈ l.seen

def Exc.isExternal : Exc → Bool
  | .external _ => true
  | _ => false

/-- The execution after a call and its answer. -/
def Loc.after (l : Loc) (c : Call) : Except Exc (Ret c) → Loc
  | .ok a => ⟨l.stage.after c (.ok a), ⟨c, a⟩ :: l.seen, l.failed⟩
  | .error e => ⟨l.stage.after c (.error e), l.seen, l.failed || e.isExternal⟩

theorem Loc.saw_after {l : Loc} {c : Call} {r : Except Exc (Ret c)} {c' : Call} {a : Ret c'}
    (h : l.saw c' a) : (l.after c r).saw c' a := by
  cases r with
  | ok => exact List.mem_cons_of_mem _ h
  | error => exact h

@[simp] theorem Loc.saw_after_ok (l : Loc) (c : Call) (a : Ret c) : (l.after c (.ok a)).saw c a :=
  List.mem_cons_self ..

@[simp] theorem Loc.stage_after (l : Loc) (c : Call) (r : Except Exc (Ret c)) :
    (l.after c r).stage = l.stage.after c r := by
  cases r <;> rfl

/-- Nothing is committed. -/
def Loc.Uncommitted (l : Loc) : Prop := ∀ sid work, l.stage ≠ .committed sid work

/-! ## What writes are based on -/

variable (D : Deployment)

/-- A registration that passes normalization and the password policy, its normalized command, and
    the row data that are persisted. -/
structure Admitted (data n : RegisterUserDTO D.ext) (p : PersistUserDTO D.ext) : Prop where
  normalized : normalizeRegisterUserData D.ext data = .ok n
  strong : isWeakPassword D.settings.password n = false
  persist : persistUserData n = .ok p

/-- The row is neither revoked nor expired at `now`. -/
def RefreshSessionModel.ActiveAt (row : RefreshSessionModel) (now : Instant) : Prop :=
  row.revokedAt = none ∧ now < row.expiresAt

/-- The execution looked the token up, found the row, and saw it active. -/
def FoundActive (saw : History) (token : String) (row : RefreshSessionModel) (now : Instant) :
    Prop :=
  (∃ sid, saw (.sql sid (.selectSessionByHash (hashRefreshToken D.ext token) true)) [row]) ∧
    row.refreshTokenHash = hashRefreshToken D.ext token ∧ saw .now now ∧ row.ActiveAt now

/-- The execution minted the token. -/
def Minted (saw : History) (token : String) : Prop :=
  saw (.tokenUrlsafe D.settings.refreshSession.refreshTokenNbytes) token

/-- The execution found the account by its login name and the password verified. -/
def Verified (saw : History) (data : IssueTokenDTO) (u : UserModel) : Prop :=
  (∃ sid, saw (.sql sid (.selectUserByUsername (normalizeUsername D.ext data.username))) [u]) ∧
    u.isActive = true ∧ D.ext.verifyPassword data.password u.passwordHash = .ok true

/-- The session row an issue adds. -/
def issuedRow (u : UserModel) (context : TokenRequestContextDTO) (token : String) (id : UUID)
    (createdAt : Instant) : RefreshSessionModel :=
  SQLAlchemyRefreshSessionRepository.newSession
    { id := id
      user := userFromModel u
      refreshTokenHash := hashRefreshToken D.ext token
      userAgent := context.userAgent
      ipAddressTrace := context.ipAddressTrace.getD ""
      createdAt := createdAt
      lastUsedAt := none
      expiresAt := createdAt + D.settings.refreshSession.refreshTokenTtl
      revokedAt := none
      rotationCounter := 0 }

/-- The update of a rotation. -/
def rotation (presented minted : String) (row : RefreshSessionModel) (usedAt : Instant) :
    ReplaceRefreshSessionTokenDTO where
  sessionId := row.id
  expectedRefreshTokenHash := hashRefreshToken D.ext presented
  refreshTokenHash := hashRefreshToken D.ext minted
  lastUsedAt := usedAt
  rotationCounter := row.rotationCounter + 1

/-- What the write of an execution is based on. -/
inductive Basis (saw : History) : Request D.ext → Write → Prop
  | insertUser {data n p salt id} : Admitted D data n p →
      Basis saw (.registerUser data) (.insertUser
        ((SQLAlchemyUserRepository.newUser p (D.ext.hashPassword salt n.password)).toModel id))
  | insertRefreshSession {data context u token id createdAt} : Verified D saw data u →
      Minted D saw token → saw .now createdAt →
      Basis saw (.issueToken data context)
        (.insertRefreshSession (issuedRow D u context token id createdAt))
  | setTokenHash {data row now minted usedAt} : FoundActive D saw data.refreshToken row now →
      Minted D saw minted → saw .now usedAt →
      (row.id ∉ D.store.refreshSessions.map (·.id) → row.createdAt ≤ usedAt) →
      Basis saw (.refreshToken data)
        (.setTokenHash (rotation D data.refreshToken minted row usedAt))
  | setRevokedAt {data userId row now revokedAt} : FoundActive D saw data.refreshToken row now →
      row.userId = userId → Basis saw (.revokeToken data userId) (.setRevokedAt row.id revokedAt)

/-- The payload of an access token. -/
def accessPayload (userId : ℤ) (iat : Instant) : List (String × Claim) :=
  [("sub", .json (.str (toString userId))),
    ("exp", .datetime (iat + D.settings.jwt.accessTokenExpire)), ("iat", .datetime iat),
    ("typ", .json (.str D.settings.jwt.typ))]

/-- The execution had the access token signed for the user. -/
def SignedFor (saw : History) (accessToken : String) (userId : ℤ) : Prop :=
  ∃ iat, saw (.jwtEncode (accessPayload D userId iat) D.settings.jwt.secretKey
    D.settings.jwt.algorithm) accessToken

/-- What an execution returns for its write. -/
inductive Outcome (saw : History) : Write → Response → Prop
  | insertUser {row} : Outcome saw (.insertUser row) (.user (userFromModel row))
  | insertRefreshSession {row token} : Minted D saw token.refreshToken →
      row.refreshTokenHash = hashRefreshToken D.ext token.refreshToken →
      SignedFor D saw token.accessToken row.userId →
      Outcome saw (.insertRefreshSession row) (.token token)
  | setTokenHash {data row token} : Minted D saw token.refreshToken →
      data.refreshTokenHash = hashRefreshToken D.ext token.refreshToken →
      (∃ sid, saw (.sql sid (.selectSessionByHash data.expectedRefreshTokenHash true)) [row]) →
      row.id = data.sessionId → SignedFor D saw token.accessToken row.userId →
      Outcome saw (.setTokenHash data) (.token token)
  | setRevokedAt {id t} : Outcome saw (.setRevokedAt id t) .none

/-- How a registration fails when nothing outside fails. -/
inductive RegistrationError (data : RegisterUserDTO D.ext) : Exc → Prop
  | invalid {e} : normalizeRegisterUserData D.ext data = .error e → RegistrationError data e
  | weak {n} : normalizeRegisterUserData D.ext data = .ok n →
      isWeakPassword D.settings.password n = true → RegistrationError data .weakPassword
  | unstorable {n e} : normalizeRegisterUserData D.ext data = .ok n →
      persistUserData n = .error e → RegistrationError data e
  | exists {n} : normalizeRegisterUserData D.ext data = .ok n →
      isWeakPassword D.settings.password n = false → RegistrationError data .userAlreadyExists

/-- The errors of a request when nothing outside fails. -/
def Anticipated : Request D.ext → Exc → Prop
  | .registerUser data, e => RegistrationError D data e
  | _, _ => True

/-! ## The protocol -/

/-- A session row the execution looked up. -/
def SawRow (saw : History) (row : RefreshSessionModel) : Prop :=
  ∃ sid h, ∃ rows : List RefreshSessionModel,
    saw (.sql sid (.selectSessionByHash h true)) rows ∧ row ∈ rows

/-- The calls permitted at a stage. -/
inductive Can (req : Request D.ext) (saw : History) : Stage → Call → Prop
  | scopeGet {st : Stage} : st.Looks → Can req saw st .scopeGet
  | sessionFactory : Can req saw .outside .sessionFactory
  | begin {sid} : Can req saw (.opened sid) (.begin sid)
  | enter {sid} : Can req saw (.opened sid) (.scopeSet (some (Scope.of sid)))
  | hashPassword {password} : Can req saw .outside (.hashPassword password)
  | now {sid work} : Can req saw (.inside sid work) .now
  | tokenUrlsafe {sid work n} : Can req saw (.inside sid work) (.tokenUrlsafe n)
  | uuid7 {sid work} : Can req saw (.inside sid work) .uuid7
  | jwtEncode {sid work p k a} : Can req saw (.inside sid work) (.jwtEncode p k a)
  /-- no statement is emitted with a pending change, so none triggers an autoflush -/
  | read {sid work q} : q.isWrite = false → work.changes = [] →
      (∀ h, q = .selectSessionByHash h true → work.writes = []) →
      Can req saw (.inside sid work) (.sql sid q)
  | write {sid q} : (∀ a w, q.outcome a = some w → Basis D saw req w) →
      Can req saw (.inside sid .idle) (.sql sid q)
  | setRevokedAt {sid id t} : Basis D saw req (.setRevokedAt id t) →
      Can req saw (.inside sid .idle) (.setRevokedAt sid id t)
  | flush {sid work} : Can req saw (.inside sid work) (.flush sid)
  | commit {sid work} : work.changes = [] → Can req saw (.inside sid work) (.commit sid)
  | rollback {sid work} : Can req saw (.inside sid work) (.rollback sid)
  | rollbackBroken {sid} : Can req saw (.broken sid) (.rollback sid)
  | closeBroken {sid} : Can req saw (.broken sid) (.close sid)
  | closeCommitted {sid work} : Can req saw (.committed sid work) (.close sid)
  | leaveCommitted {sid work} : Can req saw (.committed sid work) (.scopeSet none)
  | closeAborted {sid} : Can req saw (.aborted sid) (.close sid)
  | leaveAborted {sid} : Can req saw (.aborted sid) (.scopeSet none)

/-- What an answer satisfies. -/
def Answered (l : Loc) : (c : Call) → Ret c → Prop
  | .scopeGet, sc => sc = l.stage.scope
  | .now, t => ∀ row, SawRow l.saw row → row.id ∉ D.store.refreshSessions.map (·.id) →
      row.createdAt ≤ t
  | .hashPassword password, h => ∃ salt, h = D.ext.hashPassword salt password
  | .sql _ (.selectSessionByHash h _), (rows : List RefreshSessionModel) =>
    ∀ row ∈ rows, row.refreshTokenHash = h ∧
      (∀ row₀, SawRow l.saw row₀ → row₀.id = row.id → row₀.userId = row.userId) ∧
      ∀ data, l.stage.work = .wrote (.setTokenHash data) → data.refreshTokenHash = h →
        row.id = data.sessionId
  | .sql _ (.selectSessionForUpdate id), (rows : List RefreshSessionModel) =>
    (∀ row ∈ rows, row.id = id) ∧ ((∃ row, SawRow l.saw row ∧ row.id = id) → rows ≠ [])
  | .sql _ (.selectActiveUser userId), (rows : List UserModel) => ∀ u ∈ rows, u.id = userId
  | _, _ => True

/-- How a call fails. -/
def Fails (l : Loc) (c : Call) (e : Exc) : Prop :=
  e.isExternal = true ∨
    match c with
    | .sql _ (.insertUser _) => e = .integrityError (D.dialect.violation .usersUsername) ∨
        e = .integrityError (D.dialect.violation .usersEmail)
    | .sql _ q => q.isWrite = true ∧ ∃ orig, e = .integrityError orig
    | .flush _ => e = .staleData ∧ l.stage.work.changes ≠ []
    | _ => False

/-- The protocol of a request. -/
def protocolSpec (req : Request D.ext) : Spec Call Ret Exc Loc where
  can l c := Can D req l.saw l.stage c
  next l c r l' := l' = l.after c r ∧
    match r with
    | .ok a => Answered D l c a
    | .error e => c.mayFail = true ∧ Fails D l c e

/-- How an execution ends: it returns what its committed write calls for, or it raises and
    committed nothing. -/
def Ends (req : Request D.ext) : Except Exc Response → Loc → Prop
  | .ok resp, l => ∃ sid w, l.stage = .committed sid (.wrote w) ∧ Basis D l.saw req w ∧
      Outcome D l.saw w resp
  | .error e, l => l.Uncommitted ∧ (l.failed = true ∨ Anticipated D req e)

end FastapiTemplate
