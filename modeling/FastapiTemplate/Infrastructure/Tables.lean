/-
  The SQLAlchemy models, the statements the repositories emit, and what the
  database does with them.

  A statement reads the rows its transaction sees and answers with rows, a row
  count or a violated constraint; what it writes is kept as a list of `Write`s.
  The two databases differ in their locks: on PostgreSQL a written row, a new
  key of a unique constraint and a row selected `FOR UPDATE` are locked; on
  SQLite (no `FOR UPDATE`) a transaction locks the database with its first
  write.
-/
import FastapiTemplate.Core.Entities
import FastapiTemplate.Lib.Locking

namespace FastapiTemplate

open Locking

/-- The databases the project runs on. -/
inductive Dialect where
  | postgresql
  | sqlite
  deriving DecidableEq

/-- Table `users`. -/
structure UserModel where
  id : ℤ
  username : String
  email : String
  firstName : String
  lastName : String
  passwordHash : String
  isActive : Bool
  isStaff : Bool
  isSuperuser : Bool
  deriving DecidableEq

/-- Table `refresh_sessions`. -/
structure RefreshSessionModel where
  id : UUID
  refreshTokenHash : String
  userId : ℤ
  userAgent : String
  ipAddressTrace : String
  createdAt : Instant
  lastUsedAt : Option Instant
  expiresAt : Instant
  revokedAt : Option Instant
  rotationCounter : ℤ
  deriving DecidableEq

/-- A `users` row before the database gives it an identifier. -/
structure NewUser where
  username : String
  email : String
  firstName : String
  lastName : String
  passwordHash : String
  isActive : Bool
  isStaff : Bool
  isSuperuser : Bool
  deriving DecidableEq

def NewUser.toModel (values : NewUser) (id : ℤ) : UserModel where
  id := id
  username := values.username
  email := values.email
  firstName := values.firstName
  lastName := values.lastName
  passwordHash := values.passwordHash
  isActive := values.isActive
  isStaff := values.isStaff
  isSuperuser := values.isSuperuser

/-- The rows of the two tables. -/
structure Store where
  users : List UserModel
  refreshSessions : List RefreshSessionModel
  deriving DecidableEq

/-! ## Writes -/

/-- What statements write. -/
inductive Write where
  | insertUser (row : UserModel)
  | insertRefreshSession (row : RefreshSessionModel)
  | setTokenHash (data : ReplaceRefreshSessionTokenDTO)
  | setRevokedAt (id : UUID) (revokedAt : Instant)
  deriving DecidableEq

/-- The columns set by `replace_token_hash`. -/
def RefreshSessionModel.withTokenHash (row : RefreshSessionModel)
    (data : ReplaceRefreshSessionTokenDTO) : RefreshSessionModel :=
  { row with
    refreshTokenHash := data.refreshTokenHash
    lastUsedAt := some data.lastUsedAt
    rotationCounter := data.rotationCounter }

/-- The column set by `revoke`. -/
def RefreshSessionModel.withRevokedAt (row : RefreshSessionModel) (revokedAt : Instant) :
    RefreshSessionModel :=
  { row with revokedAt := some revokedAt }

/-- `UPDATE`: the rows with the identifier become `f row`. -/
def updateSession (id : UUID) (f : RefreshSessionModel → RefreshSessionModel)
    (rows : List RefreshSessionModel) : List RefreshSessionModel :=
  rows.map fun row => if row.id = id then f row else row

def Write.apply : Write → Store → Store
  | .insertUser row, s => { s with users := s.users ++ [row] }
  | .insertRefreshSession row, s => { s with refreshSessions := s.refreshSessions ++ [row] }
  | .setTokenHash data, s =>
    { s with refreshSessions :=
        updateSession data.sessionId (·.withTokenHash data) s.refreshSessions }
  | .setRevokedAt id revokedAt, s =>
    { s with refreshSessions := updateSession id (·.withRevokedAt revokedAt) s.refreshSessions }

/-! ## Locks -/

/-- What a transaction can lock: the whole database (SQLite), a user or session by its primary
    key, or a key of a unique constraint. -/
inductive Lock where
  | database
  | user (id : ℤ)
  | username (key : String)
  | email (key : String)
  | refreshSession (id : UUID)
  | tokenHash (key : String)
  deriving DecidableEq

/-- The rows and keys a write touches. -/
def Write.touches : Write → List Lock
  | .insertUser row => [.user row.id, .username row.username, .email row.email]
  | .insertRefreshSession row => [.refreshSession row.id, .tokenHash row.refreshTokenHash]
  | .setTokenHash data => [.refreshSession data.sessionId, .tokenHash data.refreshTokenHash]
  | .setRevokedAt id _ => [.refreshSession id]

/-- The lock that stands for a row or key: SQLite only has the lock of the database. -/
def Dialect.lock : Dialect → Lock → Lock
  | .postgresql, l => l
  | .sqlite, _ => .database

/-- Writes and their locks on a database. -/
def Dialect.schema (d : Dialect) : Schema Store Write Lock where
  apply := Write.apply
  guard w := w.touches.map d.lock

/-! ## Statements -/

inductive Stmt where
  | selectActiveUser (userId : ℤ)
  | selectUserByUsername (username : String)
  | selectUserByUsernameOrEmail (username email : String)
  /-- `selectinload(RefreshSessionModel.user)` -/
  | selectUsers (ids : List ℤ)
  | insertUser (values : NewUser)
  | insertRefreshSession (row : RefreshSessionModel)
  | selectSessionByHash (refreshTokenHash : String) (forUpdate : Bool)
  | selectSessionForUpdate (id : UUID)
  | updateTokenHash (data : ReplaceRefreshSessionTokenDTO)
  deriving DecidableEq

/-- What a statement answers: rows, the new identifier, or the number of rows updated. -/
def Stmt.Ret : Stmt → Type
  | .selectActiveUser _ | .selectUserByUsername _ | .selectUserByUsernameOrEmail _ _
  | .selectUsers _ => List UserModel
  | .insertUser _ => ℤ
  | .insertRefreshSession _ => Unit
  | .selectSessionByHash _ _ | .selectSessionForUpdate _ => List RefreshSessionModel
  | .updateTokenHash _ => ℕ

/-- The unique constraints of the schema. -/
inductive UniqueConstraint where
  | usersPkey
  | usersUsername
  | usersEmail
  | refreshSessionsPkey
  | refreshSessionsTokenHash
  deriving DecidableEq

/-- The `constraint_name` PostgreSQL reports. -/
def UniqueConstraint.name : UniqueConstraint → String
  | .usersPkey => "pk_users"
  | .usersUsername => "uq_users_username"
  | .usersEmail => "uq_users_email"
  | .refreshSessionsPkey => "pk_refresh_sessions"
  | .refreshSessionsTokenHash => "uq_refresh_sessions_refresh_token_hash"

/-- The column SQLite names in its message. -/
def UniqueConstraint.column : UniqueConstraint → String
  | .usersPkey => "users.id"
  | .usersUsername => "users.username"
  | .usersEmail => "users.email"
  | .refreshSessionsPkey => "refresh_sessions.id"
  | .refreshSessionsTokenHash => "refresh_sessions.refresh_token_hash"

/-- How a database reports a violated unique constraint. -/
def Dialect.violation (d : Dialect) (c : UniqueConstraint) : DriverError :=
  match d with
  | .postgresql =>
    ⟨some c.name, "duplicate key value violates unique constraint \"" ++ c.name ++ "\""⟩
  | .sqlite => ⟨none, "UNIQUE constraint failed: " ++ c.column⟩

/-- The constraints an inserted user would violate. -/
def Store.userViolations (s : Store) (row : UserModel) : List UniqueConstraint :=
  (if s.users.any (·.id = row.id) then [.usersPkey] else []) ++
  (if s.users.any (·.username = row.username) then [.usersUsername] else []) ++
  (if s.users.any (·.email = row.email) then [.usersEmail] else [])

/-- The constraints an inserted session would violate. -/
def Store.sessionViolations (s : Store) (row : RefreshSessionModel) : List UniqueConstraint :=
  (if s.refreshSessions.any (·.id = row.id) then [.refreshSessionsPkey] else []) ++
  (if s.refreshSessions.any (·.refreshTokenHash = row.refreshTokenHash) then
    [.refreshSessionsTokenHash] else [])

/-- The rows `UPDATE … WHERE id = … AND refresh_token_hash = …` matches. -/
def Store.tokenHashMatches (s : Store) (data : ReplaceRefreshSessionTokenDTO) :
    List RefreshSessionModel :=
  s.refreshSessions.filter fun row =>
    row.id = data.sessionId ∧ row.refreshTokenHash = data.expectedRefreshTokenHash

/-- The constraints the update would violate: another row with the new hash. -/
def Store.updateViolations (s : Store) (data : ReplaceRefreshSessionTokenDTO) :
    List UniqueConstraint :=
  if s.tokenHashMatches data ≠ [] ∧
      s.refreshSessions.any (fun row => row.id ≠ data.sessionId ∧
        row.refreshTokenHash = data.refreshTokenHash) then
    [.refreshSessionsTokenHash] else []

/-- A successful statement: its answer, what it writes, and what it locks beyond that. -/
structure Effect (q : Stmt) where
  ret : q.Ret
  writes : List Write := []
  rows : List UUID := []

/-- Whether a statement writes, even if it matches no row. -/
def Stmt.isWrite : Stmt → Bool
  | .insertUser _ | .insertRefreshSession _ | .updateTokenHash _ => true
  | _ => false

/-- A statement on the rows its transaction sees; `userId` is the identifier the database
    generates for an inserted user. -/
def Stmt.run (s : Store) (userId : ℤ) :
    (q : Stmt) → Except (List UniqueConstraint) (Effect q)
  | .selectActiveUser id => .ok ⟨s.users.filter fun u => u.id = id ∧ u.isActive, [], []⟩
  | .selectUserByUsername username => .ok ⟨s.users.filter (·.username = username), [], []⟩
  | .selectUserByUsernameOrEmail username email =>
    .ok ⟨(s.users.filter fun u => u.username = username ∨ u.email = email).take 1, [], []⟩
  | .selectUsers ids => .ok ⟨s.users.filter (·.id ∈ ids), [], []⟩
  | .insertUser values =>
    match s.userViolations (values.toModel userId) with
    | [] => .ok ⟨userId, [.insertUser (values.toModel userId)], []⟩
    | violated => .error violated
  | .insertRefreshSession row =>
    match s.sessionViolations row with
    | [] => .ok ⟨(), [.insertRefreshSession row], []⟩
    | violated => .error violated
  | .selectSessionByHash h forUpdate =>
    let rows := s.refreshSessions.filter (·.refreshTokenHash = h)
    .ok ⟨rows, [], if forUpdate then rows.map (·.id) else []⟩
  | .selectSessionForUpdate id =>
    let rows := s.refreshSessions.filter (·.id = id)
    .ok ⟨rows, [], rows.map (·.id)⟩
  | .updateTokenHash data =>
    match s.updateViolations data with
    | [] =>
      let rows := s.tokenHashMatches data
      .ok ⟨rows.length, if rows = [] then [] else [.setTokenHash data], []⟩
    | violated => .error violated

/-- The locks a successful statement needs. -/
def Dialect.locks (d : Dialect) {q : Stmt} (e : Effect q) : List Lock :=
  match d with
  | .postgresql => e.rows.map .refreshSession ++ e.writes.flatMap Write.touches
  | .sqlite => if q.isWrite then [.database] else []

/-- The locks a statement needs to find that it violates a constraint. -/
def Dialect.violationLocks : Dialect → List Lock
  | .postgresql => []
  | .sqlite => [.database]

end FastapiTemplate
