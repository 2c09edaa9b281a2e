/-
  The SQLAlchemy repositories.

  A model object lives only inside the repository method that loads it (the
  identity map holds it weakly), so each method reads its rows afresh and
  returns entities.
-/
import FastapiTemplate.Foundation.Text
import FastapiTemplate.Infrastructure.UnitOfWork
import FastapiTemplate.Core.UserData

namespace FastapiTemplate

open Effects

/-- `Result.scalar_one_or_none()`. -/
def scalarOneOrNone {α : Type} : List α → App (Option α)
  | [] => pure none
  | [a] => pure (some a)
  | _ => throw .multipleResultsFound

/-- `Result.scalar_one()`. -/
def scalarOne {α : Type} : List α → App α
  | [] => throw .noResultFound
  | [a] => pure a
  | _ => throw .multipleResultsFound

/-- `user_from_model`. -/
def userFromModel (model : UserModel) : User where
  id := model.id
  username := model.username
  email := model.email
  firstName := model.firstName
  lastName := model.lastName
  passwordHash := model.passwordHash
  isActive := model.isActive
  isStaff := model.isStaff
  isSuperuser := model.isSuperuser

/-- `refresh_session_from_model`: columns hold UTC instants, which `_ensure_aware_datetime` tags
    as such. -/
def refreshSessionFromModel (model : RefreshSessionModel) (user : User) : RefreshSession where
  id := model.id
  refreshTokenHash := model.refreshTokenHash
  user := user
  userAgent := model.userAgent
  ipAddressTrace := model.ipAddressTrace
  createdAt := model.createdAt
  expiresAt := model.expiresAt
  lastUsedAt := model.lastUsedAt
  revokedAt := model.revokedAt
  rotationCounter := model.rotationCounter

/-! ## Users -/

def POSTGRES_USER_UNIQUE_CONSTRAINT_NAMES : List String := ["uq_users_email", "uq_users_username"]

def SQLITE_USER_UNIQUE_MESSAGES : List String :=
  ["unique constraint failed: users.email", "unique constraint failed: users.username"]

/-- Python's `needle in text`. -/
def containsText (needle text : String) : Bool :=
  text.toList.tails.any fun rest => needle.toList.isPrefixOf rest

/-- `_is_duplicate_user_integrity_error`. -/
def isDuplicateUserIntegrityError (orig : DriverError) : Bool :=
  match orig.constraintName with
  | some name =>
    POSTGRES_USER_UNIQUE_CONSTRAINT_NAMES.contains name || matchesMessage orig
  | none => matchesMessage orig
where
  /-- the text of the driver's error names a user constraint of SQLite -/
  matchesMessage (orig : DriverError) : Bool :=
    SQLITE_USER_UNIQUE_MESSAGES.any fun m => containsText m (Text.lower orig.message)

namespace SQLAlchemyUserRepository
variable {ext : Externals} (self : SQLAlchemyUserRepository)

def getActiveById (userId : ℤ) : App (Option User) := do
  let rows ← call (.sql self.session (.selectActiveUser userId))
  return (← scalarOneOrNone rows).map userFromModel

def getByUsername (username : String) : App (Option User) := do
  let rows ← call (.sql self.session (.selectUserByUsername username))
  return (← scalarOneOrNone rows).map userFromModel

def getByUsernameOrEmail (username email : String) : App (Option User) := do
  let rows : List UserModel ←
    call (.sql self.session (.selectUserByUsernameOrEmail username email))
  return rows.head?.map userFromModel

/-- The row `create` adds to the session. -/
def newUser (data : PersistUserDTO ext) (passwordHash : String) : NewUser where
  username := data.username
  email := data.email
  firstName := data.firstName
  lastName := data.lastName
  passwordHash := passwordHash
  isActive := data.isActive
  isStaff := data.isStaff
  isSuperuser := data.isSuperuser

/-- `create`: the flush inserts the row; duplicates become `UserRepositoryConflictError`. -/
def create (data : PersistUserDTO ext) (passwordHash : String) : App User := do
  let values := newUser data passwordHash
  let id ← (call (.sql self.session (.insertUser values))).handle fun e =>
    match e with
    | .integrityError orig =>
      if isDuplicateUserIntegrityError orig then throw .userRepositoryConflict
      else throw (.integrityError orig)
    | e => throw e
  return userFromModel (values.toModel id)

end SQLAlchemyUserRepository

/-! ## Refresh sessions -/

namespace SQLAlchemyRefreshSessionRepository
variable (self : SQLAlchemyRefreshSessionRepository)

/-- The row `create` adds to the session. -/
def newSession (data : CreateRefreshSessionDTO) : RefreshSessionModel where
  id := data.id
  refreshTokenHash := data.refreshTokenHash
  userId := data.user.id
  userAgent := data.userAgent
  ipAddressTrace := data.ipAddressTrace
  createdAt := data.createdAt
  lastUsedAt := data.lastUsedAt
  expiresAt := data.expiresAt
  revokedAt := data.revokedAt
  rotationCounter := data.rotationCounter

def create (data : CreateRefreshSessionDTO) : App RefreshSession := do
  call (.sql self.session (.insertRefreshSession (newSession data)))
  return refreshSessionFromModel (newSession data) data.user

/-- `selectinload(RefreshSessionModel.user)`: a second `SELECT` for the users of the rows. -/
def loadUsers (rows : List RefreshSessionModel) : App (List UserModel) :=
  match rows with
  | [] => pure []
  | rows => call (.sql self.session (.selectUsers (rows.map (·.userId))))

/-- `model.user` of a loaded row; without its user the mapper fails on `None`. -/
def userOf (users : List UserModel) (model : RefreshSessionModel) : App User :=
  match users.find? (·.id = model.userId) with
  | some user => pure (userFromModel user)
  | none => throw .attributeError

def getByTokenHash (refreshTokenHash : String) : App (Option RefreshSession) := do
  let rows ← call (.sql self.session (.selectSessionByHash refreshTokenHash true))
  let users ← self.loadUsers rows
  match ← scalarOneOrNone rows with
  | none => pure none
  | some model => return some (refreshSessionFromModel model (← userOf users model))

def replaceTokenHash (data : ReplaceRefreshSessionTokenDTO) : App (Option RefreshSession) := do
  let rowcount : ℕ ← call (.sql self.session (.updateTokenHash data))
  if rowcount ≠ 1 then
    pure none
  else
    let rows ← call (.sql self.session (.selectSessionByHash data.refreshTokenHash false))
    let users ← self.loadUsers rows
    let model ← scalarOne rows
    return some (refreshSessionFromModel model (← userOf users model))

def revoke (sessionId : UUID) (revokedAt : Instant) : App Unit := do
  let rows : List RefreshSessionModel ←
    call (.sql self.session (.selectSessionForUpdate sessionId))
  match ← scalarOneOrNone rows with
  | none => pure ()
  | some model => call (.setRevokedAt self.session model.id revokedAt)

end SQLAlchemyRefreshSessionRepository

end FastapiTemplate
