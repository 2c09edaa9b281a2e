/-
  Entities, command data and exceptions of the authentication and user
  modules, and the third-party functions they call.

  Instants are microseconds since the epoch in UTC; user identifiers are
  Python integers and session identifiers 128-bit UUIDs.
-/
import Mathlib.Data.Int.Notation
import Mathlib.Data.Nat.Notation

namespace FastapiTemplate

/-- An aware `datetime`, as microseconds since the epoch. -/
abbrev Instant := ℤ

abbrev UUID := BitVec 128

/-- What a database driver reports for a violated constraint: the `diag.constraint_name` of
    psycopg, if any, and the text of the error. -/
structure DriverError where
  constraintName : Option String
  message : String
  deriving DecidableEq

/-- The exceptions that workflows raise.  `external` is any other one: a lost connection, a
    failing signer, a cancellation. -/
inductive Exc where
  | runtimeError (message : String)
  | invalidCredentials
  | invalidRefreshToken
  | expiredRefreshToken
  | authenticatedUserNotFound
  | userAlreadyExists
  | userRepositoryConflict
  | weakPassword
  /-- pydantic's `ValidationError`, with the fields that were rejected -/
  | validationError (fields : List String)
  | integrityError (orig : DriverError)
  | multipleResultsFound
  | noResultFound
  | staleData
  | attributeError
  /-- FastAPI's `HTTPException` -/
  | httpException (statusCode : ℕ) (detail : String)
  | external (code : ℕ)
  deriving DecidableEq

/-! ## User -/

/-- Core user account state. -/
structure User where
  id : ℤ
  username : String
  email : String
  firstName : String
  lastName : String
  passwordHash : String
  isActive : Bool
  isStaff : Bool
  isSuperuser : Bool
  deriving DecidableEq

/-! ## Refresh sessions -/

/-- Core refresh-session state used to rotate and revoke refresh tokens. -/
structure RefreshSession where
  id : UUID
  refreshTokenHash : String
  user : User
  userAgent : String
  ipAddressTrace : String
  createdAt : Instant
  expiresAt : Instant
  lastUsedAt : Option Instant
  revokedAt : Option Instant
  rotationCounter : ℤ

/-- Neither revoked nor expired at `now`. -/
def RefreshSession.isActiveAt (session : RefreshSession) (now : Instant) : Bool :=
  session.revokedAt.isNone && decide (session.expiresAt > now)

structure CreateRefreshSessionDTO where
  id : UUID
  user : User
  refreshTokenHash : String
  userAgent : String
  ipAddressTrace : String
  createdAt : Instant
  lastUsedAt : Option Instant
  expiresAt : Instant
  revokedAt : Option Instant
  rotationCounter : ℤ

structure ReplaceRefreshSessionTokenDTO where
  sessionId : UUID
  expectedRefreshTokenHash : String
  refreshTokenHash : String
  lastUsedAt : Instant
  rotationCounter : ℤ
  deriving DecidableEq

structure IssueTokenDTO where
  username : String
  password : String

structure RefreshTokenDTO where
  refreshToken : String

structure TokenRequestContextDTO where
  userAgent : String
  ipAddressTrace : Option String

structure TokenDTO where
  accessToken : String
  refreshToken : String
  deriving DecidableEq

/-- Refresh-token generation and lifetime settings. -/
structure RefreshSessionServiceSettings where
  refreshTokenNbytes : ℕ := 32
  refreshTokenTtlDays : ℤ := 30

/-- `timedelta(days=…)` in microseconds. -/
def RefreshSessionServiceSettings.refreshTokenTtl (settings : RefreshSessionServiceSettings) : ℤ :=
  settings.refreshTokenTtlDays * (24 * 60 * 60 * 1000000)

/-- JWT signing settings. -/
structure JWTServiceSettings where
  secretKey : String
  algorithm : String := "HS256"
  typ : String := "at+jwt"
  accessTokenExpireMinutes : ℤ := 15

def JWTServiceSettings.accessTokenExpire (settings : JWTServiceSettings) : ℤ :=
  settings.accessTokenExpireMinutes * (60 * 1000000)

/-- Password policy bounds. -/
structure PasswordServiceSettings where
  minLength : ℕ := 8
  maxLength : ℕ := 128

/-- The settings the workflows are built with. -/
structure Settings where
  refreshSession : RefreshSessionServiceSettings
  jwt : JWTServiceSettings
  password : PasswordServiceSettings

/-! ## Functions outside the repository -/

/-- The pure functions of the standard library and of third-party packages that the workflows
    call: `hashlib.sha256(…).hexdigest()`, Unicode normalization and case folding, pydantic's
    `EmailStr` (the address as it is stored, if accepted) and pwdlib's hash for a given salt. -/
structure Externals where
  sha256hex : String → String
  nfkc : String → String
  casefold : String → String
  isnumeric : String → Bool
  emailStr : String → Option String
  hashPassword : (salt password : String) → String
  verifyPassword : (password passwordHash : String) → Except Exc Bool

end FastapiTemplate
