/-
  The authentication module: access tokens, refresh sessions, and the use cases
  that issue, rotate and revoke tokens.
-/
import FastapiTemplate.Core.User

namespace FastapiTemplate

open Effects

/-! ## JWTService -/

/-- `{**payload, key: value}`: an entry with the key keeps its place. -/
def setEntry (payload : List (String × Claim)) (key : String) (value : Claim) :
    List (String × Claim) :=
  if payload.any (·.1 = key) then
    payload.map fun e => if e.1 = key then (key, value) else e
  else
    payload ++ [(key, value)]

/-- `JWTService.issue_access_token`. -/
def issueAccessToken (settings : JWTServiceSettings) (userId : ℤ)
    (payloadKwargs : List (String × Claim)) : App String := do
  let iat : Instant ← call .now
  let payload := setEntry payloadKwargs "sub" (.json (.str (toString userId)))
  let payload := setEntry payload "exp" (.datetime (iat + settings.accessTokenExpire))
  let payload := setEntry payload "iat" (.datetime iat)
  let payload := setEntry payload "typ" (.json (.str settings.typ))
  call (.jwtEncode payload settings.secretKey settings.algorithm)

/-! ## RefreshSessionService -/

/-- Plain refresh token paired with its core session entity. -/
structure RefreshSessionResult where
  refreshToken : String
  session : RefreshSession

section
variable (ext : Externals) (settings : RefreshSessionServiceSettings)

/-- `_issue_refresh_token`. -/
def issueRefreshToken : App String := call (.tokenUrlsafe settings.refreshTokenNbytes)

/-- `_hash_refresh_token`. -/
def hashRefreshToken (refreshToken : String) : String := ext.sha256hex refreshToken

/-- `create_refresh_session`. -/
def createRefreshSession (user : User) (userAgent : String) (ipAddressTrace : Option String) :
    App RefreshSessionResult := do
  let refreshToken ← issueRefreshToken settings
  let createdAt : Instant ← call .now
  let repository ← refreshSessionRepository
  let id : UUID ← call .uuid7
  let session ← repository.create
    { id := id
      user := user
      refreshTokenHash := hashRefreshToken ext refreshToken
      userAgent := userAgent
      ipAddressTrace := ipAddressTrace.getD ""
      createdAt := createdAt
      lastUsedAt := none
      expiresAt := createdAt + settings.refreshTokenTtl
      revokedAt := none
      rotationCounter := 0 }
  return ⟨refreshToken, session⟩

/-- `_get_active_refresh_session`. -/
def getActiveRefreshSession (repository : SQLAlchemyRefreshSessionRepository)
    (refreshTokenHash : String) : App RefreshSession := do
  match ← repository.getByTokenHash refreshTokenHash with
  | none => throw .invalidRefreshToken
  | some session =>
    let now : Instant ← call .now
    if !session.isActiveAt now then
      throw .expiredRefreshToken
    return session

/-- `rotate_refresh_token`. -/
def rotateRefreshToken (refreshToken : String) : App RefreshSessionResult := do
  let expectedRefreshTokenHash := hashRefreshToken ext refreshToken
  let repository ← refreshSessionRepository
  let session ← getActiveRefreshSession repository expectedRefreshTokenHash
  let newRefreshToken ← issueRefreshToken settings
  let usedAt : Instant ← call .now
  let repository ← refreshSessionRepository
  let rotatedSession ← repository.replaceTokenHash
    { sessionId := session.id
      expectedRefreshTokenHash := expectedRefreshTokenHash
      refreshTokenHash := hashRefreshToken ext newRefreshToken
      lastUsedAt := usedAt
      rotationCounter := session.rotationCounter + 1 }
  match rotatedSession with
  | none => throw .invalidRefreshToken
  | some rotatedSession => return ⟨newRefreshToken, rotatedSession⟩

/-- `revoke_refresh_token`. -/
def revokeRefreshToken (refreshToken : String) (user : User) : App Unit := do
  let repository ← refreshSessionRepository
  let session ← getActiveRefreshSession repository (hashRefreshToken ext refreshToken)
  if session.user.id ≠ user.id then
    throw .invalidRefreshToken
  let repository ← refreshSessionRepository
  let revokedAt : Instant ← call .now
  repository.revoke session.id revokedAt

end

/-! ## Use cases -/

/-- `_build_token_result`. -/
def buildTokenResult (settings : JWTServiceSettings) (user : User) (refreshToken : String) :
    App TokenDTO := do
  let accessToken ← issueAccessToken settings user.id []
  return ⟨accessToken, refreshToken⟩

section
variable (ext : Externals) (settings : Settings)

/-- `IssueTokenUseCase.execute`. -/
def IssueTokenUseCase.execute (data : IssueTokenDTO) (context : TokenRequestContextDTO) :
    App TokenDTO :=
  asyncWith do
    match ← authenticateUser ext data.username data.password with
    | none => throw .invalidCredentials
    | some user =>
      let refreshSession ← createRefreshSession ext settings.refreshSession user
        context.userAgent context.ipAddressTrace
      buildTokenResult settings.jwt user refreshSession.refreshToken

/-- `RefreshTokenUseCase.execute`. -/
def RefreshTokenUseCase.execute (data : RefreshTokenDTO) : App TokenDTO :=
  asyncWith do
    let rotatedSession ← rotateRefreshToken ext settings.refreshSession data.refreshToken
    if !rotatedSession.session.user.isActive then
      throw .invalidRefreshToken
    buildTokenResult settings.jwt rotatedSession.session.user rotatedSession.refreshToken

/-- `RevokeTokenUseCase.execute`. -/
def RevokeTokenUseCase.execute (data : RefreshTokenDTO) (userId : ℤ) : App Unit :=
  asyncWith do
    let repository ← userRepository
    match ← repository.getActiveById userId with
    | none => throw .authenticatedUserNotFound
    | some user => revokeRefreshToken ext data.refreshToken user

end

end FastapiTemplate
