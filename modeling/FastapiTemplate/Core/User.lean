/-
  The user module: identity normalization, the password policy, credential
  checks and registration.
-/
import FastapiTemplate.Infrastructure.Repositories

namespace FastapiTemplate

open Effects

/-! ## UserIdentityService -/

section
variable (ext : Externals)

/-- `UserIdentityService.normalize_username`. -/
def normalizeUsername (username : String) : String := ext.nfkc (Text.strip username)

/-- `UserIdentityService.normalize_email`: only the domain part is case-folded. -/
def normalizeEmail (email : String) : String :=
  let (localPart, separator, domain) := Text.partition '@' (Text.strip email)
  if separator then localPart ++ "@" ++ ext.casefold domain else Text.strip email

/-- The fields of the normalized command. -/
def RegistrationFields.normalized (data : RegistrationFields) : RegistrationFields where
  username := normalizeUsername ext data.username
  email := normalizeEmail ext data.email
  firstName := data.firstName
  lastName := data.lastName
  password := data.password

/-- `UserIdentityService.normalize_register_user_data`: the result is validated again. -/
def normalizeRegisterUserData (data : RegisterUserDTO ext) : Except Exc (RegisterUserDTO ext) :=
  ValidRegistration.validate ext (data.toRegistrationFields.normalized ext)

/-! ## PasswordService -/

variable {ext}

/-- `PasswordService._is_weak_password`. -/
def isWeakPassword (settings : PasswordServiceSettings) (data : RegisterUserDTO ext) : Bool :=
  let password := data.password
  decide (password.length < settings.minLength) ||
    decide (password.length > settings.maxLength) ||
    ext.isnumeric password ||
    [ext.casefold data.username, ext.casefold data.email].contains (ext.casefold password)

/-- `PasswordService.validate`. -/
def validatePassword (settings : PasswordServiceSettings) (data : RegisterUserDTO ext) :
    Except Exc Unit :=
  if isWeakPassword settings data then .error .weakPassword else .ok ()

end

/-! ## UserCredentialService -/

/-- `UserCredentialService.authenticate_user`. -/
def authenticateUser (ext : Externals) (username password : String) : App (Option User) := do
  let normalizedUsername := normalizeUsername ext username
  let repository ← userRepository
  match ← repository.getByUsername normalizedUsername with
  | none => return none
  | some user =>
    if !user.isActive then
      return none
    let isValidPassword ← Prog.ofExcept (ext.verifyPassword password user.passwordHash)
    if !isValidPassword then
      return none
    return some user

/-! ## RegisterUserUseCase -/

/-- `RegisterUserUseCase.execute`. -/
def RegisterUserUseCase.execute {ext : Externals} (settings : Settings)
    (data : RegisterUserDTO ext) : App User := do
  let normalizedData ← Prog.ofExcept (normalizeRegisterUserData ext data)
  Prog.ofExcept (validatePassword settings.password normalizedData)
  let passwordHash ← call (.hashPassword normalizedData.password)
  asyncWith do
    let repository ← userRepository
    let existingUser ←
      repository.getByUsernameOrEmail normalizedData.username normalizedData.email
    if existingUser.isSome then
      throw .userAlreadyExists
    let createUser : App User := do
      let repository ← userRepository
      repository.create (← Prog.ofExcept (persistUserData normalizedData)) passwordHash
    createUser.handle fun e =>
      match e with
      | .userRepositoryConflict => throw .userAlreadyExists
      | e => throw e

end FastapiTemplate
