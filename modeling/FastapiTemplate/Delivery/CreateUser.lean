/-
  The user creation endpoint: `CreateUserController` with the exception
  translation that `BaseAsyncController` wraps around it.
-/
import FastapiTemplate.Core.User

namespace FastapiTemplate

open Effects

/-- HTTP response body exposing public user account fields. -/
structure UserSchema where
  id : ℤ
  username : String
  email : String
  firstName : String
  lastName : String
  isStaff : Bool
  isSuperuser : Bool
  deriving DecidableEq

/-- `UserSchema.model_validate(user, from_attributes=True)`. -/
def UserSchema.ofUser (user : User) : UserSchema where
  id := user.id
  username := user.username
  email := user.email
  firstName := user.firstName
  lastName := user.lastName
  isStaff := user.isStaff
  isSuperuser := user.isSuperuser

namespace CreateUserController
variable {ext : Externals}

/-- `create_user`, before it is wrapped. -/
def createUser (settings : Settings) (requestBody : CreateUserRequestSchema ext) :
    App UserSchema := do
  let data ← Prog.ofExcept (ValidRegistration.validate ext requestBody.toRegistrationFields)
  let user ← RegisterUserUseCase.execute settings data
  return UserSchema.ofUser user

/-- `handle_exception`. -/
def handleException (exception : Exc) : App UserSchema :=
  match exception with
  | .weakPassword =>
    throw (.httpException 400 "Password does not meet the strength requirements")
  | .userAlreadyExists =>
    throw (.httpException 409 "A user with the given username or email already exists")
  | exception => throw exception

/-- The endpoint as it is registered: `_add_exception_handler` applied to `create_user`. -/
def endpoint (settings : Settings) (requestBody : CreateUserRequestSchema ext) : App UserSchema :=
  (createUser settings requestBody).handle handleException

end CreateUserController

end FastapiTemplate
