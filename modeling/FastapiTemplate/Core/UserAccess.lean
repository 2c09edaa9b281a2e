/-
  Reading accounts: the permission check, and the use cases behind the current
  user and the staff lookup.
-/
import FastapiTemplate.Core.User

namespace FastapiTemplate

open Effects

/-- `UserPermissionDeniedError`: `Exc` has no constructor of its own for it, and no handler catches
    a `RuntimeError`. -/
def PERMISSION_DENIED_ERROR : Exc := .runtimeError "UserPermissionDeniedError"

/-- `UserPermissionService.check_access`. -/
def checkAccess (user : User) (requireStaff requireSuperuser : Bool) : Except Exc Unit :=
  if requireStaff && !user.isStaff then .error PERMISSION_DENIED_ERROR
  else if requireSuperuser && !user.isSuperuser then .error PERMISSION_DENIED_ERROR
  else .ok ()

/-- `SQLAlchemyUserRepository.get_by_id`: `session.get` selects the row by its primary key. -/
def SQLAlchemyUserRepository.getById (self : SQLAlchemyUserRepository) (userId : ℤ) :
    App (Option User) := do
  let rows ← call (.sql self.session (.selectUsers [userId]))
  return (← scalarOneOrNone rows).map userFromModel

/-- `GetActiveUserByIdUseCase.execute`. -/
def GetActiveUserByIdUseCase.execute (userId : ℤ) : App (Option User) :=
  asyncWith do
    let repository ← userRepository
    repository.getActiveById userId

/-- `StaffUserLookupUseCase.execute`. -/
def StaffUserLookupUseCase.execute (userId actorUserId : ℤ) : App (Option User) :=
  asyncWith do
    let repository ← userRepository
    match ← repository.getActiveById actorUserId with
    | none => throw .authenticatedUserNotFound
    | some actor =>
      Prog.ofExcept (checkAccess actor true false)
      let repository ← userRepository
      repository.getById userId

end FastapiTemplate
