/-
  `SQLAlchemyUnitOfWork`: the transaction boundary of a workflow, carried by a
  context variable of the task.
-/
import FastapiTemplate.Infrastructure.Runtime

namespace FastapiTemplate

open Effects

def INACTIVE_UOW_ERROR : Exc := .runtimeError "Unit of work is not active."
def NESTED_UOW_ERROR : Exc := .runtimeError "Nested UnitOfWork scopes are not supported."

/-- `AsyncSessionTransaction.commit()`: pending changes are flushed before `COMMIT`. -/
def SessionTransaction.commit (transaction : SessionTransaction) : App Unit := do
  call (.flush transaction.session)
  call (.commit transaction.session)

/-- `_finish_transaction`. -/
def finishTransaction (scope : Scope) (hasError : Bool) : App Unit :=
  if hasError then
    call (.rollback scope.transaction.session)
  else
    scope.transaction.commit

/-- `_close_scope`. -/
def closeScope (scope : Scope) : App Unit := do
  call (.close scope.session)
  call (.scopeSet none)

/-- `SQLAlchemyUnitOfWork._current_scope`. -/
def currentScope : App Scope := do
  match ← call .scopeGet with
  | none => throw INACTIVE_UOW_ERROR
  | some scope => pure scope

/-- `SQLAlchemyUnitOfWork.user_repository`. -/
def userRepository : App SQLAlchemyUserRepository := do
  return (← currentScope).userRepository

/-- `SQLAlchemyUnitOfWork.refresh_session_repository`. -/
def refreshSessionRepository : App SQLAlchemyRefreshSessionRepository := do
  return (← currentScope).refreshSessionRepository

/-- `SQLAlchemyUnitOfWork.__aenter__`. -/
def aenter : App Unit := do
  match ← call .scopeGet with
  | some _ => throw NESTED_UOW_ERROR
  | none =>
    let session ← call .sessionFactory
    call (.begin session)
    call (.scopeSet (some (Scope.of session)))

/-- `SQLAlchemyUnitOfWork.__aexit__` for a block that ended with the exception `exc`, if any.  It
    returns `False`: exceptions are never suppressed. -/
def aexit (exc : Option Exc) : App Unit := do
  match ← call .scopeGet with
  | none => throw INACTIVE_UOW_ERROR
  | some scope =>
    (finishTransaction scope exc.isSome).handle fun e => do
      closeScope scope
      throw e
    closeScope scope

/-- `async with uow: body`. -/
def asyncWith {α : Type} (body : App α) : App α := do
  aenter
  match ← body.attempt with
  | .ok a =>
    aexit none
    pure a
  | .error e =>
    aexit (some e)
    throw e

end FastapiTemplate
