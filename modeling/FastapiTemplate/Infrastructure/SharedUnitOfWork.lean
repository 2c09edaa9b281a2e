/-
  One `SQLAlchemyUnitOfWork` instance used by many tasks.

  A task calls the methods of the instance in any order, may start other tasks,
  which run in a copy of its context (they get its scope), and may end, and its
  context with it.  Each awaited call may raise, which stands for a cancellation
  as well.
-/
import FastapiTemplate.Infrastructure.UnitOfWork
import FastapiTemplate.Lib.Clients

namespace FastapiTemplate

open Effects

/-- The methods and properties of `SQLAlchemyUnitOfWork`; `aexit` gets the exception that ended
    the block. -/
inductive UnitOfWorkMethod where
  | aenter
  | userRepository
  | refreshSessionRepository
  | aexit (exc : Option Exc)

inductive UnitOfWorkResult where
  | entered
  | userRepository (repository : SQLAlchemyUserRepository)
  | refreshSessionRepository (repository : SQLAlchemyRefreshSessionRepository)
  | exited

/-- The session a returned repository is bound to. -/
def UnitOfWorkResult.session : UnitOfWorkResult → Option SessionId
  | userRepository repository => some repository.session
  | refreshSessionRepository repository => some repository.session
  | _ => none

def UnitOfWorkMethod.run : UnitOfWorkMethod → App UnitOfWorkResult
  | aenter => do
    FastapiTemplate.aenter
    return .entered
  | userRepository => do return .userRepository (← FastapiTemplate.userRepository)
  | refreshSessionRepository => do
    return .refreshSessionRepository (← FastapiTemplate.refreshSessionRepository)
  | aexit exc => do
    FastapiTemplate.aexit exc
    return .exited

/-- The calls that are awaited, so that they may raise or be cancelled. -/
def Call.awaited : Call → Bool
  | .begin _ | .flush _ | .commit _ | .rollback _ | .close _ => true
  | _ => false

/-- A task starts in a copy of the context of the task that started it. -/
def State.copyContext (parent child : ℕ) (s : State) : State :=
  { s with scopes := Function.update s.scopes child (s.scopes parent) }

/-- The instance; `faulty` tells which calls may raise. -/
def unitOfWork (ext : Externals) (d : Dialect) (faulty : Call → Bool) :
    Object State UnitOfWorkMethod Call Ret Exc UnitOfWorkResult where
  method := UnitOfWorkMethod.run
  answer := Answer ext d faulty
  fork := State.copyContext

/-- The tasks and the instance. -/
abbrev UnitOfWorkClients := Clients State UnitOfWorkMethod Call Ret Exc UnitOfWorkResult

/-- What happened, newest first. -/
abbrev Moments := List (Moment UnitOfWorkMethod Call Ret Exc UnitOfWorkResult)

end FastapiTemplate
