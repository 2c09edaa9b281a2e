/-
  The application as a system of executions: any number of use cases run
  against one database, interleaved at single calls.
-/
import FastapiTemplate.Core.Authentication
import FastapiTemplate.Lib.Interleave

namespace FastapiTemplate

open Effects Locking

/-- What a client asks for. -/
inductive Request (ext : Externals) where
  | issueToken (data : IssueTokenDTO) (context : TokenRequestContextDTO)
  | refreshToken (data : RefreshTokenDTO)
  | revokeToken (data : RefreshTokenDTO) (userId : ℤ)
  | registerUser (data : RegisterUserDTO ext)

/-- What a use case returns. -/
inductive Response where
  | token (token : TokenDTO)
  | none
  | user (user : User)

/-- An installation: its database, its settings, and what it starts from. -/
structure Deployment where
  ext : Externals
  dialect : Dialect
  settings : Settings
  store : Store
  clock : Instant

/-- The workflow of a request. -/
def Request.execute (D : Deployment) : Request D.ext → App Response
  | .issueToken data context => do
    return .token (← IssueTokenUseCase.execute D.ext D.settings data context)
  | .refreshToken data => do return .token (← RefreshTokenUseCase.execute D.ext D.settings data)
  | .revokeToken data userId => do
    RevokeTokenUseCase.execute D.ext data userId
    return .none
  | .registerUser data => do return .user (← RegisterUserUseCase.execute D.settings data)

/-- The calls that may fail for outside reasons: all but those on the context variable, the
    assignment to a loaded model, and `session.close()`. -/
def Call.mayFail : Call → Bool
  | .scopeGet | .scopeSet _ | .setRevokedAt .. | .close _ => false
  | _ => true

/-- The rest of the application administers accounts: it may change everything but their keys. -/
def Administers (s s' : State) : Prop :=
  ∃ f : UserModel → UserModel,
    (∀ u, (f u).id = u.id ∧ (f u).username = u.username ∧ (f u).email = u.email) ∧
    s' = { s with db := { s.db with
      committed := { s.db.committed with users := s.db.committed.users.map f } } }

/-- **The application**: executions interleaved in any order. -/
def Deployment.system (D : Deployment) : System State (Request D.ext) Call Ret Exc Response where
  init s := s = State.idle D.store D.clock
  allowed _ := True
  execute := Request.execute D
  answer := Answer D.ext D.dialect Call.mayFail
  environment := Administers

/-- The states of an application with its executions. -/
abbrev Deployment.World (D : Deployment) :=
  Effects.World State (Request D.ext) Call Ret Exc Response

/-- Before anything ran. -/
def Deployment.start (D : Deployment) : D.World := ⟨State.idle D.store D.clock, fun _ => none, []⟩

/-- Execute a schedule from the start. -/
def Deployment.schedule (D : Deployment) (actions : List (Action (Request D.ext) Choice)) :
    Option D.World :=
  D.system.schedule (perform D.ext D.dialect Call.mayFail) D.start actions

theorem Deployment.schedule_reachableIf (D : Deployment)
    {P : D.World → Label (Request D.ext) Call → Prop} {w : D.World}
    {actions : List (Action (Request D.ext) Choice)}
    (hP : ∀ a ∈ actions, ∀ v l, l.pid = some a.pid → P v l) (h : D.schedule actions = some w) :
    D.system.ReachableIf P w := by
  have answers : ∀ i s c ch r s', perform D.ext D.dialect Call.mayFail i s c ch = some (r, s') →
      D.system.answer i s c r s' := fun _ _ _ ch _ _ h => ⟨ch, h⟩
  exact System.schedule_reachableIf (fun _ => trivial) answers hP (.init rfl) h

theorem Deployment.schedule_reachable (D : Deployment) {w : D.World}
    {actions : List (Action (Request D.ext) Choice)} (h : D.schedule actions = some w) :
    D.system.Reachable w :=
  D.schedule_reachableIf (fun _ _ _ _ _ => trivial) h

end FastapiTemplate
