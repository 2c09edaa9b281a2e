/-
  The HTTP API: every endpoint as a program that ends with a response or with an
  `HTTPException`, and the service as a system of requests interleaved at single
  calls.

  A request is what FastAPI hands to an endpoint: its body and path are parsed,
  its credentials are those `HTTPBearer` found.  An exception that is not an
  `HTTPException` is answered by the server error of Starlette; here the program
  raises it.
-/
import FastapiTemplate.Core.UserAccess
import FastapiTemplate.Core.UseCases
import FastapiTemplate.Delivery.CreateUser
import FastapiTemplate.Delivery.JWTAuth
import FastapiTemplate.Delivery.ThrottleKeys

namespace FastapiTemplate.Delivery

open Effects

/-- An installation with what only its HTTP layer uses. -/
structure Service extends Deployment where
  jwt : PyJWT
  maxStrDigits : ℕ
  table : LetterCase.CaseTable
  requestInfo : RequestInfoServiceSettings

/-- `bearer_authentication_error` -/
def bearerAuthenticationError (detail : String) : HTTPException :=
  ⟨401, detail.toList, [("WWW-Authenticate".toList, "Bearer".toList)]⟩

/-- What the endpoints respond with. -/
inductive Body where
  /-- `TokenResponseSchema` -/
  | token (token : TokenDTO)
  | user (user : UserSchema)
  | none
  deriving DecidableEq

/-- What is sent to the client, unless it is a server error. -/
abbrev Reply := Except HTTPException Body

/-- `_add_exception_handler`: what an endpoint raises is given to `handle_exception`, which raises
    an
    `HTTPException` for some exceptions and the exception itself for the others.  No
    `handle_exception` is about the `HTTPException`s that an endpoint raises itself. -/
def wrapRoute (handleException : Exc → Option HTTPException) (method : App Reply) : App Reply :=
  method.handle fun exception =>
    match handleException exception with
    | some httpException => pure (.error httpException)
    | none => throw exception

/-! ## Dependencies -/

/-- An exception of `int` that nothing catches. -/
def intError : IntError → Exc
  | .typeError => .runtimeError "TypeError"
  | .valueError => .runtimeError "ValueError"
  | .overflowError => .runtimeError "OverflowError"

section
variable (S : Service)

/-- `JWTAuth.__call__` in the state of a fresh request, at the instant that a token is decoded. -/
def jwtAuthAt (now : Instant) (credentials : Option String) :
    Except Exc (Except HTTPException AuthenticatedRequestState) :=
  match JWTAuth.call S.jwt S.maxStrDigits S.settings.jwt true now credentials ⟨none, none⟩ with
  | (.ok _, state) => .ok (.ok state)
  | (.error (.bearer detail), _) => .ok (.error (bearerAuthenticationError detail))
  | (.error (.raised e), _) => .error (intError e)

/-- `JWTAuth.__call__`: PyJWT reads the clock when it decodes a token. -/
def jwtAuth (credentials : Option String) : App (Except HTTPException AuthenticatedRequestState) :=
  do
  let now : Instant ← if credentials.isSome then call .now else pure 0
  Prog.ofExcept (jwtAuthAt S now credentials)

/-- `Depends(self._jwt_auth)`: the endpoint reads `request.state.user_id`. -/
def authenticated (credentials : Option String) (endpoint : ℤ → App Reply) : App Reply := do
  match ← jwtAuth S credentials with
  | .error httpException => return .error httpException
  | .ok state =>
    match state.userId with
    | some userId => endpoint userId
    | none => throw .attributeError

/-! ## Endpoints -/

namespace IssueTokenController

/-- `issue_token` -/
def issueToken (request : Request) (username password : String) : App Reply := do
  let token ← IssueTokenUseCase.execute S.ext S.settings ⟨username, password⟩
    { userAgent := String.ofList (getUserAgent S.table S.requestInfo request)
      ipAddressTrace := (getUserIpTrace S.table S.requestInfo request).map String.ofList }
  return .ok (.token token)

def handleException : Exc → Option HTTPException
  | .invalidCredentials => some ⟨401, "Invalid username or password".toList, []⟩
  | _ => none

end IssueTokenController

namespace RefreshTokenController

/-- `refresh_token` -/
def refreshToken (refreshToken : String) : App Reply := do
  let token ← RefreshTokenUseCase.execute S.ext S.settings ⟨refreshToken⟩
  return .ok (.token token)

/-- `RefreshTokenError` itself, the third case of the source, is raised nowhere. -/
def handleException : Exc → Option HTTPException
  | .invalidRefreshToken => some ⟨401, "Invalid refresh token".toList, []⟩
  | .expiredRefreshToken => some ⟨401, "Refresh token expired or revoked".toList, []⟩
  | _ => none

end RefreshTokenController

namespace RevokeTokenController

/-- `revoke_token` -/
def revokeToken (userId : ℤ) (refreshToken : String) : App Reply := do
  RevokeTokenUseCase.execute S.ext ⟨refreshToken⟩ userId
  return .ok .none

def handleException : Exc → Option HTTPException
  | .invalidRefreshToken => some ⟨401, "Invalid refresh token".toList, []⟩
  | .expiredRefreshToken => some ⟨401, "Refresh token expired or revoked".toList, []⟩
  | .authenticatedUserNotFound => some (bearerAuthenticationError "User not found")
  | _ => none

end RevokeTokenController

namespace CreateUserController

/-- `create_user` as it is registered, with the `HTTPException` that `endpoint` raises. -/
def createUser (requestBody : CreateUserRequestSchema S.ext) : App Reply := do
  let user ← FastapiTemplate.CreateUserController.endpoint S.settings requestBody
  return .ok (.user user)

def httpException : Exc → Option HTTPException
  | .httpException statusCode detail => some ⟨statusCode, detail.toList, []⟩
  | _ => none

end CreateUserController

namespace CurrentUserController

/-- `get_current_user` -/
def getCurrentUser (userId : ℤ) : App Reply := do
  match ← GetActiveUserByIdUseCase.execute userId with
  | none => return .error (bearerAuthenticationError "User not found")
  | some user => return .ok (.user (UserSchema.ofUser user))

end CurrentUserController

namespace StaffUserLookupController

/-- `staff_user_lookup` -/
def staffUserLookup (actorUserId userId : ℤ) : App Reply := do
  match ← StaffUserLookupUseCase.execute userId actorUserId with
  | none => return .error ⟨404, "User not found".toList, []⟩
  | some user => return .ok (.user (UserSchema.ofUser user))

def handleException (exception : Exc) : Option HTTPException :=
  if exception = .authenticatedUserNotFound then some (bearerAuthenticationError "User not found")
  else if exception = PERMISSION_DENIED_ERROR then some ⟨403, "Permission denied".toList, []⟩
  else none

end StaffUserLookupController

/-! ## The service -/

/-- The requests of the API; `limited` is what the store of the user throttler says of a key. -/
inductive ApiRequest (ext : Externals) where
  | issueToken (request : Request) (username password : String)
  | refreshToken (refreshToken : String)
  | revokeToken (request : Request) (credentials : Option String) (limited : List Char → ℕ → Bool)
      (refreshToken : String)
  | createUser (requestBody : CreateUserRequestSchema ext)
  | currentUser (credentials : Option String)
  | staffUserLookup (credentials : Option String) (userId : ℤ)

/-- The endpoint of a request behind its dependencies. -/
def ApiRequest.execute : ApiRequest S.ext → App Reply
  | .issueToken request username password =>
    wrapRoute IssueTokenController.handleException
      (IssueTokenController.issueToken S request username password)
  | .refreshToken token =>
    wrapRoute RefreshTokenController.handleException (RefreshTokenController.refreshToken S token)
  | .revokeToken request credentials limited token =>
    authenticated S credentials fun userId =>
      match callThrottler limited 1 (userThrottlerKey S.table request userId) with
      | some httpException => return .error httpException
      | none =>
        wrapRoute RevokeTokenController.handleException
          (RevokeTokenController.revokeToken S userId token)
  | .createUser requestBody =>
    wrapRoute CreateUserController.httpException (CreateUserController.createUser S requestBody)
  | .currentUser credentials =>
    authenticated S credentials fun userId =>
      wrapRoute (fun _ => none) (CurrentUserController.getCurrentUser userId)
  | .staffUserLookup credentials userId =>
    authenticated S credentials fun actorUserId =>
      wrapRoute StaffUserLookupController.handleException
        (StaffUserLookupController.staffUserLookup actorUserId userId)

/-- The signer answers with the encoding of PyJWT, and raises where PyJWT does. -/
def Service.Signs : (c : Call) → Except Exc (Ret c) → Prop
  | .jwtEncode payload key algorithm, .ok token => S.jwt.encode payload key algorithm = some token
  | _, _ => True

/-- **The service**: requests interleaved in any order. -/
def Service.system : System State (ApiRequest S.ext) Call Ret Exc Reply where
  init s := s = State.idle S.store S.clock
  allowed _ := True
  execute := ApiRequest.execute S
  answer i s c r s' := Answer S.ext S.dialect Call.mayFail i s c r s' ∧ S.Signs c r
  environment := Administers

/-- The states of a service with its requests. -/
abbrev Service.World := Effects.World State (ApiRequest S.ext) Call Ret Exc Reply

/-- Before anything ran. -/
def Service.start : S.World := ⟨State.idle S.store S.clock, fun _ => none, []⟩

/-- Answer one call of a request; PyJWT leaves no choice. -/
def Service.perform (i : ℕ) (s : State) (c : Call) (ch : Choice) :
    Option (Except Exc (Ret c) × State) :=
  match c with
  | .jwtEncode payload key algorithm =>
    match S.jwt.encode payload key algorithm with
    | some token => FastapiTemplate.perform S.ext S.dialect Call.mayFail i s
        (.jwtEncode payload key algorithm) { ch with encoded := token }
    | none => none
  | c => FastapiTemplate.perform S.ext S.dialect Call.mayFail i s c ch

/-- Execute a schedule from the start. -/
def Service.schedule (actions : List (Action (ApiRequest S.ext) Choice)) : Option S.World :=
  S.system.schedule S.perform S.start actions

theorem Service.perform_answer {i : ℕ} {s s' : State} {c : Call} {ch : Choice}
    {r : Except Exc (Ret c)} (h : S.perform i s c ch = some (r, s')) :
    S.system.answer i s c r s' := by
  cases c with
  | jwtEncode payload key algorithm =>
    simp only [Service.perform] at h
    split at h
    · rename_i token htoken
      refine ⟨⟨_, h⟩, ?_⟩
      unfold FastapiTemplate.perform at h
      split at h
      · cases h
        exact htoken
      · split at h <;> cases h
        trivial
      · split at h
        · rename_i hf
          cases hf.2
        · cases h
    · cases h
  | _ => exact ⟨⟨ch, h⟩, trivial⟩

theorem Service.schedule_reachableIf {P : S.World → Label (ApiRequest S.ext) Call → Prop}
    {w : S.World} {actions : List (Action (ApiRequest S.ext) Choice)}
    (hP : ∀ a ∈ actions, ∀ v l, l.pid = some a.pid → P v l) (h : S.schedule actions = some w) :
    S.system.ReachableIf P w :=
  System.schedule_reachableIf (fun _ => trivial) (fun _ _ _ _ _ _ h => S.perform_answer h) hP
    (.init rfl) h

/-- The last action of a schedule is a step. -/
theorem Service.schedule_step {w w' : S.World} {actions : List (Action (ApiRequest S.ext) Choice)}
    {a : Action (ApiRequest S.ext) Choice} (hw : S.schedule actions = some w)
    (h : S.schedule (actions ++ [a]) = some w') : ∃ l, S.system.Step w l w' ∧
    l.pid = some a.pid := by
  have hw : actions.foldlM (S.system.act S.perform) S.start = some w := hw
  have hact : S.system.act S.perform w a = some w' := by
    simpa [Service.schedule, System.schedule, List.foldlM_append, hw] using h
  exact System.act_step (fun _ => trivial) (fun _ _ _ _ _ _ h => S.perform_answer h) hact

end

end FastapiTemplate.Delivery
