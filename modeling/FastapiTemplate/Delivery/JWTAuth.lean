/-
  `JWTAuth`: the dependency that decodes a bearer token and stores its user in
  the state of the request.
-/
import FastapiTemplate.Core.AccessTokens

namespace FastapiTemplate.Delivery

/-- What an authentication raises. -/
inductive JWTAuthError where
  /-- `bearer_authentication_error` -/
  | bearer (detail : String)
  /-- what `int` raises and nothing catches -/
  | raised (e : IntError)
  deriving DecidableEq

/-- `AuthenticatedRequestState` -/
structure AuthenticatedRequestState where
  jwtPayload : Option Payload
  userId : Option ℤ

namespace JWTAuth

section
variable (jwt : PyJWT) (maxStrDigits : ℕ) (settings : JWTServiceSettings) (required : Bool)

/-- `_get_subject_user_id` -/
def getSubjectUserId (payload : Payload) : Except JWTAuthError ℤ :=
  match payload.lookup "sub" with
  | none | some .null => .error (.bearer "Token payload missing 'sub' field")
  | some userId =>
    match userId.toInt maxStrDigits with
    | .ok userId => .ok userId
    | .error .overflowError => .error (.raised .overflowError)
    | .error _ => .error (.bearer "Token payload has invalid 'sub' field")

/-- `_get_token_payload` -/
def getTokenPayload (now : Instant) (token : String) : Except JWTAuthError Payload :=
  match decodeToken jwt settings now token with
  | .ok payload => .ok payload
  | .error .expiredSignature => .error (.bearer "Token has expired")
  | .error .invalidToken => .error (.bearer "Invalid token")
  | .error (.raised e) => .error (.raised e)

/-- `__call__`, for the credentials that `HTTPBearer` finds in the request: what it returns or
    raises, and the state of the request afterwards. -/
def call (now : Instant) (credentials : Option String) (state : AuthenticatedRequestState) :
    Except JWTAuthError (Option String) × AuthenticatedRequestState :=
  match credentials with
  | none => (if required then .error (.bearer "Not authenticated") else .ok none, state)
  | some token =>
    match getTokenPayload jwt settings now token with
    | .error e => (.error e, state)
    | .ok payload =>
      let state := { state with jwtPayload := some payload }
      match getSubjectUserId maxStrDigits payload with
      | .error e => (.error e, state)
      | .ok userId => (.ok (some token), { state with userId := some userId })

end

end JWTAuth

end FastapiTemplate.Delivery
