/-
  Access tokens: how PyJWT encodes the claims of a payload and what it checks
  when it decodes them, and the two operations of `JWTService`.
-/
import FastapiTemplate.Core.Authentication
import FastapiTemplate.Foundation.Integer

namespace FastapiTemplate

/-! ## Python values -/

/-- What `int` raises. -/
inductive IntError where
  | typeError
  | valueError
  | overflowError
  deriving DecidableEq

/-- `int(x)` cuts the fraction off. -/
def PyFloat.toInt : PyFloat → Except IntError ℤ
  | finite negative mantissa exponent =>
    let n : ℕ :=
      if 0 ≤ exponent then mantissa <<< exponent.toNat else mantissa >>> (-exponent).toNat
    .ok (if negative then -(n : ℤ) else n)
  | infinity _ => .error .overflowError
  | nan => .error .valueError

section
variable (maxStrDigits : ℕ)

/-- `sys.get_int_max_str_digits()` bounds the conversions between `str` and `int`; zero is no
    bound. -/
def withinMaxStrDigits (s : List Char) : Bool :=
  maxStrDigits = 0 || s.countP Text.isDecimal ≤ maxStrDigits

/-- `str(n)`; `none` if it raises `ValueError`. -/
def strOfInt (n : ℤ) : Option String :=
  if withinMaxStrDigits maxStrDigits (Text.str n) then some (toString n) else none

mutual

/-- `json.dumps` writes the value, whose integers all have a text. -/
def Json.serialisable : Json → Bool
  | .null | .bool _ | .float _ | .str _ => true
  | .int n => withinMaxStrDigits maxStrDigits (Text.str n)
  | .arr items => serialisableItems items
  | .obj entries => serialisableEntries entries

/-- The items of a list are written. -/
def serialisableItems : List Json → Bool
  | [] => true
  | item :: items => item.serialisable && serialisableItems items

/-- The values of a dictionary are written. -/
def serialisableEntries : List (String × Json) → Bool
  | [] => true
  | (_, value) :: entries => value.serialisable && serialisableEntries entries

end

/-- `int(value)` -/
def Json.toInt : Json → Except IntError ℤ
  | null | arr _ | obj _ => .error .typeError
  | bool b => .ok (if b then 1 else 0)
  | int n => .ok n
  | float x => x.toInt
  | str s =>
    if withinMaxStrDigits maxStrDigits s.toList then (Text.readInt s.toList).elim
      (.error .valueError) .ok
    else .error .valueError

@[simp] theorem Json.toInt_int (n : ℤ) : (int n).toInt maxStrDigits = .ok n := rfl

/-- `bool(value)` -/
def Json.truthy : Json → Bool
  | null => false
  | bool b => b
  | int n => n ≠ 0
  | float (.finite _ mantissa _) => mantissa ≠ 0
  | float _ => true
  | str s => s ≠ ""
  | arr items => !items.isEmpty
  | obj entries => !entries.isEmpty

def Json.isStr : Json → Bool
  | str _ => true
  | _ => false

@[simp] theorem Json.isStr_str (s : String) : (str s).isStr = true := rfl

/-! ## PyJWT -/

/-- A dictionary of decoded claims. -/
abbrev Payload := List (String × Json)

inductive JWTError where
  /-- the subclass `ExpiredSignatureError` -/
  | expiredSignature
  /-- `InvalidTokenError`, or one of its other subclasses -/
  | invalidToken
  /-- what `int` raises for a claim that is no number -/
  | raised (e : IntError)
  deriving DecidableEq

/-- The seconds since 1970 of an instant, without their fraction. -/
def numericDate (t : Instant) : ℤ := t / 1000000

/-- The instant of a number of seconds since 1970. -/
def ofNumericDate (seconds : ℤ) : Instant := seconds * 1000000

/-- A claim as it is encoded. -/
def Claim.encoded : Claim → Json
  | json value => value
  | datetime t => .int (numericDate t)

/-- Values are JSON-serialisable, the issuer is a string, and only the time claims may be
    datetimes. -/
def encodable : String × Claim → Bool
  | (claim, .json value) => value.serialisable maxStrDigits && (claim ≠ "iss" || value.isStr)
  -- at most 12 digits, where the limit is never below 640
  | (claim, .datetime _) => ["exp", "iat", "nbf"].contains claim

/-- A claim that is a number of seconds. -/
def verifyTime (payload : Payload) (claim : String) (verify : ℤ → Option JWTError) :
    Option JWTError :=
  match payload.lookup claim with
  | none => none
  | some value =>
    match value.toInt maxStrDigits with
    | .ok seconds => verify seconds
    | .error .valueError => some .invalidToken
    | .error e => some (.raised e)

/-- A claim that is a string. -/
def verifyString (payload : Payload) (claim : String) : Option JWTError :=
  match payload.lookup claim with
  | none => none
  | some value => if value.isStr then none else some .invalidToken

/-- No audience is expected. -/
def verifyAudience (payload : Payload) : Option JWTError :=
  match payload.lookup "aud" with
  | none => none
  | some value => if value.truthy then some .invalidToken else none

def verifyRequired (payload : Payload) (claim : String) : Option JWTError :=
  match payload.lookup claim with
  | none | some .null => some .invalidToken
  | some _ => none

/-- What the registered claims are checked for, in order. -/
def claimErrors (require : List String) (now : Instant) (payload : Payload) :
    List (Option JWTError) :=
  let immature (seconds : ℤ) :=
    if now < ofNumericDate seconds then some JWTError.invalidToken else none
  let expired (seconds : ℤ) :=
    if ofNumericDate seconds ≤ now then some JWTError.expiredSignature else none
  require.map (verifyRequired payload) ++
    [verifyTime maxStrDigits payload "iat" immature, verifyTime maxStrDigits payload "nbf" immature,
      verifyTime maxStrDigits payload "exp" expired, verifyAudience payload,
      verifyString payload "sub",
      verifyString payload "jti"]

/-- The first check that fails counts. -/
def verifyClaims (require : List String) (now : Instant) (payload : Payload) :
    Except JWTError Payload :=
  match (claimErrors maxStrDigits require now payload).findSome? id with
  | none => .ok payload
  | some e => .error e

end

/-- `jwt.encode`, which raises for some payloads, and `jwt.decode` at an instant. -/
structure PyJWT where
  encode (payload : List (String × Claim)) (key algorithm : String) : Option String
  decode (jwt key : String) (algorithms require : List String) (now : Instant) :
    Except JWTError Payload

/-- What is documented of PyJWT, for one payload: decoding inverts encoding with the same key and
    algorithm, and verifies the registered claims. -/
structure PyJWT.Documented (jwt : PyJWT) (maxStrDigits : ℕ) (key algorithm : String)
    (payload : List (String × Claim)) : Prop where
  encode_isSome : (jwt.encode payload key algorithm).isSome = payload.all (encodable maxStrDigits)
  decode_encode : ∀ token, jwt.encode payload key algorithm = some token → ∀ require now,
    jwt.decode token key [algorithm] require now =
      verifyClaims maxStrDigits require now (payload.map fun e => (e.1, e.2.encoded))

/-! ## JWTService -/

/-- The payload of `issue_access_token`. -/
def accessTokenPayload (settings : JWTServiceSettings) (sub : String)
    (payloadKwargs : List (String × Claim))
    (iat : Instant) : List (String × Claim) :=
  let payload := setEntry payloadKwargs "sub" (.json (.str sub))
  let payload := setEntry payload "exp" (.datetime (iat + settings.accessTokenExpire))
  let payload := setEntry payload "iat" (.datetime iat)
  setEntry payload "typ" (.json (.str settings.typ))

/-- The keyword arguments that `issue_access_token` does not name, where every value is JSON. -/
structure PayloadKwargs where
  entries : List (String × Json)
  nodup : (entries.map Prod.fst).Nodup

/-- The keyword arguments as claims. -/
def PayloadKwargs.claims (payloadKwargs : PayloadKwargs) : List (String × Claim) :=
  payloadKwargs.entries.map fun e => (e.1, .json e.2)

section
variable (jwt : PyJWT) (maxStrDigits : ℕ) (settings : JWTServiceSettings)

/-- `issue_access_token(user_id=user_id, **payload_kwargs)` at an instant, for an integer of any
    size;
    `none` if it raises, as the call does if an argument is given twice. -/
def issueAccessTokenAt (iat : Instant) (userId : ℤ) (payloadKwargs : PayloadKwargs) :
    Option String :=
  if payloadKwargs.entries.any fun e => e.1 = "self" || e.1 = "user_id" then none
  else (strOfInt maxStrDigits userId).bind fun sub =>
    jwt.encode (accessTokenPayload settings sub payloadKwargs.claims iat) settings.secretKey
      settings.algorithm

/-- `decode_token` at an instant. -/
def decodeToken (now : Instant) (token : String) : Except JWTError Payload :=
  match jwt.decode token settings.secretKey [settings.algorithm] ["exp", "iat", "sub",
    "typ"] now with
  | .error e => .error e
  | .ok payload =>
    match payload.lookup "typ" with
    | some (.str typ) => if typ = settings.typ then .ok payload else .error .invalidToken
    | _ => .error .invalidToken

end

end FastapiTemplate
