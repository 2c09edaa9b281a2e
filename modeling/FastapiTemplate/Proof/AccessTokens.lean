/-
  Access tokens are read back.

  * `lookup_issuedClaims`: what an issued token says.
  * `verifyClaims_issued_iff`: when its claims are accepted.
  * `roundTrip_iff`: exactly when it is decoded, and its user found again.
  * `access_token_round_trip`: the round trip, for keyword arguments that do
    not restrict the token.
-/
import FastapiTemplate.Delivery.JWTAuth
import FastapiTemplate.Lib.Entries

namespace FastapiTemplate

/-! ## Payloads -/

section
variable {payload : List (String × Claim)} {key key' : String} {value : Claim}

theorem any_iff_mem_keys : payload.any (·.1 = key) = true ↔ key ∈ payload.map Prod.fst := by
  simp

/-- The entry that is set, and the others. -/
theorem lookup_setEntry :
    (setEntry payload key value).lookup key' = if key' =
    key then some value else payload.lookup key' := by
  unfold setEntry
  by_cases hany : payload.any (·.1 = key) = true
  · rw [if_pos hany]
    exact Entries.lookup_replaced (any_iff_mem_keys.1 hany)
  · rw [if_neg hany]
    exact Entries.lookup_append_of_notMem fun hmem => hany (any_iff_mem_keys.2 hmem)

theorem nodup_setEntry (h : (payload.map Prod.fst).Nodup) :
    ((setEntry payload key value).map Prod.fst).Nodup := by
  unfold setEntry
  by_cases hany : payload.any (·.1 = key) = true
  · have hkeys : (payload.map fun e => if e.1 = key then (key, value) else e).map Prod.fst =
        payload.map Prod.fst := by
      rw [List.map_map]
      refine List.map_congr_left fun e _ => ?_
      rw [Function.comp_apply]
      split_ifs with heq
      · exact heq.symm
      · rfl
    rwa [if_pos hany, hkeys]
  · rw [if_neg hany, List.map_append, List.nodup_append_comm]
    exact List.nodup_cons.2 ⟨fun hmem => hany (any_iff_mem_keys.2 hmem), h⟩

end

section
variable {settings : JWTServiceSettings} {sub : String} {payloadKwargs : PayloadKwargs}
    {iat now : Instant} {key : String}

theorem nodup_claims : (payloadKwargs.claims.map Prod.fst).Nodup := by
  rw [PayloadKwargs.claims, List.map_map]
  exact payloadKwargs.nodup

theorem nodup_accessTokenPayload :
    ((accessTokenPayload settings sub payloadKwargs.claims iat).map Prod.fst).Nodup :=
  nodup_setEntry (nodup_setEntry (nodup_setEntry (nodup_setEntry nodup_claims)))

/-- The core claims win over the keyword arguments. -/
theorem lookup_accessTokenPayload :
    (accessTokenPayload settings sub payloadKwargs.claims iat).lookup key =
    if key = "typ" then some (.json (.str settings.typ))
    else if key = "iat" then some (.datetime iat)
    else if key = "exp" then some (.datetime (iat + settings.accessTokenExpire))
    else if key = "sub" then some (.json (.str sub))
    else (payloadKwargs.entries.lookup key).map .json := by
  have hkwargs : payloadKwargs.claims.lookup key = (payloadKwargs.entries.lookup key).map .json :=
    Entries.lookup_map_snd Claim.json
  rw [accessTokenPayload, lookup_setEntry, lookup_setEntry, lookup_setEntry, lookup_setEntry,
    hkwargs]

/-- The claims of an issued token. -/
def issuedClaims (settings : JWTServiceSettings) (sub : String) (payloadKwargs : PayloadKwargs)
    (iat : Instant) :
    Payload :=
  (accessTokenPayload settings sub payloadKwargs.claims iat).map fun e => (e.1, e.2.encoded)

theorem lookup_issuedClaims : (issuedClaims settings sub payloadKwargs iat).lookup key =
    if key = "typ" then some (.str settings.typ)
    else if key = "iat" then some (.int (numericDate iat))
    else if key = "exp" then some (.int (numericDate (iat + settings.accessTokenExpire)))
    else if key = "sub" then some (.str sub)
    else payloadKwargs.entries.lookup key := by
  rw [issuedClaims, Entries.lookup_map_snd Claim.encoded, lookup_accessTokenPayload]
  split_ifs
  · rfl
  · rfl
  · rfl
  · rfl
  · cases payloadKwargs.entries.lookup key <;> rfl

@[simp] theorem issuedClaims_typ :
    (issuedClaims settings sub payloadKwargs iat).lookup "typ" = some (.str settings.typ) := by
  simp [lookup_issuedClaims]

@[simp] theorem issuedClaims_iat :
    (issuedClaims settings sub payloadKwargs iat).lookup "iat" = some (.int (numericDate iat)) := by
  simp [lookup_issuedClaims]

@[simp] theorem issuedClaims_exp : (issuedClaims settings sub payloadKwargs iat).lookup "exp" =
    some (.int (numericDate (iat + settings.accessTokenExpire))) := by
  simp [lookup_issuedClaims]

@[simp] theorem issuedClaims_sub :
    (issuedClaims settings sub payloadKwargs iat).lookup "sub" = some (.str sub) := by
  simp [lookup_issuedClaims]

theorem issuedClaims_other (h : key ∉ ["sub", "exp", "iat", "typ"]) :
    (issuedClaims settings sub payloadKwargs iat).lookup key =
    payloadKwargs.entries.lookup key := by
  simp only [List.mem_cons, List.not_mem_nil, or_false, not_or] at h
  obtain ⟨hsub, hexp, hiat, htyp⟩ := h
  rw [lookup_issuedClaims, if_neg htyp, if_neg hiat, if_neg hexp, if_neg hsub]

/-- What may be refused: a value that JSON cannot have, and an issuer that is no string. -/
theorem encodable_accessTokenPayload {maxStrDigits : ℕ} :
    (accessTokenPayload settings sub payloadKwargs.claims iat).all (encodable maxStrDigits) = true ↔
      (∀ key value, payloadKwargs.entries.lookup key = some value →
        key ∉ ["sub", "exp", "iat", "typ"] → value.serialisable maxStrDigits = true) ∧
      ∀ value, payloadKwargs.entries.lookup "iss" = some value → value.isStr = true := by
  rw [Entries.all_iff_lookup nodup_accessTokenPayload]
  constructor
  · intro h
    have hother : ∀ key value, payloadKwargs.entries.lookup key = some value →
        key ∉ ["sub", "exp", "iat", "typ"] → encodable maxStrDigits (key, .json value) = true := by
      intro key value hvalue hkey
      simp only [List.mem_cons, List.not_mem_nil, or_false, not_or] at hkey
      obtain ⟨hsub, hexp, hiat, htyp⟩ := hkey
      refine h key (.json value) ?_
      rw [lookup_accessTokenPayload, if_neg htyp, if_neg hiat, if_neg hexp, if_neg hsub, hvalue]
      rfl
    refine ⟨fun key value hvalue hkey => ?_, fun value hvalue => ?_⟩
    · exact (Bool.and_eq_true_iff.1 (hother key value hvalue hkey)).1
    · have hiss := (Bool.and_eq_true_iff.1 (hother "iss" value hvalue (by decide))).2
      simpa using hiss
  · rintro ⟨hjson, hstr⟩ key value hvalue
    rw [lookup_accessTokenPayload] at hvalue
    split_ifs at hvalue with htyp hiat hexp hsub
    · cases hvalue
      simp [encodable, Json.serialisable, htyp]
    · cases hvalue
      simp [encodable, hiat]
    · cases hvalue
      simp [encodable, hexp]
    · cases hvalue
      simp [encodable, Json.serialisable, hsub]
    · obtain ⟨value, hlookup, rfl⟩ := Option.map_eq_some_iff.1 hvalue
      have hvalue := hjson key value hlookup (by simp [htyp, hiat, hexp, hsub])
      by_cases hiss : key = "iss"
      · simp [encodable, hvalue, hstr value (hiss ▸ hlookup)]
      · simp [encodable, hvalue, hiss]

end

/-! ## Claims -/

section
variable {maxStrDigits : ℕ} {payload payload' : Payload} {claim : String} {require : List String}
    {now : Instant}

theorem verifyClaims_eq_ok_iff : verifyClaims maxStrDigits require now payload = .ok payload' ↔
    payload = payload' ∧ ∀ e ∈ claimErrors maxStrDigits require now payload, e = none := by
  have hnone : (∀ e ∈ claimErrors maxStrDigits require now payload, e = none) ↔
      (claimErrors maxStrDigits require now payload).findSome? id = none :=
    List.findSome?_eq_none_iff.symm
  rw [hnone, verifyClaims]
  cases (claimErrors maxStrDigits require now payload).findSome? id <;> simp

theorem verifyTime_eq_none_iff {verify : ℤ → Option JWTError} :
    verifyTime maxStrDigits payload claim verify = none ↔
    ∀ value, payload.lookup claim = some value →
      ∃ seconds, value.toInt maxStrDigits = .ok seconds ∧ verify seconds = none := by
  unfold verifyTime
  cases payload.lookup claim with
  | none => simp
  | some value =>
    cases hseconds : value.toInt maxStrDigits with
    | ok seconds => simp [hseconds]
    | error e => cases e <;> simp [hseconds]

theorem verifyString_eq_none_iff : verifyString payload claim = none ↔
    ∀ value, payload.lookup claim = some value → value.isStr = true := by
  unfold verifyString
  cases payload.lookup claim <;> simp

theorem verifyAudience_eq_none_iff : verifyAudience payload = none ↔
    ∀ value, payload.lookup "aud" = some value → value.truthy = false := by
  unfold verifyAudience
  cases payload.lookup "aud" <;> simp

end

/-! ## The round trip -/

section
variable (maxStrDigits : ℕ) (payloadKwargs : PayloadKwargs) (now : Instant)

/-- The keyword arguments make a token that is accepted at the instant. -/
structure PayloadKwargs.AcceptedAt : Prop where
  /-- No argument is given twice. -/
  names : ∀ e ∈ payloadKwargs.entries, e.1 ≠ "self" ∧ e.1 ≠ "user_id"
  /-- Every value that no core claim overrides is JSON-serialisable. -/
  json : ∀ key value, payloadKwargs.entries.lookup key = some value →
    key ∉ ["sub", "exp", "iat", "typ"] → value.serialisable maxStrDigits = true
  iss : ∀ value, payloadKwargs.entries.lookup "iss" = some value → value.isStr = true
  nbf : ∀ value, payloadKwargs.entries.lookup "nbf" = some value →
    ∃ seconds, value.toInt maxStrDigits = .ok seconds ∧ ofNumericDate seconds ≤ now
  aud : ∀ value, payloadKwargs.entries.lookup "aud" = some value → value.truthy = false
  jti : ∀ value, payloadKwargs.entries.lookup "jti" = some value → value.isStr = true

end

section
variable (jwt : PyJWT) (maxStrDigits : ℕ) (settings : JWTServiceSettings) (iat now : Instant)
    (userId : ℤ)
  (payloadKwargs : PayloadKwargs)

/-- The token issued at one instant is decoded at the other, and the user is found again. -/
def RoundTrip : Prop :=
  ∃ token payload, issueAccessTokenAt jwt maxStrDigits settings iat userId payloadKwargs =
    some token ∧
    decodeToken jwt settings now token = .ok payload ∧
    payload.lookup "sub" = some (.str (toString userId)) ∧
    payload.lookup "typ" = some (.str settings.typ) ∧
    payload.lookup "exp" = some (.int (numericDate (iat + settings.accessTokenExpire))) ∧
    (∀ key value, payloadKwargs.entries.lookup key = some value →
    key ∉ ["sub", "exp", "iat", "typ"] →
      payload.lookup key = some value) ∧
    ∀ required state,
      (Delivery.JWTAuth.call jwt maxStrDigits settings required now (some token) state).1 =
        .ok (some token) ∧
      (Delivery.JWTAuth.call jwt maxStrDigits settings required now (some token) state).2.userId =
        some userId

end

section
variable {jwt : PyJWT} {maxStrDigits : ℕ} {settings : JWTServiceSettings} {iat now : Instant}
    {userId : ℤ}
  {payloadKwargs : PayloadKwargs} {token sub : String} {payload : Payload}

theorem ofNumericDate_numericDate_le (t : Instant) : ofNumericDate (numericDate t) ≤ t := by
  exact Int.ediv_mul_le t (by decide)

/-- When the claims of an issued token are accepted. -/
theorem verifyClaims_issued_iff (hiat : iat ≤ now) :
    verifyClaims maxStrDigits ["exp", "iat", "sub", "typ"] now
      (issuedClaims settings sub payloadKwargs iat) = .ok payload ↔
      issuedClaims settings sub payloadKwargs iat = payload ∧
      (∀ value, payloadKwargs.entries.lookup "nbf" = some value →
        ∃ seconds, value.toInt maxStrDigits = .ok seconds ∧ ofNumericDate seconds ≤ now) ∧
      now < ofNumericDate (numericDate (iat + settings.accessTokenExpire)) ∧
      (∀ value, payloadKwargs.entries.lookup "aud" = some value → value.truthy = false) ∧
      ∀ value, payloadKwargs.entries.lookup "jti" = some value → value.isStr = true := by
  have hissued : ofNumericDate (numericDate iat) ≤ now :=
    (ofNumericDate_numericDate_le iat).trans hiat
  have hrequired : ∀ claim ∈ ["exp", "iat", "sub", "typ"],
      verifyRequired (issuedClaims settings sub payloadKwargs iat) claim = none := by
    simp [verifyRequired]
  have hnbf : (issuedClaims settings sub payloadKwargs iat).lookup "nbf" =
      payloadKwargs.entries.lookup "nbf" :=
    issuedClaims_other (by decide)
  have haud : (issuedClaims settings sub payloadKwargs iat).lookup "aud" =
      payloadKwargs.entries.lookup "aud" :=
    issuedClaims_other (by decide)
  have hjti : (issuedClaims settings sub payloadKwargs iat).lookup "jti" =
      payloadKwargs.entries.lookup "jti" :=
    issuedClaims_other (by decide)
  rw [verifyClaims_eq_ok_iff, claimErrors, List.forall_mem_append, List.forall_mem_map,
    and_iff_right hrequired]
  simp only [List.forall_mem_cons, List.not_mem_nil, false_implies, implies_true, and_true,
    verifyTime_eq_none_iff, verifyAudience_eq_none_iff, verifyString_eq_none_iff,
    issuedClaims_iat, issuedClaims_exp, issuedClaims_sub, hnbf, haud, hjti]
  simp [hissued]

theorem issueAccessTokenAt_eq_some_iff :
    issueAccessTokenAt jwt maxStrDigits settings iat userId payloadKwargs = some token ↔
      (∀ e ∈ payloadKwargs.entries, e.1 ≠ "self" ∧ e.1 ≠ "user_id") ∧
      withinMaxStrDigits maxStrDigits (Text.str userId) = true ∧
      jwt.encode (accessTokenPayload settings (toString userId) payloadKwargs.claims iat)
        settings.secretKey
        settings.algorithm = some token := by
  have hnames : (payloadKwargs.entries.any fun e => e.1 = "self" || e.1 = "user_id") = false ↔
      ∀ e ∈ payloadKwargs.entries, e.1 ≠ "self" ∧ e.1 ≠ "user_id" := by
    simp
  rw [issueAccessTokenAt, strOfInt, ← hnames]
  split_ifs with hany hdigits
  · simp [hany]
  · simp [hany, hdigits]
  · simp [hany, hdigits]

theorem decodeToken_eq_ok_iff : decodeToken jwt settings now token = .ok payload ↔
    jwt.decode token settings.secretKey [settings.algorithm] ["exp", "iat", "sub", "typ"] now =
    .ok payload ∧
      payload.lookup "typ" = some (.str settings.typ) := by
  unfold decodeToken
  cases jwt.decode token settings.secretKey [settings.algorithm] ["exp", "iat", "sub",
    "typ"] now with
  | error e => simp
  | ok payload' =>
    simp only [Except.ok.injEq]
    constructor
    · intro h
      split at h
      · split_ifs at h with htyp
        cases h
        rename_i hlookup
        exact ⟨rfl, by rw [hlookup, htyp]⟩
      · cases h
    · rintro ⟨rfl, htyp⟩
      rw [htyp]
      simp

/-- The user of a token whose subject is the text of an integer. -/
theorem getSubjectUserId_str (hsub : payload.lookup "sub" = some (.str (toString userId)))
    (hdigits : withinMaxStrDigits maxStrDigits (Text.str userId) = true) :
    Delivery.JWTAuth.getSubjectUserId maxStrDigits payload = .ok userId := by
  have hint : (Json.str (toString userId)).toInt maxStrDigits = .ok userId := by
    rw [Json.toInt, ← Text.str, if_pos hdigits, Text.readInt_str]
    rfl
  unfold Delivery.JWTAuth.getSubjectUserId
  rw [hsub]
  simp only [hint]

theorem call_eq_ok {required : Bool} {state : Delivery.AuthenticatedRequestState}
    (hdecode : decodeToken jwt settings now token = .ok payload)
    (huser : Delivery.JWTAuth.getSubjectUserId maxStrDigits payload = .ok userId) :
    Delivery.JWTAuth.call jwt maxStrDigits settings required now (some token) state =
      (.ok (some token), ⟨some payload, some userId⟩) := by
  simp only [Delivery.JWTAuth.call, Delivery.JWTAuth.getTokenPayload, hdecode, huser]

/-- **When tokens are read back**: the keyword arguments do not restrict the token, the integer has
    a text, and the whole second of the expiry is not reached. -/
theorem roundTrip_iff (hjwt : jwt.Documented maxStrDigits settings.secretKey settings.algorithm
    (accessTokenPayload settings (toString userId) payloadKwargs.claims iat)) (hiat : iat ≤ now) :
    RoundTrip jwt maxStrDigits settings iat now userId payloadKwargs ↔
      payloadKwargs.AcceptedAt maxStrDigits now ∧
      withinMaxStrDigits maxStrDigits (Text.str userId) = true ∧
      now < ofNumericDate (numericDate (iat + settings.accessTokenExpire)) := by
  constructor
  · rintro ⟨token, payload, hissue, hdecode, -⟩
    obtain ⟨hnames, hdigits, hencode⟩ := issueAccessTokenAt_eq_some_iff.1 hissue
    have hverify := (decodeToken_eq_ok_iff.1 hdecode).1
    rw [hjwt.decode_encode token hencode] at hverify
    obtain ⟨-, hnbf, hexp, haud, hjti⟩ := (verifyClaims_issued_iff hiat).1 hverify
    obtain ⟨hjson, hiss⟩ :=
      encodable_accessTokenPayload.1 (by rw [← hjwt.encode_isSome, hencode]; rfl)
    exact ⟨⟨hnames, hjson, hiss, hnbf, haud, hjti⟩, hdigits, hexp⟩
  · rintro ⟨hkwargs, hdigits, hexp⟩
    have hencodes :=
      hjwt.encode_isSome.trans (encodable_accessTokenPayload.2 ⟨hkwargs.json, hkwargs.iss⟩)
    obtain ⟨token, hencode⟩ := Option.isSome_iff_exists.1 hencodes
    have hdecode : decodeToken jwt settings now token =
        .ok (issuedClaims settings (toString userId) payloadKwargs iat) :=
      decodeToken_eq_ok_iff.2 ⟨(hjwt.decode_encode token hencode _ now).trans
        ((verifyClaims_issued_iff hiat).2 ⟨rfl, hkwargs.nbf, hexp, hkwargs.aud, hkwargs.jti⟩),
        issuedClaims_typ⟩
    refine ⟨token, _, issueAccessTokenAt_eq_some_iff.2 ⟨hkwargs.names, hdigits, hencode⟩, hdecode,
      issuedClaims_sub,
      issuedClaims_typ, issuedClaims_exp, fun key value hvalue hkey =>
      (issuedClaims_other hkey).trans hvalue, ?_⟩
    intro required state
    rw [call_eq_ok hdecode (getSubjectUserId_str issuedClaims_sub hdigits)]
    exact ⟨rfl, rfl⟩

/-! ### Samples -/

namespace Sample

def jwtSettings : JWTServiceSettings where
  secretKey := "test-secret-key-with-enough-bytes"
  typ := "test+jwt"

/-- A quarter of a second after the whole second. -/
def issuedAt : Instant := 1700000000250000

/-- The keyword arguments `scope="api"`. -/
def scope : PayloadKwargs where
  entries := [("scope", .str "api")]
  nodup := by decide

/-- The keyword argument `nbf`, ten minutes after the issue. -/
def notBefore : PayloadKwargs where
  entries := [("nbf", .int 1700000600)]
  nodup := by decide

/-- The payload of user 123. -/
def issuedPayload (payloadKwargs : PayloadKwargs) : List (String × Claim) :=
  accessTokenPayload jwtSettings (toString (123 : ℤ)) payloadKwargs.claims issuedAt

/-- PyJWT, for the one payload that has this token. -/
def pyJWT (payload : List (String × Claim)) (token : String) : PyJWT where
  encode _ _ _ := some token
  decode jwt _ _ require now :=
    if jwt = token then verifyClaims 4300 require now (payload.map fun e => (e.1, e.2.encoded)) else
      .error .invalidToken

theorem documented_pyJWT {payload : List (String × Claim)} {token key algorithm : String}
    (h : payload.all (encodable 4300) = true) :
    (pyJWT payload token).Documented 4300 key algorithm payload where
  encode_isSome := h.symm
  decode_encode token' htoken require now := by
    cases htoken
    exact if_pos rfl

def scopeToken : String :=
  "eyJhbGciOiJIUzI1NiIsInR5cCI6IkpXVCJ9.eyJzY29wZSI6ImFwaSIsInN1YiI6IjEyMyIsImV4cCI6MTcwMDAwMDkwMCwiaWF0IjoxNz" ++
    "AwMDAwMDAwLCJ0eXAiOiJ0ZXN0K2p3dCJ9.FljUQOoQRwIospjw2WddEJ5i6u32ICArJw8RG5HsWGU"

def notBeforeToken : String :=
  "eyJhbGciOiJIUzI1NiIsInR5cCI6IkpXVCJ9.eyJuYmYiOjE3MDAwMDA2MDAsInN1YiI6IjEyMyIsImV4cCI6MTcwMDAwMDkwMCwiaWF0Ij" ++
    "oxNzAwMDAwMDAwLCJ0eXAiOiJ0ZXN0K2p3dCJ9.Hw4UpZnOwKbEBhuMY0Ra7fOVMb1EmhAGgHmGnfi6QKY"

end Sample

/-- **The round trip of access tokens.** -/
theorem access_token_round_trip
    (hjwt : jwt.Documented maxStrDigits settings.secretKey settings.algorithm
    (accessTokenPayload settings (toString userId) payloadKwargs.claims iat))
    (hkwargs : payloadKwargs.AcceptedAt maxStrDigits now)
    (hdigits : withinMaxStrDigits maxStrDigits (Text.str userId) = true) (hiat : iat ≤ now)
    (hexp : now < ofNumericDate (numericDate (iat + settings.accessTokenExpire))) :
    RoundTrip jwt maxStrDigits settings iat now userId payloadKwargs :=
  (roundTrip_iff hjwt hiat).2 ⟨hkwargs, hdigits, hexp⟩

/-- A minute after the issue. -/
theorem scope_round_trip :
    RoundTrip (Sample.pyJWT (Sample.issuedPayload Sample.scope) Sample.scopeToken) 4300
    Sample.jwtSettings Sample.issuedAt (Sample.issuedAt + 60000000) 123 Sample.scope := by
  refine access_token_round_trip (Sample.documented_pyJWT (by decide)) ?_ (by decide) (by decide)
    (by decide)
  constructor
  · decide
  · intro key value hvalue _
    simp only [Sample.scope, List.lookup_cons] at hvalue
    split at hvalue
    · cases hvalue
      rfl
    · cases hvalue
  all_goals
    intro value hvalue
    cases hvalue

/-- A token is not accepted before its `nbf`. -/
theorem not_before_round_trip : ¬∀ jwt payloadKwargs now,
    PyJWT.Documented jwt 4300 Sample.jwtSettings.secretKey Sample.jwtSettings.algorithm
      (Sample.issuedPayload payloadKwargs) →
      Sample.issuedAt ≤ now → now < Sample.issuedAt + Sample.jwtSettings.accessTokenExpire →
        ∃ token payload, issueAccessTokenAt jwt 4300 Sample.jwtSettings Sample.issuedAt 123
          payloadKwargs = some token ∧
          decodeToken jwt Sample.jwtSettings now token = .ok payload := by
  intro h
  obtain ⟨token, payload, hissue, hdecode⟩ :=
    h (Sample.pyJWT (Sample.issuedPayload Sample.notBefore) Sample.notBeforeToken)
    Sample.notBefore (Sample.issuedAt + 60000000) (Sample.documented_pyJWT (by decide)) (by decide)
      (by decide)
  cases hissue
  have hverify := (decodeToken_eq_ok_iff.1 hdecode).1
  rw [(Sample.documented_pyJWT (by decide)).decode_encode _ rfl] at hverify
  obtain ⟨-, hnbf, -⟩ := (verifyClaims_issued_iff (by decide)).1 hverify
  obtain ⟨seconds, hseconds, hle⟩ := hnbf (.int 1700000600) rfl
  cases hseconds
  revert hle
  decide

end

end FastapiTemplate
