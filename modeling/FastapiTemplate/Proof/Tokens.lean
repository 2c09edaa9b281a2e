/-
  Access tokens identify their user: a token that the service replied with
  stands, in every request and at every instant, for the account that it was
  granted to, and for nobody else (`tokens_identify`).
-/
import FastapiTemplate.Proof.Authority

namespace FastapiTemplate.Delivery

open Effects

/-! ## Issued tokens -/

section
variable (S : Service) (userId : ℤ) (iat now : Instant)

/-- The use cases give no keyword arguments. -/
def noKwargs : PayloadKwargs := ⟨[], List.nodup_nil⟩

/-- The claims of an access token that the service signs for the user. -/
def accessClaims : Payload := issuedClaims S.settings.jwt (toString userId) noKwargs iat

/-- What the service answers to a request with the token at an instant: whole seconds count, from
    that of its issue to that of its expiry. -/
def standing : Except HTTPException AuthenticatedRequestState :=
  if now < ofNumericDate (numericDate iat) then .error (bearerAuthenticationError "Invalid token")
  else if ofNumericDate (numericDate (iat + S.settings.jwt.accessTokenExpire)) ≤ now then
    .error (bearerAuthenticationError "Token has expired")
  else if withinMaxStrDigits S.maxStrDigits (Text.str userId) then
    .ok ⟨some (accessClaims S userId iat), some userId⟩
  else .error (bearerAuthenticationError "Token payload has invalid 'sub' field")

end

section
variable {S : Service} {userId : ℤ} {iat now : Instant} {token : String}

theorem accessClaims_eq : accessClaims S userId iat =
    (accessPayload S.toDeployment userId iat).map fun e => (e.1, e.2.encoded) := rfl

/-- The first check that fails. -/
theorem verifyClaims_access :
    verifyClaims S.maxStrDigits ["exp", "iat", "sub", "typ"] now (accessClaims S userId iat) =
    if now < ofNumericDate (numericDate iat) then .error .invalidToken
    else if ofNumericDate (numericDate (iat + S.settings.jwt.accessTokenExpire)) ≤
    now then .error .expiredSignature
    else .ok (accessClaims S userId iat) := by
  have herrors :
      (claimErrors S.maxStrDigits ["exp", "iat", "sub", "typ"] now
      (accessClaims S userId iat)).findSome? id =
      if now < ofNumericDate (numericDate iat) then some .invalidToken
      else if ofNumericDate (numericDate (iat + S.settings.jwt.accessTokenExpire)) ≤
      now then some .expiredSignature
      else none := by
    simp [claimErrors, verifyRequired, verifyTime, verifyAudience, verifyString, accessClaims,
      noKwargs, issuedClaims_other]
    split_ifs <;> rfl
  rw [verifyClaims, herrors]
  split_ifs <;> rfl

/-- A subject that is too long for `int`. -/
theorem getSubjectUserId_long (h : withinMaxStrDigits S.maxStrDigits (Text.str userId) = false) :
    JWTAuth.getSubjectUserId S.maxStrDigits (accessClaims S userId iat) =
      .error (.bearer "Token payload has invalid 'sub' field") := by
  have hsub : (accessClaims S userId iat).lookup "sub" = some (.str (toString userId)) :=
    issuedClaims_sub
  have hint : (Json.str (toString userId)).toInt S.maxStrDigits = .error .valueError := by
    rw [Json.toInt, ← Text.str, h]
    rfl
  unfold JWTAuth.getSubjectUserId
  rw [hsub]
  simp only [hint]

section
variable (hjwt : S.jwt.Documented S.maxStrDigits S.settings.jwt.secretKey S.settings.jwt.algorithm
    (accessPayload S.toDeployment userId iat))
  (htoken : S.jwt.encode (accessPayload S.toDeployment userId iat) S.settings.jwt.secretKey
    S.settings.jwt.algorithm = some token)
include hjwt htoken

theorem getTokenPayload_access : JWTAuth.getTokenPayload S.jwt S.settings.jwt now token =
    if now < ofNumericDate (numericDate iat) then .error (.bearer "Invalid token")
    else if ofNumericDate (numericDate (iat + S.settings.jwt.accessTokenExpire)) ≤ now then
      .error (.bearer "Token has expired")
    else .ok (accessClaims S userId iat) := by
  have hdecode := hjwt.decode_encode token htoken ["exp", "iat", "sub", "typ"] now
  rw [← accessClaims_eq, verifyClaims_access] at hdecode
  have htyp : (accessClaims S userId iat).lookup "typ" = some (.str S.settings.jwt.typ) :=
    issuedClaims_typ
  rw [JWTAuth.getTokenPayload, decodeToken, hdecode]
  split_ifs
  · rfl
  · rfl
  · simp [htyp]

theorem call_access :
    JWTAuth.call S.jwt S.maxStrDigits S.settings.jwt true now (some token) ⟨none, none⟩ =
    if now < ofNumericDate (numericDate iat) then (.error (.bearer "Invalid token"), ⟨none, none⟩)
    else if ofNumericDate (numericDate (iat + S.settings.jwt.accessTokenExpire)) ≤ now then
      (.error (.bearer "Token has expired"), ⟨none, none⟩)
    else if withinMaxStrDigits S.maxStrDigits (Text.str userId) then
      (.ok (some token), ⟨some (accessClaims S userId iat), some userId⟩)
    else (.error (.bearer "Token payload has invalid 'sub' field"),
      ⟨some (accessClaims S userId iat), none⟩) := by
  have hsub : (accessClaims S userId iat).lookup "sub" = some (.str (toString userId)) :=
    issuedClaims_sub
  rw [JWTAuth.call, getTokenPayload_access hjwt htoken]
  split_ifs with hiat hexp hdigits
  · rfl
  · rfl
  · simp only [getSubjectUserId_str hsub hdigits]
  · simp only [getSubjectUserId_long (Bool.eq_false_iff.2 hdigits)]

theorem jwtAuthAt_access : jwtAuthAt S now (some token) = .ok (standing S userId iat now) := by
  rw [jwtAuthAt, call_access hjwt htoken, standing]
  split_ifs <;> rfl

/-- Whom the token stands for at an instant. -/
theorem subject_access : S.subject now (some token) =
    (standing S userId iat now).toOption.bind (·.userId) := by
  rw [Service.subject, call_access hjwt htoken, standing]
  split_ifs <;> rfl

theorem subject_unique {v : ℤ} (h : S.subject now (some token) = some v) : v = userId := by
  rw [subject_access hjwt htoken, standing] at h
  split_ifs at h <;> cases h
  rfl

end

end

/-! ## Replies with a token -/

variable {S : Service} {w : S.World} {i : ℕ} {req : ApiRequest S.ext}

/-- Whom a token is granted to: the active account whose password was verified, or that of an active
    session. -/
inductive Granted (S : Service) (w : S.World) (i : ℕ) : ApiRequest S.ext → ℤ → Prop
  | password {request username password store u} : During w i store → u ∈ store.users →
      u.username = normalizeUsername S.ext username → u.isActive = true →
      S.ext.verifyPassword password u.passwordHash = .ok true →
      Granted S w i (.issueToken request username password) u.id
  | refresh {token row} : Holds w i token row → HeldActive w i row.userId (fun _ => True) →
      Granted S w i (.refreshToken token) row.userId

/-- **What the token is good for**: the account, from the second of its issue to that of its
    expiry. -/
structure Identifies (S : Service) (w : S.World) (token : String) (userId : ℤ) (iat : Instant) :
    Prop where
  auth : ∀ now, jwtAuthAt S now (some token) = .ok (standing S userId iat now)
  acts : ∀ {j v}, Acts w j (some token) v → v = userId
  currentUser : ∀ {j user}, w.procs j = some ⟨.currentUser (some token), .ret (.ok (.user user))⟩ →
    user.id = userId
  revokeToken : ∀ {j request limited refreshToken body},
    w.procs j = some ⟨.revokeToken request (some token) limited refreshToken, .ret (.ok body)⟩ →
      ∃ row, Holds w j refreshToken row ∧ row.userId = userId
  staffUserLookup : ∀ {j target body},
    w.procs j = some ⟨.staffUserLookup (some token) target, .ret (.ok body)⟩ →
      HeldActive w j userId (·.isStaff = true)

theorem Signed.identifies {userId : ℤ} {tokens : TokenDTO} (hS : S.store.Valid)
    (hw : S.system.Reachable w)
    (hjwt : ∀ userId iat,
    S.jwt.encode (accessPayload S.toDeployment userId iat) S.settings.jwt.secretKey
        S.settings.jwt.algorithm = some tokens.accessToken →
      S.jwt.Documented S.maxStrDigits S.settings.jwt.secretKey S.settings.jwt.algorithm
        (accessPayload S.toDeployment userId iat))
    (h : Signed w i userId tokens) :
    ∃ iat, w.Saw i .now iat ∧ Identifies S w tokens.accessToken userId iat := by
  obtain ⟨iat, hsaw, htoken⟩ := h
  have hdoc := hjwt userId iat htoken
  have hacts : ∀ {j v}, Acts w j (some tokens.accessToken) v → v = userId := by
    rintro j v ⟨now, -, hsub⟩
    exact subject_unique hdoc htoken hsub
  refine ⟨iat, hsaw, fun now => jwtAuthAt_access hdoc htoken, hacts, ?_, ?_, ?_⟩
  · intro j user hp
    cases responds_justified hS hw hp with
    | currentUser ha _ _ hid _ => exact hid.trans (hacts ha)
  · intro j request limited refreshToken body hp
    cases responds_justified hS hw hp with
    | revoked ha _ hrow hid => exact ⟨_, hrow, hid.trans (hacts ha)⟩
  · intro j target body hp
    cases responds_justified hS hw hp with
    | lookedUp ha hstaff => exact hacts ha ▸ hstaff

/-- **Access tokens identify their user**, in every run. -/
theorem tokens_identify {tokens : TokenDTO} (hS : S.store.Valid) (hw : S.system.Reachable w)
    (hjwt : ∀ userId iat,
    S.jwt.encode (accessPayload S.toDeployment userId iat) S.settings.jwt.secretKey
        S.settings.jwt.algorithm = some tokens.accessToken →
      S.jwt.Documented S.maxStrDigits S.settings.jwt.secretKey S.settings.jwt.algorithm
        (accessPayload S.toDeployment userId iat))
    (hp : w.procs i = some ⟨req, .ret (.ok (.token tokens))⟩) :
    ∃ userId iat, Granted S w i req userId ∧ w.Saw i .now iat ∧
      Identifies S w tokens.accessToken userId iat := by
  cases responds_justified hS hw hp with
  | loggedIn hd hu hname ha hverify hsigned =>
    obtain ⟨iat, hsaw, h⟩ := hsigned.identifies hS hw hjwt
    exact ⟨_, iat, .password hd hu hname ha hverify, hsaw, h⟩
  | refreshed hrow hactive hsigned =>
    obtain ⟨iat, hsaw, h⟩ := hsigned.identifies hS hw hjwt
    exact ⟨_, iat, .refresh hrow hactive, hsaw, h⟩

namespace Sample

/-- The payload of `root` at the instant 0. -/
def isRoots : List (String × Claim) → Bool
  | ("sub", .json (.str sub)) :: _ :: ("iat", .datetime iat) :: _ => sub = "2" && iat = 0
  | _ => false

/-- Only this payload has the access token of `root`. -/
def issuer : Service :=
  { service with jwt := { service.jwt with
    encode := fun payload _ _ => some (if isRoots payload then rootToken else "") } }

theorem issuer_valid : issuer.store.Valid := valid

/-- `root` signs in, and asks for its account a minute later. -/
def signInAndAsk (n : ℕ) : List (Action (ApiRequest issuer.ext) Choice) :=
  signIn 0 18 { token := FastapiTemplate.Sample.tokenA, uuid := 7 } ++
    serve 1 (.currentUser (some rootToken)) n { session := 1, now := 60000000 }

end Sample

theorem Sample.documented {userId : ℤ} {iat : Instant}
    (h : Sample.issuer.jwt.encode (accessPayload Sample.issuer.toDeployment userId iat)
      Sample.issuer.settings.jwt.secretKey Sample.issuer.settings.jwt.algorithm =
      some Sample.rootToken) :
    Sample.issuer.jwt.Documented Sample.issuer.maxStrDigits Sample.issuer.settings.jwt.secretKey
      Sample.issuer.settings.jwt.algorithm
        (accessPayload Sample.issuer.toDeployment userId iat) := by
  have hroots : Sample.isRoots (accessPayload Sample.issuer.toDeployment userId iat) = true := by
    by_contra hno
    have h : some (if Sample.isRoots (accessPayload Sample.issuer.toDeployment userId iat) then
      Sample.rootToken else "") = some Sample.rootToken := h
    rw [if_neg hno] at h
    exact absurd h (by decide)
  obtain ⟨huser, rfl⟩ : toString userId = "2" ∧ iat = 0 := by
    simpa [Sample.isRoots, accessPayload] using hroots
  have hpayload : accessPayload Sample.issuer.toDeployment userId 0 =
      accessPayload (FastapiTemplate.Sample.deployment .sqlite) 2 0 := by
    rw [accessPayload, huser]
    rfl
  rw [hpayload]
  refine ⟨rfl, fun token htoken require now => ?_⟩
  cases htoken
  rfl

theorem tokens_identify_root : ∃ w req userId iat tokens,
    Sample.issuer.schedule (Sample.signInAndAsk 12) = some w ∧
      w.procs 0 = some ⟨req, .ret (.ok (.token tokens))⟩ ∧ Granted Sample.issuer w 0 req userId ∧
      Identifies Sample.issuer w tokens.accessToken userId iat := by
  have hrun : (Sample.issuer.schedule (Sample.signInAndAsk 12)).any (fun w => Sample.reply w 0 =
      some (.ok (.token ⟨Sample.rootToken, FastapiTemplate.Sample.tokenA⟩))) = true := by
    decide +kernel
  obtain ⟨w, hw, hrun⟩ := (Option.any_eq_true _ _).1 hrun
  obtain ⟨req, hp⟩ := Sample.reply_spec (of_decide_eq_true hrun)
  obtain ⟨userId, iat, hgranted, -, h⟩ := tokens_identify Sample.issuer_valid
    (Service.schedule_reachableIf _ (fun _ _ _ _ _ => trivial) hw) (fun _ _ => Sample.documented) hp
  exact ⟨w, req, userId, iat, _, hw, hp, hgranted, h⟩

end FastapiTemplate.Delivery
