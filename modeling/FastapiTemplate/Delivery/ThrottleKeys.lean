/-
  The keys under which `IPThrottler` and `UserThrottler` count requests, in the
  store that they share.
-/
import FastapiTemplate.Delivery.RequestInfo
import FastapiTemplate.Foundation.Integer

namespace FastapiTemplate.Delivery

section
variable (table : LetterCase.CaseTable)

/-- `f"throttler:{method}:{path}:{identity}".lower()` -/
def throttlerKey (method path identity : List Char) : List Char :=
  LetterCase.lower table ("throttler:".toList ++ method ++ ':' :: path ++ ':' :: identity)

/-- `IPThrottler._build_key` -/
def ipThrottlerKey (settings : RequestInfoServiceSettings) (request : Request) : List Char :=
  let userIp := (getUserIpTrace table settings request).getD "None".toList
  throttlerKey table request.scope.method (Url.path request.scope.url) userIp

/-- `UserThrottler._build_key`, with `request.state.user_id`. -/
def userThrottlerKey (request : Request) (userId : ℤ) : List Char :=
  throttlerKey table request.scope.method (Url.path request.scope.url) (Text.str userId)

/-- `BaseThrottler.__call__`: what it raises, where the store may say that a key is limited. -/
def callThrottler (limited : List Char → ℕ → Bool) (cost : ℕ) (key : List Char) :
    Option HTTPException :=
  if limited key cost then some ⟨429, "Too many requests".toList, []⟩ else none

end

end FastapiTemplate.Delivery
