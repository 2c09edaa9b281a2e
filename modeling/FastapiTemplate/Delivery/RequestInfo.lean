/-
  `RequestInfoService`: the user agent and the addresses of the client of a
  request.
-/
import FastapiTemplate.Delivery.Throttling
import FastapiTemplate.Foundation.Text
import FastapiTemplate.Lib.IPAddress
import FastapiTemplate.Lib.LetterCase

namespace FastapiTemplate.Delivery

/-- A Starlette request: its scope, the headers as the server passes them on (their names are in
    lower case), and the host and port of the peer. -/
structure Request where
  scope : Scope
  headers : List (List Char × List Char)
  client : Option (List Char × ℕ)

structure RequestInfoServiceSettings where
  ipHeader : List Char := "x-forwarded-for".toList
  trustForwardedIpHeader : Bool := false
  userAgentHeader : List Char := "user-agent".toList

section
variable (table : LetterCase.CaseTable)

/-- `request.headers.get(name)`: the first header of that name counts. -/
def Request.header (request : Request) (name : List Char) : Option (List Char) :=
  (request.headers.find? fun header => header.1 = LetterCase.lower table name).map fun header =>
    header.2

/-- `get_user_agent` -/
def getUserAgent (settings : RequestInfoServiceSettings) (request : Request) : List Char :=
  (request.header table settings.userAgentHeader).getD []

/-- `_normalize_ip` -/
def normalizeIp (address : List Char) : Option (List Char) :=
  (IPAddress.parse address).map fun ip => ip.text

/-- `_get_remote_address` -/
def getRemoteAddress (request : Request) : Option (List Char) :=
  match request.client with
  | none => none
  | some (remoteAddress, _) => normalizeIp remoteAddress

/-- The loop of `_parse_ip_trace`, with the addresses that it has so far. -/
def parseElements (addresses : List (List Char)) : List (List Char) → List (List Char)
  | [] => addresses
  | rawAddress :: rawAddresses =>
    let address := Text.stripChars rawAddress
    if address = [] then []
    else
      match normalizeIp address with
      | none => []
      | some normalizedAddress => parseElements (addresses ++ [normalizedAddress]) rawAddresses

/-- `_parse_ip_trace` -/
def parseIpTrace (headerValue : List Char) : List (List Char) :=
  parseElements [] (headerValue.splitOn ',')

/-- `get_user_ip_trace` -/
def getUserIpTrace (settings : RequestInfoServiceSettings) (request : Request) :
    Option (List Char) :=
  if !settings.trustForwardedIpHeader then getRemoteAddress request
  else
    match request.header table settings.ipHeader with
    | none => getRemoteAddress request
    | some headerValue =>
      let addresses := parseIpTrace headerValue
      if addresses ≠ [] then some ([','].intercalate addresses) else getRemoteAddress request

end

end FastapiTemplate.Delivery
