/-
  `http.py`: requests for JSON, as calls of a program.
-/
import FastapiTemplate.Foundation.Json
import FastapiTemplate.Foundation.Url
import FastapiTemplate.Lib.Program

namespace FastapiTemplate.Management

open Effects

/-- What requests, and the code around them, raise. -/
inductive WebError where
  /-- what `_json_response` catches: `OSError`, `URLError` or `json.JSONDecodeError` -/
  | failed
  | valueError
  | attributeError
  /-- any other exception of `urlopen` or `json.load` -/
  | other (code : ℕ)
  deriving DecidableEq

/-- `JsonResponse`. -/
structure JsonResponse where
  payload : Json
  link : Option (List Char)

/-- `urlopen`, and `json.load` of the response. -/
structure WebCall where
  url : List Char
  headers : List (List Char × List Char)
  deriving DecidableEq

abbrev Web := Prog WebCall (fun _ => JsonResponse) WebError

/-- `_json_response`; `rejects` tells for which texts `urlparse` raises. -/
def jsonResponse (rejects : List Char → Bool) (url : List Char)
    (headers : List (List Char × List Char)) :
    Web (Option JsonResponse) :=
  if rejects url then throw .valueError
  else if Url.scheme url ≠ "https".toList then return none
  else Prog.handle (do return some (← Prog.perform ⟨url, headers⟩)) fun
    | .failed => return none
    | e => throw e

end FastapiTemplate.Management
