/-
  `PreBodyIPThrottlingMiddleware` and the routes behind it.

  Of Starlette and FastAPI this takes how `request.url.path` comes about, and how
  the router finds the route of a scope.
-/
import FastapiTemplate.Foundation.Url
import FastapiTemplate.Lib.Regex

namespace FastapiTemplate.Delivery

/-! ## Scopes -/

inductive ScopeType where
  | http
  | websocket
  | lifespan
  deriving DecidableEq

inductive Scheme where
  | http
  | https
  deriving DecidableEq

def Scheme.text : Scheme → List Char
  | http => "http".toList
  | https => "https".toList

/-- An ASGI scope, with the value of its `Host` header. -/
structure Scope where
  type : ScopeType
  scheme : Scheme
  method : List Char
  host : List Char
  path : List Char
  rootPath : List Char
  queryString : List Char
  deriving DecidableEq

/-- `request.url` -/
def Scope.url (scope : Scope) : List Char :=
  scope.scheme.text ++ "://".toList ++ scope.host ++ scope.path ++
    if scope.queryString = [] then [] else '?' :: scope.queryString

/-! ## Routes -/

/-- A part of the path of a route: a text, or a parameter without a convertor. -/
inductive PathPart where
  | text (s : List Char)
  | param (name : String)
  deriving DecidableEq

structure Route where
  methods : List (List Char)
  path : List PathPart
  deriving DecidableEq

/-- `compile_path` -/
def compilePath : List PathPart → Regex
  | [] => Regex.atEnd
  | .text s :: parts => .seq (Regex.lit s) (compilePath parts)
  | .param name :: parts => .seq (.group name (Regex.plus (.char (· ≠ '/')))) (compilePath parts)

/-- `get_route_path`: the path without the root path. -/
def getRoutePath (scope : Scope) : List Char :=
  if scope.rootPath = [] then scope.path
  else if !scope.rootPath.isPrefixOf scope.path then scope.path
  else if scope.path = scope.rootPath then []
  else if (scope.path.drop scope.rootPath.length).head? = some '/' then
    scope.path.drop scope.rootPath.length
  else scope.path

/-- The route matches fully: its path, and the method. -/
def Route.accepts (route : Route) (scope : Scope) : Bool :=
  scope.type = .http && (Regex.match? (compilePath route.path) (getRoutePath scope)).isSome &&
    route.methods.contains scope.method

def api (method path : String) : Route := ⟨[method.toList], [.text path.toList]⟩

/-- The routes that `_register_controllers` registers, but for the websocket. -/
def registeredRoutes : List Route :=
  [api "GET" "/api/v1/health",
    api "POST" "/api/v1/auth/token",
    api "POST" "/api/v1/auth/token/refresh",
    api "POST" "/api/v1/auth/token/revoke",
    api "POST" "/api/v1/users",
    api "GET" "/api/v1/users/me",
    ⟨["GET".toList], [.text "/api/v1/users/".toList, .param "user_id"]⟩]

/-- The route of a scope; `documentation` are the routes that FastAPI adds for itself, before
    the others. -/
def routeOf (documentation : List Route) (scope : Scope) : Option Route :=
  (documentation ++ registeredRoutes).find? fun route => route.accepts scope

/-! ## The middleware -/

/-- `str.upper()` of a method. -/
def upper (method : List Char) : List Char := method.map Char.toUpper

/-- `PreBodyIPThrottlingRule`; its throttler is found by the rule. -/
structure PreBodyIPThrottlingRule where
  method : List Char
  path : List Char
  deriving DecidableEq

def PRE_BODY_IP_THROTTLED_ROUTES : List (List Char × List Char) :=
  [("POST".toList, "/api/v1/auth/token".toList),
    ("POST".toList, "/api/v1/auth/token/refresh".toList),
    ("POST".toList, "/api/v1/auth/token/revoke".toList),
    ("POST".toList, "/api/v1/users".toList)]

/-- `_add_pre_body_ip_throttling_middleware` -/
def preBodyIPThrottlingRules : List PreBodyIPThrottlingRule :=
  PRE_BODY_IP_THROTTLED_ROUTES.map fun (method, path) => ⟨method, path⟩

/-- `_rules_by_key.get`: of the rules with the same key the last one counts. -/
def ruleByKey (rules : List PreBodyIPThrottlingRule) (key : List Char × List Char) :
    Option PreBodyIPThrottlingRule :=
  rules.reverse.find? fun rule => (upper rule.method, rule.path) = key

/-- `_request_key` -/
def requestKey (scope : Scope) : List Char × List Char := (upper scope.method, Url.path scope.url)

/-- `HTTPException` -/
structure HTTPException where
  statusCode : ℕ
  detail : List Char
  headers : List (List Char × List Char)
  deriving DecidableEq

/-- What happens to a request. -/
inductive RequestEvent where
  /-- The throttler of the rule was awaited and did not raise. -/
  | passed (rule : PreBodyIPThrottlingRule)
  /-- It raised: the response has the detail, the status code and the headers. -/
  | rejected (rule : PreBodyIPThrottlingRule) (exception : HTTPException)
  /-- Routing found the route, and its endpoint is called. -/
  | dispatched (route : Route)
  | notDispatched
  deriving DecidableEq

section
variable (documentation : List Route)
  (throttler : PreBodyIPThrottlingRule → Scope → Option HTTPException)

/-- The application behind the middleware. -/
def app (scope : Scope) : List RequestEvent :=
  match routeOf documentation scope with
  | some route => [.dispatched route]
  | none => [.notDispatched]

/-- `PreBodyIPThrottlingMiddleware.__call__` -/
def callMiddleware (scope : Scope) : List RequestEvent :=
  if scope.type ≠ .http then app documentation scope
  else
    match ruleByKey preBodyIPThrottlingRules (requestKey scope) with
    | none => app documentation scope
    | some rule =>
      match throttler rule scope with
      | some exception => [.rejected rule exception]
      | none => .passed rule :: app documentation scope

end

end FastapiTemplate.Delivery
