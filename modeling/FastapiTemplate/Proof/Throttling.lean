/-
  When no throttled endpoint is reached around its throttle (`throttled_iff`): the
  router looks at the path without the root path, the middleware at the path of
  the URL, which has it.
-/
import FastapiTemplate.Delivery.Throttling
import Mathlib.Data.List.TakeWhile

namespace FastapiTemplate.Delivery

open Regex

/-! ## The path of the URL -/

section
variable {scope : Scope} {p : List Char}

/-- The path as it stands in the URL. -/
def keptPath (path : List Char) : List Char := path.filter fun c => !Url.isRemoved c

theorem takeWhile_query {s t : List Char} :
    (s ++ '?' :: t).takeWhile (fun c => !Url.endsPath c) = s.takeWhile fun c =>
    !Url.endsPath c := by
  rw [List.takeWhile_append]
  split
  · rename_i h
    rw [(List.takeWhile_prefix _).eq_of_length h]
    simp [Url.endsPath]
  · rfl

/-- A query does not change the path. -/
theorem path_query {s t : List Char} :
    ((s ++ '?' :: t).dropWhile fun c => !Url.isDelimiter c).takeWhile (fun c => !Url.endsPath c) =
      (s.dropWhile fun c => !Url.isDelimiter c).takeWhile fun c => !Url.endsPath c := by
  induction s with
  | nil => simp [Url.isDelimiter, Url.endsPath]
  | cons c s ih =>
    by_cases hc : Url.isDelimiter c = true
    · rw [List.cons_append, List.dropWhile_cons_of_neg (by simp [hc]),
        List.dropWhile_cons_of_neg (by simp [hc]),
        ← List.cons_append, takeWhile_query]
    · rw [List.cons_append, List.dropWhile_cons_of_pos (by simp [hc]),
        List.dropWhile_cons_of_pos (by simp [hc]), ih]

/-- The scheme and the slashes go, and so does a host, up to the first delimiter after it. -/
theorem path_of_scheme {scheme : Scheme} {host rest : List Char}
    (hhost : ∀ c ∈ host, Url.isDelimiter c = false) :
    Url.path (scheme.text ++ "://".toList ++ host ++ rest) =
      ((rest.filter fun c => !Url.isRemoved c).dropWhile fun c => !Url.isDelimiter c).takeWhile
        fun c => !Url.endsPath c := by
  have hclean : Url.clean (scheme.text ++ "://".toList ++ host ++ rest) =
      scheme.text ++ "://".toList ++ (host.filter fun c => !Url.isRemoved c) ++
        rest.filter fun c => !Url.isRemoved c := by
    cases scheme <;> simp [Url.clean, Scheme.text, Url.isRemoved]
  have hscheme : ∀ s, Url.afterScheme (scheme.text ++ "://".toList ++ s) = '/' :: '/' :: s := by
    intro s
    cases scheme <;> rfl
  have hall : ∀ c ∈ host.filter fun c => !Url.isRemoved c, (!Url.isDelimiter c) = true := by
    intro c hc
    rw [hhost c (List.mem_filter.1 hc).1]
    rfl
  rw [Url.path, hclean, List.append_assoc _ (host.filter _), hscheme, Url.afterNetloc,
    List.dropWhile_append_of_pos hall]

/-- The host ends where the path has its first delimiter. -/
theorem url_path (hhost : ∀ c ∈ scope.host, Url.isDelimiter c = false) :
    Url.path scope.url =
      ((keptPath scope.path).dropWhile fun c => !Url.isDelimiter c).takeWhile fun c =>
      !Url.endsPath c := by
  have hurl : scope.url = scope.scheme.text ++ "://".toList ++ scope.host ++
      (scope.path ++ if scope.queryString = [] then [] else '?' :: scope.queryString) := by
    rw [Scope.url, List.append_assoc]
  rw [hurl, path_of_scheme hhost]
  split_ifs with hnil
  · rw [List.append_nil]
    rfl
  · rw [List.filter_append, List.filter_cons_of_pos (by decide), path_query]
    rfl

end

/-! ## The route of a scope -/

section
variable {scope : Scope} {method path : List Char} {documentation : List Route}

/-- A path matches as it is, and with a newline after it. -/
theorem match_text {s : List Char} : (match? (compilePath [.text path]) s).isSome = true ↔
    s = path ∨ s = path ++ ['\n'] := by
  rw [match?, compilePath, run, run_lit]
  by_cases hstarts : path.isPrefixOf s = true
  · obtain ⟨t, rfl⟩ := List.isPrefixOf_iff_prefix.1 hstarts
    rw [if_pos hstarts]
    by_cases ht : t = [] ∨ t = ['\n']
    · simp [compilePath, atEnd, run, ht]
    · simp only [not_or] at ht
      simp [compilePath, atEnd, run, ht]
  · rw [if_neg hstarts]
    constructor
    · intro h
      cases h
    · rintro (rfl | rfl)
      · exact absurd (List.isPrefixOf_iff_prefix.2 (List.prefix_refl _)) hstarts
      · exact absurd (List.isPrefixOf_iff_prefix.2 (List.prefix_append ..)) hstarts

theorem accepts_text : (⟨[method], [.text path]⟩ : Route).accepts scope = true ↔
    scope.type = .http ∧ (getRoutePath scope = path ∨ getRoutePath scope = path ++ ['\n']) ∧
      scope.method = method := by
  simp only [Route.accepts, Bool.and_eq_true, decide_eq_true_eq, match_text, List.contains_iff_mem,
    List.mem_singleton, and_assoc]

/-- The root path is taken off the path. -/
def removesRoot (scope : Scope) : Bool :=
  scope.rootPath ≠ [] && (scope.rootPath ++ ['/']).isPrefixOf scope.path

theorem getRoutePath_removed (h : removesRoot scope = true) :
    ∃ rest, getRoutePath scope = '/' :: rest ∧
    scope.path = scope.rootPath ++ '/' :: rest := by
  simp only [removesRoot, Bool.and_eq_true, decide_eq_true_eq, List.isPrefixOf_iff_prefix] at h
  obtain ⟨hne, rest, hrest⟩ := h
  have hpath : scope.path = scope.rootPath ++ '/' :: rest := by
    rw [← hrest]
    simp
  refine ⟨rest, ?_, hpath⟩
  have hstarts : scope.rootPath.isPrefixOf (scope.rootPath ++ '/' :: rest) = true :=
    List.isPrefixOf_iff_prefix.2 (List.prefix_append ..)
  rw [getRoutePath, if_neg hne, hpath, hstarts]
  simp

theorem getRoutePath_kept (h : ¬removesRoot scope = true) :
    getRoutePath scope = scope.path ∨ getRoutePath scope = [] := by
  unfold getRoutePath
  split_ifs with hnil hstarts hsame hslash
  · exact .inl rfl
  · exact .inl rfl
  · exact .inr rfl
  · -- a slash follows, so the root path is taken off
    refine absurd ?_ h
    have hpre : scope.rootPath <+: scope.path := by simpa using hstarts
    obtain ⟨t, ht⟩ := hpre
    rw [← ht, List.drop_left] at hslash
    obtain ⟨rest, rfl⟩ : ∃ rest, t = '/' :: rest := by
      cases t with
      | nil => cases hslash
      | cons c rest =>
        cases hslash
        exact ⟨rest, rfl⟩
    simp only [removesRoot, Bool.and_eq_true, decide_eq_true_eq, List.isPrefixOf_iff_prefix]
    exact ⟨hnil, rest, by rw [← ht]; simp⟩
  · exact .inl rfl

/-- What of the root path gets into the path of the URL: nothing before its first delimiter does. -/
def rootTail (scope : Scope) : List Char :=
  (keptPath scope.rootPath).dropWhile fun c => !Url.isDelimiter c

/-- Taking off the root path does not change the path of the URL. -/
def KeepsPath (scope : Scope) (path : List Char) : Prop :=
  removesRoot scope = true → rootTail scope = [] ∨
    (rootTail scope).any Url.endsPath = true ∧
    (rootTail scope).takeWhile (fun c => !Url.endsPath c) = path

/-- A path that is kept as it is: it starts with a slash and has none of the other characters that
    `urlsplit` looks at. -/
def PlainPath (path : List Char) : Prop :=
  path.head? = some '/' ∧ ∀ c ∈ path, Url.isRemoved c = false ∧ Url.endsPath c = false

theorem PlainPath.kept (h : PlainPath path) : keptPath path = path ∧ keptPath (path ++ ['\n']) =
    path := by
  have hkept : keptPath path = path := List.filter_eq_self.2 fun c hc => by simp [(h.2 c hc).1]
  refine ⟨hkept, ?_⟩
  rw [keptPath, List.filter_append]
  exact (List.append_nil _).trans hkept

theorem PlainPath.dropWhile (h : PlainPath path) {s : List Char} :
    ((path ++ s).dropWhile fun c => !Url.isDelimiter c) = path ++ s := by
  cases path with
  | nil => cases h.1
  | cons c path =>
    have hc : c = '/' := Option.some.inj h.1
    rw [hc]
    rfl

theorem PlainPath.takeWhile (h : PlainPath path) :
    (path.takeWhile fun c => !Url.endsPath c) = path :=
  List.takeWhile_eq_self_iff.2 fun c hc => by simp [(h.2 c hc).2]

/-- The URL of a scope that is routed to the path has that path, unless the root path gets in. -/
theorem url_path_iff (hhost : ∀ c ∈ scope.host, Url.isDelimiter c = false)
    (hroute : getRoutePath scope = path ∨ getRoutePath scope = path ++ ['\n'])
      (hpath : PlainPath path) :
    Url.path scope.url = path ↔ KeepsPath scope path := by
  have hkept : keptPath (getRoutePath scope) = path := by
    rcases hroute with hroute | hroute
    · rw [hroute, hpath.kept.1]
    · rw [hroute, hpath.kept.2]
  have hdrop : (path.dropWhile fun c => !Url.isDelimiter c) = path := by
    have h := hpath.dropWhile (s := [])
    rwa [List.append_nil] at h
  rw [url_path hhost]
  by_cases hremoved : removesRoot scope = true
  · obtain ⟨rest, hrest, hscope⟩ := getRoutePath_removed hremoved
    have hsplit : keptPath scope.path = keptPath scope.rootPath ++ path := by
      rw [← hkept, hrest, hscope, keptPath, List.filter_append]
      rfl
    have htail : ((keptPath scope.path).dropWhile fun c => !Url.isDelimiter c) =
        rootTail scope ++ path := by
      rw [hsplit, List.dropWhile_append]
      split
      · rename_i hnil
        rw [List.isEmpty_iff] at hnil
        rw [hdrop, rootTail, hnil]
        rfl
      · rfl
    rw [htail]
    simp only [KeepsPath, hremoved, true_implies]
    by_cases hends : (rootTail scope).any Url.endsPath = true
    · -- the path ends within the root path
      have hne : rootTail scope ≠ [] := fun hnil => by simp [hnil] at hends
      have htake : ((rootTail scope ++ path).takeWhile fun c => !Url.endsPath c) =
          (rootTail scope).takeWhile fun c => !Url.endsPath c := by
        rw [List.takeWhile_append]
        split
        · rename_i hlen
          have hall := List.takeWhile_eq_self_iff.1 ((List.takeWhile_prefix _).eq_of_length hlen)
          obtain ⟨c, hc, hcends⟩ := List.any_eq_true.1 hends
          have := hall c hc
          simp [hcends] at this
        · rfl
      rw [htake]
      simp [hne, hends]
    · -- all of it is in the path
      have hall : ∀ c ∈ rootTail scope, (!Url.endsPath c) = true := by
        rw [Bool.not_eq_true, List.any_eq_false] at hends
        intro c hc
        simpa using hends c hc
      rw [List.takeWhile_append_of_pos hall, hpath.takeWhile]
      simp [hends]
  · have hsame : getRoutePath scope = scope.path := by
      refine (getRoutePath_kept hremoved).resolve_right fun hnil => ?_
      rw [hnil] at hkept
      have hhead := hpath.1
      rw [← hkept] at hhead
      cases hhead
    rw [← hsame, hkept, hdrop, hpath.takeWhile]
    exact ⟨fun _ h => absurd h hremoved, fun _ => rfl⟩

end

/-! ## The middleware -/

section
variable {scope : Scope} {documentation : List Route} {method path : List Char}

/-- The route that is registered for a throttled method and path. -/
def throttledRoute (key : List Char × List Char) : Route := ⟨[key.1], [.text key.2]⟩

/-- In a run the endpoint is called only after the throttler of its route has let the request
    pass. -/
def Throttled (documentation : List Route)
    (throttler : PreBodyIPThrottlingRule → Scope → Option HTTPException)
    (scope : Scope) : Prop :=
  ∀ key ∈ PRE_BODY_IP_THROTTLED_ROUTES, ∀ before after,
    callMiddleware documentation throttler scope =
    before ++ .dispatched (throttledRoute key) :: after → .passed ⟨key.1, key.2⟩ ∈ before

theorem plainPath_of_mem {key : List Char × List Char} (h : key ∈ PRE_BODY_IP_THROTTLED_ROUTES) :
    PlainPath key.2 ∧ upper key.1 = key.1 ∧
    ruleByKey preBodyIPThrottlingRules key = some ⟨key.1, key.2⟩ := by
  have hall : ∀ key ∈ PRE_BODY_IP_THROTTLED_ROUTES, (key.2.head? = some '/' ∧
      ∀ c ∈ key.2, Url.isRemoved c = false ∧ Url.endsPath c = false) ∧ upper key.1 = key.1 ∧
        ruleByKey preBodyIPThrottlingRules key = some ⟨key.1, key.2⟩ := by decide
  exact hall key h

theorem ruleByKey_some {key : List Char × List Char} {rule : PreBodyIPThrottlingRule}
    (h : ruleByKey preBodyIPThrottlingRules key = some rule) : (rule.method, rule.path) = key := by
  have hupper : ∀ rule ∈ preBodyIPThrottlingRules.reverse, upper rule.method = rule.method := by
    decide
  have hkey : (upper rule.method, rule.path) = key := by simpa using List.find?_some h
  rwa [hupper rule (List.mem_of_find?_eq_some h)] at hkey

theorem routeOf_of_dispatched {throttler : PreBodyIPThrottlingRule → Scope → Option HTTPException}
    {route : Route}
    (h : .dispatched route ∈ callMiddleware documentation throttler scope) :
    routeOf documentation scope = some route := by
  have happ : RequestEvent.dispatched route ∈ app documentation scope →
      routeOf documentation scope = some route := by
    unfold app
    cases routeOf documentation scope with
    | none => simp
    | some route' => simp [eq_comm]
  unfold callMiddleware at h
  split at h
  · exact happ h
  · split at h
    · exact happ h
    · split at h
      · simp at h
      · exact happ ((List.mem_cons.1 h).resolve_left (by simp))

/-- What an accepted scope says about its key. -/
theorem requestKey_iff (hhost : ∀ c ∈ scope.host, Url.isDelimiter c = false)
    {key : List Char × List Char}
    (hkey : key ∈ PRE_BODY_IP_THROTTLED_ROUTES)
      (hroute : routeOf documentation scope = some (throttledRoute key)) :
    scope.type = .http ∧ (requestKey scope = key ↔ KeepsPath scope key.2) := by
  have haccepts : (throttledRoute key).accepts scope = true :=
    List.find?_some (p := fun route : Route => route.accepts scope)
      (show _ = some (throttledRoute key) from hroute)
  obtain ⟨htype, hpath, hmethod⟩ := accepts_text.1 haccepts
  obtain ⟨hplain, hupper, -⟩ := plainPath_of_mem hkey
  refine ⟨htype, ?_⟩
  rw [← url_path_iff hhost hpath hplain, requestKey, hmethod, hupper]
  constructor
  · intro h
    rw [← h]
  · intro h
    rw [h]

/-- **No throttled endpoint is reached around its throttle** exactly when taking off the root path
    does not change the path of the URL. -/
theorem throttled_iff (hhost : ∀ c ∈ scope.host, Url.isDelimiter c = false) :
    (∀ throttler, Throttled documentation throttler scope) ↔
      ∀ key ∈ PRE_BODY_IP_THROTTLED_ROUTES,
      routeOf documentation scope = some (throttledRoute key) →
        KeepsPath scope key.2 := by
  constructor
  · intro h key hkey hroute
    obtain ⟨htype, hiff⟩ := requestKey_iff hhost hkey hroute
    refine hiff.1 ?_
    -- a throttler that lets everything pass
    have happ : app documentation scope = [.dispatched (throttledRoute key)] := by rw [app, hroute]
    cases hrule : ruleByKey preBodyIPThrottlingRules (requestKey scope) with
    | none =>
      have hrun : callMiddleware documentation (fun _ _ => none) scope =
          [] ++ .dispatched (throttledRoute key) :: [] := by
        simp [callMiddleware, htype, hrule, happ]
      cases h _ key hkey _ _ hrun
    | some rule =>
      have hrun : callMiddleware documentation (fun _ _ => none) scope =
          [.passed rule] ++ .dispatched (throttledRoute key) :: [] := by
        simp [callMiddleware, htype, hrule, happ]
      have hmem := h _ key hkey _ _ hrun
      rw [List.mem_singleton, RequestEvent.passed.injEq] at hmem
      rw [← ruleByKey_some hrule, ← hmem]
  · intro h throttler key hkey before after hrun
    have hroute : routeOf documentation scope = some (throttledRoute key) :=
      routeOf_of_dispatched (by rw [hrun]; simp)
    obtain ⟨htype, hiff⟩ := requestKey_iff hhost hkey hroute
    have happ : app documentation scope = [.dispatched (throttledRoute key)] := by rw [app, hroute]
    have hrule : ruleByKey preBodyIPThrottlingRules (requestKey scope) = some ⟨key.1, key.2⟩ := by
      rw [hiff.2 (h key hkey hroute)]
      exact (plainPath_of_mem hkey).2.2
    cases hthrottler : throttler ⟨key.1, key.2⟩ scope with
    | some exception =>
      -- the request is rejected, and nothing is dispatched
      have hcall : callMiddleware documentation throttler scope =
          [.rejected ⟨key.1, key.2⟩ exception] := by
        simp [callMiddleware, htype, hrule, hthrottler]
      rw [hcall] at hrun
      cases before with
      | nil => cases hrun
      | cons event before => cases before <;> cases hrun
    | none =>
      have hcall : callMiddleware documentation throttler scope =
          [.passed ⟨key.1, key.2⟩, .dispatched (throttledRoute key)] := by
        simp [callMiddleware, htype, hrule, hthrottler, happ]
      rw [hcall] at hrun
      cases before with
      | nil => cases hrun
      | cons event before =>
        rw [← (List.cons.inj hrun).1]
        exact List.mem_cons_self ..

theorem throttled_iff_query :
    (∀ throttler,
    Throttled [] throttler ⟨.http, .https, "POST".toList, "api.example.com:8443".toList,
        "/api/v1/auth/token".toList, [], "next=/".toList⟩) ↔
      ∀ key ∈ PRE_BODY_IP_THROTTLED_ROUTES,
        routeOf [] ⟨.http, .https, "POST".toList, "api.example.com:8443".toList,
          "/api/v1/auth/token".toList, [], "next=/".toList⟩ = some (throttledRoute key) →
        KeepsPath ⟨.http, .https, "POST".toList, "api.example.com:8443".toList,
          "/api/v1/auth/token".toList, [], "next=/".toList⟩ key.2 :=
  throttled_iff (by decide)

/-- Behind a root path the login is not throttled. -/
theorem reached_unthrottled : ¬∀ (scope : Scope)
    (throttler : PreBodyIPThrottlingRule → Scope → Option HTTPException),
    (∀ c ∈ scope.host, Url.isDelimiter c = false) → Throttled [] throttler scope := by
  intro h
  have hmem :=
    h ⟨.http, .https, "POST".toList, "api.example.com".toList, "/app/api/v1/auth/token".toList,
    "/app".toList, []⟩ (fun _ _ => none) (by decide) ("POST".toList, "/api/v1/auth/token".toList)
      (by decide)
    [] [] (by decide)
  cases hmem

end

end FastapiTemplate.Delivery
