/-
  When two requests are counted under one key.

  * `ThrottledRequest.key_eq`: a key is the method, the path and the identity in
    lower case, with colons between them.
  * `Shadows`: a path goes on with a colon and with what another identity begins
    with.
-/
import FastapiTemplate.Delivery.ThrottleKeys
import FastapiTemplate.Proof.RequestInfo

namespace FastapiTemplate.Delivery
open LetterCase IPAddress

/-! ## Requests at a throttler -/

/-- The characters of methods: the visible ones of ASCII that delimit nothing. -/
def isTokenChar (c : Char) : Bool :=
  0x21 ≤ c.toNat && c.toNat ≤ 0x7E && !"\"(),/:;<=>?@[\\]\x7b\x7d".toList.contains c

/-- Whom a request is counted for: the addresses of its trace, of which none has a zone, or a
    user. -/
inductive Identity (table : CaseTable) (request : Request) where
  | ip (settings : RequestInfoServiceSettings) (addresses : List Address)
      (unscoped : ∀ address ∈ addresses, address.scopeId = none)
      (trace : getUserIpTrace table settings request = some (traceText addresses))
  | user (userId : ℤ)

/-- A request that a throttler builds a key for. -/
structure ThrottledRequest (table : CaseTable) where
  request : Request
  method_token : ∀ c ∈ request.scope.method, isTokenChar c = true
  identity : Identity table request

variable {table : CaseTable} {request request' : Request}

def Identity.text : Identity table request → List Char
  | ip _ addresses _ _ => traceText addresses
  | user userId => Text.str userId

/-- The same addresses, or the same user. -/
def Identity.Same : Identity table request → Identity table request' → Prop
  | .ip _ addresses _ _, .ip _ addresses' _ _ => addresses = addresses'
  | .user userId, .user userId' => userId = userId'
  | _, _ => False

namespace ThrottledRequest

def method (r : ThrottledRequest table) : List Char := r.request.scope.method

def path (r : ThrottledRequest table) : List Char := Url.path r.request.scope.url

/-- The key that the throttler builds. -/
def key (r : ThrottledRequest table) : List Char :=
  match r.identity with
  | .ip settings _ _ _ => ipThrottlerKey table settings r.request
  | .user userId => userThrottlerKey table r.request userId

/-- The path in lower case, between the method and the identity. -/
def pathText (r : ThrottledRequest table) : List Char :=
  lowerIn table ("throttler:".toList ++ r.method ++ [':']).reverse r.path (':' :: r.identity.text)

end ThrottledRequest

/-- The texts are the same but for letter case. -/
def SameCase (table : CaseTable) (s t : List Char) : Prop := casefold table s = casefold table t

/-- The path of `r₂` is the path of `r₁`, a colon and a text with which the identity of `r₁` begins;
    what the identity goes on with is a colon and the identity of `r₂`. -/
def Shadows (r₁ r₂ : ThrottledRequest table) : Prop :=
  lower table r₁.method = lower table r₂.method ∧
    ∃ s, r₂.pathText = r₁.pathText ++ ':' :: s ∧ r₁.identity.text = s ++ ':' :: r₂.identity.text

/-! ## Characters -/

section
variable {c : Char} {s before after : List Char}

theorem isTokenChar_spec (h : isTokenChar c = true) : c.toNat < 128 ∧ c.toLower ≠ ':' := by
  have hall : ∀ n : Fin 128, isTokenChar (Char.ofNat n) = true → (Char.ofNat n).toLower ≠ ':' := by
    decide
  have hlt : c.toNat < 128 := by
    simp only [isTokenChar, Bool.and_eq_true, decide_eq_true_eq] at h
    omega
  have hc := hall ⟨c.toNat, hlt⟩
  rw [Char.ofNat_toNat] at hc
  exact ⟨hlt, hc h⟩

/-- The characters of identities. -/
def isIdentityChar (c : Char) : Bool := isAddressChar c || c == ',' || c == '-'

theorem isIdentityChar_spec (h : isIdentityChar c = true) : c.toNat < 128 ∧ c.toLower = c := by
  have hall : ∀ n : Fin 128, isIdentityChar (Char.ofNat n) = true → (Char.ofNat n).toLower =
      Char.ofNat n := by
    decide
  have hlt : c.toNat < 128 := by
    simp only [isIdentityChar, Bool.or_eq_true, beq_iff_eq] at h
    rcases h with (h | rfl) | rfl
    · have := isAddressChar_toNat h
      omega
    · decide
    · decide
  have hc := hall ⟨c.toNat, hlt⟩
  rw [Char.ofNat_toNat] at hc
  exact ⟨hlt, hc h⟩

theorem lowerIn_identity (h : ∀ c ∈ s, isIdentityChar c = true) :
    lowerIn table before s after = s := by
  rw [lowerIn_ascii fun c hc => (isIdentityChar_spec (h c hc)).1]
  calc s.map Char.toLower = s.map id :=
    List.map_congr_left fun c hc => (isIdentityChar_spec (h c hc)).2
    _ = s := List.map_id s

theorem traceText_chars {addresses : List Address}
    (h : ∀ address ∈ addresses, address.scopeId = none)
    (hc : c ∈ traceText addresses) : isAddressChar c = true ∨ c = ',' := by
  rcases mem_intercalate hc with rfl | ⟨text, htext, hc⟩
  · exact .inr rfl
  · obtain ⟨address, haddress, rfl⟩ := List.mem_map.1 htext
    exact .inl (address.text_chars (h address haddress) c hc)

theorem Identity.text_chars {identity : Identity table request} (hc : c ∈ identity.text) :
    isIdentityChar c = true := by
  cases identity with
  | ip settings addresses unscoped trace =>
    rcases traceText_chars unscoped hc with h | rfl
    · rw [isIdentityChar, h]
      rfl
    · rfl
  | user userId =>
    rcases Text.str_chars hc with h | rfl
    · rw [isIdentityChar, isAddressChar, IPv6Address.isHexChar_of_isDigit h]
      rfl
    · rfl

end

/-! ## Identities -/

section
variable {addresses addresses' : List Address}

theorem text_injective : Function.Injective Address.text := fun x y h => by
  have hx := parse_text x
  rw [h, parse_text] at hx
  exact (Option.some.inj hx).symm

theorem traceText_eq_nil (h : traceText addresses = []) : addresses = [] := by
  match addresses, h with
  | [], _ => rfl
  | [x], h =>
    rw [traceText, List.map_singleton, List.intercalate_singleton] at h
    exact absurd h x.text_ne_nil
  | x :: y :: rest, h =>
    rw [traceText, List.map_cons, List.map_cons, List.intercalate_cons_cons] at h
    simp [x.text_ne_nil] at h

theorem traceText_injective (hunscoped : ∀ x ∈ addresses, x.scopeId = none)
    (hunscoped' : ∀ x ∈ addresses', x.scopeId = none)
      (h : traceText addresses = traceText addresses') :
    addresses = addresses' := by
  have hsplit : ∀ {addresses : List Address}, (∀ x ∈ addresses, x.scopeId = none) → addresses ≠ [] →
      (traceText addresses).splitOn ',' = addresses.map fun address => address.text := by
    intro addresses hunscoped hne
    refine List.splitOn_intercalate ',' (fun text htext hcomma => ?_) fun hnil =>
      hne (List.map_eq_nil_iff.1 hnil)
    obtain ⟨x, hx, rfl⟩ := List.mem_map.1 htext
    cases x.text_chars (hunscoped x hx) ',' hcomma
  by_cases hnil : addresses = []
  · rw [hnil] at h ⊢
    exact (traceText_eq_nil h.symm).symm
  · by_cases hnil' : addresses' = []
    · rw [hnil'] at h ⊢
      exact traceText_eq_nil h
    · have htexts := hsplit hunscoped hnil
      rw [h, hsplit hunscoped' hnil'] at htexts
      exact (List.map_injective_iff.2 text_injective htexts).symm

/-- A trace has a dot or a colon in it, an identifier of a user has not. -/
theorem traceText_ne_userText {userId : ℤ} : traceText addresses ≠ Text.str userId := by
  intro h
  cases addresses with
  | nil =>
    exact Text.str_ne_nil h.symm
  | cons x rest =>
    have hmem : ∀ {c}, c ∈ x.text → c ∈ traceText (x :: rest) := by
      intro c hc
      cases rest with
      | nil =>
        rw [traceText, List.map_singleton, List.intercalate_singleton]
        exact hc
      | cons y rest =>
        rw [traceText, List.map_cons, List.map_cons, List.intercalate_cons_cons, List.append_assoc]
        exact List.mem_append_left _ hc
    have hno : ∀ {c}, c ∈ x.text → c.isDigit = true ∨ c = '-' :=
      fun hc => Text.str_chars (h ▸ hmem hc)
    cases x with
    | v4 x => rcases hno (c := '.') (sep_mem_intercalate (by simp)) with h | h <;> cases h
    | v6 x =>
      have hcolon : ':' ∈ x.text := by
        rw [IPv6Address.text_eq]
        cases x.scopeId with
        | none => exact IPv6Address.colon_mem_address
        | some zone => exact List.mem_append_left _ IPv6Address.colon_mem_address
      rcases hno hcolon with h | h <;> cases h

theorem Identity.same_of_text {identity : Identity table request}
    {identity' : Identity table request'}
    (h : identity.text = identity'.text) : identity.Same identity' := by
  cases identity with
  | ip settings addresses unscoped trace =>
    cases identity' with
    | ip settings' addresses' unscoped' trace' => exact traceText_injective unscoped unscoped' h
    | user userId' => exact absurd h traceText_ne_userText
  | user userId =>
    cases identity' with
    | ip settings' addresses' unscoped' trace' => exact absurd h.symm traceText_ne_userText
    | user userId' => exact Text.str_injective h

theorem Identity.text_of_same {identity : Identity table request}
    {identity' : Identity table request'}
    (h : identity.Same identity') : identity.text = identity'.text := by
  cases identity with
  | ip settings addresses unscoped trace =>
    cases identity' with
    | ip settings' addresses' unscoped' trace' => exact congrArg traceText h
    | user userId' => cases h
  | user userId =>
    cases identity' with
    | ip settings' addresses' unscoped' trace' => cases h
    | user userId' => exact congrArg Text.str h

end

/-! ## Keys -/

namespace ThrottledRequest
variable (r : ThrottledRequest table)

theorem key_eq_throttlerKey : r.key = throttlerKey table r.method r.path r.identity.text := by
  unfold key
  cases hidentity : r.identity with
  | ip settings addresses unscoped trace =>
    simp only [ipThrottlerKey, trace]
    rfl
  | user userId => rfl

/-- The method in lower case, where it stands in the key. -/
theorem lowerIn_method {before after : List Char} : lowerIn table before r.method after =
    lower table r.method := by
  have hascii : ∀ c ∈ r.method, c.toNat < 128 :=
    fun c hc => (isTokenChar_spec (r.method_token c hc)).1
  rw [lower, lowerIn_ascii hascii, lowerIn_ascii hascii]

theorem colon_notMem_method : ':' ∉ lower table r.method := by
  have hascii : ∀ c ∈ r.method, c.toNat < 128 :=
    fun c hc => (isTokenChar_spec (r.method_token c hc)).1
  rw [lower, lowerIn_ascii hascii]
  intro h
  obtain ⟨c, hc, hlower⟩ := List.mem_map.1 h
  exact (isTokenChar_spec (r.method_token c hc)).2 hlower

/-- **What a key is made of.** -/
theorem key_eq : r.key =
    "throttler:".toList ++
    (lower table r.method ++ ':' :: (r.pathText ++ ':' :: r.identity.text)) := by
  have hcolon : ∀ {before after}, lowerIn table before [':'] after = [':'] := fun {_ _} =>
    lowerIn_ascii (by decide)
  have hthrottler : ∀ {before after}, lowerIn table before "throttler:".toList after =
      "throttler:".toList :=
    fun {_ _} => (lowerIn_ascii (by decide)).trans (by decide)
  have hidentity : ∀ {before after}, lowerIn table before r.identity.text after = r.identity.text :=
    fun {_ _} =>
    lowerIn_identity fun _ hc => Identity.text_chars hc
  have hsplit : "throttler:".toList ++ r.method ++ ':' :: r.path ++ ':' :: r.identity.text =
      "throttler:".toList ++ (r.method ++ ([':'] ++ (r.path ++ ([':'] ++ r.identity.text)))) := by
    simp
  rw [key_eq_throttlerKey, throttlerKey, lower, hsplit, lowerIn_append, lowerIn_append,
    lowerIn_append,
    lowerIn_append, lowerIn_append, hthrottler, lowerIn_method, hcolon, hcolon, hidentity]
  simp [pathText]

variable {r} {r₁ r₂ : ThrottledRequest table}

theorem key_eq_iff : r₁.key = r₂.key ↔ lower table r₁.method = lower table r₂.method ∧
    r₁.pathText ++ ':' :: r₁.identity.text = r₂.pathText ++ ':' :: r₂.identity.text := by
  rw [key_eq, key_eq]
  constructor
  · intro h
    have hno : ∀ r : ThrottledRequest table, ∀ c ∈ lower table r.method,
        decide (c ≠ ':') = true := by
      intro r c hc
      refine decide_eq_true ?_
      rintro rfl
      exact r.colon_notMem_method hc
    obtain ⟨hmethod, hrest⟩ := Spans.takeWhile_unique (hno r₁) (by simp) (hno r₂) (by simp)
      (List.append_cancel_left h)
    exact ⟨hmethod, List.tail_eq_of_cons_eq hrest⟩
  · rintro ⟨hmethod, hrest⟩
    rw [hmethod, hrest]

theorem key_eq_of_shadows (h : Shadows r₁ r₂) : r₁.key = r₂.key := by
  obtain ⟨hmethod, s, hpath, hidentity⟩ := h
  rw [key_eq_iff, hpath, hidentity]
  exact ⟨hmethod, by simp⟩

theorem not_same_of_shadows (h : Shadows r₁ r₂) : ¬r₁.identity.Same r₂.identity := by
  obtain ⟨-, s, -, hidentity⟩ := h
  intro hsame
  have hlength := congrArg List.length (hidentity.symm.trans (Identity.text_of_same hsame))
  simp only [List.length_append, List.length_cons] at hlength
  omega

/-- **When keys tell requests apart:** if and only if neither shadows the other. -/
theorem key_injective_iff (r₁ r₂ : ThrottledRequest table) :
    (r₁.key = r₂.key → r₁.identity.Same r₂.identity ∧ SameCase table r₁.method r₂.method ∧
      SameCase table r₁.path r₂.path) ↔ ¬Shadows r₁ r₂ ∧ ¬Shadows r₂ r₁ := by
  constructor
  · intro h
    refine ⟨fun hshadows => ?_, fun hshadows => ?_⟩
    · exact not_same_of_shadows hshadows (h (key_eq_of_shadows hshadows)).1
    · have hsame := (h (key_eq_of_shadows hshadows).symm).1
      exact not_same_of_shadows hshadows (Identity.same_of_text (Identity.text_of_same hsame).symm)
  · rintro ⟨hno₁, hno₂⟩ hkey
    obtain ⟨hmethod, hrest⟩ := key_eq_iff.1 hkey
    have hparts : r₁.pathText = r₂.pathText ∧ r₁.identity.text = r₂.identity.text := by
      rcases List.append_eq_append_iff.1 hrest with ⟨s, hpath, hidentity⟩ | ⟨s, hpath, hidentity⟩
      · cases s with
        | nil => exact ⟨by rw [hpath, List.append_nil], List.tail_eq_of_cons_eq hidentity⟩
        | cons c s =>
          rw [List.cons_append] at hidentity
          obtain ⟨rfl, htext⟩ := List.cons.inj hidentity
          exact absurd ⟨hmethod, s, hpath, htext⟩ hno₁
      · cases s with
        | nil => exact ⟨by rw [hpath, List.append_nil], (List.tail_eq_of_cons_eq hidentity).symm⟩
        | cons c s =>
          rw [List.cons_append] at hidentity
          obtain ⟨rfl, htext⟩ := List.cons.inj hidentity
          exact absurd ⟨hmethod.symm, s, hpath, htext⟩ hno₂
    have hpath := congrArg (casefold table) hparts.1
    have hmethod := congrArg (casefold table) hmethod
    rw [pathText, pathText, casefold_lowerIn, casefold_lowerIn] at hpath
    rw [lower, lower, casefold_lowerIn, casefold_lowerIn] at hmethod
    exact ⟨Identity.same_of_text hparts.2, hmethod, hpath⟩

/-- `GET` of a path, from a host. -/
def getFrom (path client : String) : Request :=
  ⟨⟨.http, .http, "GET".toList, "localhost".toList, path.toList, [], []⟩, [],
    some (client.toList, 50000)⟩

/-- `2001:db8::1` at `/users/7` -/
def shadowing : ThrottledRequest asciiTable where
  request := getFrom "/users/7" "2001:db8::1"
  method_token := by decide
  identity :=
    .ip {} [.v6 ⟨[0x2001, 0xdb8, 0, 0, 0, 0, 0, 1], rfl, none, fun _ h => by cases h⟩]
    (by simp [Address.scopeId])
    (by decide)

/-- `db8::1` at `/users/7:2001` -/
def shadowed : ThrottledRequest asciiTable where
  request := getFrom "/users/7:2001" "db8::1"
  method_token := by decide
  identity :=
    .ip {} [.v6 ⟨[0xdb8, 0, 0, 0, 0, 0, 0, 1], rfl, none, fun _ h => by cases h⟩]
    (by simp [Address.scopeId])
    (by decide)

theorem key_not_injective : ¬∀ (table : CaseTable) (r₁ r₂ : ThrottledRequest table), r₁.key =
    r₂.key →
    r₁.identity.Same r₂.identity ∧ SameCase table r₁.method r₂.method ∧
    SameCase table r₁.path r₂.path := by
  intro h
  have hkey : shadowing.key = shadowed.key := by decide
  have hpath : ¬SameCase asciiTable shadowing.path shadowed.path := by
    unfold SameCase
    decide
  exact hpath (h asciiTable shadowing shadowed hkey).2.2

end ThrottledRequest

end FastapiTemplate.Delivery
