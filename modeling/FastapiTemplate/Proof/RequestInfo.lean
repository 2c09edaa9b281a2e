/-
  Which addresses the trace of a client has, and what of a request it depends on.

  * `Lists`: a header lists addresses, with any white space around them and in
    any spelling.
  * `parseIpTrace_eq_of_lists`, `parseIpTrace_eq_nil`: the loop returns what is
    listed, or nothing.
  * `lists_trace`: a trace lists the addresses that it is made of.
-/
import FastapiTemplate.Delivery.RequestInfo
import FastapiTemplate.Lib.IPAddressText

namespace FastapiTemplate.Delivery
open IPAddress

/-! ## Elements -/

section
variable {s t : List Char} {x : Address} {addresses : List Address} {sep : Char}

/-- An element is an address, with white space around it. -/
structure ElementIs (element : List Char) (address : Address) : Prop where
  ne_nil : Text.stripChars element ≠ []
  parse : parse (Text.stripChars element) = some address

/-- Every element of a header is an address. -/
def Lists (headerValue : List Char) (addresses : List Address) : Prop :=
  List.Forall₂ ElementIs (headerValue.splitOn ',') addresses

/-- A trace: the addresses in canonical form. -/
def traceText (addresses : List Address) : List Char :=
  [','].intercalate (addresses.map fun address => address.text)

theorem ElementIs.normalizeIp (h : ElementIs s x) :
    normalizeIp (Text.stripChars s) = some x.text := by
  rw [Delivery.normalizeIp, h.parse]
  rfl

theorem parseElements_of_forall₂ {elements parsed : List (List Char)}
    (h : List.Forall₂ ElementIs elements addresses) :
    parseElements parsed elements = parsed ++ addresses.map fun address => address.text := by
  induction h generalizing parsed with
  | nil => exact (List.append_nil _).symm
  | cons helement _ ih =>
    simp only [parseElements, helement.ne_nil, if_false, helement.normalizeIp, ih,
      List.append_assoc]
    rfl

/-- One element that is no address is enough for the loop to return nothing. -/
theorem parseElements_eq_nil {elements parsed : List (List Char)}
    (h : ∀ addresses, ¬List.Forall₂ ElementIs elements addresses) : parseElements parsed elements =
    [] := by
  induction elements generalizing parsed with
  | nil => exact absurd .nil (h [])
  | cons element elements ih =>
    by_cases hnil : Text.stripChars element = []
    · simp only [parseElements, hnil, if_true]
    · cases hparse : parse (Text.stripChars element) with
      | none => simp only [parseElements, hnil, if_false, normalizeIp, hparse, Option.map_none]
      | some x =>
        have helement : ElementIs element x := ⟨hnil, hparse⟩
        simp only [parseElements, hnil, if_false, helement.normalizeIp]
        exact ih fun addresses hrest => h (x :: addresses) (.cons helement hrest)

theorem parseIpTrace_eq_of_lists (h : Lists s addresses) :
    parseIpTrace s = addresses.map fun address => address.text := parseElements_of_forall₂ h

theorem parseIpTrace_eq_nil (h : ∀ addresses, ¬Lists s addresses) : parseIpTrace s = [] :=
  parseElements_eq_nil h

theorem Lists.ne_nil (h : Lists s addresses) : addresses ≠ [] := by
  rintro rfl
  cases hparts : s.splitOn ',' with
  | nil => exact List.splitOn_ne_nil ',' s hparts
  | cons part parts =>
    rw [Lists, hparts] at h
    cases h

/-! ## Traces are read back -/

theorem notMem_of_mem_splitOn (h : t ∈ s.splitOn sep) : sep ∉ t := by
  induction s generalizing t with
  | nil =>
    rw [List.splitOn_nil, List.mem_singleton] at h
    rw [h]
    exact List.not_mem_nil
  | cons c s ih =>
    rw [List.splitOn_cons_eq_if_modifyHead] at h
    split_ifs at h with hc
    · rcases List.mem_cons.1 h with rfl | h
      · exact List.not_mem_nil
      · exact ih h
    · cases hparts : s.splitOn sep with
      | nil => exact absurd hparts (List.splitOn_ne_nil sep s)
      | cons part parts =>
        rw [hparts] at h ih
        rcases List.mem_cons.1 h with rfl | h
        · intro hmem
          rcases List.mem_cons.1 hmem with rfl | hmem
          · exact hc (beq_self_eq_true _)
          · exact ih (List.mem_cons_self ..) hmem
        · exact ih (List.mem_cons_of_mem _ h)

theorem isAddressChar_not_space {c : Char} (h : isAddressChar c = true) :
    Text.isSpace c = false := by
  obtain ⟨hlow, hhigh⟩ := isAddressChar_toNat h
  simp only [Text.isSpace, Bool.or_eq_false_iff, Bool.and_eq_false_iff, decide_eq_false_iff_not,
    beq_eq_false_iff_ne]
  omega

/-- The canonical form of an element is that address again, and has no comma. -/
theorem ElementIs.text (h : ElementIs s x) (hcomma : ',' ∉ s) :
    ElementIs x.text x ∧ ',' ∉ x.text := by
  have hends : (∀ c ∈ x.text.head?, Text.isSpace c = false) ∧
      (∀ c ∈ x.text.getLast?, Text.isSpace c = false) ∧
      ',' ∉ x.text := by
    cases hscope : x.scopeId with
    | none =>
      have hchars := x.text_chars hscope
      refine ⟨fun c hc => ?_, fun c hc => ?_, fun hmem => ?_⟩
      · exact isAddressChar_not_space (hchars c (List.mem_of_mem_head? hc))
      · exact isAddressChar_not_space (hchars c (List.mem_of_mem_getLast? hc))
      · cases hchars ',' hmem
    | some zone =>
      -- the scope ends the element, as it ends the canonical form
      obtain ⟨hzone, address, haddress, hchars, htext⟩ := Address.text_scope hscope
      obtain ⟨before, hs⟩ := parse_scope h.parse hscope
      rw [htext]
      refine ⟨fun c hc => ?_, fun c hc => ?_, fun hmem => ?_⟩
      · rw [List.head?_append_of_ne_nil _ haddress] at hc
        exact isAddressChar_not_space (hchars c (List.mem_of_mem_head? hc))
      · refine Text.last_stripChars (s := s) ?_
        rw [hs]
        rw [List.getLast?_append_cons] at hc ⊢
        exact hc
      · rcases List.mem_append.1 hmem with hmem | hmem
        · cases hchars ',' hmem
        · refine hcomma (Text.stripChars_subset ?_)
          rw [hs]
          exact List.mem_append_right _ hmem
  have hstrip := Text.stripChars_eq_self hends.1 hends.2.1
  refine ⟨⟨?_, ?_⟩, hends.2.2⟩
  · rw [hstrip]
    exact x.text_ne_nil
  · rw [hstrip]
    exact parse_text x

/-- **A trace lists its addresses.** -/
theorem lists_trace (h : Lists s addresses) : Lists (traceText addresses) addresses := by
  have hall : ∀ {elements addresses}, List.Forall₂ ElementIs elements addresses →
      (∀ element ∈ elements, ',' ∉ element) →
      List.Forall₂ ElementIs (addresses.map fun address => address.text) addresses ∧
        ∀ text ∈ addresses.map fun address => address.text, ',' ∉ text := by
    intro elements addresses h hcomma
    induction h with
    | nil => exact ⟨.nil, fun _ h => absurd h List.not_mem_nil⟩
    | cons helement _ ih =>
      obtain ⟨htexts, htextsComma⟩ :=
        ih fun element hmem => hcomma element (List.mem_cons_of_mem _ hmem)
      obtain ⟨htext, htextComma⟩ := helement.text (hcomma _ (List.mem_cons_self ..))
      exact ⟨.cons htext htexts, List.forall_mem_cons.2 ⟨htextComma, htextsComma⟩⟩
  obtain ⟨htexts, hcomma⟩ := hall h fun element hmem => notMem_of_mem_splitOn hmem
  have hsplit :=
    List.splitOn_intercalate ',' hcomma fun hnil => h.ne_nil (List.map_eq_nil_iff.1 hnil)
  rw [Lists, traceText, hsplit]
  exact htexts

end

/-! ## The trace of a request -/

section
variable {table : LetterCase.CaseTable} {settings : RequestInfoServiceSettings} {request : Request}
  {headerValue : List Char} {addresses : List Address}

/-- A header that is not trusted is not read. -/
theorem getUserIpTrace_untrusted (h : settings.trustForwardedIpHeader = false) :
    getUserIpTrace table settings request = getRemoteAddress request := by
  simp only [getUserIpTrace, h]
  rfl

theorem getUserIpTrace_missing (h : request.header table settings.ipHeader = none) :
    getUserIpTrace table settings request = getRemoteAddress request := by
  simp only [getUserIpTrace, h]
  split_ifs <;> rfl

theorem getUserIpTrace_listed (htrust : settings.trustForwardedIpHeader = true)
    (hvalue : request.header table settings.ipHeader = some headerValue)
      (h : Lists headerValue addresses) :
    getUserIpTrace table settings request = some (traceText addresses) := by
  have hne : (addresses.map fun address => address.text) ≠ [] :=
    fun hnil => h.ne_nil (List.map_eq_nil_iff.1 hnil)
  simp only [getUserIpTrace, htrust, hvalue, parseIpTrace_eq_of_lists h]
  exact if_pos hne

theorem getUserIpTrace_invalid (hvalue : request.header table settings.ipHeader = some headerValue)
    (h : ∀ addresses, ¬Lists headerValue addresses) :
    getUserIpTrace table settings request = getRemoteAddress request := by
  simp only [getUserIpTrace, hvalue, parseIpTrace_eq_nil h]
  split_ifs with htrust hnil
  · rfl
  · exact absurd rfl hnil
  · rfl

/-- **Traces of clients.** A header that is not trusted has no influence. One that is trusted gives
    the addresses that it lists, in canonical form; one that lists none has no influence either.
    Headers that list the same addresses give the same trace, which gives itself again. -/
theorem user_ip_trace (table : LetterCase.CaseTable) (settings : RequestInfoServiceSettings) :
    (settings.trustForwardedIpHeader = false → ∀ request headers,
      getUserIpTrace table settings { request with headers } =
      getUserIpTrace table settings request) ∧
    (settings.trustForwardedIpHeader = true →
      (∀ request headerValue addresses, request.header table settings.ipHeader = some headerValue →
        Lists headerValue addresses →
          getUserIpTrace table settings request = some (traceText addresses)) ∧
      (∀ request,
        (∀ headerValue addresses, request.header table settings.ipHeader = some headerValue →
          ¬Lists headerValue addresses) →
          getUserIpTrace table settings request =
            getUserIpTrace table { settings with trustForwardedIpHeader := false } request) ∧
      (∀ request request' headerValue headerValue' addresses,
        request.header table settings.ipHeader = some headerValue →
        request'.header table settings.ipHeader = some headerValue' →
        Lists headerValue addresses → Lists headerValue' addresses →
          getUserIpTrace table settings request = getUserIpTrace table settings request') ∧
      (∀ request request' headerValue addresses,
        request.header table settings.ipHeader = some headerValue → Lists headerValue addresses →
        request'.header table settings.ipHeader = getUserIpTrace table settings request →
          getUserIpTrace table settings request' = getUserIpTrace table settings request)) := by
  refine ⟨fun htrust request headers => ?_, fun htrust => ⟨?_, ?_, ?_, ?_⟩⟩
  · rw [getUserIpTrace_untrusted htrust, getUserIpTrace_untrusted htrust]
    rfl
  · intro request headerValue addresses hvalue h
    exact getUserIpTrace_listed htrust hvalue h
  · intro request h
    have huntrusted : getUserIpTrace table { settings with trustForwardedIpHeader :=
      false } request =
        getRemoteAddress request := getUserIpTrace_untrusted rfl
    rw [huntrusted]
    cases hvalue : request.header table settings.ipHeader with
    | none => exact getUserIpTrace_missing hvalue
    | some headerValue =>
      exact getUserIpTrace_invalid hvalue fun addresses => h headerValue addresses hvalue
  · intro request request' headerValue headerValue' addresses hvalue hvalue' h h'
    rw [getUserIpTrace_listed htrust hvalue h, getUserIpTrace_listed htrust hvalue' h']
  · intro request request' headerValue addresses hvalue h hvalue'
    rw [getUserIpTrace_listed htrust hvalue h] at hvalue' ⊢
    exact getUserIpTrace_listed htrust hvalue' (lists_trace h)

end

end FastapiTemplate.Delivery
