/-
  What `normalize_email` does to the domain of an address.

  * `preserved_iff`: the normalized address has the same local part, and the
    same domain in ASCII, exactly if the domain has no sharp s and no final sigma.
  * `never_conflated_iff`: the same for whatever is stored for two addresses.
-/
import FastapiTemplate.Lib.Idna
import FastapiTemplate.Proof.Registration

namespace FastapiTemplate

open LetterCase

/-! ## Addresses -/

section
variable (email : String)

/-- What stands before the first `@`. -/
def localPart : String := (Text.partition '@' email).1

/-- What stands after it. -/
def domainPart : String := (Text.partition '@' email).2.2

end

section
variable {table : CaseTable} (idna : Idna table) (ext : Externals)

/-- The domain of an address in ASCII. -/
def asciiDomain (email : String) : Option (List Char) := idna.ascii (domainPart email).toList

/-- An address as `EmailStr` returns it: no white space, and a domain of valid Unicode labels. -/
structure IsAddress (email : String) : Prop where
  at_mem : '@' ∈ email.toList
  no_space : ∀ c ∈ email.toList, Text.isSpace c = false
  valid_domain : (idna.encode (domainPart email).toList).isSome

/-- What is documented of `EmailStr` and `str.casefold`. -/
structure EmailStrDocumented : Prop where
  casefold_eq : ∀ s, ext.casefold s = String.ofList (casefold table s.toList)
  /-- Letters are folded to letters. -/
  fold_space : ∀ c, Text.isSpace c = false → ∀ d ∈ table.fold c, Text.isSpace d = false
  accepted : ∀ raw email, ext.emailStr raw = some email → IsAddress idna email
  /-- The local part of an accepted address is accepted as it is, and a domain of Unicode labels is
      mapped. -/
  again : ∀ raw email text email', ext.emailStr raw = some email → localPart text =
    localPart email →
    '@' ∈ text.toList → (∀ c ∈ text.toList, Text.isSpace c = false) →
    (idna.encode (idna.map (domainPart text).toList)).isSome → ext.emailStr text = some email' →
      localPart email' = localPart email ∧ (domainPart email').toList =
      idna.map (domainPart text).toList

/-- What may be stored for an address: it is normalized, and accepted again by the models it
    passes through. -/
inductive StoredFor (email : String) : String → Prop where
  | normalized : StoredFor email (normalizeEmail ext email)
  | accepted {text email'} : StoredFor email text → ext.emailStr text = some email' →
    StoredFor email email'

/-- The same local part, and the same domain in ASCII. -/
def SameAddress (email email' : String) : Prop :=
  localPart email = localPart email' ∧ asciiDomain idna email = asciiDomain idna email'

/-- The domain has neither of the two letters that IDNA 2008 keeps and case folding replaces. -/
def KeptDomain (email : String) : Prop :=
  'ß' ∉ (domainPart email).toList ∧ 'ς' ∉ (domainPart email).toList

end

/-! ## Normalization -/

section
variable {table : CaseTable} {idna : Idna table} {ext : Externals} {email : String}
    {s t : List Char}

theorem partition_append (h : '@' ∉ s) :
    Text.partition '@' (String.ofList (s ++ '@' :: t)) =
    (String.ofList s, true, String.ofList t) := by
  have hall : ∀ c ∈ s, decide (c ≠ '@') = true := by
    intro c hc
    rw [decide_eq_true_eq]
    rintro rfl
    exact h hc
  rw [Text.partition, String.toList_ofList, List.takeWhile_append_of_pos hall,
    List.dropWhile_append_of_pos hall]
  simp

theorem at_notMem_localPart : '@' ∉ (localPart email).toList := by
  intro hmem
  rw [localPart, Text.partition, String.toList_ofList] at hmem
  simpa using List.mem_takeWhile_imp hmem

theorem toList_eq (h : '@' ∈ email.toList) :
    email.toList = (localPart email).toList ++ '@' :: (domainPart email).toList := by
  have heq := Text.partitionChars_eq h
  simpa [localPart, domainPart, Text.partition, Text.partitionChars] using heq

theorem strip_eq (h : ∀ c ∈ email.toList, Text.isSpace c = false) : Text.strip email = email := by
  rw [Text.strip, Text.stripChars_eq_self (fun c hc => h c (List.mem_of_mem_head? hc))
    fun c hc => h c (List.mem_of_mem_getLast? hc), String.ofList_toList]

theorem normalizeEmail_eq (hext : EmailStrDocumented idna ext) (h : IsAddress idna email) :
    normalizeEmail ext email =
      String.ofList
        ((localPart email).toList ++ '@' :: casefold table (domainPart email).toList) := by
  have hpartition : Text.partition '@' email = (localPart email, true, domainPart email) := by
    have hat : '@' ∉ (localPart email).toList := at_notMem_localPart
    have heq := partition_append (t := (domainPart email).toList) hat
    rwa [← toList_eq h.at_mem, String.ofList_toList, String.ofList_toList,
      String.ofList_toList] at heq
  rw [normalizeEmail, strip_eq h.no_space, hpartition]
  simp only [if_true]
  refine String.toList_injective ?_
  rw [hext.casefold_eq, String.toList_append, String.toList_append, String.toList_ofList,
    String.toList_ofList,
    String.toList_ofList, List.append_assoc, List.singleton_append]

theorem localPart_normalizeEmail (hext : EmailStrDocumented idna ext) (h : IsAddress idna email) :
    localPart (normalizeEmail ext email) = localPart email := by
  rw [normalizeEmail_eq hext h, localPart, partition_append at_notMem_localPart,
    String.ofList_toList]

theorem domainPart_normalizeEmail (hext : EmailStrDocumented idna ext) (h : IsAddress idna email) :
    (domainPart (normalizeEmail ext email)).toList = casefold table (domainPart email).toList := by
  rw [normalizeEmail_eq hext h, domainPart, partition_append at_notMem_localPart,
    String.toList_ofList]

/-- The normalized address is the same one, or its domain is another. -/
theorem preserved_iff (hext : EmailStrDocumented idna ext) (h : IsAddress idna email) :
    SameAddress idna (normalizeEmail ext email) email ↔ KeptDomain email := by
  rw [SameAddress, and_iff_right (localPart_normalizeEmail hext h), asciiDomain,
    domainPart_normalizeEmail hext h]
  exact Idna.ascii_casefold_iff h.valid_domain

/-! ## Storing -/

/-- What may be stored for a kept address is the same one. -/
theorem same_of_storedFor {raw email' : String} (hext : EmailStrDocumented idna ext)
    (hraw : ext.emailStr raw = some email) (hkept : KeptDomain email)
      (h : StoredFor ext email email') :
    SameAddress idna email' email ∧ '@' ∈ email'.toList ∧
    (∀ c ∈ email'.toList, Text.isSpace c = false) ∧
      (idna.encode (idna.map (domainPart email').toList)).isSome := by
  have haddress := hext.accepted raw email hraw
  induction h with
  | normalized =>
    have hsame := (preserved_iff hext haddress).2 hkept
    have hmem : '@' ∈ (normalizeEmail ext email).toList := by
      rw [normalizeEmail_eq hext haddress, String.toList_ofList]
      exact List.mem_append_right _ List.mem_cons_self
    have hvalid : (asciiDomain idna (normalizeEmail ext email)).isSome := by
      rw [hsame.2, asciiDomain, Idna.ascii_of_valid haddress.valid_domain]
      exact haddress.valid_domain
    refine ⟨hsame, hmem, ?_, hvalid⟩
    rw [normalizeEmail_eq hext haddress, String.toList_ofList]
    have hspace := haddress.no_space
    rw [toList_eq haddress.at_mem] at hspace
    intro c hc
    rcases List.mem_append.1 hc with hc | hc
    · exact hspace c (List.mem_append_left _ hc)
    · rcases List.mem_cons.1 hc with rfl | hc
      · decide
      · obtain ⟨d, hd, hcd⟩ := List.mem_flatMap.1 hc
        exact hext.fold_space d
          (hspace d (List.mem_append_right _ (List.mem_cons_of_mem _ hd))) c hcd
  | accepted htext haccepted ih =>
    rename_i text email'
    obtain ⟨⟨hlocal, hascii⟩, hmem, hspace, hvalid⟩ := ih
    obtain ⟨hlocal', hdomain⟩ :=
      hext.again raw email text email' hraw hlocal hmem hspace hvalid haccepted
    have haddress' := hext.accepted text email' haccepted
    have hascii' : asciiDomain idna email' = asciiDomain idna text := by
      rw [asciiDomain, asciiDomain, hdomain, Idna.ascii_of_valid hvalid, Idna.ascii]
    refine ⟨⟨hlocal', hascii'.trans hascii⟩, haddress'.at_mem, haddress'.no_space, ?_⟩
    rw [Idna.map_of_valid haddress'.valid_domain]
    exact haddress'.valid_domain

end

/-! ## Samples -/

namespace Sample

/-- The table of ASCII and the sigmas, with the sharp s. -/
def sharpFold (c : Char) : List Char := if c = 'ß' ∨ c = 'ẞ' then ['s', 's'] else asciiTable.fold c

theorem sharpFold_ascii {c : Char} (h : c.toNat < 128) : sharpFold c = [c.toLower] := by
  refine (if_neg ?_).trans (asciiTable.fold_ascii c h)
  rintro (rfl | rfl) <;> exact absurd h (by decide)

theorem toLower_ascii {c : Char} (h : c.toNat < 128) :
    c.toLower.toNat < 128 ∧ c.toLower.toLower = c.toLower := by
  have hall : ∀ n : Fin 128, (Char.ofNat n).toLower.toNat < 128 ∧
      (Char.ofNat n).toLower.toLower = (Char.ofNat n).toLower := by decide
  have hc := hall ⟨c.toNat, h⟩
  rwa [Char.ofNat_toNat] at hc

def sharpTable : CaseTable where
  lower := asciiTable.lower
  fold := sharpFold
  cased := asciiTable.cased
  caseIgnorable := asciiTable.caseIgnorable
  lower_ascii := asciiTable.lower_ascii
  fold_ascii _ := sharpFold_ascii
  fold_lower c := by
    by_cases hascii : c.toNat < 128
    · obtain ⟨hlt, hlower⟩ := toLower_ascii hascii
      rw [asciiTable.lower_ascii c hascii, List.flatMap_singleton, sharpFold_ascii hlt,
        sharpFold_ascii hascii, hlower]
    · by_cases hsigma : c = 'Σ'
      · rw [hsigma]
        decide
      · have hlower : asciiTable.lower c = [c] := (if_neg hascii).trans (if_neg hsigma)
        rw [hlower, List.flatMap_singleton]
  fold_sigma := by decide

def isNameChar (c : Char) : Bool :=
  c = 'ß' || c.toNat < 128 && c.toLower = c && (c.isAlphanum || c = '.' || c = '-')

def isName (s : List Char) : Bool := s ≠ [] && s.all isNameChar && !"xn--".toList.isPrefixOf s

/-- The mapping of ASCII and of the capital sharp s. -/
def mapping (c : Char) : List Char :=
  if c.toNat < 128 then [c.toLower] else if c = 'ẞ' then ['ß'] else [c]

/-- The ASCII form of one name, and of the names that are in ASCII. -/
def encode (s : List Char) : Option (List Char) :=
  if isName s then some (if s = "straße.de".toList then "xn--strae-oqa.de".toList else s) else none

theorem isName_of_encode {s a : List Char} (h : encode s = some a) : isName s = true := by
  by_contra hname
  rw [encode, if_neg hname] at h
  cases h

theorem isNameChar_of_encode {s a : List Char} (h : encode s = some a) :
    ∀ c ∈ s, isNameChar c = true := by
  have hname := isName_of_encode h
  simp only [isName, Bool.and_eq_true, List.all_eq_true] at hname
  exact hname.1.2

theorem ascii_of_isNameChar {c : Char} (h : isNameChar c = true) (hsharp : c ≠ 'ß') :
    c.toNat < 128 ∧ c.toLower = c := by
  simp only [isNameChar, hsharp, decide_false, Bool.false_or, Bool.and_eq_true,
    decide_eq_true_eq] at h
  exact h.1

theorem mapping_of_isNameChar {c : Char} (h : isNameChar c = true) : mapping c = [c] := by
  by_cases hsharp : c = 'ß'
  · rw [hsharp]
    decide
  · obtain ⟨hascii, hlower⟩ := ascii_of_isNameChar h hsharp
    rw [mapping, if_pos hascii, hlower]

theorem map_of_encode {s a : List Char} (h : encode s = some a) : s.flatMap mapping = s := by
  have hchars := isNameChar_of_encode h
  clear h
  induction s with
  | nil => rfl
  | cons c s ih =>
    obtain ⟨hc, hchars⟩ := List.forall_mem_cons.1 hchars
    rw [List.flatMap_cons, mapping_of_isNameChar hc, ih hchars]
    rfl

theorem sharpFold_sharpFold {c d : Char} (h : d ∈ sharpFold c) : sharpFold d = [d] := by
  by_cases hsharp : c = 'ß' ∨ c = 'ẞ'
  · rw [sharpFold, if_pos hsharp] at h
    obtain rfl : d = 's' := by simpa using h
    decide
  · by_cases hascii : c.toNat < 128
    · obtain ⟨hlt, hlower⟩ := toLower_ascii hascii
      rw [sharpFold_ascii hascii] at h
      obtain rfl := List.mem_singleton.1 h
      rw [sharpFold_ascii hlt, hlower]
    · have hsame : sharpFold c = if c = 'Σ' ∨ c = 'ς' then ['σ'] else [c] :=
        (if_neg hsharp).trans (if_neg hascii)
      rw [hsame] at h
      split_ifs at h with hsigma
      · obtain rfl := List.mem_singleton.1 h
        decide
      · obtain rfl := List.mem_singleton.1 h
        rw [hsame, if_neg hsigma]

theorem encode_injective {s t a : List Char} (hs : encode s = some a) (ht : encode t = some a) :
    s = t := by
  have hnot : isName "xn--strae-oqa.de".toList = false := by decide
  have hname := isName_of_encode hs
  have hname' := isName_of_encode ht
  rw [encode, if_pos hname] at hs
  rw [encode, if_pos hname', ← hs] at ht
  split_ifs at ht with hsharp' hsharp hsharp
  · rw [hsharp, hsharp']
  · rw [← Option.some.inj ht, hnot] at hname
    cases hname
  · rw [Option.some.inj ht, hnot] at hname'
    cases hname'
  · exact (Option.some.inj ht).symm

def idna : Idna sharpTable where
  mapping := mapping
  nfc s := s
  encode := encode
  fold_sharp := by decide
  fold_fold _ _ := sharpFold_sharpFold
  nfc_nfc _ := rfl
  nfc_append _ _ := rfl
  nfc_deviation _ _ h _ := h
  mapping_deviation c d hd hdev := by
    unfold mapping at hd
    split_ifs at hd with hascii hcapital
    · obtain rfl := List.mem_singleton.1 hd
      have hlt := (toLower_ascii hascii).1
      rcases hdev with hdev | hdev
      all_goals
        rw [hdev] at hlt
        exact absurd hlt (by decide)
    · exact .inr hcapital
    · exact .inl (List.mem_singleton.1 hd).symm
  encode_injective _ _ _ := encode_injective
  encode_mapped _ _ := map_of_encode
  encode_stable s a h c hc hsharp _ := by
    have hname := isNameChar_of_encode h c hc
    obtain ⟨hascii, hlower⟩ := ascii_of_isNameChar hname hsharp
    have hfold : sharpTable.fold c = [c] := (sharpFold_ascii hascii).trans (by rw [hlower])
    rw [hfold, List.flatMap_singleton, mapping_of_isNameChar hname]

theorem idna_encode : idna.encode = encode := by
  rw [idna]

/-- `EmailStr`, for local parts of such characters. -/
def emailStr (s : String) : Option String :=
  let name := (domainPart s).toList.flatMap mapping
  if (localPart s).toList ≠ [] ∧ (localPart s).toList.all isNameChar ∧ '@' ∈ s.toList ∧
    (encode name).isSome then
    some (String.ofList ((localPart s).toList ++ '@' :: name))
  else none

def mailExternals : Externals where
  __ := externals
  casefold s := String.ofList (casefold sharpTable s.toList)
  emailStr := emailStr

theorem mailExternals_emailStr : mailExternals.emailStr = emailStr := by
  rw [mailExternals]

theorem emailStr_eq {s email : String} (h : emailStr s = some email) :
    email = String.ofList ((localPart s).toList ++ '@' :: (domainPart s).toList.flatMap mapping) ∧
      (∀ c ∈ (localPart s).toList, isNameChar c = true) ∧
      (encode ((domainPart s).toList.flatMap mapping)).isSome := by
  unfold emailStr at h
  simp only at h
  split_ifs at h with haccepted
  obtain ⟨-, hlocal, -, hname⟩ := haccepted
  exact ⟨(Option.some.inj h).symm, List.all_eq_true.1 hlocal, hname⟩

theorem isSpace_ascii {c : Char} (h : c.toNat < 128) : Text.isSpace c.toLower = Text.isSpace c ∧
    ((c.isAlphanum || c = '.' || c = '-') = true → Text.isSpace c = false) := by
  have hall : ∀ n : Fin 128, Text.isSpace (Char.ofNat n).toLower = Text.isSpace (Char.ofNat n) ∧
      (((Char.ofNat n).isAlphanum || Char.ofNat n = '.' || Char.ofNat n = '-') = true →
        Text.isSpace (Char.ofNat n) = false) := by decide
  have hc := hall ⟨c.toNat, h⟩
  rwa [Char.ofNat_toNat] at hc

theorem isSpace_of_isNameChar {c : Char} (h : isNameChar c = true) : Text.isSpace c = false := by
  by_cases hsharp : c = 'ß'
  · rw [hsharp]
    decide
  · simp only [isNameChar, hsharp, decide_false, Bool.false_or, Bool.and_eq_true,
      decide_eq_true_eq] at h
    obtain ⟨⟨hascii, -⟩, hgraph⟩ := h
    exact (isSpace_ascii hascii).2 (by simpa using hgraph)

theorem documented_mailExternals : EmailStrDocumented idna mailExternals where
  casefold_eq _ := rfl
  fold_space c hc d hd := by
    by_cases hsharp : c = 'ß' ∨ c = 'ẞ'
    · have hfold : sharpTable.fold c = ['s', 's'] := if_pos hsharp
      rw [hfold] at hd
      obtain rfl : d = 's' := by simpa using hd
      decide
    · by_cases hascii : c.toNat < 128
      · have hfold : sharpTable.fold c = [c.toLower] := sharpFold_ascii hascii
        rw [hfold] at hd
        rw [List.mem_singleton.1 hd, (isSpace_ascii hascii).1, hc]
      · have hfold : sharpTable.fold c = if c = 'Σ' ∨ c = 'ς' then ['σ'] else [c] :=
          (if_neg hsharp).trans (if_neg hascii)
        rw [hfold] at hd
        split_ifs at hd
        · obtain rfl := List.mem_singleton.1 hd
          decide
        · rwa [List.mem_singleton.1 hd]
  accepted raw email h := by
    rw [mailExternals_emailStr] at h
    obtain ⟨rfl, hlocal, hname⟩ := emailStr_eq h
    obtain ⟨a, ha⟩ := Option.isSome_iff_exists.1 hname
    constructor
    · rw [String.toList_ofList]
      exact List.mem_append_right _ List.mem_cons_self
    · intro c hc
      rw [String.toList_ofList] at hc
      rcases List.mem_append.1 hc with hc | hc
      · exact isSpace_of_isNameChar (hlocal c hc)
      · rcases List.mem_cons.1 hc with rfl | hc
        · decide
        · exact isSpace_of_isNameChar (isNameChar_of_encode ha c hc)
    · rw [domainPart, partition_append at_notMem_localPart, String.toList_ofList, idna_encode]
      exact hname
  again raw email text email' h hlocal hmem hspace hvalid h' := by
    rw [mailExternals_emailStr] at h'
    obtain ⟨rfl, hlocal', hname⟩ := emailStr_eq h'
    constructor
    · rw [← hlocal, localPart, partition_append at_notMem_localPart, String.ofList_toList]
    · rw [domainPart, partition_append at_notMem_localPart, String.toList_ofList]
      rfl

end Sample

/-! ## Two addresses -/

section
variable {table : CaseTable} {idna : Idna table} {ext : Externals}

/-- **Addresses are never conflated or redirected** if and only if neither domain has a sharp s or
    a final sigma. -/
theorem never_conflated_iff {raw₁ raw₂ email₁ email₂ : String} (hext : EmailStrDocumented idna ext)
    (h₁ : ext.emailStr raw₁ = some email₁) (h₂ : ext.emailStr raw₂ = some email₂) :
    (∀ stored₁ stored₂, StoredFor ext email₁ stored₁ → StoredFor ext email₂ stored₂ →
      (localPart email₁ ≠ localPart email₂ ∨ asciiDomain idna email₁ ≠ asciiDomain idna email₂ →
      stored₁ ≠ stored₂) ∧
      SameAddress idna stored₁ email₁ ∧ SameAddress idna stored₂ email₂) ↔
      KeptDomain email₁ ∧ KeptDomain email₂ := by
  constructor
  · intro h
    obtain ⟨-, hsame₁, hsame₂⟩ := h _ _ .normalized .normalized
    exact ⟨(preserved_iff hext (hext.accepted raw₁ email₁ h₁)).1 hsame₁,
      (preserved_iff hext (hext.accepted raw₂ email₂ h₂)).1 hsame₂⟩
  · rintro ⟨hkept₁, hkept₂⟩ stored₁ stored₂ hstored₁ hstored₂
    have hsame₁ := (same_of_storedFor hext h₁ hkept₁ hstored₁).1
    have hsame₂ := (same_of_storedFor hext h₂ hkept₂ hstored₂).1
    refine ⟨?_, hsame₁, hsame₂⟩
    rintro hne rfl
    obtain hlocal | hascii := hne
    · exact hlocal (hsame₁.1.symm.trans hsame₂.1)
    · exact hascii (hsame₁.2.symm.trans hsame₂.2)

end

/-- Two addresses in ASCII. -/
theorem ascii_addresses_kept :
    (localPart "ana@example.com" ≠ localPart "ana@example.org" ∨
        asciiDomain Sample.idna "ana@example.com" ≠ asciiDomain Sample.idna "ana@example.org" →
      normalizeEmail Sample.mailExternals "ana@example.com" ≠
        normalizeEmail Sample.mailExternals "ana@example.org") ∧
      SameAddress Sample.idna (normalizeEmail Sample.mailExternals "ana@example.com")
        "ana@example.com" ∧
      SameAddress Sample.idna (normalizeEmail Sample.mailExternals "ana@example.org")
        "ana@example.org" := by
  have hcom : Sample.mailExternals.emailStr "ana@example.com" = some "ana@example.com" := by decide
  have horg : Sample.mailExternals.emailStr "ana@example.org" = some "ana@example.org" := by decide
  refine (never_conflated_iff Sample.documented_mailExternals hcom horg).2
    ⟨⟨?_, ?_⟩, ?_, ?_⟩ _ _ .normalized .normalized
  all_goals decide

/-- Two domains, and one account. -/
theorem sharp_addresses_conflated : ¬∀ raw₁ raw₂ email₁ email₂,
    Sample.mailExternals.emailStr raw₁ = some email₁ →
    Sample.mailExternals.emailStr raw₂ = some email₂ →
      asciiDomain Sample.idna email₁ ≠ asciiDomain Sample.idna email₂ →
        normalizeEmail Sample.mailExternals email₁ ≠
        normalizeEmail Sample.mailExternals email₂ := by
  intro h
  refine h "ana@straße.de" "ana@strasse.de" "ana@straße.de" "ana@strasse.de" ?_ ?_ ?_ ?_
  all_goals decide +kernel

end FastapiTemplate
