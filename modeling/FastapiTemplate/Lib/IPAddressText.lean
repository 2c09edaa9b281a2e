/-
  The text of an address is read as that address (`parse_text`), and which
  characters it has.
-/
import FastapiTemplate.Lib.IPAddress

namespace IPAddress

/-! ## Numbers -/

section
variable {n k : ℕ} {s t : List Char}

/-- The characters of hexadecimal numbers as they are written. -/
def isHexChar (c : Char) : Bool := c.isDigit || ('a' ≤ c && c ≤ 'f')

theorem hexDigit_digitChar (hn : n < 16) :
    hexDigit n.digitChar = some n ∧ isHexChar n.digitChar = true := by
  have hall : ∀ d : Fin 16, hexDigit d.val.digitChar = some d.val ∧
      isHexChar d.val.digitChar = true := by
    decide
  exact hall ⟨n, hn⟩

theorem readHex_append : readHex k (s ++ t) = (readHex k s).bind fun m => readHex m t := by
  induction s generalizing k with
  | nil => rfl
  | cons c s ih =>
    rw [List.cons_append, readHex, readHex, Option.bind_assoc]
    exact congrArg _ (funext fun d => ih)

theorem readHex_hexText (n : ℕ) : readHex 0 (hexText n) = some n := by
  induction n using Nat.strongRecOn with
  | ind n ih =>
    rw [hexText, Nat.toDigits_eq_if (by decide)]
    split_ifs with hn
    · simp [readHex, (hexDigit_digitChar hn).1]
    · have hlast := (hexDigit_digitChar (Nat.mod_lt n (y := 16) (by decide))).1
      have hdiv := ih (n / 16) (by omega)
      rw [hexText] at hdiv
      rw [readHex_append, hdiv, Option.bind_some, readHex, hlast, Option.bind_some, readHex,
        Nat.div_add_mod]

theorem hexText_chars : ∀ c ∈ hexText n, isHexChar c = true := by
  induction n using Nat.strongRecOn with
  | ind n ih =>
    intro c hc
    rw [hexText, Nat.toDigits_eq_if (by decide)] at hc
    split_ifs at hc with hn
    · rw [List.mem_singleton.1 hc]
      exact (hexDigit_digitChar hn).2
    · rcases List.mem_append.1 hc with hc | hc
      · exact ih (n / 16) (by omega) c hc
      · rw [List.mem_singleton.1 hc]
        exact (hexDigit_digitChar (Nat.mod_lt n (by decide))).2

theorem hexText_ne_nil : hexText n ≠ [] := Nat.toDigits_ne_nil

theorem parseHextet_hexText (h : Hextet) : parseHextet (hexText h) = some h := by
  have hlen : ¬4 < (hexText h).length :=
    Nat.not_lt.2 ((Nat.length_toDigits_le_iff (by decide) (by decide)).2 h.isLt)
  simp [parseHextet, hexText_ne_nil, hlen, readHex_hexText]

theorem mapM_parseHextet (hs : List Hextet) :
    (hs.map fun h : Hextet => hexText h).mapM parseHextet = some hs := by
  induction hs with
  | nil => rfl
  | cons h hs ih =>
    rw [List.map_cons, List.mapM_cons, parseHextet_hexText, ih]
    rfl

theorem parseOctet_decimalText (n : Fin 256) : parseOctet (decimalText n) = some n := by
  have hall : ∀ n : Fin 256, parseOctet (decimalText n) = some n := by decide +kernel
  exact hall n

theorem decimalText_chars : ∀ c ∈ decimalText n, c.isDigit = true := fun _ hc =>
  Nat.isDigit_of_mem_toDigits (by decide) (by decide) hc

end

/-! ## Parts -/

section
variable {sep c : Char} {parts : List (List Char)}

/-- What is between the separators is what is joined. -/
theorem mem_intercalate (h : c ∈ [sep].intercalate parts) : c = sep ∨ ∃ p ∈ parts, c ∈ p := by
  induction parts with
  | nil => cases h
  | cons p parts ih =>
    cases parts with
    | nil =>
      rw [List.intercalate_singleton] at h
      exact .inr ⟨p, List.mem_cons_self .., h⟩
    | cons q parts =>
      rw [List.intercalate_cons_cons, List.mem_append, List.mem_append, List.mem_singleton] at h
      rcases h with (h | h) | h
      · exact .inr ⟨p, List.mem_cons_self .., h⟩
      · exact .inl h
      · exact (ih h).imp_right fun ⟨r, hr, hc⟩ => ⟨r, List.mem_cons_of_mem _ hr, hc⟩

/-- Two parts have a separator between them. -/
theorem sep_mem_intercalate (h : 2 ≤ parts.length) : sep ∈ [sep].intercalate parts := by
  match parts, h with
  | p :: q :: parts, _ =>
    rw [List.intercalate_cons_cons]
    simp

theorem IPv4Address.text_chars {x : IPv4Address} (h : c ∈ x.text) : c.isDigit = true ∨ c = '.' := by
  rcases mem_intercalate h with h | ⟨p, hp, hc⟩
  · exact .inr h
  · simp only [List.mem_cons, List.not_mem_nil, or_false] at hp
    rcases hp with rfl | rfl | rfl | rfl <;> exact .inl (decimalText_chars c hc)

/-- **IPv4 addresses are read back.** -/
theorem parseIPv4_text (x : IPv4Address) : parseIPv4 x.text = some x := by
  have hslash : '/' ∉ x.text := by
    intro h
    rcases IPv4Address.text_chars h with h | h <;> exact absurd h (by decide)
  have hsplit : x.text.splitOn '.' =
      [decimalText x.a, decimalText x.b, decimalText x.c, decimalText x.d] := by
    refine List.splitOn_intercalate '.' (fun p hp hdot => ?_) (by simp)
    simp only [List.mem_cons, List.not_mem_nil, or_false] at hp
    have hdigit : '.'.isDigit = true := by
      rcases hp with rfl | rfl | rfl | rfl <;> exact decimalText_chars '.' hdot
    cases hdigit
  rw [parseIPv4, if_neg hslash, hsplit]
  simp [parseOctet_decimalText]

theorem parseOctet_digits {s : List Char} {n : Fin 256} (h : parseOctet s = some n) :
    ∀ c ∈ s, c.isDigit = true := by
  unfold parseOctet at h
  split_ifs at h with h₁
  simp only [Bool.or_eq_true, decide_eq_true_eq, Bool.not_eq_true', not_or, Bool.not_eq_false,
    List.all_eq_true] at h₁
  exact h₁.1.2

/-- An IPv4 address has digits and dots. -/
theorem parseIPv4_chars {s : List Char} {x : IPv4Address} (h : parseIPv4 s = some x) (hc : c ∈ s) :
    c.isDigit = true ∨ c = '.' := by
  unfold parseIPv4 at h
  split_ifs at h with hslash
  have hs : ['.'].intercalate (s.splitOn '.') = s := List.intercalate_splitOn '.'
  have hdigits : ∀ p ∈ s.splitOn '.', ∀ c ∈ p, c.isDigit = true := by
    split at h
    · rename_i a b c d hparts
      simp only [Option.pure_def, Option.bind_eq_bind, Option.bind_eq_some_iff] at h
      obtain ⟨_, ha, _, hb, _, hc, _, hd, -⟩ := h
      rw [hparts]
      intro p hp
      simp only [List.mem_cons, List.not_mem_nil, or_false] at hp
      rcases hp with rfl | rfl | rfl | rfl
      · exact parseOctet_digits ha
      · exact parseOctet_digits hb
      · exact parseOctet_digits hc
      · exact parseOctet_digits hd
    · cases h
  rw [← hs] at hc
  rcases mem_intercalate hc with hc | ⟨p, hp, hc⟩
  · exact .inr hc
  · exact .inl (hdigits p hp c hc)

end

/-! ## The longest run of zeros -/

namespace ZeroRun

/-- What the loop has found in the hextets that it has passed. -/
structure Found (run : ZeroRun) (passed : List Hextet) : Prop where
  current : ∃ x, passed = x ++ List.replicate run.length 0
  best : ∃ x y, passed = x ++ List.replicate run.bestLength 0 ++ y ∧ x.length = run.bestStart

variable {run : ZeroRun} {passed hextets : List Hextet}

theorem Found.next (h : Found run passed) (hextet : Hextet) :
    Found (run.next passed.length hextet) (passed ++ [hextet]) := by
  obtain ⟨⟨x, hx⟩, u, v, huv, hu⟩ := h
  have hbest : passed ++ [hextet] = u ++ List.replicate run.bestLength 0 ++ (v ++ [hextet]) := by
    rw [huv, List.append_assoc]
  unfold ZeroRun.next
  by_cases hzero : hextet = 0
  · -- the run at hand goes on
    have hcurrent : passed ++ [hextet] = x ++ List.replicate (run.length + 1) 0 := by
      rw [hzero, List.replicate_succ', ← List.append_assoc, ← hx]
    rw [if_pos hzero]
    by_cases hlonger : run.bestLength < run.length + 1
    · rw [if_pos hlonger]
      refine ⟨⟨x, hcurrent⟩, x, [], by rw [List.append_nil]; exact hcurrent, ?_⟩
      have hlen := congrArg List.length hx
      rw [List.length_append, List.length_replicate] at hlen
      show x.length = passed.length + 1 - (run.length + 1)
      omega
    · rw [if_neg hlonger]
      exact ⟨⟨x, hcurrent⟩, u, _, hbest, hu⟩
  · rw [if_neg hzero]
    exact ⟨⟨_, (List.append_nil _).symm⟩, u, _, hbest, hu⟩

theorem Found.scan (h : Found run passed) :
    Found (run.scan passed.length hextets) (passed ++ hextets) := by
  induction hextets generalizing run passed with
  | nil => rwa [List.append_nil]
  | cons hextet hextets ih =>
    have hstep := ih (h.next hextet)
    rwa [List.length_append, List.append_assoc] at hstep

theorem found_scan (hextets : List Hextet) : Found (scan ⟨0, 0, 0⟩ 0 hextets) hextets := by
  have hstart : Found ⟨0, 0, 0⟩ [] := ⟨⟨[], rfl⟩, [], [], rfl, rfl⟩
  exact hstart.scan

end ZeroRun

/-! ## Hextets -/

section
variable {A B : List (List Char)} {hextets x y : List Hextet} {n : ℕ}

/-- The parts of an address with `::` between `A` and `B`. -/
def skipParts (A B : List (List Char)) : List (List Char) :=
  (if A = [] then [[]] else []) ++ A ++ [[]] ++ B ++ if B = [] then [[]] else []

theorem mem_skipParts {p : List Char} (h : p ∈ skipParts A B) : p = [] ∨ p ∈ A ∨ p ∈ B := by
  have hend : ∀ l : List (List Char), p ∈ (if l = [] then [[]] else []) → p = [] := by
    intro l hp
    split_ifs at hp
    · exact List.mem_singleton.1 hp
    · cases hp
  simp only [skipParts, List.mem_append, List.mem_singleton] at h
  rcases h with (((h | h) | h) | h) | h
  · exact .inl (hend A h)
  · exact .inr (.inl h)
  · exact .inl h
  · exact .inr (.inr h)
  · exact .inl (hend B h)

theorem three_le_skipParts : 3 ≤ (skipParts A B).length := by
  unfold skipParts
  split_ifs with hA hB hB
  · simp [hA, hB]
  · have hpos := List.length_pos_iff.2 hB
    simp [hA]
    omega
  · have hpos := List.length_pos_iff.2 hA
    simp
    omega
  · have hpos := List.length_pos_iff.2 hA
    have hpos' := List.length_pos_iff.2 hB
    simp
    omega

theorem skipParts_le_nine (h : A.length + B.length < 8) : (skipParts A B).length ≤ 9 := by
  unfold skipParts
  split_ifs with hA hB hB
  · simp [hA, hB]
  · simp [hA] at h ⊢
    omega
  · simp [hB] at h ⊢
    omega
  · simp
    omega

/-- `::` is found where it stands. -/
theorem locateSkip_skipParts (hA : ∀ p ∈ A, p ≠ []) (hB : ∀ p ∈ B, p ≠ [])
    (hlen : A.length + B.length < 8) :
    ∃ first rest, skipParts A B = first :: rest ∧
    locateSkip first rest.dropLast (rest.getLastD []) =
      some (A, 8 - (A.length + B.length), B) := by
  have hkeep : ∀ {A : List (List Char)}, (∀ p ∈ A, p ≠ []) → ∀ t : List (List Char),
      (A ++ [] :: t).dropWhile (· ≠ []) = [] :: t ∧ (A ++ [] :: t).takeWhile (· ≠ []) = A := by
    intro A hA t
    have hall : ∀ p ∈ A, decide (p ≠ []) = true := fun p hp => decide_eq_true (hA p hp)
    exact ⟨Spans.dropWhile_append_stop hall (by simp), Spans.takeWhile_append_stop hall (by simp)⟩
  rcases List.eq_nil_or_concat' B with rfl | ⟨B, b, rfl⟩
  · cases A with
    | nil => exact ⟨[], [[], []], rfl, rfl⟩
    | cons a A =>
      have ha : a ≠ [] := hA a (List.mem_cons_self ..)
      obtain ⟨hdrop, htake⟩ := hkeep (fun p hp => hA p (List.mem_cons_of_mem _ hp)) []
      have hrest : (A ++ [[], []]).dropLast = A ++ [[]] ∧ (A ++ [[], []]).getLastD [] = [] := by
        constructor
        · rw [List.dropLast_append_of_ne_nil (by simp)]
          rfl
        · rw [List.getLastD_eq_getLast?, List.getLast?_append]
          rfl
      refine ⟨a, A ++ [[], []], by simp [skipParts], ?_⟩
      rw [hrest.1, hrest.2]
      unfold locateSkip
      rw [hdrop]
      simp only [List.length_cons, List.length_nil, Nat.add_zero] at hlen
      simp only [htake]
      simp [ha]
      omega
  · have hb : b ≠ [] := hB b (by simp)
    have hB' : [] ∉ B := fun h => hB [] (by simp [h]) rfl
    have hlast : ∀ l : List (List Char), (l ++ B ++ [b]).dropLast = l ++ B ∧
        (l ++ B ++ [b]).getLastD [] = b := by
      intro l
      exact ⟨List.dropLast_concat .., by rw [List.getLastD_eq_getLast?, List.getLast?_concat]; rfl⟩
    cases A with
    | nil =>
      refine ⟨[], [[]] ++ B ++ [b], by simp [skipParts], ?_⟩
      rw [(hlast [[]]).1, (hlast [[]]).2]
      unfold locateSkip
      simp only [List.length_append, List.length_singleton, List.length_nil, Nat.zero_add] at hlen
      simp [hB', hb]
      omega
    | cons a A =>
      have ha : a ≠ [] := hA a (List.mem_cons_self ..)
      obtain ⟨hdrop, htake⟩ := hkeep (fun p hp => hA p (List.mem_cons_of_mem _ hp)) B
      have hrest := hlast (A ++ [[]])
      refine ⟨a, A ++ [[]] ++ B ++ [b], by simp [skipParts], ?_⟩
      rw [hrest.1, hrest.2]
      unfold locateSkip
      rw [List.append_assoc, List.singleton_append, hdrop]
      simp only [List.length_cons, List.length_append, List.length_nil] at hlen
      simp only [htake]
      simp [ha, hb, hB']
      omega

/-- Without `::` there are eight parts. -/
theorem locateSkip_full (hA : ∀ p ∈ A, p ≠ []) (hlen : A.length = 8) :
    ∃ first rest, A = first :: rest ∧
      locateSkip first rest.dropLast (rest.getLastD []) = some (A, 0, []) := by
  obtain ⟨first, rest, rfl⟩ := List.exists_cons_of_length_eq_add_one hlen
  rcases List.eq_nil_or_concat' rest with rfl | ⟨middle, last, rfl⟩
  · cases hlen
  · have hfirst : first ≠ [] := hA first (List.mem_cons_self ..)
    have hlast : last ≠ [] := hA last (by simp)
    have hmiddle : middle.dropWhile (· ≠ []) = [] := by
      rw [← List.append_nil middle]
      exact Spans.dropWhile_append_stop (fun p hp => decide_eq_true (hA p (by simp [hp]))) rfl
    have hcount : middle.length = 6 := by simpa using hlen
    refine ⟨first, middle ++ [last], rfl, ?_⟩
    rw [List.dropLast_concat, List.getLastD_eq_getLast?, List.getLast?_concat, Option.getD_some]
    unfold locateSkip
    rw [hmiddle]
    simp [hfirst, hlast, hcount]

/-- Hextets as they are written. -/
def texts (hs : List Hextet) : List (List Char) := hs.map fun h : Hextet => hexText h

theorem texts_ne_nil {p : List Char} (hp : p ∈ texts x) : p ≠ [] := by
  obtain ⟨h, -, rfl⟩ := List.mem_map.1 hp
  exact hexText_ne_nil

theorem texts_chars {p : List Char} (hp : p ∈ texts x) : ∀ c ∈ p, isHexChar c = true := by
  obtain ⟨h, -, rfl⟩ := List.mem_map.1 hp
  exact hexText_chars

theorem notMem_part {p : List Char} {c : Char} (hp : p = [] ∨ p ∈ texts x ∨ p ∈ texts y)
    (hc : isHexChar c = false) : c ∉ p := by
  rcases hp with rfl | hp | hp
  · exact List.not_mem_nil
  · exact Spans.notMem_of_forall (texts_chars hp) hc
  · exact Spans.notMem_of_forall (texts_chars hp) hc

/-- Without a dot in them, the parts are those of the hextets. -/
theorem expandIPv4_same {parts : List (List Char)} (hne : parts ≠ []) (h : ∀ p ∈ parts, '.' ∉ p) :
    expandIPv4 parts = some parts := by
  rw [expandIPv4, List.getLast?_eq_some_getLast hne]
  exact if_neg (h _ (List.getLast_mem hne))

/-- An address with `::` between `x` and `y`. -/
theorem parseHextets_skip {s : List Char} {parts : List (List Char)}
    (hsplit : s.splitOn ':' = parts)
    (hthree : 3 ≤ parts.length) (hexpand : expandIPv4 parts = some (skipParts (texts x) (texts y)))
    (hlen : x.length + y.length < 8) :
    parseHextets s = some (x ++ List.replicate (8 - (x.length + y.length)) 0 ++ y) := by
  have hcount : (texts x).length + (texts y).length < 8 := by simpa [texts] using hlen
  obtain ⟨first, rest, hparts, hlocate⟩ :=
    locateSkip_skipParts (fun _ => texts_ne_nil) (fun _ => texts_ne_nil) hcount
  have hnine := skipParts_le_nine hcount
  have hx : (texts x).mapM parseHextet = some x := mapM_parseHextet x
  have hy : (texts y).mapM parseHextet = some y := mapM_parseHextet y
  have hskipped : 8 - ((texts x).length + (texts y).length) = 8 - (x.length + y.length) := by
    simp [texts]
  rw [hparts] at hexpand hnine
  simp only [parseHextets, hsplit, hexpand, Nat.not_lt.2 hthree, Nat.not_lt.2 hnine, if_false,
    hlocate, hx, hy,
    hskipped, Option.bind_eq_bind, Option.bind_some, Option.pure_def]

/-- The text of hextets leaves a run of zeros out, or nothing. -/
theorem hextetsText_cases (hextets : List Hextet) :
    (∃ u n v, hextets = u ++ List.replicate n 0 ++ v ∧ 1 < n ∧
      hextetsText hextets = [':'].intercalate (skipParts (texts u) (texts v))) ∨
    hextetsText hextets = [':'].intercalate (texts hextets) := by
  obtain ⟨-, u, v, huv, hu⟩ := ZeroRun.found_scan hextets
  have htexts : (hextets.map fun h : Hextet => hexText h) = texts hextets := rfl
  unfold hextetsText
  generalize ZeroRun.scan ⟨0, 0, 0⟩ 0 hextets = run at huv hu ⊢
  simp only [htexts]
  by_cases hlong : 1 < run.bestLength
  · have hmap : texts hextets = texts u ++ texts (List.replicate run.bestLength 0) ++ texts v := by
      rw [huv, texts, List.map_append, List.map_append]
      rfl
    have hbefore : (texts hextets).take run.bestStart = texts u := by
      rw [hmap, List.append_assoc]
      exact List.take_left' (by simp [texts, hu])
    have hafter : (texts hextets).drop (run.bestStart + run.bestLength) = texts v := by
      rw [hmap]
      exact List.drop_left' (by simp [texts, hu])
    refine .inl ⟨u, run.bestLength, v, huv, hlong, ?_⟩
    rw [if_pos hlong, hbefore, hafter]
    rfl
  · exact .inr (if_neg hlong)

/-- **Hextets are read back.** -/
theorem parseHextets_text (hlen : hextets.length = 8) :
    parseHextets (hextetsText hextets) = some hextets := by
  rcases hextetsText_cases hextets with ⟨u, n, v, huv, hlong, htext⟩ | htext
  · have hcount : hextets.length = u.length + n + v.length := by
      rw [huv]
      simp only [List.length_append, List.length_replicate]
    have hchars : ∀ c, isHexChar c = false → ∀ p ∈ skipParts (texts u) (texts v), c ∉ p :=
      fun c hc p hp =>
      notMem_part (mem_skipParts hp) hc
    have hne : skipParts (texts u) (texts v) ≠ [] := by
      have := three_le_skipParts (A := texts u) (B := texts v)
      exact List.ne_nil_of_length_pos (by omega)
    have hsplit : ([':'].intercalate (skipParts (texts u) (texts v))).splitOn ':' =
        skipParts (texts u) (texts v) := List.splitOn_intercalate ':' (hchars ':' (by decide)) hne
    have h := parseHextets_skip (x := u) (y := v) hsplit three_le_skipParts
      (expandIPv4_same hne (hchars '.' (by decide))) (by omega)
    have hrun : 8 - (u.length + v.length) = n := by omega
    rw [hrun, ← huv] at h
    rw [htext]
    exact h
  · have hcount : (texts hextets).length = 8 := by simpa [texts] using hlen
    have hne : texts hextets ≠ [] := List.ne_nil_of_length_pos (by omega)
    have hchars : ∀ c, isHexChar c = false → ∀ p ∈ texts hextets, c ∉ p := fun c hc p hp =>
      notMem_part (y := []) (.inr (.inl hp)) hc
    have hsplit : ([':'].intercalate (texts hextets)).splitOn ':' = texts hextets :=
      List.splitOn_intercalate ':' (hchars ':' (by decide)) hne
    have hexpand : expandIPv4 (texts hextets) = some (texts hextets) :=
      expandIPv4_same hne (hchars '.' (by decide))
    obtain ⟨first, rest, hparts, hlocate⟩ := locateSkip_full (fun _ => texts_ne_nil) hcount
    have hall : (texts hextets).mapM parseHextet = some hextets := mapM_parseHextet hextets
    have hthree : ¬(texts hextets).length < 3 := by omega
    have hnine : ¬9 < (texts hextets).length := by omega
    simp only [htext, parseHextets, hsplit, hexpand, hthree, if_false, Option.bind_eq_bind,
      Option.bind_some]
    rw [hparts] at hnine ⊢
    simp only [hnine, if_false, hlocate, Option.bind_some]
    rw [hall]
    simp

/-! ## Addresses -/

/-- The characters of an address without a scope. -/
def isAddressChar (c : Char) : Bool := isHexChar c || c == ':' || c == '.'

theorem hextetsText_chars {c : Char} (h : c ∈ hextetsText hextets) :
    isHexChar c = true ∨ c = ':' := by
  have hpart : ∀ {x y : List Hextet} p, (p = [] ∨ p ∈ texts x ∨ p ∈ texts y) → c ∈ p →
      isHexChar c = true := by
    intro x y p hp hc
    by_contra hno
    exact notMem_part hp (Bool.eq_false_iff.2 hno) hc
  rcases hextetsText_cases hextets with ⟨u, n, v, -, -, htext⟩ | htext
  all_goals
    rw [htext] at h
    rcases mem_intercalate h with h | ⟨p, hp, hc⟩
  · exact .inr h
  · exact .inl (hpart p (mem_skipParts hp) hc)
  · exact .inr h
  · exact .inl (hpart (y := []) p (.inr (.inl hp)) hc)

theorem colon_mem_hextetsText (hlen : hextets.length = 8) : ':' ∈ hextetsText hextets := by
  rcases hextetsText_cases hextets with ⟨u, n, v, -, -, htext⟩ | htext
  · rw [htext]
    exact sep_mem_intercalate (Nat.le_trans (by decide) three_le_skipParts)
  · rw [htext]
    refine sep_mem_intercalate ?_
    rw [texts, List.length_map, hlen]
    decide

theorem ipv4Mapped_eq_some {z : IPv4Address} (h : ipv4Mapped hextets = some z) :
    ∃ a b : Hextet, hextets = [0, 0, 0, 0, 0, 65535, a, b] ∧ 256 * z.a.val + z.b.val = a.val ∧
      256 * z.c.val + z.d.val = b.val := by
  unfold ipv4Mapped at h
  split at h
  · rename_i a b
    cases h
    exact ⟨a, b, rfl, Nat.div_add_mod .., Nat.div_add_mod ..⟩
  · cases h

end

namespace IPv6Address
variable {x : IPv6Address} {c : Char}

/-- The text before the scope. -/
def address (x : IPv6Address) : List Char :=
  match ipv4Mapped x.hextets with
  | none => hextetsText x.hextets
  | some y => hextetsText [0, 0, 0, 0, 0, 0, 0, 65535] ++ ':' :: y.text

theorem text_eq : x.text = match x.scopeId with
    | none => x.address
    | some scopeId => x.address ++ '%' :: scopeId := rfl

theorem isHexChar_of_isDigit (h : c.isDigit = true) : isHexChar c = true := by
  rw [isHexChar, h]
  rfl

theorem address_chars (h : c ∈ x.address) : isAddressChar c = true := by
  have hhex : ∀ hextets, c ∈ hextetsText hextets → isAddressChar c = true := by
    intro hextets h
    rcases hextetsText_chars h with h | rfl
    · rw [isAddressChar, h]
      rfl
    · rfl
  unfold address at h
  split at h
  · exact hhex _ h
  · rcases List.mem_append.1 h with h | h
    · exact hhex _ h
    · rcases List.mem_cons.1 h with rfl | h
      · rfl
      · rcases IPv4Address.text_chars h with h | rfl
        · rw [isAddressChar, isHexChar_of_isDigit h]
          rfl
        · rfl

theorem colon_mem_address : ':' ∈ x.address := by
  unfold address
  split
  · exact colon_mem_hextetsText x.length
  · simp

theorem parseHextets_address : parseHextets x.address = some x.hextets := by
  unfold address
  split
  · exact parseHextets_text x.length
  · rename_i z hz
    -- an IPv4 address stands at the end
    obtain ⟨a, b, hextets, ha, hb⟩ := ipv4Mapped_eq_some hz
    have hmapped : hextetsText [0, 0, 0, 0, 0, 0, 0, 65535] = "::ffff".toList := by decide
    have htext : "::ffff".toList ++ ':' :: z.text =
        [':'].intercalate [[], [], "ffff".toList, z.text] := by
      simp [List.intercalate_cons_cons]
    have hcolon : ∀ p ∈ [[], [], "ffff".toList, z.text], ':' ∉ p := by
      intro p hp hc
      simp only [List.mem_cons, List.not_mem_nil, or_false] at hp
      rcases hp with rfl | rfl | rfl | rfl
      · cases hc
      · cases hc
      · exact absurd hc (by decide)
      · rcases IPv4Address.text_chars hc with hc | hc <;> exact absurd hc (by decide)
    have hsplit := List.splitOn_intercalate ':' hcolon (by simp)
    have hdot : '.' ∈ z.text := sep_mem_intercalate (by simp)
    have hexpand : expandIPv4 [[], [], "ffff".toList, z.text] =
        some (skipParts (texts []) (texts [65535, a, b])) := by
      have hffff : hexText (65535 : Hextet) = "ffff".toList := by decide
      have htexts : texts [65535, a, b] = ["ffff".toList, hexText a, hexText b] := by
        simp only [texts, List.map_cons, List.map_nil, hffff]
      rw [htexts]
      simp [expandIPv4, hdot, parseIPv4_text, ha, hb, skipParts, texts]
    rw [hmapped, htext, hextets]
    exact parseHextets_skip hsplit (by simp) hexpand (by simp)

theorem splitScopeId_text : splitScopeId x.text = some (x.address, x.scopeId) := by
  have hall : ∀ c ∈ x.address, decide (c ≠ '%') = true := by
    intro c hc
    refine decide_eq_true ?_
    rintro rfl
    exact absurd (address_chars hc) (by decide)
  rw [text_eq]
  cases hscope : x.scopeId with
  | none =>
    have hdrop : (x.address ++ []).dropWhile (· ≠ '%') = [] := Spans.dropWhile_append_stop hall rfl
    rw [List.append_nil] at hdrop
    simp only [splitScopeId, hdrop]
  | some scopeId =>
    obtain ⟨hne, hpercent, -⟩ := x.scope_ok scopeId hscope
    have hdrop : (x.address ++ '%' :: scopeId).dropWhile (· ≠ '%') = '%' :: scopeId :=
      Spans.dropWhile_append_stop hall (by simp)
    have htake : (x.address ++ '%' :: scopeId).takeWhile (· ≠ '%') = x.address :=
      Spans.takeWhile_append_stop hall (by simp)
    simp only [splitScopeId, hdrop, htake, hne, hpercent]
    rfl

/-- **IPv6 addresses are read back.** -/
theorem parseIPv6_text (x : IPv6Address) : parseIPv6 x.text = some x := by
  have hslash : '/' ∉ x.text := by
    have haddress : '/' ∉ x.address := fun h => absurd (address_chars h) (by decide)
    rw [text_eq]
    cases hscope : x.scopeId with
    | none => exact haddress
    | some scopeId =>
      intro h
      rcases List.mem_append.1 h with h | h
      · exact haddress h
      · rcases List.mem_cons.1 h with h | h
        · cases h
        · exact (x.scope_ok scopeId hscope).2.2 h
  have hok : x.hextets.length = 8 ∧ ∀ s ∈ x.scopeId, IsScopeId s := ⟨x.length, x.scope_ok⟩
  rw [parseIPv6, if_neg hslash, splitScopeId_text]
  simp only [Option.bind_eq_bind, Option.bind_some, parseHextets_address, dif_pos hok]
  rfl

end IPv6Address

/-- **Addresses are read back** from their text. -/
theorem parse_text (x : Address) : parse x.text = some x := by
  cases x with
  | v4 x =>
    rw [parse, Address.text, parseIPv4_text]
    rfl
  | v6 x =>
    have hnone : parseIPv4 x.text = none := by
      refine Option.eq_none_iff_forall_ne_some.2 fun y hy => ?_
      have hcolon : ':' ∈ x.text := by
        rw [IPv6Address.text_eq]
        cases x.scopeId with
        | none => exact IPv6Address.colon_mem_address
        | some scopeId => exact List.mem_append_left _ IPv6Address.colon_mem_address
      rcases parseIPv4_chars hy hcolon with h | h <;> cases h
    rw [parse, Address.text, hnone, IPv6Address.parseIPv6_text]
    rfl

/-! ## Scopes -/

section
/-- The identifier of the scope, if the address has one. -/
def Address.scopeId : Address → Option (List Char)
  | v4 _ => none
  | v6 x => x.scopeId

variable {s zone : List Char} {x : Address}

/-- An address without a scope has digits, letters, colons and dots. -/
theorem Address.text_chars (h : x.scopeId = none) : ∀ c ∈ x.text, isAddressChar c = true := by
  intro c hc
  cases x with
  | v4 x =>
    rcases IPv4Address.text_chars hc with hc | rfl
    · rw [isAddressChar, IPv6Address.isHexChar_of_isDigit hc]
      rfl
    · rfl
  | v6 x =>
    have hnone : x.scopeId = none := h
    rw [Address.text, IPv6Address.text_eq, hnone] at hc
    exact IPv6Address.address_chars hc

theorem isAddressChar_toNat {c : Char} (h : isAddressChar c = true) :
    46 ≤ c.toNat ∧ c.toNat ≤ 102 := by
  simp only [isAddressChar, isHexChar, Bool.or_eq_true, Bool.and_eq_true, decide_eq_true_eq,
    beq_iff_eq,
    Char.isDigit_iff_toNat, Char.le_def, UInt32.le_iff_toNat_le] at h
  rcases h with ((h | h) | rfl) | rfl
  · exact ⟨Nat.le_trans (by decide) h.1, Nat.le_trans h.2 (by decide)⟩
  · exact ⟨Nat.le_trans (by decide) h.1, Nat.le_trans h.2 (by decide)⟩
  · decide
  · decide

theorem Address.text_ne_nil (x : Address) : x.text ≠ [] := by
  cases x with
  | v4 x => simp [Address.text, IPv4Address.text, List.intercalate_cons_cons]
  | v6 x =>
    have hne : x.address ≠ [] := List.ne_nil_of_mem IPv6Address.colon_mem_address
    rw [Address.text, IPv6Address.text_eq]
    cases x.scopeId with
    | none => exact hne
    | some zone => exact List.append_ne_nil_of_left_ne_nil hne _

/-- The scope is at the end of the text. -/
theorem Address.text_scope (h : x.scopeId = some zone) :
    zone ≠ [] ∧ ∃ address ≠ [], (∀ c ∈ address, isAddressChar c = true) ∧
      x.text = address ++ '%' :: zone := by
  cases x with
  | v4 x => cases h
  | v6 x =>
    have hscope : x.scopeId = some zone := h
    refine ⟨(x.scope_ok zone hscope).1, x.address, List.ne_nil_of_mem IPv6Address.colon_mem_address,
      fun _ => IPv6Address.address_chars, ?_⟩
    rw [Address.text, IPv6Address.text_eq, hscope]

/-- A scope is taken from the end of what was read. -/
theorem parse_scope (h : parse s = some x) (hscope : x.scopeId = some zone) :
    ∃ address, s = address ++ '%' :: zone := by
  have hv6 : ∃ y, parseIPv6 s = some y ∧ x = .v6 y := by
    rw [parse] at h
    cases h₄ : parseIPv4 s with
    | some y =>
      rw [h₄] at h
      cases h
      cases hscope
    | none =>
      rw [h₄] at h
      obtain ⟨y, hy, rfl⟩ := Option.map_eq_some_iff.1 h
      exact ⟨y, hy, rfl⟩
  obtain ⟨y, hy, rfl⟩ := hv6
  unfold parseIPv6 at hy
  split_ifs at hy
  simp only [Option.bind_eq_bind, Option.bind_eq_some_iff, Prod.exists] at hy
  obtain ⟨address, scope, hsplit, hextets, -, hy⟩ := hy
  have hsame : scope = some zone := by
    split_ifs at hy with hok
    cases hy
    exact hscope
  unfold splitScopeId at hsplit
  split at hsplit
  · cases hsplit
    cases hsame
  · rename_i c rest hdrop
    split_ifs at hsplit
    cases hsplit
    cases hsame
    have hc : c = '%' := by
      have hhead := Spans.dropWhile_head (p := fun c => decide (c ≠ '%')) (s := s)
      rw [hdrop] at hhead
      simpa using hhead
    have hs := List.takeWhile_append_dropWhile (p := fun c => decide (c ≠ '%')) (l := s)
    rw [hdrop, hc] at hs
    exact ⟨_, hs.symm⟩

end

end IPAddress
