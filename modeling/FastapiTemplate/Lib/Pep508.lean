/-
  Requirements (PEP 508): a name, extras, a URL or version clauses, a marker.

  How markers are read is a parameter: a requirement has its marker after a
  semicolon, and nothing else has one.
-/
import FastapiTemplate.Lib.Pep440

namespace Pep508

open Spans
open Pep440 (Op Clause)

/-- What a requirement says; `μ` are the markers. -/
structure Requirement (μ : Type) where
  name : List Char
  extras : List (List Char)
  url : Option (List Char)
  clauses : List Clause
  marker : Option μ
  deriving DecidableEq

def wsp (c : Char) : Bool := c == ' ' || c == '\t'

/-- The characters of identifiers. -/
def identChar (c : Char) : Bool := c.isAlphanum || c == '_' || c == '.' || c == '-'

/-- The characters of versions in clauses. -/
def versionChar (c : Char) : Bool := identChar c || c == '*' || c == '+' || c == '!'

/-- The characters of URI references. -/
def uriChar (c : Char) : Bool := c.isAlphanum || "-._~:/?#[]@!$&'()*+,;=%".toList.contains c

/-- Without white space around it. -/
def trim (s : List Char) : List Char := (s.dropWhile wsp).rdropWhile wsp

/-- An identifier starts and ends with a letter or digit. -/
def isIdentifier (s : List Char) : Bool :=
  s.all identChar && s.head?.any Char.isAlphanum && s.getLast?.any Char.isAlphanum

def readIdentifier (s : List Char) : Option (List Char) := if isIdentifier s then some s else none

def readOp : List Char → Option (Op × List Char)
  | '<' :: '=' :: s => some (.lessEqual, s)
  | '<' :: s => some (.less, s)
  | '!' :: '=' :: s => some (.notEqual, s)
  | '=' :: '=' :: '=' :: s => some (.arbitrary, s)
  | '=' :: '=' :: s => some (.equal, s)
  | '>' :: '=' :: s => some (.greaterEqual, s)
  | '>' :: s => some (.greater, s)
  | '~' :: '=' :: s => some (.compatible, s)
  | _ => none

/-- A text of a version in a clause. -/
def isVersionText (s : List Char) : Bool := s ≠ [] && s.all versionChar

def readClause (s : List Char) : Option Clause := do
  let (op, s) ← readOp (s.dropWhile wsp)
  let version := trim s
  if isVersionText version then some ⟨op, version⟩ else none

/-- Clauses are separated by commas. -/
def readClauses (s : List Char) : Option (List Clause) := (s.splitOn ',').mapM readClause

/-- Clauses, with or without parentheses around them, or nothing. -/
def readSpecifier : List Char → Option (List Clause)
  | [] => some []
  | '(' :: s => if s.getLast? = some ')' then readClauses s.dropLast else none
  | s => readClauses s

/-- Extras are separated by commas. -/
def readNames (s : List Char) : Option (List (List Char)) :=
  if trim s = [] then some [] else (s.splitOn ',').mapM fun e => readIdentifier (trim e)

/-- Extras in brackets, if there are any, and what follows. -/
def readExtras : List Char → Option (List (List Char) × List Char)
  | '[' :: s =>
    match s.dropWhile (· ≠ ']') with
    | [] => none
    | _ :: rest => (readNames (s.takeWhile (· ≠ ']'))).map (·, rest)
  | s => some ([], s)

variable {μ : Type} (readMarker : List Char → Option μ)

/-- What may follow a URL or the clauses: nothing, or a marker after a semicolon. -/
def readTail : List Char → Option (Option μ)
  | [] => some none
  | ';' :: s => (readMarker s).map some
  | _ => none

/-- What follows the name and the extras. -/
def readRest (s : List Char) : Option (Option (List Char) × List Clause × Option μ) :=
  match s with
  | '@' :: s => do
    let s := s.dropWhile wsp
    let url := s.takeWhile uriChar
    let rest := s.dropWhile uriChar
    if url ≠ [] ∧ rest.head?.all wsp then
      return (some url, [], ← readTail readMarker (rest.dropWhile wsp))
    else none
  | s => do
    let clauses ← readSpecifier (trim (s.takeWhile (· ≠ ';')))
    return (none, clauses, ← readTail readMarker (s.dropWhile (· ≠ ';')))

/-- Read a requirement. -/
def parse (s : List Char) : Option (Requirement μ) := do
  let s := s.dropWhile wsp
  let name ← readIdentifier (s.takeWhile identChar)
  let (extras, s) ← readExtras ((s.dropWhile identChar).dropWhile wsp)
  let (url, clauses, marker) ← readRest readMarker (s.dropWhile wsp)
  return { name, extras, url, clauses, marker }

/-! ## White space -/

section
variable {s t u : List Char}

theorem mem_of_mem_takeWhile_append {p : Char → Bool} {c d : Char} (hd : p d = false)
    (h : c ∈ (s ++ d :: t).takeWhile p) : c ∈ s := by
  induction s with
  | nil =>
    rw [List.nil_append, List.takeWhile_cons_of_neg (by simp [hd])] at h
    cases h
  | cons b s ih =>
    by_cases hb : p b = true
    · rw [List.cons_append, List.takeWhile_cons_of_pos hb] at h
      exact (List.mem_cons.1 h).elim (fun h => h ▸ List.mem_cons_self ..) fun h =>
        List.mem_cons_of_mem _ (ih h)
    · rw [List.cons_append, List.takeWhile_cons_of_neg hb] at h
      cases h

/-- A text is its core with white space before and after it. -/
theorem trim_spec (s : List Char) : ∃ u v, s = u ++ trim s ++ v ∧ (∀ c ∈ u, wsp c = true) ∧
    ∀ c ∈ v, wsp c = true := by
  refine ⟨s.takeWhile wsp, (s.dropWhile wsp).rtakeWhile wsp, ?_,
    fun c hc => List.mem_takeWhile_imp hc,
    fun c hc => List.mem_rtakeWhile_imp hc⟩
  rw [trim, List.append_assoc, List.rdropWhile_append_rtakeWhile, List.takeWhile_append_dropWhile]

/-- A text that neither starts nor ends with white space, the empty text included. -/
def Trimmed (s : List Char) : Prop :=
  s.head?.all (fun c => !wsp c) = true ∧ s.getLast?.all (fun c => !wsp c) = true

theorem rdropWhile_append_stop {p : Char → Bool} (hs : s.getLast?.all (fun c => !p c) = true)
    (ht : ∀ c ∈ t, p c = true) : (s ++ t).rdropWhile p = s := by
  rw [List.rdropWhile, List.reverse_append, dropWhile_append_stop, List.reverse_reverse]
  · exact fun c hc => ht c (List.mem_reverse.1 hc)
  · rwa [List.head?_reverse]

/-- White space around a text is trimmed away. -/
theorem trim_append (hu : ∀ c ∈ u, wsp c = true) (hs : Trimmed s) (ht : ∀ c ∈ t, wsp c = true) :
    trim (u ++ s ++ t) = s := by
  rw [trim, List.append_assoc]
  cases s with
  | nil =>
    rw [List.nil_append, List.dropWhile_eq_nil_iff.2]
    · rfl
    · exact fun c hc => (List.mem_append.1 hc).elim (hu c) (ht c)
  | cons c s =>
    rw [dropWhile_append_stop hu (by simpa using hs.1)]
    exact rdropWhile_append_stop hs.2 ht

/-- A text that starts without white space keeps its first character. -/
theorem trim_cons {c : Char} (hc : wsp c = false) : ∃ t, trim (c :: s) = c :: t := by
  obtain ⟨u, v, hs, hu, hv⟩ := trim_spec (c :: s)
  cases u with
  | nil =>
    cases htrim : trim (c :: s) with
    | nil =>
      rw [htrim] at hs
      cases v with
      | nil => cases hs
      | cons d v =>
        cases hs
        rw [hv c (List.mem_cons_self ..)] at hc
        cases hc
    | cons d t =>
      rw [htrim] at hs
      cases hs
      exact ⟨t, rfl⟩
  | cons d u =>
    have hd : c = d := (List.cons.inj hs).1
    rw [hd, hu d (List.mem_cons_self ..)] at hc
    cases hc

theorem trim_head (hs : s.head?.all (fun c => !wsp c) = true) : (trim s).head? = s.head? := by
  cases s with
  | nil => rfl
  | cons c s =>
    obtain ⟨t, ht⟩ := trim_cons (s := s) (c := c) (by simpa using hs)
    rw [ht]
    rfl

theorem trim_trimmed (s : List Char) : Trimmed (trim s) := by
  constructor
  · have hhead : (s.dropWhile wsp).head?.all (fun c => !wsp c) = true := dropWhile_head
    obtain ⟨v, hv⟩ := List.rdropWhile_prefix wsp (s.dropWhile wsp)
    rw [← hv] at hhead
    show (trim s).head?.all _ = true
    unfold trim
    cases htrim : (s.dropWhile wsp).rdropWhile wsp with
    | nil => rfl
    | cons c t => simpa [htrim] using hhead
  · have hlast : ((s.dropWhile wsp).reverse.dropWhile wsp).head?.all (fun c => !wsp c) = true :=
      dropWhile_head
    rw [trim, List.rdropWhile, List.getLast?_reverse]
    exact hlast

/-- A text keeps what stands before a character that is no white space. -/
theorem trim_keep {c : Char} (hc : wsp c = false)
    (hs : (s ++ [c]).head?.all (fun d => !wsp d) = true) :
    ∃ t', trim (s ++ c :: t) = s ++ c :: t' := by
  have hlast : (t.rdropWhile wsp).getLast?.all (fun d => !wsp d) = true := by
    have hhead : (t.reverse.dropWhile wsp).head?.all (fun d => !wsp d) = true := dropWhile_head
    rwa [List.rdropWhile, List.getLast?_reverse]
  have htrimmed : Trimmed (s ++ c :: t.rdropWhile wsp) := by
    constructor
    · cases s with
      | nil => exact hs
      | cons d s => exact hs
    · rw [List.getLast?_append_of_ne_nil _ (by simp)]
      cases ht : t.rdropWhile wsp with
      | nil => simp [hc]
      | cons d t' =>
        rw [ht] at hlast
        exact hlast
  have h := trim_append (u := []) (t := t.rtakeWhile wsp) nofun htrimmed fun d hd =>
    List.mem_rtakeWhile_imp hd
  have htext : [] ++ (s ++ c :: t.rdropWhile wsp) ++ t.rtakeWhile wsp = s ++ c :: t := by
    simp [List.rdropWhile_append_rtakeWhile]
  rw [htext] at h
  exact ⟨_, h⟩

end

/-! ## Characters -/

section
variable {c : Char}

/-- The characters of requirements before the marker: ASCII without control characters. -/
def plainChar (c : Char) : Bool := c == '\t' || (0x20 ≤ c.toNat && c.toNat ≤ 0x7E)

theorem plain_of_wsp (h : wsp c = true) : plainChar c = true := by
  have h : c = ' ' ∨ c = '\t' := by simpa only [wsp, Bool.or_eq_true, beq_iff_eq] using h
  rcases h with rfl | rfl <;> rfl

theorem plain_of_isAlphanum (h : c.isAlphanum = true) : plainChar c = true := by
  have h : (decide (c.val ≥ 'A'.val ∧ c.val ≤ 'Z'.val) ||
      (decide (c.val ≥ 'a'.val) && decide (c.val ≤ 'z'.val)) ||
      (decide (c.val ≥ '0'.val) && decide (c.val ≤ '9'.val))) = true := h
  simp only [Bool.or_eq_true, Bool.and_eq_true, decide_eq_true_eq] at h
  have hn : 0x20 ≤ c.toNat ∧ c.toNat ≤ 0x7E := by
    have hc : c.toNat = c.val.toNat := rfl
    have hA : 'A'.val.toNat = 65 := rfl
    have hZ : 'Z'.val.toNat = 90 := rfl
    have ha : 'a'.val.toNat = 97 := rfl
    have hz : 'z'.val.toNat = 122 := rfl
    have h0 : '0'.val.toNat = 48 := rfl
    have h9 : '9'.val.toNat = 57 := rfl
    simp only [UInt32.le_iff_toNat_le, ge_iff_le] at h
    omega
  simp [plainChar, hn]

theorem plain_of_identChar (h : identChar c = true) : plainChar c = true := by
  simp only [identChar, Bool.or_eq_true, beq_iff_eq] at h
  rcases h with ((h | rfl) | rfl) | rfl
  · exact plain_of_isAlphanum h
  all_goals rfl

theorem plain_of_versionChar (h : versionChar c = true) : plainChar c = true := by
  simp only [versionChar, Bool.or_eq_true, beq_iff_eq] at h
  rcases h with ((h | rfl) | rfl) | rfl
  · exact plain_of_identChar h
  all_goals rfl

theorem plain_of_uriChar (h : uriChar c = true) : plainChar c = true := by
  simp only [uriChar, Bool.or_eq_true] at h
  rcases h with h | h
  · exact plain_of_isAlphanum h
  · have hall : "-._~:/?#[]@!$&'()*+,;=%".toList.all plainChar = true := by decide
    exact List.all_eq_true.1 hall c (List.contains_iff_mem.1 h)

end

/-! ## Clauses -/

section
variable {s t u w : List Char} {c : Clause}

/-- An operator as it is written. -/
def opText : Op → List Char
  | .compatible => "~=".toList
  | .equal => "==".toList
  | .notEqual => "!=".toList
  | .lessEqual => "<=".toList
  | .greaterEqual => ">=".toList
  | .less => "<".toList
  | .greater => ">".toList
  | .arbitrary => "===".toList

/-- A lower bound. -/
def isLower (c : Clause) : Bool := c.op = .greaterEqual || c.op = .greater

theorem readOp_some {op : Op} (h : readOp s = some (op, t)) : s = opText op ++ t := by
  unfold readOp at h
  split at h <;> cases h <;> rfl

/-- An operator is read back if no equals sign follows. -/
theorem readOp_append {op : Op} (ht : t.head? ≠ some '=') :
    readOp (opText op ++ t) = some (op, t) := by
  cases t with
  | nil => cases op <;> rfl
  | cons c t =>
    have hc : c ≠ '=' := fun h => ht (by rw [h]; rfl)
    cases op <;> simp [opText, readOp, hc]

theorem versionText_trimmed (h : isVersionText s = true) : Trimmed s := by
  have hall : ∀ c ∈ s, wsp c = false := by
    intro c hc
    have hv : versionChar c = true := by
      have h' := h
      simp only [isVersionText, Bool.and_eq_true, List.all_eq_true] at h'
      exact h'.2 c hc
    by_contra hw
    have hw : c = ' ' ∨ c = '\t' := by
      simpa only [Bool.not_eq_false, wsp, Bool.or_eq_true, beq_iff_eq] using hw
    rcases hw with rfl | rfl <;> exact absurd hv (by decide)
  constructor
  · cases hs : s.head? with
    | none => rfl
    | some c => simp [hall c (List.mem_of_head? hs)]
  · cases hs : s.getLast? with
    | none => rfl
    | some c => simp [hall c (List.mem_of_getLast? hs)]

/-- A clause is an operator and a version, with white space around them. -/
theorem readClause_iff : readClause s = some c ↔ isVersionText c.version = true ∧ ∃ u w w',
    s = u ++ (opText c.op ++ (w ++ c.version ++ w')) ∧ (∀ d ∈ u, wsp d = true) ∧
      (∀ d ∈ w, wsp d = true) ∧ ∀ d ∈ w', wsp d = true := by
  constructor
  · intro h
    obtain ⟨⟨op, t⟩, hop, h⟩ := Option.bind_eq_some_iff.1 h
    have h : (if isVersionText (trim t) = true then some (⟨op, trim t⟩ : Clause) else none) =
        some c := h
    split at h
    · rename_i hversion
      cases h
      obtain ⟨w, w', ht, hw, hw'⟩ := trim_spec t
      refine ⟨hversion, s.takeWhile wsp, w, w', ?_, fun d hd => List.mem_takeWhile_imp hd, hw, hw'⟩
      rw [← ht, ← readOp_some hop, List.takeWhile_append_dropWhile]
    · cases h
  · rintro ⟨hversion, u, w, w', rfl, hu, hw, hw'⟩
    have hhead : (opText c.op ++ (w ++ c.version ++ w')).head?.all (fun d => !wsp d) = true := by
      cases c.op <;> rfl
    have hnext : (w ++ c.version ++ w').head? ≠ some '=' := by
      cases w with
      | cons d w =>
        intro h
        cases h
        exact absurd (hw '=' (List.mem_cons_self ..)) (by decide)
      | nil =>
        cases hv : c.version with
        | nil =>
          rw [hv] at hversion
          cases hversion
        | cons d v =>
          intro h
          cases h
          rw [hv] at hversion
          simp [isVersionText, versionChar, identChar] at hversion
    rw [readClause, dropWhile_append_stop hu hhead, readOp_append hnext]
    show (if isVersionText (trim (w ++ c.version ++ w')) = true then _ else none) = _
    rw [trim_append hw (versionText_trimmed hversion) hw', if_pos hversion]

section
variable {α : Type} {f : List Char → Option α}

theorem mapM_splitOn_single (hs : ',' ∉ s) : (s.splitOn ',').mapM f = (f s).map ([·]) := by
  rw [List.splitOn_eq_singleton hs]
  cases h : f s <;> simp [h]

theorem mapM_splitOn_cons (hs : ',' ∉ s) : ((s ++ ',' :: t).splitOn ',').mapM f =
    (f s).bind fun a => ((t.splitOn ',').mapM f).map (a :: ·) := by
  rw [List.splitOn_append_cons_self_of_not_mem hs, List.mapM_cons]
  cases h : f s with
  | none => rfl
  | some a =>
    show (List.mapM f (List.splitOn ',' t)).bind _ = _
    rw [Option.bind_some, Option.map_eq_bind]
    rfl

end

theorem readClauses_single (hs : ',' ∉ s) : readClauses s = (readClause s).map ([·]) :=
  mapM_splitOn_single hs

theorem readClauses_cons (hs : ',' ∉ s) : readClauses (s ++ ',' :: t) =
    (readClause s).bind fun c => (readClauses t).map (c :: ·) :=
  mapM_splitOn_cons hs

theorem versionText_chars (h : isVersionText s = true) : ∀ c ∈ s, versionChar c = true := by
  simp only [isVersionText, Bool.and_eq_true, List.all_eq_true] at h
  exact h.2

/-- A clause with the sign is a lower bound, and the sign starts its operator. -/
theorem readClause_lower (h : readClause (u ++ '>' :: t) = some c) :
    isLower c = true ∧ (∀ d ∈ u, wsp d = true) ∧ isVersionText c.version = true ∧ ∃ eq w w',
      t = eq ++ (w ++ c.version ++ w') ∧ (eq = [] ∨ eq = ['=']) ∧ (∀ d ∈ w, wsp d = true) ∧
        ∀ d ∈ w', wsp d = true := by
  obtain ⟨hversion, a, w, w', heq, ha, hw, hw'⟩ := readClause_iff.1 h
  have hrest : '>' ∉ w ++ c.version ++ w' := by
    simp only [List.mem_append, not_or]
    exact ⟨⟨notMem_of_forall hw (by decide),
      notMem_of_forall (versionText_chars hversion) (by decide)⟩,
      notMem_of_forall hw' (by decide)⟩
  have ha' : '>' ∉ a := notMem_of_forall ha (by decide)
  have hmem : '>' ∈ opText c.op := by
    have hmem : '>' ∈ a ++ (opText c.op ++ (w ++ c.version ++ w')) := by
      rw [← heq]
      simp
    rcases List.mem_append.1 hmem with hmem | hmem
    · exact absurd hmem ha'
    · exact (List.mem_append.1 hmem).resolve_right hrest
  -- two operators have the sign
  cases hop : c.op with
  | greaterEqual =>
    rw [hop] at heq
    have heq : a ++ '>' :: '=' :: (w ++ c.version ++ w') = u ++ '>' :: t := heq.symm
    have hrest' : '>' ∉ '=' :: (w ++ c.version ++ w') := by
      rw [List.mem_cons, not_or]
      exact ⟨by decide, hrest⟩
    obtain ⟨rfl, -, rfl⟩ := (List.append_cons_inj_of_notMem ha' hrest').1 heq
    exact ⟨by simp [isLower, hop], ha, hversion, ['='], w, w', rfl, .inr rfl, hw, hw'⟩
  | greater =>
    rw [hop] at heq
    have heq : a ++ '>' :: (w ++ c.version ++ w') = u ++ '>' :: t := heq.symm
    obtain ⟨rfl, -, rfl⟩ := (List.append_cons_inj_of_notMem ha' hrest).1 heq
    exact ⟨by simp [isLower, hop], ha, hversion, [], w, w', rfl, .inl rfl, hw, hw'⟩
  | _ => exact absurd (hop ▸ hmem) (by decide)

/-- A clause without the sign is no lower bound. -/
theorem readClause_notLower (h : readClause s = some c) (hs : '>' ∉ s) : isLower c = false := by
  obtain ⟨-, a, w, w', rfl, -, -, -⟩ := readClause_iff.1 h
  have hop : '>' ∉ opText c.op := fun hmem => hs (by simp [hmem])
  unfold isLower
  cases hc : c.op <;> first | rfl | exact absurd (hc ▸ hop) (by decide)

/-- A clause of which the operator is known. -/
theorem readClause_greaterEqual (hu : ∀ d ∈ u, wsp d = true)
    (h : readClause (u ++ ('>' :: '=' :: t)) = some c) :
    c.op = .greaterEqual := by
  rw [readClause, dropWhile_append_stop hu rfl] at h
  have h : (if isVersionText (trim t) = true then some (⟨.greaterEqual, trim t⟩ : Clause)
      else none) =
    some c := h
  split at h <;> cases h
  rfl

/-- A text starts with its part before the first separator. -/
theorem exists_segment (d : Char) (s : List Char) :
    ∃ g rest, s = g ++ rest ∧ d ∉ g ∧ (rest = [] ∨ ∃ b, rest = d :: b) := by
  refine ⟨s.takeWhile (· ≠ d), s.dropWhile (· ≠ d),
    (List.takeWhile_append_dropWhile ..).symm, ?_, ?_⟩
  · intro hmem
    simpa using List.mem_takeWhile_imp hmem
  · have hhead : (s.dropWhile (· ≠ d)).head?.all (fun c => !decide (c ≠ d)) = true := dropWhile_head
    cases hs : s.dropWhile (· ≠ d) with
    | nil => exact .inl rfl
    | cons c b =>
      rw [hs] at hhead
      simp only [List.head?_cons, Option.all_some, Bool.not_eq_true', decide_eq_false_iff_not,
        not_not] at hhead
      exact .inr ⟨b, by rw [hhead]⟩

theorem readClauses_greaterEqual {cs : List Clause} (hu : ∀ d ∈ u, wsp d = true) (hcomma : ',' ∉ u)
    (h : readClauses (u ++ ('>' :: '=' :: s)) = some cs) : ∃ c ∈ cs, c.op = .greaterEqual := by
  obtain ⟨g, rest, rfl, hg, rfl | ⟨b, rfl⟩⟩ := exists_segment ',' s
  · rw [List.append_nil, readClauses_single (by simp [hcomma, hg])] at h
    obtain ⟨c, hc, rfl⟩ := Option.map_eq_some_iff.1 h
    exact ⟨c, List.mem_cons_self .., readClause_greaterEqual hu hc⟩
  · have hsplit : u ++ '>' :: '=' :: (g ++ ',' :: b) = (u ++ '>' :: '=' :: g) ++ ',' :: b := by simp
    rw [hsplit, readClauses_cons (by simp [hcomma, hg])] at h
    obtain ⟨c, hc, h⟩ := Option.bind_eq_some_iff.1 h
    obtain ⟨bs, -, rfl⟩ := Option.map_eq_some_iff.1 h
    exact ⟨c, List.mem_cons_self .., readClause_greaterEqual hu hc⟩

/-- A list of clauses, split at its first lower bound. -/
structure SplitClauses (u t : List Char) (cs as : List Clause) (c : Clause) (bs : List Clause)
    (eq w w' rest : List Char) : Prop where
  clauses : cs = as ++ c :: bs
  notLower : ∀ a ∈ as, isLower a = false
  lower : isLower c = true
  version : isVersionText c.version = true
  text : t = eq ++ (w ++ c.version ++ w') ++ rest
  sign : eq = [] ∨ eq = ['=']
  space : ∀ d ∈ w, wsp d = true
  space' : ∀ d ∈ w', wsp d = true
  next : rest = [] ∨ ∃ b, rest = ',' :: b
  /-- Another version can stand in its place, -/
  reads : ∀ v t', isVersionText v = true → (∀ d ∈ t', wsp d = true) →
    readClauses (u ++ (">=".toList ++ v ++ t' ++ rest)) = some (as ++ ⟨.greaterEqual, v⟩ :: bs)
  /-- and no other text is read without a bound from there on. -/
  bounded : ∀ s cs', readClauses (u ++ ('>' :: '=' :: s)) = some cs' → ∃ c ∈ cs', c.op =
    .greaterEqual

theorem readClauses_lower {cs : List Clause} (h : readClauses (u ++ '>' :: t) = some cs)
    (hu : '>' ∉ u) :
    ∃ as c bs eq w w' rest, SplitClauses u t cs as c bs eq w w' rest := by
  -- induction on the clauses before the first lower bound
  induction hn : u.length using Nat.strongRecOn generalizing u cs with
  | ind n ih =>
    obtain ⟨g, rest, rfl, hg, rfl | ⟨b, rfl⟩⟩ := exists_segment ',' u
    · -- it is in the first clause
      rw [List.append_nil] at h hu ⊢
      obtain ⟨g', rest', rfl, hg', hrest'⟩ := exists_segment ',' t
      have hcomma : ',' ∉ g ++ '>' :: g' := by simp [hg, hg']
      have hsplit : ∃ c bs, readClause (g ++ '>' :: g') = some c ∧ cs = c :: bs ∧
          ∀ s' c', ',' ∉ s' → readClause s' = some c' →
            readClauses (s' ++ rest') = some (c' :: bs) := by
        rcases hrest' with rfl | ⟨b, rfl⟩
        · rw [List.append_nil, readClauses_single hcomma] at h
          obtain ⟨c, hc, rfl⟩ := Option.map_eq_some_iff.1 h
          refine ⟨c, [], hc, rfl, fun s' c' hs' hc' => ?_⟩
          rw [List.append_nil, readClauses_single hs', hc']
          rfl
        · rw [← List.cons_append, ← List.append_assoc, readClauses_cons hcomma] at h
          obtain ⟨c, hc, h⟩ := Option.bind_eq_some_iff.1 h
          obtain ⟨bs, hbs, rfl⟩ := Option.map_eq_some_iff.1 h
          refine ⟨c, bs, hc, rfl, fun s' c' hs' hc' => ?_⟩
          rw [readClauses_cons hs', hc', hbs]
          rfl
      obtain ⟨c, bs, hc, hcs, hreads⟩ := hsplit
      obtain ⟨hlower, hgs, hversion, eq, w, w', ht, hsign, hw, hw'⟩ := readClause_lower hc
      refine ⟨[], c, bs, eq, w, w', rest', hcs, nofun, hlower,
        hversion, by rw [ht], hsign, hw, hw', hrest',
        fun v t' hv ht' => ?_, fun s cs' hs => ?_⟩
      · have hnew : readClause (g ++ (">=".toList ++ v ++ t')) = some ⟨.greaterEqual, v⟩ :=
          readClause_iff.2 ⟨hv, g, [], t', by simp [opText], hgs, nofun, ht'⟩
        have hcomma' : ',' ∉ g ++ (">=".toList ++ v ++ t') := by
          simp only [List.mem_append, not_or]
          exact ⟨hg, ⟨by decide, notMem_of_forall (versionText_chars hv) (by decide)⟩,
            notMem_of_forall ht' (by decide)⟩
        rw [← List.append_assoc]
        exact hreads _ _ hcomma' hnew
      · exact readClauses_greaterEqual hgs hg hs
    · -- it comes after the first clause
      rw [List.append_assoc, List.cons_append, readClauses_cons hg] at h
      obtain ⟨a, ha, h⟩ := Option.bind_eq_some_iff.1 h
      obtain ⟨cs', hcs', rfl⟩ := Option.map_eq_some_iff.1 h
      have hg' : '>' ∉ g := fun hmem => hu (List.mem_append_left _ hmem)
      have hb' : '>' ∉ b := fun hmem => hu (List.mem_append_right _ (List.mem_cons_of_mem _ hmem))
      obtain ⟨as, c, bs, eq, w, w', rest, hs⟩ := ih b.length (by
        rw [← hn, List.length_append, List.length_cons]
        omega) hcs' hb' rfl
      refine ⟨a :: as, c, bs, eq, w, w', rest,
        ⟨by rw [hs.clauses]; rfl, fun d hd => ?_, hs.lower, hs.version,
        hs.text, hs.sign, hs.space, hs.space', hs.next, fun v t' hv ht' => ?_, fun s cs'' h' => ?_⟩⟩
      · rcases List.mem_cons.1 hd with rfl | hd
        · exact readClause_notLower ha hg'
        · exact hs.notLower d hd
      · rw [List.append_assoc, List.cons_append, readClauses_cons hg, ha, hs.reads v t' hv ht']
        rfl
      · rw [List.append_assoc, List.cons_append, readClauses_cons hg, ha] at h'
        obtain ⟨cs₃, hcs₃, rfl⟩ := Option.map_eq_some_iff.1 (show (readClauses _).map _ = _ from h')
        obtain ⟨d, hd, hop⟩ := hs.bounded s cs₃ hcs₃
        exact ⟨d, List.mem_cons_of_mem _ hd, hop⟩

theorem readClauses_notLower {cs : List Clause} (h : readClauses s = some cs) (hs : '>' ∉ s) :
    ∀ c ∈ cs, isLower c = false := by
  induction hn : s.length using Nat.strongRecOn generalizing s cs with
  | ind n ih =>
    obtain ⟨g, rest, rfl, hg, rfl | ⟨b, rfl⟩⟩ := exists_segment ',' s
    · rw [List.append_nil] at h hs
      rw [readClauses_single hg] at h
      obtain ⟨c, hc, rfl⟩ := Option.map_eq_some_iff.1 h
      intro d hd
      rw [List.mem_singleton.1 hd]
      exact readClause_notLower hc hs
    · rw [readClauses_cons hg] at h
      obtain ⟨c, hc, h⟩ := Option.bind_eq_some_iff.1 h
      obtain ⟨bs, hbs, rfl⟩ := Option.map_eq_some_iff.1 h
      intro d hd
      rcases List.mem_cons.1 hd with rfl | hd
      · exact readClause_notLower hc fun hmem => hs (List.mem_append_left _ hmem)
      · refine ih b.length ?_ hbs (fun hmem => hs (by simp [hmem])) rfl d hd
        rw [← hn, List.length_append, List.length_cons]
        omega

theorem readClauses_plain {cs : List Clause} (h : readClauses s = some cs) :
    ∀ c ∈ s, plainChar c = true := by
  have key : ∀ g c, readClause g = some c → ∀ d ∈ g, plainChar d = true := by
    intro g c hc d hd
    obtain ⟨hversion, u, w, w', rfl, hu, hw, hw'⟩ := readClause_iff.1 hc
    have hop : ∀ d ∈ opText c.op, plainChar d = true := by cases c.op <;> decide
    simp only [List.mem_append] at hd
    rcases hd with hd | hd | (hd | hd) | hd
    · exact plain_of_wsp (hu d hd)
    · exact hop d hd
    · exact plain_of_wsp (hw d hd)
    · exact plain_of_versionChar (versionText_chars hversion d hd)
    · exact plain_of_wsp (hw' d hd)
  induction hn : s.length using Nat.strongRecOn generalizing s cs with
  | ind n ih =>
    obtain ⟨g, rest, rfl, hg, rfl | ⟨b, rfl⟩⟩ := exists_segment ',' s
    · rw [List.append_nil] at h ⊢
      rw [readClauses_single hg] at h
      obtain ⟨c, hc, -⟩ := Option.map_eq_some_iff.1 h
      exact key g c hc
    · rw [readClauses_cons hg] at h
      obtain ⟨c, hc, h⟩ := Option.bind_eq_some_iff.1 h
      obtain ⟨bs, hbs, -⟩ := Option.map_eq_some_iff.1 h
      intro d hd
      rcases List.mem_append.1 hd with hd | hd
      · exact key g c hc d hd
      · rcases List.mem_cons.1 hd with rfl | hd
        · rfl
        · refine ih b.length ?_ hbs rfl d hd
          rw [← hn, List.length_append, List.length_cons]
          omega

/-- Clauses start with an operator. -/
theorem readClauses_head {cs : List Clause} (h : readClauses s = some cs)
    (hs : s.head?.all (fun c => !wsp c) = true) : ∃ op t, s = opText op ++ t := by
  have key : ∀ g c, readClause g = some c → g.head?.all (fun c => !wsp c) = true →
      ∃ t, g = opText c.op ++ t := by
    intro g c hc hg
    obtain ⟨-, u, w, w', rfl, hu, -, -⟩ := readClause_iff.1 hc
    cases u with
    | nil => exact ⟨_, rfl⟩
    | cons d u =>
      have hd : wsp d = true := hu d (List.mem_cons_self ..)
      simp [hd] at hg
  obtain ⟨g, rest, rfl, hg, rfl | ⟨b, rfl⟩⟩ := exists_segment ',' s
  · rw [List.append_nil] at h hs ⊢
    rw [readClauses_single hg] at h
    obtain ⟨c, hc, -⟩ := Option.map_eq_some_iff.1 h
    exact ⟨c.op, key g c hc hs⟩
  · rw [readClauses_cons hg] at h
    obtain ⟨c, hc, -⟩ := Option.bind_eq_some_iff.1 h
    have hhead : g.head?.all (fun c => !wsp c) = true := by
      cases g with
      | nil => rfl
      | cons d g => exact hs
    obtain ⟨t, ht⟩ := key g c hc hhead
    exact ⟨c.op, t ++ ',' :: b, by rw [ht, List.append_assoc]⟩

end

/-! ## Names and extras -/

section
variable {s t inner rest : List Char} {extras : List (List Char)}

/-- Extras as they are written: nothing, or brackets. -/
inductive ExtrasText : List Char → List (List Char) → Prop where
  | none : ExtrasText [] []
  | brackets {inner : List Char} {extras : List (List Char)} (hinner : ']' ∉ inner)
      (h : readNames inner = some extras) : ExtrasText ('[' :: (inner ++ [']'])) extras

theorem readExtras_plain (h : s.head? ≠ some '[') : readExtras s = some ([], s) := by
  unfold readExtras
  split
  · exact absurd rfl h
  · rfl

theorem readExtras_brackets (h : ']' ∉ inner) : readExtras ('[' :: (inner ++ ']' :: rest)) =
    (readNames inner).map (·, rest) := by
  have hinner : ∀ c ∈ inner, decide (c ≠ ']') = true := fun c hc =>
    decide_eq_true fun heq => h (heq ▸ hc)
  have hdrop : (inner ++ ']' :: rest).dropWhile (· ≠ ']') = ']' :: rest :=
    dropWhile_append_stop hinner (by simp)
  have htake : (inner ++ ']' :: rest).takeWhile (· ≠ ']') = inner :=
    takeWhile_append_stop hinner (by simp)
  simp only [readExtras, hdrop, htake]

theorem readExtras_text {e : List Char} (he : ExtrasText e extras)
    (h : e = [] → rest.head? ≠ some '[') :
    readExtras (e ++ rest) = some (extras, rest) := by
  cases he with
  | none => exact readExtras_plain (h rfl)
  | @brackets inner _ hinner hnames =>
    have hassoc : '[' :: (inner ++ [']']) ++ rest = '[' :: (inner ++ ']' :: rest) := by simp
    rw [hassoc, readExtras_brackets hinner, hnames]
    rfl

theorem readExtras_some (h : readExtras s = some (extras, rest)) :
    ∃ e, s = e ++ rest ∧ ExtrasText e extras := by
  unfold readExtras at h
  split at h
  · rename_i s
    have hhead : (s.dropWhile (· ≠ ']')).head?.all (fun c => !decide (c ≠ ']')) = true :=
      dropWhile_head
    have hsplit : s.takeWhile (· ≠ ']') ++ s.dropWhile (· ≠ ']') = s :=
      List.takeWhile_append_dropWhile ..
    split at h
    · cases h
    · rename_i c rest' hdrop
      obtain ⟨names, hnames, heq⟩ := Option.map_eq_some_iff.1 h
      cases heq
      rw [hdrop] at hhead hsplit
      have hc : c = ']' := by simpa using hhead
      subst hc
      refine ⟨'[' :: (s.takeWhile (· ≠ ']') ++ [']']), ?_, .brackets ?_ hnames⟩
      · rw [List.cons_append, List.append_assoc, List.singleton_append, hsplit]
      · intro hmem
        simpa using List.mem_takeWhile_imp hmem
  · cases h
    exact ⟨[], rfl, .none⟩

/-- The characters between brackets. -/
theorem readNames_chars (h : readNames s = some extras) :
    ∀ c ∈ s, (wsp c || c == ',' || identChar c) = true := by
  have key : ∀ g name, readIdentifier (trim g) = some name →
      ∀ c ∈ g, (wsp c || identChar c) = true := by
    intro g name hname c hc
    unfold readIdentifier at hname
    split at hname
    · rename_i hid
      simp only [isIdentifier, Bool.and_eq_true, List.all_eq_true] at hid
      obtain ⟨u, v, hg, hu, hv⟩ := trim_spec g
      rw [hg] at hc
      rcases List.mem_append.1 hc with hc | hc
      · rcases List.mem_append.1 hc with hc | hc
        · simp [hu c hc]
        · simp [hid.1.1 c hc]
      · simp [hv c hc]
    · cases hname
  unfold readNames at h
  split at h
  · rename_i htrim
    obtain ⟨u, v, hs, hu, hv⟩ := trim_spec s
    intro c hc
    rw [hs, htrim, List.append_nil] at hc
    rcases List.mem_append.1 hc with hc | hc
    · simp [hu c hc]
    · simp [hv c hc]
  · -- a character is a comma or stands in one of the names
    clear * - h key
    induction hn : s.length using Nat.strongRecOn generalizing s extras with
    | ind n ih =>
      obtain ⟨g, rest, rfl, hg, rfl | ⟨b, rfl⟩⟩ := exists_segment ',' s
      · rw [List.append_nil] at h ⊢
        rw [mapM_splitOn_single hg] at h
        obtain ⟨name, hname, -⟩ := Option.map_eq_some_iff.1 h
        intro c hc
        rcases Bool.or_eq_true_iff.1 (key g name hname c hc) with h' | h' <;> simp [h']
      · rw [mapM_splitOn_cons hg] at h
        obtain ⟨name, hname, h⟩ := Option.bind_eq_some_iff.1 h
        obtain ⟨names, hnames, -⟩ := Option.map_eq_some_iff.1 h
        intro c hc
        rcases List.mem_append.1 hc with hc | hc
        · rcases Bool.or_eq_true_iff.1 (key g name hname c hc) with h' | h' <;> simp [h']
        · rcases List.mem_cons.1 hc with rfl | hc
          · rfl
          · refine ih b.length ?_ hnames rfl c hc
            rw [← hn, List.length_append, List.length_cons]
            omega

/-- The characters of extras. -/
theorem ExtrasText.notMem {e : List Char} (he : ExtrasText e extras) {d : Char}
    (hd : (wsp d || d == ',' || d == '[' || d == ']' || identChar d) = false) : d ∉ e := by
  simp only [Bool.or_eq_false_iff] at hd
  obtain ⟨⟨⟨⟨hwsp, hcomma⟩, hopen⟩, hclose⟩, hident⟩ := hd
  cases he with
  | none => exact List.not_mem_nil
  | brackets hinner hnames =>
    simp only [List.mem_cons, List.mem_append, List.mem_nil_iff, or_false, not_or]
    exact ⟨fun h => by simp [h] at hopen,
      notMem_of_forall (readNames_chars hnames) (by simp [hwsp, hcomma, hident]),
      fun h => by simp [h] at hclose⟩

theorem ExtrasText.plain {e : List Char} (he : ExtrasText e extras) :
    ∀ c ∈ e, plainChar c = true := by
  cases he with
  | none => nofun
  | brackets _ hnames =>
    intro c hc
    simp only [List.mem_cons, List.mem_append, List.mem_nil_iff, or_false] at hc
    rcases hc with rfl | hc | rfl
    · rfl
    · have h := readNames_chars hnames c hc
      simp only [Bool.or_eq_true, beq_iff_eq] at h
      rcases h with (h | rfl) | h
      · exact plain_of_wsp h
      · rfl
      · exact plain_of_identChar h
    · rfl

theorem ExtrasText.head {e : List Char} (he : ExtrasText e extras) (hne : e ≠ []) :
    ∃ e', e = '[' :: e' := by
  cases he with
  | none => exact absurd rfl hne
  | brackets => exact ⟨_, rfl⟩

end

/-! ## Requirements -/

section
variable {r t : List Char} {q : Requirement μ}

/-- The part after the name and the extras starts with something else. -/
def Separated (t : List Char) : Prop :=
  t.head?.all (fun c => !identChar c && !wsp c && c != '[') = true

theorem Separated.not_wsp (ht : Separated t) : t.head?.all (fun c => !wsp c) = true := by
  cases t with
  | nil => rfl
  | cons c t =>
    simp only [Separated, List.head?_cons, Option.all_some, Bool.and_eq_true] at ht ⊢
    exact ht.1.2

theorem Separated.not_ident (ht : Separated t) : t.head?.all (fun c => !identChar c) = true := by
  cases t with
  | nil => rfl
  | cons c t =>
    simp only [Separated, List.head?_cons, Option.all_some, Bool.and_eq_true] at ht ⊢
    exact ht.1.1

theorem Separated.not_bracket (ht : Separated t) : t.head? ≠ some '[' := by
  intro h
  simp [Separated, h] at ht

/-- How a requirement is written: a name, extras and the rest, with white space after the name and
    after the extras. -/
structure Written (r : List Char) (name e : List Char) (extras : List (List Char))
    (w w' t : List Char) : Prop where
  text : r = name ++ (w ++ (e ++ (w' ++ t)))
  name : isIdentifier name = true
  extras : ExtrasText e extras
  space : ∀ c ∈ w, wsp c = true
  space' : ∀ c ∈ w', wsp c = true
  gap : e = [] → w' = []
  rest : Separated t

variable {name e w w' : List Char} {extras : List (List Char)}

theorem isIdentifier_chars (h : isIdentifier name = true) : ∀ c ∈ name, identChar c = true := by
  simp only [isIdentifier, Bool.and_eq_true, List.all_eq_true] at h
  exact h.1.1

theorem isIdentifier_head (h : isIdentifier name = true) :
    ∃ c s, name = c :: s ∧ identChar c = true := by
  cases name with
  | nil => simp [isIdentifier] at h
  | cons c s => exact ⟨c, s, rfl, isIdentifier_chars h c (List.mem_cons_self ..)⟩

theorem not_wsp_of_identChar {c : Char} (h : identChar c = true) : wsp c = false := by
  by_contra hw
  have hw : c = ' ' ∨ c = '\t' := by
    simpa only [Bool.not_eq_false, wsp, Bool.or_eq_true, beq_iff_eq] using hw
  rcases hw with rfl | rfl <;> exact absurd h (by decide)

theorem not_identChar_of_wsp {c : Char} (h : wsp c = true) : identChar c = false := by
  by_contra hi
  rw [not_wsp_of_identChar (by simpa using hi)] at h
  cases h

/-- What follows a name does not go on with it. -/
theorem Written.after_name (h : Written r name e extras w w' t) :
    (w ++ (e ++ (w' ++ t))).head?.all (fun c => !identChar c) = true := by
  cases hw : w with
  | cons c _ =>
    have hc : wsp c = true := h.space c (by simp [hw])
    simp [not_identChar_of_wsp hc]
  | nil =>
    by_cases he : e = []
    · rw [he, h.gap he]
      have ht := h.rest
      cases t with
      | nil => rfl
      | cons c t =>
        simp only [Separated, List.head?_cons, Option.all_some, Bool.and_eq_true] at ht
        exact ht.1.1
    · obtain ⟨e', rfl⟩ := h.extras.head he
      rfl

theorem Written.parse (h : Written r name e extras w w' t) : Pep508.parse readMarker r =
    (readRest readMarker t).map fun p => ⟨name, extras, p.1, p.2.1, p.2.2⟩ := by
  obtain ⟨c, s, rfl, hc⟩ := isIdentifier_head h.name
  have hr : r.dropWhile wsp = r := by
    rw [h.text]
    exact List.dropWhile_cons_of_neg (by simp [not_wsp_of_identChar hc])
  have hchars := isIdentifier_chars h.name
  have htake : r.takeWhile identChar = c :: s := by
    rw [h.text]
    exact takeWhile_append_stop hchars h.after_name
  have hdrop : r.dropWhile identChar = w ++ (e ++ (w' ++ t)) := by
    rw [h.text]
    exact dropWhile_append_stop hchars h.after_name
  have hextras : readExtras ((w ++ (e ++ (w' ++ t))).dropWhile wsp) = some (extras, w' ++ t) := by
    have hstop : (e ++ (w' ++ t)).head?.all (fun c => !wsp c) = true := by
      by_cases he : e = []
      · rw [he, h.gap he]
        exact h.rest.not_wsp
      · obtain ⟨e', rfl⟩ := h.extras.head he
        rfl
    rw [dropWhile_append_stop h.space hstop]
    refine readExtras_text h.extras fun he => ?_
    rw [h.gap he]
    exact h.rest.not_bracket
  have hname : readIdentifier (c :: s) = some (c :: s) := if_pos h.name
  simp only [Pep508.parse, hr, htake, hdrop, hname, hextras, Option.bind_eq_bind, Option.bind_some,
    dropWhile_append_stop h.space' h.rest.not_wsp]
  cases readRest readMarker t <;> rfl

theorem readRest_at {p : Option (List Char) × List Clause × Option μ}
    (h : readRest readMarker ('@' :: t) = some p) : p.1.isSome = true ∧ p.2.1 = [] ∧
      ∀ c ∈ t.takeWhile (· ≠ ';'), (wsp c || uriChar c) = true := by
  simp only [readRest] at h
  split at h
  · rename_i hurl
    obtain ⟨marker, hmarker, hp⟩ := Option.bind_eq_some_iff.1 h
    cases hp
    refine ⟨rfl, rfl, fun c hc => ?_⟩
    -- a character before the first semicolon is white space or stands in the URL
    generalize hs : t.dropWhile wsp = s at *
    have ht : t = t.takeWhile wsp ++ (s.takeWhile uriChar ++
        ((s.dropWhile uriChar).takeWhile wsp ++ (s.dropWhile uriChar).dropWhile wsp)) := by
      rw [List.takeWhile_append_dropWhile, List.takeWhile_append_dropWhile, ← hs,
        List.takeWhile_append_dropWhile]
    have htail : (s.dropWhile uriChar).dropWhile wsp = [] ∨
        ∃ m, (s.dropWhile uriChar).dropWhile wsp = ';' :: m := by
      generalize (s.dropWhile uriChar).dropWhile wsp = m at hmarker
      unfold readTail at hmarker
      split at hmarker
      · exact .inl rfl
      · exact .inr ⟨_, rfl⟩
      · cases hmarker
    have hbefore :
        c ∈ t.takeWhile wsp ++ (s.takeWhile uriChar ++ (s.dropWhile uriChar).takeWhile wsp) := by
      rcases htail with hm | ⟨m, hm⟩
      · rw [hm, List.append_nil] at ht
        rw [← ht]
        exact (List.takeWhile_prefix _).subset hc
      · rw [hm, ← List.append_assoc, ← List.append_assoc] at ht
        rw [← List.append_assoc]
        rw [ht] at hc
        exact mem_of_mem_takeWhile_append (by simp) hc
    rcases List.mem_append.1 hbefore with hc | hc
    · simp [List.mem_takeWhile_imp hc]
    · rcases List.mem_append.1 hc with hc | hc
      · simp [List.mem_takeWhile_imp hc]
      · simp [List.mem_takeWhile_imp hc]
  · cases h

theorem readRest_clauses {s m : List Char} (hs : ';' ∉ s) (hm : m = [] ∨ ∃ b, m = ';' :: b)
    (hat : (s ++ m).head? ≠ some '@') : readRest readMarker (s ++ m) =
      (readSpecifier (trim s)).bind fun cs => (readTail readMarker m).map fun marker =>
      (none, cs, marker) := by
  have hall : ∀ c ∈ s, decide (c ≠ ';') = true := fun c hc => decide_eq_true fun h => hs (h ▸ hc)
  have hstop : m.head?.all (fun c => !decide (c ≠ ';')) = true := by
    rcases hm with rfl | ⟨b, rfl⟩
    · rfl
    · simp
  unfold readRest
  split
  · rename_i heq
    exact absurd (by rw [heq]; rfl) hat
  · rw [takeWhile_append_stop hall hstop, dropWhile_append_stop hall hstop]
    cases readSpecifier (trim s) with
    | none => rfl
    | some cs =>
      show (readTail readMarker m).bind _ = _
      rw [Option.bind_some, Option.map_eq_bind]
      rfl

/-- The forms of a list of clauses. -/
theorem readSpecifier_some {s : List Char} {cs : List Clause} (h : readSpecifier s = some cs) :
    (s = [] ∧ cs = []) ∨ (∃ body, s = '(' :: (body ++ [')']) ∧ readClauses body = some cs) ∨
      readClauses s = some cs := by
  unfold readSpecifier at h
  split at h
  · cases h
    exact .inl ⟨rfl, rfl⟩
  · split at h
    · rename_i s hlast
      refine .inr (.inl ⟨s.dropLast, ?_, h⟩)
      rw [List.dropLast_append_getLast?]
      exact hlast
    · cases h
  · exact .inr (.inr h)

theorem readSpecifier_parens {body : List Char} :
    readSpecifier ('(' :: (body ++ [')'])) = readClauses body := by
  simp [readSpecifier]

theorem readSpecifier_open {s : List Char} (h : s.getLast? ≠ some ')') :
    readSpecifier ('(' :: s) = none := by
  simp [readSpecifier, h]

theorem readSpecifier_plain {s : List Char} (hne : s ≠ []) (h : s.head? ≠ some '(') :
    readSpecifier s = readClauses s := by
  unfold readSpecifier
  split
  · exact absurd rfl hne
  · exact absurd rfl h
  · rfl

theorem readRest_separated {p : Option (List Char) × List Clause × Option μ}
    (h : readRest readMarker t = some p) (ht : t.head?.all (fun c => !wsp c) = true) :
    Separated t := by
  by_cases hat : t.head? = some '@'
  · simp [Separated, hat]
    decide
  · obtain ⟨s, m, rfl, hs, hm⟩ := exists_segment ';' t
    rw [readRest_clauses readMarker hs hm hat] at h
    obtain ⟨cs, hcs, -⟩ := Option.bind_eq_some_iff.1 h
    cases s with
    | nil =>
      rcases hm with rfl | ⟨b, rfl⟩ <;> rfl
    | cons c s =>
      have hc : wsp c = false := by simpa using ht
      -- the clauses start where the rest does
      obtain ⟨v, hv⟩ := trim_cons (s := s) hc
      rw [hv] at hcs
      rcases readSpecifier_some hcs with ⟨h, -⟩ | ⟨body, h, -⟩ | h
      · cases h
      · cases h
        rfl
      · obtain ⟨op, t, h⟩ := readClauses_head h (by simp [hc])
        cases op <;> cases h <;> rfl

/-- A requirement that is read is written so. -/
theorem exists_written (h : parse readMarker r = some q)
    (hr : r.head?.all (fun c => !wsp c) = true) :
    ∃ e w w' t, Written r q.name e q.extras w w' t ∧
      readRest readMarker t = some (q.url, q.clauses, q.marker) := by
  have hdrop : r.dropWhile wsp = r := by
    cases r with
    | nil => rfl
    | cons c r => exact List.dropWhile_cons_of_neg (by simpa using hr)
  rw [parse, hdrop] at h
  obtain ⟨name, hname, h⟩ := Option.bind_eq_some_iff.1 h
  obtain ⟨⟨extras, s⟩, hextras, h⟩ := Option.bind_eq_some_iff.1 h
  obtain ⟨⟨url, clauses, marker⟩, hrest, h⟩ := Option.bind_eq_some_iff.1 h
  cases h
  unfold readIdentifier at hname
  split at hname
  · rename_i hid
    cases hname
    obtain ⟨e, hs, he⟩ := readExtras_some hextras
    have hsep := readRest_separated readMarker hrest dropWhile_head
    have htext : r = r.takeWhile identChar ++ ((r.dropWhile identChar).takeWhile wsp ++
        (e ++ (s.takeWhile wsp ++ s.dropWhile wsp))) := by
      rw [List.takeWhile_append_dropWhile, ← hs, List.takeWhile_append_dropWhile,
        List.takeWhile_append_dropWhile]
    refine ⟨e, (r.dropWhile identChar).takeWhile wsp, s.takeWhile wsp, s.dropWhile wsp,
      ⟨htext, hid, he, fun c hc => List.mem_takeWhile_imp hc, fun c hc => List.mem_takeWhile_imp hc,
        fun hnil => ?_, hsep⟩, hrest⟩
    -- without extras the white space has been read already
    rw [hnil, List.nil_append] at hs
    have hhead : s.head?.all (fun c => !wsp c) = true := hs ▸ dropWhile_head
    cases s with
    | nil => rfl
    | cons c s => exact List.takeWhile_cons_of_neg (by simpa using hhead)
  · cases hname

end

end Pep508
