/-
  Backtracking regular expressions with named groups, and searching and
  substituting with them.

  `run` lists the ways to match at a position, the preferred one first.  The
  functions that walk a whole text (`pieces`) skip empty matches: they are for
  expressions that match no empty string.
-/
import FastapiTemplate.Lib.Spans

/-- Whatever else decides it, a fact about every element of a list is decided along the list: never
    by going through all the elements of a finite type, such as the characters. -/
instance (priority := 10000) decidableForallMem {α : Type*} {P : α → Prop} [DecidablePred P]
    (l : List α) :
    Decidable (∀ a ∈ l, P a) :=
  List.decidableBAll P l

/-- Regular expressions over characters; `look` is a condition on what stands before (nearest
    first) and after the position. -/
inductive Regex where
  | empty
  | char (p : Char → Bool)
  | look (p : List Char → List Char → Bool)
  | seq (r s : Regex)
  | alt (r s : Regex)
  | star (greedy : Bool) (r : Regex)
  | group (name : String) (r : Regex)

namespace Regex

/-- A match: its text, the text after it, and what the groups captured, latest first. -/
structure Match where
  text : List Char
  rest : List Char
  groups : List (String × List Char)
  deriving DecidableEq

/-- A match followed by another. -/
def Match.append (m m' : Match) : Match := ⟨m.text ++ m'.text, m'.rest, m'.groups ++ m.groups⟩

/-- What the group captured, if it took part in the match. -/
def Match.group? (m : Match) (name : String) : Option (List Char) := m.groups.lookup name

/-- What the group captured, for a group that takes part in every match. -/
def Match.group (m : Match) (name : String) : List Char := (m.group? name).getD []

/-- Match as often as possible, or as seldom as possible; every repetition takes some text. -/
def iterate (greedy : Bool) (step : List Char → List Char → List Match) :
    ℕ → List Char → List Char → List Match
  | 0, _, after => [⟨[], after, []⟩]
  | n + 1, before, after =>
    let more := (step before after).flatMap fun m =>
      if m.text = [] then []
      else (iterate greedy step n (m.text.reverse ++ before) m.rest).map m.append
    if greedy then more ++ [⟨[], after, []⟩] else ⟨[], after, []⟩ :: more

/-- The matches at a position, in the order in which backtracking finds them. -/
def run : Regex → List Char → List Char → List Match
  | empty, _, after => [⟨[], after, []⟩]
  | char _, _, [] => []
  | char p, _, c :: after => if p c then [⟨[c], after, []⟩] else []
  | look p, before, after => if p before after then [⟨[], after, []⟩] else []
  | seq r s, before, after =>
    (run r before after).flatMap fun m => (run s (m.text.reverse ++ before) m.rest).map m.append
  | alt r s, before, after => run r before after ++ run s before after
  | star greedy r, before, after => iterate greedy (run r) after.length before after
  | group name r, before, after =>
    (run r before after).map fun m => { m with groups := (name, m.text) :: m.groups }

/-! ## Derived expressions -/

/-- A fixed text. -/
def lit : List Char → Regex
  | [] => empty
  | c :: cs => seq (char (· == c)) (lit cs)

def plus (r : Regex) : Regex := seq r (star true r)

def opt (r : Regex) : Regex := alt r empty

/-- The expression `n` times. -/
def times (r : Regex) : ℕ → Regex
  | 0 => empty
  | n + 1 => seq r (times r n)

/-- A sequence of expressions. -/
def concat : List Regex → Regex
  | [] => empty
  | [r] => r
  | r :: rs => seq r (concat rs)

/-- The first of some expressions that matches. -/
def anyOf : List Regex → Regex
  | [] => char fun _ => false
  | r :: rs => alt r (anyOf rs)

/-- The end of the text, or before its last newline. -/
def atEnd : Regex := look fun _ after => after = [] || after = ['\n']

/-- The beginning of a line. -/
def lineStart : Regex := look fun before _ => before.head?.all (· == '\n')

/-- The end of a line. -/
def lineEnd : Regex := look fun _ after => after.head?.all (· == '\n')

/-- Between a character of a word and one that is not, or the other way round. -/
def wordBoundary (word : Char → Bool) : Regex :=
  look fun before after => before.head?.any word != after.head?.any word

/-- Any character but a newline. -/
def dot : Regex := char (· != '\n')

/-! ## Searching -/

/-- The match at the beginning of the text. -/
def match? (r : Regex) (s : List Char) : Option Match := (run r [] s).head?

/-- The match of the whole text. -/
def fullmatch? (r : Regex) (s : List Char) : Option Match :=
  (run r [] s).find? fun m => m.rest = []

/-- A part of a text: a character outside the matches, or a match. -/
inductive Piece where
  | char (c : Char)
  | found (m : Match)

/-- The characters of a part. -/
def Piece.text : Piece → List Char
  | char c => [c]
  | found m => m.text

def Piece.match? : Piece → Option Match
  | char _ => none
  | found m => some m

/-- The parts of a text, after the first `k` characters: matches from left to right that do not
    overlap. -/
def pieces (r : Regex) : ℕ → List Char → List Char → List Piece
  | _, _, [] => []
  | k + 1, before, c :: after => pieces r k (c :: before) after
  | 0, before, c :: after =>
    match (run r before (c :: after)).find? fun m => m.text ≠ [] with
    | some m => .found m :: pieces r (m.text.length - 1) (c :: before) after
    | none => .char c :: pieces r 0 (c :: before) after

/-- All matches. -/
def finditer (r : Regex) (s : List Char) : List Match := (pieces r 0 [] s).filterMap Piece.match?

/-- The first match. -/
def search (r : Regex) (s : List Char) : Option Match := (finditer r s).head?

/-- Replace every match. -/
def sub (r : Regex) (f : Match → List Char) (s : List Char) : List Char :=
  (pieces r 0 [] s).flatMap fun
    | .char c => [c]
    | .found m => f m

/-- Replace the first match. -/
def subFirst (f : Match → List Char) : List Piece → List Char
  | [] => []
  | .char c :: ps => c :: subFirst f ps
  | .found m :: ps => f m ++ ps.flatMap Piece.text

/-- Replace the first match in a text. -/
def subOne (r : Regex) (f : Match → List Char) (s : List Char) : List Char :=
  subFirst f (pieces r 0 [] s)

/-! ## Replacement templates -/

/-- A part of a template: a character, or what a group captured (`none` is the whole match). -/
inductive TemplatePart where
  | char (c : Char)
  | group (name : Option String)

def isOctal (c : Char) : Bool := '0' ≤ c && c ≤ '7'

def readOctal (digits : List Char) : ℕ := digits.foldl (fun n c => 8 * n + (c.toNat - 48)) 0

/-- The group with the number, for groups with these names. -/
def groupNumber (names : List String) : ℕ → Option TemplatePart
  | 0 => none
  | n + 1 => names[n]?.map fun name => .group (some name)

/-- A group by name or number, as in `\g<name>`. -/
def groupNamed (names : List String) (name : List Char) : Option TemplatePart :=
  if name = ['0'] then some (.group none)
  else if name ≠ [] ∧ name.all Char.isDigit then
    groupNumber names (name.foldl (fun n c => 10 * n + (c.toNat - 48)) 0)
  else (names.find? fun n => n.toList = name).map fun n => .group (some n)

/-- The control characters that have a letter. -/
def escape : Char → Option Char
  | 'a' => some (Char.ofNat 7)
  | 'b' => some (Char.ofNat 8)
  | 'f' => some (Char.ofNat 12)
  | 'n' => some '\n'
  | 'r' => some '\r'
  | 't' => some '\t'
  | 'v' => some (Char.ofNat 11)
  | '\\' => some '\\'
  | _ => none

/-- Read what follows a backslash, and the rest; `none` if it is not allowed. -/
def readEscape (names : List String) : List Char → Option (List TemplatePart × List Char)
  | [] => none
  | 'g' :: '<' :: rest =>
    match rest.dropWhile (· ≠ '>') with
    | [] => none
    | _ :: rest' => (groupNamed names (rest.takeWhile (· ≠ '>'))).map fun p => ([p], rest')
  | '0' :: rest =>
    let digits := (rest.takeWhile isOctal).take 2
    some ([.char (Char.ofNat (readOctal digits))], rest.drop digits.length)
  | c :: rest =>
    if c.isDigit then
      match rest with
      | d :: e :: rest' =>
        if isOctal c && isOctal d && isOctal e then
          if readOctal [c, d, e] ≤ 0o377 then
            some ([.char (Char.ofNat (readOctal [c, d, e]))], rest') else none
        else if d.isDigit then
          (groupNumber names (10 * (c.toNat - 48) + (d.toNat - 48))).map fun p => ([p], e :: rest')
        else (groupNumber names (c.toNat - 48)).map fun p => ([p], rest)
      | [d] =>
        if d.isDigit then
          (groupNumber names (10 * (c.toNat - 48) + (d.toNat - 48))).map fun p => ([p], [])
        else (groupNumber names (c.toNat - 48)).map fun p => ([p], rest)
      | [] => (groupNumber names (c.toNat - 48)).map fun p => ([p], [])
    else match escape c with
      | some e => some ([.char e], rest)
      | none => if c.isAlpha then none else some ([.char '\\', .char c], rest)

/-- Read a template. -/
def readTemplate (names : List String) : ℕ → List Char → Option (List TemplatePart)
  | _, [] => some []
  | 0, _ => none
  | n + 1, c :: rest =>
    if c = '\\' then do
      let (parts, rest) ← readEscape names rest
      return parts ++ (← readTemplate names n rest)
    else (readTemplate names n rest).map (.char c :: ·)

/-- The text of a part, for a match. -/
def TemplatePart.text (m : Match) : TemplatePart → List Char
  | char c => [c]
  | group none => m.text
  | group (some name) => m.group name

/-- What a template stands for, given a match; `none` if it is not valid. -/
def template (names : List String) (s : List Char) : Option (Match → List Char) :=
  (readTemplate names s.length s).map fun parts m => parts.flatMap (TemplatePart.text m)

theorem readTemplate_plain {names : List String} {n : ℕ} {s : List Char} (hn : s.length ≤ n)
    (hs : '\\' ∉ s) : readTemplate names n s = some (s.map .char) := by
  induction s generalizing n with
  | nil => cases n <;> rfl
  | cons c s ih =>
    cases n with
    | zero => cases hn
    | succ n =>
      have hc : c ≠ '\\' := fun h => hs (h ▸ List.mem_cons_self ..)
      rw [readTemplate, if_neg hc, ih (Nat.le_of_succ_le_succ hn) fun h =>
        hs (List.mem_cons_of_mem _ h)]
      rfl

/-- A template without a backslash stands for itself. -/
theorem template_plain {names : List String} {s : List Char} (hs : '\\' ∉ s) :
    template names s = some fun _ => s := by
  rw [template, readTemplate_plain (Nat.le_refl _) hs]
  refine congrArg some (funext fun m => ?_)
  show (s.map TemplatePart.char).flatMap (TemplatePart.text m) = s
  simp [List.flatMap_map, TemplatePart.text]

/-! ## Matches and their text -/

/-- A property of matches and of the text they begin, which the empty match has, and a match after
    another one if both have it. -/
structure Closed (P : List Char → Match → Prop) : Prop where
  nil : ∀ after, P after ⟨[], after, []⟩
  append : ∀ {after m m'}, P after m → P m.rest m' → P after (m.append m')

/-- The characters and groups of the expression have the property. -/
def Holds (P : List Char → Match → Prop) : Regex → Prop
  | empty => True
  | char p => ∀ c after, p c = true → P (c :: after) ⟨[c], after, []⟩
  | look _ => True
  | seq r s => r.Holds P ∧ s.Holds P
  | alt r s => r.Holds P ∧ s.Holds P
  | star _ r => r.Holds P
  | group name r => r.Holds P ∧
      ∀ after m, P after m → P after { m with groups := (name, m.text) :: m.groups }

section
variable {P : List Char → Match → Prop} (hP : Closed P)
include hP

theorem iterate_holds {greedy : Bool} {step : List Char → List Char → List Match}
    (hstep : ∀ before after, ∀ m ∈ step before after, P after m) {n : ℕ}
    {before after : List Char} {m : Match} (hm : m ∈ iterate greedy step n before after) :
    P after m := by
  induction n generalizing before after m with
  | zero =>
    rw [iterate, List.mem_singleton] at hm
    rw [hm]
    exact hP.nil after
  | succ n ih =>
    have hmore : ∀ m ∈ (step before after).flatMap fun m =>
        if m.text = [] then []
        else (iterate greedy step n (m.text.reverse ++ before) m.rest).map m.append, P after m := by
      intro m hm
      obtain ⟨m₁, hm₁, hm⟩ := List.mem_flatMap.1 hm
      split at hm
      · cases hm
      · obtain ⟨m₂, hm₂, rfl⟩ := List.mem_map.1 hm
        exact hP.append (hstep before after m₁ hm₁) (ih hm₂)
    rw [iterate] at hm
    split at hm
    · rcases List.mem_append.1 hm with hm | hm
      · exact hmore m hm
      · rw [List.mem_singleton.1 hm]
        exact hP.nil after
    · rcases List.mem_cons.1 hm with rfl | hm
      · exact hP.nil after
      · exact hmore m hm

/-- Every match has a property that the characters and groups of its expression have. -/
theorem run_holds {r : Regex} (h : r.Holds P) {before after : List Char} {m : Match}
    (hm : m ∈ run r before after) : P after m := by
  induction r generalizing before after m with
  | empty =>
    rw [List.mem_singleton.1 hm]
    exact hP.nil after
  | char p =>
    cases after with
    | nil => cases hm
    | cons c after =>
      rw [run] at hm
      split at hm
      · rename_i hp
        rw [List.mem_singleton.1 hm]
        exact h c after hp
      · cases hm
  | look p =>
    rw [run] at hm
    split at hm
    · rw [List.mem_singleton.1 hm]
      exact hP.nil after
    · cases hm
  | seq r s ihr ihs =>
    obtain ⟨m₁, hm₁, hm⟩ := List.mem_flatMap.1 hm
    obtain ⟨m₂, hm₂, rfl⟩ := List.mem_map.1 hm
    exact hP.append (ihr h.1 hm₁) (ihs h.2 hm₂)
  | alt r s ihr ihs =>
    rcases List.mem_append.1 hm with hm | hm
    · exact ihr h.1 hm
    · exact ihs h.2 hm
  | star greedy r ih => exact iterate_holds hP (fun _ _ _ hm => ih h hm) hm
  | group name r ih =>
    obtain ⟨m₁, hm₁, rfl⟩ := List.mem_map.1 hm
    exact h.2 after m₁ (ih h.1 hm₁)

end

theorem holds_text (r : Regex) : r.Holds fun after m => m.text ++ m.rest = after := by
  induction r with
  | empty | look p => trivial
  | char p => exact fun _ _ _ => rfl
  | seq r s ihr ihs => exact ⟨ihr, ihs⟩
  | alt r s ihr ihs => exact ⟨ihr, ihs⟩
  | star greedy r ih => exact ih
  | group name r ih => exact ⟨ih, fun _ _ h => h⟩

/-- A match is a prefix of the text it is found in. -/
theorem run_text {r : Regex} {before after : List Char} {m : Match} (hm : m ∈ run r before after) :
    m.text ++ m.rest = after := by
  refine run_holds (P := fun after m => m.text ++ m.rest = after) ⟨fun _ => rfl, ?_⟩
    (holds_text r) hm
  intro after m m' h h'
  rw [Match.append, List.append_assoc, h', h]

/-- All characters that the expression takes have the property. -/
def Only (P : Char → Prop) : Regex → Prop
  | empty => True
  | char p => ∀ c, p c = true → P c
  | look _ => True
  | seq r s => r.Only P ∧ s.Only P
  | alt r s => r.Only P ∧ s.Only P
  | star _ r => r.Only P
  | group _ r => r.Only P

theorem Only.holds {P : Char → Prop} {r : Regex} (h : r.Only P) :
    r.Holds fun _ m => ∀ c ∈ m.text, P c := by
  induction r with
  | empty | look p => trivial
  | char p =>
    intro c after hc d hd
    rw [List.mem_singleton.1 hd]
    exact h c hc
  | seq r s ihr ihs => exact ⟨ihr h.1, ihs h.2⟩
  | alt r s ihr ihs => exact ⟨ihr h.1, ihs h.2⟩
  | star greedy r ih => exact ih h
  | group name r ih => exact ⟨ih h, fun _ _ h => h⟩

theorem run_only {P : Char → Prop} {r : Regex} (h : r.Only P) {before after : List Char} {m : Match}
    (hm : m ∈ run r before after) : ∀ c ∈ m.text, P c := by
  refine run_holds ⟨fun _ => nofun, ?_⟩ h.holds hm
  intro after m m' h h' c hc
  exact (List.mem_append.1 hc).elim (h c) (h' c)

theorem only_lit {P : Char → Prop} {text : List Char} (h : ∀ c ∈ text, P c) :
    (lit text).Only P := by
  induction text with
  | nil => trivial
  | cons c text ih =>
    refine ⟨fun d hd => ?_, ih fun d hd => h d (List.mem_cons_of_mem _ hd)⟩
    rw [beq_iff_eq.1 hd]
    exact h c (List.mem_cons_self ..)

/-- The parts make up the text. -/
theorem pieces_text (r : Regex) (k : ℕ) (before after : List Char) :
    (pieces r k before after).flatMap Piece.text = after.drop k := by
  fun_induction pieces with
  | case1 => simp
  | case2 k before c after ih => simpa using ih
  | case3 before c after m hm ih =>
    have hmem := List.mem_of_find?_eq_some hm
    have hne : m.text ≠ [] := by simpa using List.find?_some hm
    have htext := run_text hmem
    obtain ⟨d, ds, hd⟩ := List.exists_cons_of_ne_nil hne
    rw [hd, List.cons_append] at htext
    obtain ⟨rfl, hafter⟩ := List.cons.inj htext
    rw [List.flatMap_cons, ih, ← hafter, hd]
    simp [Piece.text, hd]
  | case4 before c after hm ih =>
    rw [List.flatMap_cons, ih]
    rfl

/-- A part with its replacement. -/
def Piece.replace (f : Match → List Char) : Piece → List Char
  | char c => [c]
  | found m => f m

theorem sub_eq {r : Regex} {f : Match → List Char} {s : List Char} :
    sub r f s = (pieces r 0 [] s).flatMap (Piece.replace f) := by
  refine congrArg (List.flatMap · _) (funext fun p => ?_)
  cases p <;> rfl

theorem mem_run_seq {r s : Regex} {before after : List Char} {m : Match} :
    m ∈ run (seq r s) before after ↔ ∃ m₁ ∈ run r before after,
      ∃ m₂ ∈ run s (m₁.text.reverse ++ before) m₁.rest, m = m₁.append m₂ := by
  simp only [run, List.mem_flatMap, List.mem_map, eq_comm]

/-! ## Preferred matches -/

/-- The preferred match at a position. -/
def First (r : Regex) (before after : List Char) (m : Match) : Prop :=
  (run r before after).head? = some m

section
variable {r s : Regex} {p : Char → Bool} {before after : List Char} {m m' : Match}

theorem first_iff : First r before after m ↔ ∃ ms, run r before after = m :: ms :=
  List.head?_eq_some_iff

theorem First.fullmatch (h : First r [] after m) (hrest : m.rest = []) :
    fullmatch? r after = some m := by
  obtain ⟨ms, hms⟩ := first_iff.1 h
  rw [fullmatch?, hms, List.find?_cons_of_pos (by simpa using hrest)]

theorem First.text (h : First r before after m) : m.text ++ m.rest = after :=
  run_text (List.mem_of_head? h)

theorem First.empty : First .empty before after ⟨[], after, []⟩ := rfl

theorem first_look {p : List Char → List Char → Bool} :
    First (.look p) before after m ↔ p before after = true ∧ m = ⟨[], after, []⟩ := by
  rw [First, run]
  split
  · rename_i hp
    simp [hp, eq_comm]
  · rename_i hp
    simp [hp]

theorem First.char {c : Char} (hc : p c = true) :
    First (.char p) before (c :: after) ⟨[c], after, []⟩ := by
  rw [First, run, if_pos hc]
  rfl

theorem First.seq (hr : First r before after m)
    (hs : First s (m.text.reverse ++ before) m.rest m') :
    First (.seq r s) before after (m.append m') := by
  obtain ⟨ms, hms⟩ := first_iff.1 hr
  obtain ⟨ms', hms'⟩ := first_iff.1 hs
  rw [First, run, hms, List.flatMap_cons, hms']
  rfl

theorem First.left (hr : First r before after m) : First (.alt r s) before after m := by
  obtain ⟨ms, hms⟩ := first_iff.1 hr
  rw [First, run, hms]
  rfl

theorem First.right (hr : run r before after = []) (hs : First s before after m) :
    First (.alt r s) before after m := by
  rw [First, run, hr]
  exact hs

theorem First.group {name : String} (hr : First r before after m) :
    First (.group name r) before after { m with groups := (name, m.text) :: m.groups } := by
  obtain ⟨ms, hms⟩ := first_iff.1 hr
  rw [First, run, hms]
  rfl

/-- The preferred match of a sequence ends with the preferred match of its second part. -/
theorem First.exists_seq (h : First (.seq r s) before after m) : ∃ m₁ ∈ run r before after,
    ∃ m₂, First s (m₁.text.reverse ++ before) m₁.rest m₂ ∧ m = m₁.append m₂ := by
  rw [First, run, List.head?_flatMap] at h
  obtain ⟨m₁, hm₁, h⟩ := List.exists_of_findSome?_eq_some h
  rw [List.head?_map, Option.map_eq_some_iff] at h
  obtain ⟨m₂, hm₂, rfl⟩ := h
  exact ⟨m₁, hm₁, m₂, hm₂, rfl⟩

theorem First.lit {text : List Char} :
    First (.lit text) before (text ++ after) ⟨text, after, []⟩ := by
  induction text generalizing before with
  | nil => rfl
  | cons c text ih => exact First.seq (First.char (beq_self_eq_true c)) ih

/-- In the empty text nothing is repeated. -/
theorem iterate_nil {greedy : Bool} {n : ℕ} :
    iterate greedy (run r) n before [] = [⟨[], [], []⟩] := by
  cases n with
  | zero => rfl
  | succ n =>
    have hmore : ((run r before []).flatMap fun m =>
        if m.text = [] then []
        else (iterate greedy (run r) n (m.text.reverse ++ before) m.rest).map m.append) = [] := by
      refine List.flatMap_eq_nil_iff.2 fun m hm => if_pos ?_
      exact (List.append_eq_nil_iff.1 (run_text hm)).1
    rw [iterate]
    simp only [hmore]
    cases greedy <;> rfl

/-- More repetitions than there is text for make no difference. -/
theorem iterate_fuel {greedy : Bool} {n k : ℕ} (hn : after.length ≤ n) (hk : after.length ≤ k) :
    iterate greedy (run r) n before after = iterate greedy (run r) k before after := by
  induction n generalizing k before after with
  | zero =>
    obtain rfl := List.length_eq_zero_iff.1 (Nat.le_zero.1 hn)
    rw [iterate_nil, iterate_nil]
  | succ n ih =>
    cases k with
    | zero =>
      obtain rfl := List.length_eq_zero_iff.1 (Nat.le_zero.1 hk)
      rw [iterate_nil, iterate_nil]
    | succ k =>
      have hmore : ((run r before after).flatMap fun m =>
          if m.text = [] then []
          else (iterate greedy (run r) n (m.text.reverse ++ before) m.rest).map m.append) =
          (run r before after).flatMap fun m =>
          if m.text = [] then []
          else (iterate greedy (run r) k (m.text.reverse ++ before) m.rest).map m.append := by
        refine List.flatMap_congr fun m hm => ?_
        by_cases hne : m.text = []
        · rw [if_pos hne, if_pos hne]
        · have hlength := congrArg List.length (run_text hm)
          rw [List.length_append] at hlength
          have hpos := List.length_pos_iff.2 hne
          have heq : iterate greedy (run r) n (m.text.reverse ++ before) m.rest =
              iterate greedy (run r) k (m.text.reverse ++ before) m.rest := ih (by omega) (by omega)
          rw [if_neg hne, if_neg hne, heq]
      rw [iterate, iterate]
      simp only [hmore]

/-- A repetition is nothing, or once and a repetition after it. -/
theorem run_star {greedy : Bool} : run (.star greedy r) before after =
    let more := (run r before after).flatMap fun m =>
      if m.text = [] then []
      else (run (.star greedy r) (m.text.reverse ++ before) m.rest).map m.append
    if greedy then more ++ [⟨[], after, []⟩] else ⟨[], after, []⟩ :: more := by
  have hfuel : run (.star greedy r) before after =
      iterate greedy (run r) (after.length + 1) before after :=
    iterate_fuel (Nat.le_refl _) (Nat.le_succ _)
  rw [hfuel, iterate]
  have hmore : ((run r before after).flatMap fun m =>
      if m.text = [] then []
      else (iterate greedy (run r) after.length (m.text.reverse ++ before) m.rest).map m.append) =
      (run r before after).flatMap fun m =>
      if m.text = [] then []
      else (run (.star greedy r) (m.text.reverse ++ before) m.rest).map m.append := by
    refine List.flatMap_congr fun m hm => ?_
    have hlength := congrArg List.length (run_text hm)
    rw [List.length_append] at hlength
    rw [run, iterate_fuel (by omega) (Nat.le_refl _)]
  simp only [hmore]

/-- The expression takes no such character, and looks at none. -/
def rejects (c : Char) : Regex → Bool
  | empty => true
  | char p => !p c
  | look _ => false
  | seq r s => r.rejects c && s.rejects c
  | alt r s => r.rejects c && s.rejects c
  | star _ r => r.rejects c
  | group _ r => r.rejects c

/-- The match in a text that goes on. -/
def Match.extend (m : Match) (text : List Char) : Match := { m with rest := m.rest ++ text }

/-- A text is matched up to a character that the expression rejects. -/
theorem run_rejects {c : Char} {text : List Char} (h : r.rejects c = true) :
    run r before (after ++ c :: text) = (run r before after).map (·.extend (c :: text)) := by
  induction r generalizing before after with
  | empty => rfl
  | char p =>
    cases after with
    | nil =>
      have hp : p c = false := by simpa [rejects] using h
      simp [run, hp]
    | cons d after =>
      rw [List.cons_append, run, run]
      split <;> rfl
  | look p => cases h
  | seq r s ihr ihs =>
    obtain ⟨hr, hs⟩ := Bool.and_eq_true_iff.1 h
    rw [run, run, ihr hr, List.flatMap_map, List.map_flatMap]
    refine List.flatMap_congr fun m _ => ?_
    have hrest : run s ((m.extend (c :: text)).text.reverse ++ before) (m.extend (c :: text)).rest =
        (run s (m.text.reverse ++ before) m.rest).map (·.extend (c :: text)) := ihs hs
    rw [hrest, List.map_map, List.map_map]
    rfl
  | alt r s ihr ihs =>
    obtain ⟨hr, hs⟩ := Bool.and_eq_true_iff.1 h
    rw [run, run, ihr hr, ihs hs, List.map_append]
  | star greedy r ih =>
    -- by the length of the text: every repetition takes some of it
    induction hn : after.length using Nat.strongRecOn generalizing before after with
    | _ n ihn =>
      rw [run_star, run_star, ih h, List.flatMap_map]
      have hmore : ((run r before after).flatMap fun m =>
          if (m.extend (c :: text)).text = [] then []
          else (run (.star greedy r) ((m.extend (c :: text)).text.reverse ++ before)
            (m.extend (c :: text)).rest).map (m.extend (c :: text)).append) =
          ((run r before after).flatMap fun m =>
            if m.text = [] then []
            else (run (.star greedy r) (m.text.reverse ++ before) m.rest).map m.append).map
              (·.extend (c :: text)) := by
        rw [List.map_flatMap]
        refine List.flatMap_congr fun m hm => ?_
        by_cases hne : m.text = []
        · rw [if_pos hne]
          exact if_pos hne
        · have hlength := congrArg List.length (run_text hm)
          rw [List.length_append] at hlength
          have hpos := List.length_pos_iff.2 hne
          have hrest : run (.star greedy r) ((m.extend (c :: text)).text.reverse ++ before)
              (m.extend (c :: text)).rest =
              (run (.star greedy r) (m.text.reverse ++ before) m.rest).map (·.extend (c :: text)) :=
            ihn m.rest.length (by omega) rfl
          rw [if_neg hne, hrest]
          refine (if_neg hne).trans ?_
          rw [List.map_map, List.map_map]
          rfl
      simp only [hmore]
      cases greedy with
      | true => simp [Match.extend]
      | false => simp [Match.extend]
  | group name r ih =>
    rw [run, run, ih h, List.map_map, List.map_map]
    rfl

/-- The first match ends before a character that the expression rejects. -/
theorem match?_rejects {c : Char} {text : List Char} (h : r.rejects c = true) :
    r.match? (after ++ c :: text) = (r.match? after).map (·.extend (c :: text)) := by
  rw [match?, match?, run_rejects h, List.head?_map]

theorem First.star_nil (h : run r before after = []) :
    First (.star true r) before after ⟨[], after, []⟩ := by
  rw [First, run_star, h]
  rfl

theorem First.star_cons (hr : First r before after m) (hm : m.text ≠ [])
    (hs : First (.star true r) (m.text.reverse ++ before) m.rest m') :
    First (.star true r) before after (m.append m') := by
  obtain ⟨ms, hms⟩ := first_iff.1 hr
  obtain ⟨ms', hms'⟩ := first_iff.1 hs
  rw [First, run_star, hms]
  simp [hm, hms']

/-- What a repetition as seldom as possible takes is the shortest text with which the rest
    matches. -/
theorem First.lazy {name : String} {text : List Char} (htext : ∀ c ∈ text, p c = true)
    (hskip : ∀ y z, text = y ++ z → z ≠ [] → run s (y.reverse ++ before) (z ++ after) = [])
    (hs : First s (text.reverse ++ before) after m) :
    First (.seq (.group name (.star false (.char p))) s) before (text ++ after)
      (Match.append ⟨text, after, [(name, text)]⟩ m) := by
  have key : ∀ {text before : List Char} {f : Match → List Match} {m : Match},
      (∀ c ∈ text, p c = true) → (∀ y z, text = y ++ z → z ≠ [] → f ⟨y, z ++ after, []⟩ = []) →
      (f ⟨text, after, []⟩).head? = some m →
      ((run (.star false (.char p)) before (text ++ after)).flatMap f).head? = some m := by
    intro text
    induction text with
    | nil =>
      intro before f m _ _ hf
      obtain ⟨ms, hms⟩ := List.head?_eq_some_iff.1 hf
      rw [List.nil_append, run_star]
      simp [hms]
    | cons c text ih =>
      intro before f m htext hskip hf
      have hnil := hskip [] (c :: text) rfl (by simp)
      have hc := htext c (by simp)
      rw [run_star]
      simp only [List.cons_append, run, hc, if_true, List.flatMap_cons, List.flatMap_nil,
        List.append_nil, reduceCtorEq, if_false, Bool.false_eq_true]
      rw [show f ⟨[], c :: (text ++ after), []⟩ = [] from hnil, List.nil_append, List.flatMap_map]
      refine ih (fun d hd => htext d (by simp [hd])) (fun y z hyz hz => ?_) hf
      exact hskip (c :: y) z (by rw [hyz]; rfl) hz
  obtain ⟨ms, hms⟩ := first_iff.1 hs
  rw [First, run, run, List.flatMap_map]
  refine key htext (fun y z hyz hz => ?_) ?_
  · rw [hskip y z hyz hz]
    rfl
  · rw [hms]
    rfl

/-- A class of characters takes as many of them as there are. -/
theorem First.star_char : First (.star true (.char p)) before after
    ⟨after.takeWhile p, after.dropWhile p, []⟩ := by
  have key : ∀ before n, after.length ≤ n → ((iterate true (run (.char p)) n before after).head? =
      some ⟨after.takeWhile p, after.dropWhile p, []⟩) := by
    induction after with
    | nil =>
      intro before n _
      cases n <;> rfl
    | cons c after ih =>
      intro before n hn
      cases n with
      | zero => cases hn
      | succ n =>
        have hn : after.length ≤ n := Nat.le_of_succ_le_succ hn
        obtain ⟨ms, hms⟩ := List.head?_eq_some_iff.1 (ih (c :: before) n hn)
        rw [iterate, run]
        by_cases hc : p c = true
        · simp [hc, hms, Match.append]
        · simp [hc]
  exact key _ _ (Nat.le_refl _)

theorem First.plus_char (h : after.takeWhile p ≠ []) : First (.plus (.char p)) before after
    ⟨after.takeWhile p, after.dropWhile p, []⟩ := by
  cases after with
  | nil => exact absurd rfl h
  | cons c after =>
    by_cases hc : p c = true
    · have hchar : First (.char p) before (c :: after) ⟨[c], after, []⟩ := First.char hc
      have hstar : First (.star true (.char p)) ([c] ++ before) after
          ⟨after.takeWhile p, after.dropWhile p, []⟩ := First.star_char
      simpa [plus, Match.append, hc] using hchar.seq hstar
    · simp [hc] at h

theorem First.plus_run {text : List Char} (hne : text ≠ []) (htext : ∀ c ∈ text, p c = true)
    (hafter : after.head?.all (fun c => !p c) = true) :
    First (.plus (.char p)) before (text ++ after) ⟨text, after, []⟩ := by
  have h : (text ++ after).takeWhile p ≠ [] → First (.plus (.char p)) before (text ++ after)
      ⟨(text ++ after).takeWhile p, (text ++ after).dropWhile p, []⟩ := First.plus_char
  rw [Spans.takeWhile_append_stop htext hafter, Spans.dropWhile_append_stop htext hafter] at h
  exact h hne

theorem run_char_of_head (h : after.head?.all (fun c => !p c) = true) :
    run (.char p) before after = [] := by
  cases after with
  | nil => rfl
  | cons c after => simp_all [run]

theorem run_lit_of_head {c : Char} {text : List Char} (h : after.head? ≠ some c) :
    run (.lit (c :: text)) before after = [] := by
  cases after with
  | nil => rfl
  | cons d after =>
    have hd : d ≠ c := fun hd => h (by rw [hd]; rfl)
    simp [Regex.lit, run, hd]

theorem run_seq_of_left (h : run r before after = []) : run (.seq r s) before after = [] := by
  rw [run, h]
  rfl

/-- A fixed text matches where it stands. -/
theorem run_lit {text : List Char} : run (lit text) before after =
    if text.isPrefixOf after then [⟨text, after.drop text.length, []⟩] else [] := by
  induction text generalizing before after with
  | nil => simp [lit, run]
  | cons c text ih =>
    cases after with
    | nil => rfl
    | cons d after =>
      by_cases hd : d = c
      · subst hd
        by_cases htext : text <+: after
        · simp [lit, run, ih, htext, Match.append]
        · simp [lit, run, ih, htext]
      · have hne : c ≠ d := fun h => hd h.symm
        simp [lit, run, hd, hne]

theorem mem_run_lit {text : List Char} (h : m ∈ run (lit text) before after) :
    m.text = text ∧ m.groups = [] := by
  rw [run_lit] at h
  split at h
  · rw [List.mem_singleton.1 h]
    exact ⟨rfl, rfl⟩
  · cases h

theorem run_anyOf {rs : List Regex} :
    run (anyOf rs) before after = rs.flatMap fun r => run r before after := by
  induction rs with
  | nil => cases after <;> simp [anyOf, run]
  | cons r rs ih => rw [anyOf, run, ih, List.flatMap_cons]

/-! ## Searching from the left -/

theorem pieces_skip {k : ℕ} {text : List Char} : pieces r (text.length + k) before (text ++ after) =
    pieces r k (text.reverse ++ before) after := by
  induction text generalizing before with
  | nil => simp
  | cons c text ih =>
    rw [List.length_cons, Nat.add_right_comm, List.cons_append, pieces, ih]
    simp

/-- Where no match begins, the characters stay. -/
theorem pieces_kept {text : List Char}
    (h : ∀ y c z, text = y ++ c :: z → run r (y.reverse ++ before) (c :: (z ++ after)) = []) :
    pieces r 0 before (text ++ after) =
      text.map .char ++ pieces r 0 (text.reverse ++ before) after := by
  induction text generalizing before with
  | nil => rfl
  | cons c text ih =>
    have hc : run r before (c :: (text ++ after)) = [] := h [] c text rfl
    rw [List.cons_append, pieces, hc]
    simp only [List.find?_nil, List.map_cons, List.cons_append, List.cons.injEq, true_and]
    rw [ih]
    · simp
    · intro y d z hyz
      have hd := h (c :: y) d z (by rw [hyz, List.cons_append])
      rwa [List.reverse_cons, List.append_assoc] at hd

/-- Where nothing matches, the characters stay. -/
theorem pieces_append {text : List Char}
    (h : ∀ c ∈ text, ∀ before after, run r before (c :: after) = []) :
    pieces r 0 before (text ++ after) =
      text.map .char ++ pieces r 0 (text.reverse ++ before) after :=
  pieces_kept fun y c z hyz => h c (by simp [hyz]) _ _

/-- The preferred match is found, and the search goes on after it. -/
theorem pieces_first (h : First r before after m) (hm : m.text ≠ []) :
    pieces r 0 before after = .found m :: pieces r 0 (m.text.reverse ++ before) m.rest := by
  obtain ⟨ms, hms⟩ := first_iff.1 h
  obtain ⟨c, text, htext⟩ := List.exists_cons_of_ne_nil hm
  have hafter := h.text
  rw [htext] at hafter
  subst hafter
  rw [List.cons_append] at hms ⊢
  rw [pieces, hms, List.find?_cons_of_pos (by simpa using hm)]
  simp only [htext, List.length_cons, Nat.add_sub_cancel]
  have hskip : pieces r (text.length + 0) (c :: before) (text ++ m.rest) = _ := pieces_skip
  rw [Nat.add_zero] at hskip
  rw [hskip]
  simp

/-- The search finds a match right after `x`. -/
def FoundAt (r : Regex) (before after x : List Char) : Prop :=
  ∃ ps m qs, pieces r 0 before after = ps ++ .found m :: qs ∧ ps.flatMap Piece.text = x

/-- No match is empty, and none begins inside another one. -/
structure Isolated (r : Regex) : Prop where
  nonempty : ∀ {before after m}, m ∈ run r before after → m.text ≠ []
  inside : ∀ {before after m y z}, m ∈ run r before after → m.text = y ++ z → y ≠ [] → z ≠ [] →
    run r (y.reverse ++ before) (z ++ m.rest) = []

/-- What is found after the first part is found there by a search that begins after it. -/
theorem foundAt_after {p : Piece} {before' after' x : List Char} (hp : p.text ≠ [])
    (hpieces : pieces r 0 before after = p :: pieces r 0 before' after') :
    FoundAt r before after (p.text ++ x) ↔ FoundAt r before' after' x := by
  constructor
  · rintro ⟨ps, m, qs, hps, hx⟩
    cases ps with
    | nil => exact absurd (List.append_eq_nil_iff.1 hx.symm).1 hp
    | cons q ps =>
      rw [hpieces, List.cons_append] at hps
      obtain rfl := (List.cons.inj hps).1
      exact ⟨ps, m, qs, (List.cons.inj hps).2, List.append_cancel_left hx⟩
  · rintro ⟨ps, m, qs, hps, hx⟩
    refine ⟨p :: ps, m, qs, ?_, ?_⟩
    · rw [hpieces, hps]
      rfl
    · rw [List.flatMap_cons, hx]

theorem pieces_of_run_nil {c : Char} (h : run r before (c :: after) = []) :
    pieces r 0 before (c :: after) = .char c :: pieces r 0 (c :: before) after := by
  rw [pieces, h]
  rfl

theorem Isolated.foundAt_nil (hr : r.Isolated) :
    FoundAt r before after [] ↔ run r before after ≠ [] := by
  constructor
  · rintro ⟨ps, m, qs, hps, hx⟩ hnil
    cases after with
    | nil => simp [pieces] at hps
    | cons c after =>
      rw [pieces_of_run_nil hnil] at hps
      cases ps with
      | nil => cases hps
      | cons q ps =>
        obtain ⟨rfl, -⟩ := List.cons.inj hps
        cases hx
  · intro hne
    obtain ⟨m, ms, hms⟩ := List.exists_cons_of_ne_nil hne
    have hm : First r before after m := first_iff.2 ⟨ms, hms⟩
    exact ⟨[], m, _, pieces_first hm (hr.nonempty (List.mem_of_head? hm)), rfl⟩

/-- Then the search finds every match there is. -/
theorem Isolated.foundAt_iff (hr : r.Isolated) {x y : List Char} :
    FoundAt r before (x ++ y) x ↔ run r (x.reverse ++ before) y ≠ [] := by
  induction hn : x.length using Nat.strongRecOn generalizing before x with
  | ind n ih =>
    subst hn
    rcases x with _ | ⟨c, x⟩
    · exact hr.foundAt_nil
    cases hrun : run r before (c :: (x ++ y)) with
    | nil =>
      have hafter := foundAt_after (x := x) (p := .char c) (by simp [Piece.text])
        (pieces_of_run_nil hrun)
      refine hafter.trans ((ih x.length (by simp) rfl).trans ?_)
      rw [List.reverse_cons, List.append_assoc]
      rfl
    | cons m ms =>
      have hm : First r before (c :: x ++ y) m := first_iff.2 ⟨ms, hrun⟩
      have hne := hr.nonempty (List.mem_of_head? hm)
      have hafter := fun z => foundAt_after (x := z) (p := .found m) hne (pieces_first hm hne)
      have hpre : m.text <+: c :: x ++ y := ⟨m.rest, hm.text⟩
      rcases Nat.lt_or_ge (c :: x).length m.text.length with hlt | hle
      · -- the place is inside the match
        obtain ⟨z, hz⟩ :=
          List.prefix_of_prefix_length_le (List.prefix_append _ y) hpre (Nat.le_of_lt hlt)
        have hy : y = z ++ m.rest := by
          have htext := hm.text
          rw [← hz, List.append_assoc] at htext
          exact (List.append_cancel_left htext).symm
        have hz' : z ≠ [] := by
          rintro rfl
          rw [← hz, List.append_nil] at hlt
          exact Nat.lt_irrefl _ hlt
        have hinside := hr.inside (List.mem_of_head? hm) hz.symm (by simp) hz'
        rw [← hy] at hinside
        refine iff_of_false ?_ (not_not_intro hinside)
        rintro ⟨ps, m', qs, hps, hx⟩
        rw [pieces_first hm hne] at hps
        cases ps with
        | nil => cases hx
        | cons q ps =>
          obtain rfl := (List.cons.inj hps).1
          have hlength := congrArg List.length hx
          rw [List.flatMap_cons, List.length_append] at hlength
          simp only [Piece.text] at hlength
          omega
      · -- the match ends before the place
        obtain ⟨z, hz⟩ := List.prefix_of_prefix_length_le hpre (List.prefix_append _ y) hle
        have hrest : m.rest = z ++ y := by
          have htext := hm.text
          rw [← hz, List.append_assoc] at htext
          exact List.append_cancel_left htext
        have hlength := congrArg List.length hz
        rw [List.length_append] at hlength
        have hpos := List.length_pos_iff.2 hne
        have hafter := hafter z
        rw [hrest, ← hz] at hafter
        rw [← hz]
        refine hafter.trans ((ih z.length (by omega) rfl).trans ?_)
        rw [List.reverse_append, List.append_assoc]

theorem subFirst_append {f : Match → List Char} {text : List Char} {ps : List Piece} :
    subFirst f (text.map .char ++ ps) = text ++ subFirst f ps := by
  induction text with
  | nil => rfl
  | cons c text ih =>
    rw [List.map_cons, List.cons_append, subFirst, ih]
    rfl

/-- Replace the first match: the text before it is kept, and so is what comes after. -/
theorem subOne_first {f : Match → List Char} {text : List Char}
    (htext : ∀ c ∈ text, ∀ before after, run r before (c :: after) = [])
    (h : First r text.reverse after m) (hm : m.text ≠ []) :
    subOne r f (text ++ after) = text ++ f m ++ m.rest := by
  have h' : First r (text.reverse ++ []) after m := by rwa [List.append_nil]
  rw [subOne, pieces_append htext, pieces_first h' hm, subFirst_append, subFirst, pieces_text,
    List.drop_zero, List.append_assoc]

theorem search_eq_none {text : List Char}
    (htext : ∀ c ∈ text, ∀ before after, run r before (c :: after) = []) :
    search r text = none := by
  have hpieces : pieces r 0 [] (text ++ []) = _ := pieces_append htext
  rw [List.append_nil] at hpieces
  rw [search, finditer, hpieces, pieces, List.append_nil, List.filterMap_map]
  have hnone : (Piece.match? ∘ Piece.char) = fun _ => none := rfl
  rw [hnone, List.filterMap_none]
  rfl

theorem search_first {text : List Char}
    (htext : ∀ c ∈ text, ∀ before after, run r before (c :: after) = [])
    (h : First r text.reverse after m) (hm : m.text ≠ []) : search r (text ++ after) = some m := by
  have h' : First r (text.reverse ++ []) after m := by rwa [List.append_nil]
  have hnone : (Piece.match? ∘ Piece.char) = fun _ => none := rfl
  rw [search, finditer, pieces_append htext, pieces_first h' hm, List.filterMap_append,
    List.filterMap_map, hnone, List.filterMap_none]
  rfl

end

end Regex
