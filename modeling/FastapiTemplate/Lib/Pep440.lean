/-
  Versions and version clauses (PEP 440): reading them, their order, and which
  versions a clause admits.
-/
import FastapiTemplate.Lib.Regex
import Mathlib.Data.List.Lex
import Mathlib.Data.List.DropRight

namespace Pep440

open Regex

inductive PreTag where
  | a
  | b
  | rc
  deriving DecidableEq

/-- A version; a local label is a list of numbers and words, and empty if there is none. -/
structure Version where
  epoch : ℕ
  release : List ℕ
  pre : Option (PreTag × ℕ)
  post : Option ℕ
  dev : Option ℕ
  localLabel : List (ℕ ⊕ List Char)
  deriving DecidableEq

/-! ## Reading versions -/

def num : Regex := plus (char Char.isDigit)

def separator : Regex := char fun c => c == '-' || c == '_' || c == '.'

/-- One of the words. -/
def word : List String → Regex
  | [] => char fun _ => false
  | w :: ws => alt (lit w.toList) (word ws)

/-- A word with an optional number, and optional separators before them. -/
def labelled (label number : String) (words : List String) : Regex :=
  concat [opt separator, group label (word words), opt separator, opt (group number num)]

/-- The form of versions, in lower case. -/
def VERSION : Regex :=
  concat [opt (lit ['v']), opt (concat [group "epoch" num, lit ['!']]),
    group "release" (concat [num, star true (concat [lit ['.'], num])]),
    opt (labelled "pre_l" "pre_n" ["alpha", "a", "beta", "b", "preview", "pre", "c", "rc"]),
    opt (alt (concat [lit ['-'], group "post_n1" num])
      (labelled "post_l" "post_n2" ["post", "rev", "r"])),
    opt (labelled "dev_l" "dev_n" ["dev"]),
    opt (concat [lit ['+'], group "local"
      (concat [plus (char Char.isAlphanum),
        star true (concat [separator, plus (char Char.isAlphanum)])])])]

def readNum (digits : List Char) : ℕ := digits.foldl (fun n c => 10 * n + (c.toNat - 48)) 0

def readTag (label : List Char) : PreTag :=
  match label.head? with
  | some 'a' => .a
  | some 'b' => .b
  | _ => .rc

/-- The number of a label, which is zero if it is left out. -/
def readLabel (m : Match) (label number : String) : Option ℕ :=
  (m.group? label).map fun _ => readNum (m.group number)

def readPart (part : List Char) : ℕ ⊕ List Char :=
  if part.all Char.isDigit then .inl (readNum part) else .inr part

/-- Read a version. -/
def parse (s : List Char) : Option Version :=
  (VERSION.fullmatch? (s.map Char.toLower)).map fun m =>
    { epoch := readNum (m.group "epoch")
      release := ((m.group "release").splitOn '.').map readNum
      pre := (m.group? "pre_l").map fun l => (readTag l, readNum (m.group "pre_n"))
      post := (m.group? "post_n1").map readNum <|> readLabel m "post_l" "post_n2"
      dev := readLabel m "dev_l" "dev_n"
      localLabel := match m.group? "local" with
        | none => []
        | some l =>
          ((l.map fun c => if c == '-' || c == '_' then '.' else c).splitOn '.').map readPart }

/-! ## The order of versions -/

def PreTag.rank : PreTag → ℕ
  | a => 0
  | b => 1
  | rc => 2

def partKey : ℕ ⊕ List Char → List ℕ
  | .inl n => [1, n]
  | .inr s => 0 :: s.map Char.toNat

namespace Version

/-- The release without trailing zeros. -/
def trimmed (v : Version) : List ℕ := v.release.rdropWhile (· == 0)

/-- Where a version stands among those of its release, before post-releases are looked at: a
    development release without a pre-release comes first, a release without either last. -/
def preKey (v : Version) : List ℕ :=
  match v.pre, v.post, v.dev with
  | some (tag, n), _, _ => [1, tag.rank, n]
  | none, none, some _ => [0]
  | none, _, _ => [2]

def postKey (v : Version) : List ℕ :=
  match v.post with
  | none => [0]
  | some n => [1, n]

def devKey (v : Version) : List ℕ :=
  match v.dev with
  | some n => [0, n]
  | none => [1]

/-- Versions are ordered by these keys. -/
def key (v : Version) : List (List ℕ) :=
  [v.epoch] :: v.trimmed :: v.preKey :: v.postKey :: v.devKey :: v.localLabel.map partKey

instance : LE Version := ⟨fun v w => v.key ≤ w.key⟩
instance : LT Version := ⟨fun v w => v.key < w.key⟩
instance : DecidableLE Version := fun v w => inferInstanceAs (Decidable (v.key ≤ w.key))
instance : DecidableLT Version := fun v w => inferInstanceAs (Decidable (v.key < w.key))

@[refl] protected theorem le_refl (v : Version) : v ≤ v := le_refl v.key

/-- The version without its local label. -/
def withoutLocal (v : Version) : Version := { v with localLabel := [] }

def isPrerelease (v : Version) : Bool := v.pre.isSome || v.dev.isSome

def isPostrelease (v : Version) : Bool := v.post.isSome

/-- The epochs and the releases are the same. -/
def sameBase (v w : Version) : Bool := v.epoch = w.epoch && v.trimmed = w.trimmed

/-- The parts of a version, its release filled up with zeros to `n` numbers. -/
def parts (n : ℕ) (v : Version) : List (List ℕ) :=
  [0, v.epoch] :: v.release.map ([1, ·]) ++ List.replicate (n - v.release.length) [1, 0] ++
    (v.pre.map fun p => [2, p.1.rank, p.2]).toList ++ (v.post.map ([3, ·])).toList ++
    (v.dev.map ([4, ·])).toList

/-- `w.*` -/
def matchesPrefix (v w : Version) : Bool := (w.parts 0).isPrefixOf (v.parts w.release.length)

/-- Equal, where a local label counts only if `w` has one. -/
def agreesWith (v w : Version) : Bool :=
  (if w.localLabel = [] then v.withoutLocal else v).key = w.key

end Version

/-! ## Clauses -/

inductive Op where
  | compatible
  | equal
  | notEqual
  | lessEqual
  | greaterEqual
  | less
  | greater
  | arbitrary
  deriving DecidableEq

/-- A version clause: an operator and the text of a version. -/
structure Clause where
  op : Op
  version : List Char
  deriving DecidableEq

/-- The version before `.*`. -/
def wildcard (text : List Char) : Option Version :=
  if ".*".toList.isSuffixOf text then
    (parse (text.take (text.length - 2))).filter fun w => w.dev.isNone && w.localLabel = []
  else none

/-- `==` -/
def equals (v : Version) (text : List Char) : Option Bool :=
  match wildcard text with
  | some w => some (v.matchesPrefix w)
  | none => (parse text).map v.agreesWith

/-- An ordered comparison; its version has no local label. -/
def ordered (text : List Char) (compare : Version → Bool) : Option Bool :=
  ((parse text).filter fun w => w.localLabel = []).map compare

/-- Whether a clause admits the version; a clause that is not valid says nothing.  (`===` compares
    texts.) -/
def Clause.says (c : Clause) (text : List Char) (v : Version) : Option Bool :=
  match c.op with
  | .compatible => ordered c.version fun w => 2 ≤ w.release.length && w.withoutLocal ≤ v &&
      v.matchesPrefix { epoch := w.epoch, release := w.release.dropLast, pre := none, post := none,
                        dev := none, localLabel := [] }
  | .equal => equals v c.version
  | .notEqual => (equals v c.version).map (!·)
  | .lessEqual => ordered c.version fun w => v.withoutLocal ≤ w
  | .greaterEqual => ordered c.version fun w => w ≤ v.withoutLocal
  | .less => ordered c.version fun w =>
      v < w && !(!w.isPrerelease && v.isPrerelease && v.sameBase w)
  | .greater => ordered c.version fun w => w < v &&
      !(!w.isPostrelease && v.isPostrelease && v.sameBase w) &&
      !(v.localLabel ≠ [] && v.sameBase w)
  | .arbitrary => some (text.map Char.toLower = c.version.map Char.toLower)

/-- The version with this text satisfies the clause. -/
def Clause.admits (c : Clause) (text : List Char) : Bool :=
  (parse text).any fun v => c.says text v = some true

/-! ## The characters of versions -/

/-- A character of a version. -/
def isVersionChar (c : Char) : Bool :=
  c.isAlphanum || c == '-' || c == '_' || c == '.' || c == '+' || c == '!'

theorem only_word {ws : List String} (h : ∀ w ∈ ws, ∀ c ∈ w.toList, isVersionChar c = true) :
    (word ws).Only (isVersionChar · = true) := by
  induction ws with
  | nil => exact fun _ h => by cases h
  | cons w ws ih =>
    exact ⟨only_lit (h w (List.mem_cons_self ..)),
      ih fun w' hw' => h w' (List.mem_cons_of_mem _ hw')⟩

theorem only_num : num.Only (isVersionChar · = true) := by
  have hdigit : ∀ c : Char, c.isDigit = true → isVersionChar c = true := fun c hc => by
    simp [isVersionChar, Char.isAlphanum, hc]
  exact ⟨hdigit, hdigit⟩

theorem only_separator : separator.Only (isVersionChar · = true) := by
  intro c hc
  simp only [Bool.or_eq_true, beq_iff_eq] at hc
  rcases hc with (rfl | rfl) | rfl <;> rfl

theorem only_labelled {label number : String} {words : List String}
    (h : ∀ w ∈ words, ∀ c ∈ w.toList, isVersionChar c = true) :
    (labelled label number words).Only (isVersionChar · = true) :=
  ⟨⟨only_separator, trivial⟩, only_word h, ⟨only_separator, trivial⟩, only_num, trivial⟩

theorem only_version : VERSION.Only (isVersionChar · = true) := by
  have hlit : ∀ c, isVersionChar c = true → (lit [c]).Only (isVersionChar · = true) := fun c hc =>
    only_lit fun d hd => by rwa [List.mem_singleton.1 hd]
  have halnum : ∀ c : Char, c.isAlphanum = true → isVersionChar c = true := fun c hc => by
    simp [isVersionChar, hc]
  refine ⟨⟨hlit _ rfl, trivial⟩, ⟨⟨only_num, hlit _ rfl⟩, trivial⟩,
    ⟨only_num, hlit _ rfl, only_num⟩, ?_, ?_, ?_, ?_⟩
  · exact ⟨only_labelled (by decide), trivial⟩
  · exact ⟨⟨⟨hlit _ rfl, only_num⟩, only_labelled (by decide)⟩, trivial⟩
  · exact ⟨only_labelled (by decide), trivial⟩
  · exact ⟨⟨hlit _ rfl, ⟨halnum, halnum⟩, only_separator, halnum, halnum⟩, trivial⟩

/-- A version is not empty and has only such characters. -/
theorem chars_of_parse {s : List Char} {v : Version} (h : parse s = some v) :
    s ≠ [] ∧ ∀ c ∈ s, isVersionChar c = true := by
  obtain ⟨m, hm, -⟩ := Option.map_eq_some_iff.1 h
  have hmem := List.mem_of_find?_eq_some hm
  have hrest : m.rest = [] := by simpa using List.find?_some hm
  have htext := run_text hmem
  rw [hrest, List.append_nil] at htext
  constructor
  · rintro rfl
    have hnone : parse [] = none := by decide
    rw [hnone] at h
    cases h
  · intro c hc
    have hlower : isVersionChar c.toLower = true :=
      run_only only_version hmem c.toLower (htext ▸ List.mem_map_of_mem hc)
    by_cases hupper : c.isUpper = true
    · have halnum : c.isAlphanum = true := by
        show ((c.isUpper || c.isLower) || c.isDigit) = true
        rw [hupper]
        rfl
      simp [isVersionChar, halnum]
    · have hsame : c.toLower = c := dif_neg fun h => hupper (decide_eq_true h)
      rwa [hsame] at hlower

theorem parse_withoutLocal {v : Version} (h : v.localLabel = []) : v.withoutLocal = v := by
  unfold Version.withoutLocal
  rw [← h]

/-- A version is one of those from it on, unless it has a local label. -/
theorem admits_greaterEqual_self {text : List Char} :
    Clause.admits ⟨.greaterEqual, text⟩ text = true ↔ ∃ v, parse text = some v ∧ v.localLabel =
    [] := by
  unfold Clause.admits
  cases hv : parse text with
  | none => simp
  | some v =>
    simp only [Option.any_some, decide_eq_true_eq, Option.some.injEq, exists_eq_left', Clause.says,
      ordered, hv]
    by_cases hlocal : v.localLabel = []
    · have hle : v ≤ v.withoutLocal := by rw [parse_withoutLocal hlocal]
      simp [Option.filter, hlocal, hle]
    · simp [Option.filter, hlocal]

end Pep440
