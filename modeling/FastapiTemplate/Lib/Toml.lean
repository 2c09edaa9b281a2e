/-
  Reading TOML, as `tomllib.loads` does.

  Some of the basic strings of a text may be marked: a mark stands for a whole
  string, quotes included, whose content is left open.  A text without marks is
  read as it is; with a mark anywhere but in the place of a value there is no
  reading.  The messages of `TOMLDecodeError` are left out.
-/
import FastapiTemplate.Lib.Regex

namespace Toml

variable {α : Type}

/-- A symbol of a text. -/
inductive Sym (α : Type) where
  | char (c : Char)
  | mark (a : α)

/-- A text without marks. -/
def chars (s : List Char) : List (Sym α) := s.map .char

/-- A value; a truth value, a number, a date or a time is what it is written as. -/
inductive Value (α : Type) where
  | string (s : List Char)
  | mark (a : α)
  | scalar (s : List Char)
  | array (items : List (Value α))
  | table (entries : List (List Char × Value α))

/-- A `dict`, in the order of insertion. -/
abbrev Table (α : Type) := List (List Char × Value α)

/-- The parts of a dotted key. -/
abbrev Key := List (List Char)

/-- What a function reads at the beginning of a text, and the text after it. -/
abbrev Reading (α ρ : Type) := Option (ρ × List (Sym α))

/-- The text that is read begins with these characters. -/
def prepend (s : List Char) (r : Reading α (List Char)) : Reading α (List Char) :=
  r.map fun (t, m) => (s ++ t, m)

/-! ## Characters -/

/-- `TOML_WS` -/
def isWs (c : Char) : Bool := c == ' ' || c == '\t'

/-- `TOML_WS_AND_NEWLINE` -/
def isWsOrNewline (c : Char) : Bool := isWs c || c == '\n'

/-- `BARE_KEY_CHARS` -/
def isBareKeyChar (c : Char) : Bool := c.isAlphanum || c == '-' || c == '_'

/-- `ILLEGAL_BASIC_STR_CHARS`, which are those of comments too, and
    `ILLEGAL_MULTILINE_BASIC_STR_CHARS` -/
def isIllegal (multiline : Bool) (c : Char) : Bool :=
  (c.toNat < 32 || c.toNat == 127) && c != '\t' && !(multiline && c == '\n')

/-- `HEXDIGIT_CHARS` -/
def isHexDigit (c : Char) : Bool :=
  c.isDigit || ('a' ≤ c && c ≤ 'f') || ('A' ≤ c && c ≤ 'F')

/-- Whether the next symbol is the character. -/
def isNext (c : Char) : List (Sym α) → Bool
  | .char d :: _ => d == c
  | _ => false

def Sym.satisfies (p : Char → Bool) : Sym α → Bool
  | .char c => p c
  | .mark _ => false

/-- `skip_chars` -/
def skipChars (p : Char → Bool) (m : List (Sym α)) : List (Sym α) := m.dropWhile (Sym.satisfies p)

/-- The characters up to the first mark. -/
def leading : List (Sym α) → List Char
  | .char c :: m => c :: leading m
  | _ => []

/-- The comment up to the end of its line. -/
def skipLine : List (Sym α) → Option (List (Sym α))
  | [] => some []
  | .char c :: m =>
    if c = '\n' then some (.char c :: m) else if isIllegal false c then none else skipLine m
  | .mark _ :: _ => none

/-- `skip_comment` -/
def skipComment (m : List (Sym α)) : Option (List (Sym α)) :=
  if isNext '#' m then skipLine m.tail else some m

/-- `skip_comments_and_array_ws`; `comment` when a comment has begun. -/
def skipCommentsAndArrayWs (comment : Bool) : List (Sym α) → Option (List (Sym α))
  | [] => some []
  | .mark a :: m => if comment then none else some (.mark a :: m)
  | .char c :: m =>
    if comment then
      if c = '\n' then skipCommentsAndArrayWs false m
      else if isIllegal false c then none
      else skipCommentsAndArrayWs true m
    else if isWsOrNewline c then skipCommentsAndArrayWs false m
    else if c = '#' then skipCommentsAndArrayWs true m
    else some (.char c :: m)

/-! ## Strings -/

/-- `parse_literal_str`, after the apostrophe -/
def parseLiteralStr : List (Sym α) → Reading α (List Char)
  | .char c :: m =>
    if c = '\'' then some ([], m) else if isIllegal false c then none else prepend [c]
      (parseLiteralStr m)
  | _ => none

/-- The literal string up to `'''`. -/
def parseMultilineLiteral : List (Sym α) → Reading α (List Char)
  | .char c :: m =>
    if c = '\'' ∧ isNext '\'' m ∧ isNext '\'' m.tail then some ([], m.tail.tail)
    else if isIllegal true c then none
    else prepend [c] (parseMultilineLiteral m)
  | _ => none

/-- `BASIC_STR_ESCAPE_REPLACEMENTS` -/
def escapeReplacement : Char → Option Char
  | 'b' => some (Char.ofNat 8)
  | 't' => some '\t'
  | 'n' => some '\n'
  | 'f' => some (Char.ofNat 12)
  | 'r' => some '\r'
  | '"' => some '"'
  | '\\' => some '\\'
  | _ => none

def hexValue (c : Char) : ℕ :=
  if c.isDigit then c.toNat - 48 else if c.isLower then c.toNat - 87 else c.toNat - 55

/-- `parse_hex_char` -/
def parseHexChar (digits : List Char) : Option Char :=
  let n := digits.foldl (fun n c => 16 * n + hexValue c) 0
  if digits.all isHexDigit ∧ n.isValidChar then some (Char.ofNat n) else none

/-- Where `parse_basic_str` is: in the text of the string, skipping white space or not, after a
    backslash, among the digits of an escape, or before the end of a line that ends with a
    backslash. -/
inductive Place where
  | text (skipping : Bool)
  | escape
  | hex (missing : ℕ) (digits : List Char)
  | lineEnd

/-- `parse_basic_str`, with `parse_basic_str_escape` -/
def parseBasicStr (multiline : Bool) : Place → List (Sym α) → Reading α (List Char)
  | .text skipping, .char c :: m =>
    if skipping ∧ isWsOrNewline c then parseBasicStr multiline (.text true) m
    else if c = '"' then
      if multiline = false then some ([], m)
      else if isNext '"' m ∧ isNext '"' m.tail then some ([], m.tail.tail)
      else prepend ['"'] (parseBasicStr multiline (.text false) m)
    else if c = '\\' then parseBasicStr multiline .escape m
    else if isIllegal multiline c then none
    else prepend [c] (parseBasicStr multiline (.text false) m)
  | .escape, .char c :: m =>
    if multiline ∧ isWs c then parseBasicStr multiline .lineEnd m
    else if multiline ∧ c = '\n' then parseBasicStr multiline (.text true) m
    else if c = 'u' then parseBasicStr multiline (.hex 4 []) m
    else if c = 'U' then parseBasicStr multiline (.hex 8 []) m
    else (escapeReplacement c).bind fun e => prepend [e] (parseBasicStr multiline (.text false) m)
  | .hex missing digits, .char c :: m =>
    if missing = 1 then
      (parseHexChar (digits ++ [c])).bind fun e =>
        prepend [e] (parseBasicStr multiline (.text false) m)
    else parseBasicStr multiline (.hex (missing - 1) (digits ++ [c])) m
  | .lineEnd, .char c :: m =>
    if isWs c then parseBasicStr multiline .lineEnd m
    else if c = '\n' then parseBasicStr multiline (.text true) m
    else none
  | _, _ => none

/-- The quotes that a string in triple quotes ends with, up to two of them beside the closing
    ones. -/
def closeMultiline (delim : Char) (r : Reading α (List Char)) : Reading α (List Char) :=
  r.bind fun (s, m) =>
    match m with
    | .char c :: m' =>
      if c = delim then
        match m' with
        | .char c' :: m'' =>
          if c' = delim then some (s ++ [delim, delim], m'') else some (s ++ [delim], m')
        | .mark _ :: _ => none
        | [] => some (s ++ [delim], [])
      else some (s, m)
    | .mark _ :: _ => none
    | [] => some (s, [])

/-- `parse_multiline_str`, after the quotes -/
def parseMultilineStr (literal : Bool) (m : List (Sym α)) : Reading α (List Char) :=
  let m := if isNext '\n' m then m.tail else m
  if literal then closeMultiline '\'' (parseMultilineLiteral m)
  else closeMultiline '"' (parseBasicStr true (.text false) m)

/-! ## Keys -/

/-- `parse_key_part` -/
def parseKeyPart : List (Sym α) → Reading α (List Char)
  | .char c :: m =>
    if isBareKeyChar c then
      some ((leading (.char c :: m)).takeWhile isBareKeyChar,
        skipChars isBareKeyChar (.char c :: m))
    else if c = '\'' then parseLiteralStr m
    else if c = '"' then parseBasicStr false (.text false) m
    else none
  | _ => none

/-- `parse_key`; there are at most as many parts as symbols. -/
def parseKey : ℕ → List (Sym α) → Reading α Key
  | 0, _ => none
  | n + 1, m =>
    (parseKeyPart m).bind fun (part, m) =>
      let m := skipChars isWs m
      if isNext '.' m then (parseKey n (skipChars isWs m.tail)).map fun (key, m) => (part :: key, m)
      else some ([part], m)

/-! ## Numbers, dates and times -/

section
open Regex

def isSign (c : Char) : Bool := c == '+' || c == '-'

/-- Digits that may be grouped with underscores. -/
def grouped (first p : Char → Bool) : Regex :=
  seq (char first) (star true (seq (opt (lit ['_'])) (char p)))

/-- `RE_NUMBER` -/
def RE_NUMBER : Regex :=
  alt
    (seq (lit ['0']) (anyOf [seq (lit ['x']) (grouped isHexDigit isHexDigit),
      seq (lit ['b']) (grouped (fun c => c == '0' || c == '1') fun c => c == '0' || c == '1'),
      seq (lit ['o']) (grouped (fun c => '0' ≤ c && c ≤ '7') fun c => '0' ≤ c && c ≤ '7')]))
    (concat [opt (char isSign),
      alt (lit ['0']) (grouped (fun c => '1' ≤ c && c ≤ '9') Char.isDigit),
      opt (seq (lit ['.']) (grouped Char.isDigit Char.isDigit)),
      opt (concat [char fun c => c == 'e' || c == 'E', opt (char isSign),
      grouped Char.isDigit Char.isDigit])])

/-- Two digits, the first of them at most as large as given. -/
def twoDigits (largest : Char) : Regex :=
  seq (char fun c => '0' ≤ c && c ≤ largest) (char Char.isDigit)

/-- `([01][0-9]|2[0-3])` -/
def hour : Regex := alt (twoDigits '1') (seq (lit ['2']) (char fun c => '0' ≤ c && c ≤ '3'))

/-- `RE_LOCALTIME`, which is `_TIME_RE_STR` -/
def RE_LOCALTIME : Regex :=
  concat [hour, lit [':'], twoDigits '5', lit [':'], twoDigits '5',
    opt (seq (lit ['.']) (plus (char Char.isDigit)))]

/-- `RE_DATETIME` -/
def RE_DATETIME : Regex :=
  concat [times (char Char.isDigit) 4, lit ['-'],
    alt (seq (lit ['0']) (char fun c => '1' ≤ c && c ≤ '9'))
      (seq (lit ['1']) (char fun c => '0' ≤ c && c ≤ '2')),
    lit ['-'],
    anyOf [seq (lit ['0']) (char fun c => '1' ≤ c && c ≤ '9'),
      seq (char fun c => c == '1' || c == '2') (char Char.isDigit),
      seq (lit ['3']) (char fun c => c == '0' || c == '1')],
    opt (concat [char fun c => c == 'T' || c == 't' || c == ' ', RE_LOCALTIME,
      opt (alt (char fun c => c == 'Z' || c == 'z')
        (concat [char isSign, hour, lit [':'], twoDigits '5']))])]

end

def decimal (digits : List Char) : ℕ := digits.foldl (fun n c => 10 * n + (c.toNat - 48)) 0

def daysInMonth (year month : ℕ) : ℕ :=
  if month = 2 then if year % 4 = 0 ∧ (year % 100 ≠ 0 ∨ year % 400 = 0) then 29 else 28
  else if month = 4 ∨ month = 6 ∨ month = 9 ∨ month = 11 then 30
  else 31

/-- Whether `match_to_datetime` gives a date for the text. -/
def isDate (s : List Char) : Bool :=
  let year := decimal (s.take 4)
  1 ≤ year && decimal ((s.drop 8).take 2) ≤ daysInMonth year (decimal ((s.drop 5).take 2))

/-- The truth value, date, time or number at the beginning of a text (the last part of
    `parse_value`). -/
def parseScalar (s : List Char) : Option (List Char) :=
  match ["true".toList, "false".toList].find? (·.isPrefixOf s) with
  | some word => some word
  | none =>
    match RE_DATETIME.match? s with
    | some m => if isDate m.text then some m.text else none
    | none =>
      match RE_LOCALTIME.match? s with
      | some m => some m.text
      | none =>
        match RE_NUMBER.match? s with
        | some m => some m.text
        | none => ["inf".toList, "nan".toList, "-inf".toList, "+inf".toList, "-nan".toList,
          "+nan".toList].find?
            (·.isPrefixOf s)

/-! ## Tables -/

namespace Table

def get? (t : Table α) (k : List Char) : Option (Value α) := t.lookup k

/-- `t[k] = v` -/
def set (t : Table α) (k : List Char) (v : Value α) : Table α :=
  match t with
  | [] => [(k, v)]
  | (k', v') :: t => if k' = k then (k, v) :: t else (k', v') :: set t k v

/-- Change the table behind a key as `f` says (`get_or_create_nest`); behind an array stands its
    last table. -/
def atNest (accessLists : Bool) (f : Table α → Option (Table α)) : Key → Table α → Option (Table α)
  | [], t => f t
  | k :: key, t =>
    match (t.get? k).getD (.table []) with
    | .table t' => (atNest accessLists f key t').map fun t' => t.set k (.table t')
    | .array items =>
      match accessLists, items.getLast? with
      | true, some (.table t') =>
        (atNest accessLists f key t').map fun t' => t.set k (.array (items.dropLast ++ [.table t']))
      | _, _ => none
    | _ => none

/-- `nest[key_stem] = value`, when there is none. -/
def add (stem : List Char) (v : Value α) (t : Table α) : Option (Table α) :=
  if (t.get? stem).isSome then none else some (t.set stem v)

/-- `append_nest_to_list` in the nest of the key. -/
def appendNest (stem : List Char) (t : Table α) : Option (Table α) :=
  match t.get? stem with
  | none => some (t.set stem (.array [.table []]))
  | some (.array items) => some (t.set stem (.array (items ++ [.table []])))
  | some _ => none

end Table

/-- A flag of a namespace. -/
inductive Flag where
  | frozen
  | explicitNest
  deriving DecidableEq

/-- `Flags`: the namespaces with their flags, and whether a flag holds below the namespace too. -/
abbrev Flags := List (Key × Flag × Bool)

namespace Flags

/-- `is_` -/
def has (flags : Flags) (key : Key) (flag : Flag) : Bool :=
  flags.any fun (k, f, recursive) => f == flag && (k == key || recursive && k.isPrefixOf key)

/-- `unset_all` -/
def unsetAll (flags : Flags) (key : Key) : Flags := flags.filter fun (k, _, _) => !key.isPrefixOf k

end Flags

/-- Whether the value is a table or an array. -/
def Value.isNest : Value α → Bool
  | .array _ => true
  | .table _ => true
  | _ => false

/-! ## Values -/

section
variable (value : List (Sym α) → Reading α (Value α))

/-- `parse_key_value_pair` -/
def parseKeyValuePair (m : List (Sym α)) : Reading α (Key × Value α) :=
  (parseKey m.length m).bind fun (key, m) =>
    if isNext '=' m then (value (skipChars isWs m.tail)).map fun (v, m) => ((key, v), m) else none

/-- The loop of `parse_array`; there are at most as many rounds as symbols. -/
def parseItems : ℕ → List (Sym α) → Reading α (List (Value α))
  | 0, _ => none
  | n + 1, m =>
    (value m).bind fun (v, m) =>
      (skipCommentsAndArrayWs false m).bind fun m =>
        if isNext ']' m then some ([v], m.tail)
        else if isNext ',' m then
          (skipCommentsAndArrayWs false m.tail).bind fun m =>
            if isNext ']' m then some ([v], m.tail)
            else (parseItems n m).map fun (vs, m) => (v :: vs, m)
        else none

/-- `parse_array`, after the bracket -/
def parseArray (m : List (Sym α)) : Reading α (Value α) :=
  (skipCommentsAndArrayWs false m).bind fun m =>
    if isNext ']' m then some (.array [], m.tail)
    else (parseItems value m.length m).map fun (vs, m) => (.array vs, m)

/-- The loop of `parse_inline_table`; there are at most as many rounds as symbols. -/
def parsePairs : ℕ → Table α → Flags → List (Sym α) → Reading α (Table α)
  | 0, _, _, _ => none
  | n + 1, t, flags, m =>
    (parseKeyValuePair value m).bind fun ((key, v), m) =>
      if flags.has key .frozen then none
      else
        (t.atNest false (Table.add (key.getLastD []) v) key.dropLast).bind fun t =>
          let m := skipChars isWs m
          if isNext '}' m then some (t, m.tail)
          else if isNext ',' m then
            parsePairs n t (if v.isNest then (key, .frozen, true) :: flags else flags)
              (skipChars isWs m.tail)
          else none

/-- `parse_inline_table`, after the brace -/
def parseInlineTable (m : List (Sym α)) : Reading α (Value α) :=
  let m := skipChars isWs m
  if isNext '}' m then some (.table [], m.tail)
  else (parsePairs value m.length [] [] m).map fun (t, m) => (.table t, m)

end

/-- Whether a quote comes next: marks begin with one. -/
def quoteNext : List (Sym α) → Bool
  | .char c :: _ => c == '"'
  | .mark _ :: _ => true
  | [] => false

/-- `parse_value`; values are nested at most as deep as there are symbols. -/
def parseValue : ℕ → List (Sym α) → Reading α (Value α)
  | 0, _ => none
  | n + 1, .char c :: m =>
    if c = '"' then
      -- an empty string, unless a third quote follows
      if isNext '"' m ∧ quoteNext m.tail then
        if isNext '"' m.tail then (parseMultilineStr false m.tail.tail).map fun (s, m) =>
          (.string s, m) else none
      else (parseBasicStr false (.text false) m).map fun (s, m) => (.string s, m)
    else if c = '\'' then
      if isNext '\'' m ∧ isNext '\'' m.tail then
        (parseMultilineStr true m.tail.tail).map fun (s, m) => (.string s, m)
      else (parseLiteralStr m).map fun (s, m) => (.string s, m)
    else if c = '[' then parseArray (parseValue n) m
    else if c = '{' then parseInlineTable (parseValue n) m
    else (parseScalar (leading (.char c :: m))).map fun s =>
      (.scalar s, (.char c :: m).drop s.length)
  | _ + 1, .mark a :: m => if quoteNext m then none else some (.mark a, m)
  | _ + 1, [] => none

/-! ## Statements -/

/-- What has been read: the data, the flags of the namespaces, those that wait for the next header,
    and the header that the statements stand under. -/
structure Output (α : Type) where
  data : Table α
  flags : Flags
  pending : Flags
  header : Key

/-- `create_dict_rule` -/
def createDictRule (out : Output α) (m : List (Sym α)) : Reading α (Output α) :=
  (parseKey m.length (skipChars isWs m.tail)).bind fun (key, m) =>
    if out.flags.has key .explicitNest ∨ out.flags.has key .frozen then none
    else
      (out.data.atNest true some key).bind fun data =>
        if isNext ']' m then
          some (⟨data, (key, .explicitNest, false) :: out.flags, out.pending, key⟩, m.tail)
        else none

/-- `create_list_rule` -/
def createListRule (out : Output α) (m : List (Sym α)) : Reading α (Output α) :=
  (parseKey m.length (skipChars isWs m.tail.tail)).bind fun (key, m) =>
    if out.flags.has key .frozen then none
    else
      (out.data.atNest true (Table.appendNest (key.getLastD [])) key.dropLast).bind fun data =>
        if isNext ']' m ∧ isNext ']' m.tail then
          some (⟨data, (key, .explicitNest, false) :: out.flags.unsetAll key, out.pending, key⟩,
            m.tail.tail)
        else none

/-- `key_value_rule` -/
def keyValueRule (out : Output α) (m : List (Sym α)) : Reading α (Output α) :=
  (parseKeyValuePair (parseValue m.length) m).bind fun ((key, v), m) =>
    let containers := key.dropLast.inits.tail.map (out.header ++ ·)
    if containers.any (out.flags.has · .explicitNest) ∨
      out.flags.has (out.header ++ key.dropLast) .frozen then none
    else
      (out.data.atNest true (Table.add (key.getLastD []) v) (out.header ++ key.dropLast)).map
        fun data =>
        (⟨data, if v.isNest then (out.header ++ key, .frozen, true) :: out.flags else out.flags,
          containers.map (·, .explicitNest, false) ++ out.pending, out.header⟩, m)

/-- One statement, after the white space before it. -/
def statement (out : Output α) (m : List (Sym α)) : Reading α (Output α) :=
  if isNext '[' m then
    let out := { out with flags := out.pending ++ out.flags, pending := [] }
    if isNext '[' m.tail then createListRule out m else createDictRule out m
  else if isNext '#' m then some (out, m)
  else keyValueRule out m

/-- The loop of `loads`; there are at most as many rounds as symbols. -/
def statements : ℕ → Output α → List (Sym α) → Option (Table α)
  | 0, _, _ => none
  | n + 1, out, m =>
    let m := skipChars isWs m
    if m.isEmpty then some out.data
    else if isNext '\n' m then statements n out m.tail
    else
      (statement out m).bind fun (out, m) =>
        (skipComment (skipChars isWs m)).bind fun m =>
          if m.isEmpty then some out.data else if isNext '\n' m then statements n out m.tail
            else none

/-- `src.replace("\r\n", "\n")` -/
def dropReturns : List (Sym α) → List (Sym α)
  | [] => []
  | .char c :: m => if c = '\r' ∧ isNext '\n' m then dropReturns m else .char c :: dropReturns m
  | .mark a :: m => .mark a :: dropReturns m

/-- `loads` -/
def loads (m : List (Sym α)) : Option (Table α) :=
  let src := dropReturns m
  statements (src.length + 1) ⟨[], [], [], []⟩ src

end Toml
