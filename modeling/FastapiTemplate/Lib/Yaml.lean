/-
  Reading YAML: the marks and scalars of a text in block and flow style (`scanner`).

  An anchor or a tag is part of the plain text that it stands before, and the
  markers of documents are taken for plain scalars.
-/
import FastapiTemplate.Lib.Reader

namespace Yaml

def isBlank (c : Char) : Bool := c == ' ' || c == '\t' || c == '\r' || c == '\n'

inductive Style where
  | plain
  | single
  | double
  | block
  deriving DecidableEq

/-- What a text consists of: a line of a block collection with its indentation, a mark of a
    collection, and a scalar with the characters that follow it. -/
inductive Event where
  | line (column : ℕ)
  | mark (c : Char)
  | scalar (style : Style)
  | char (c : Char)
  deriving DecidableEq

def Event.isChar : Event → Bool
  | char _ => true
  | _ => false

/-- The text as characters of a scalar. -/
def chars (text : List Char) : List Event := text.map .char

theorem filter_chars (text : List Char) : (chars text).filter (fun e => !e.isChar) = [] := by
  rw [List.filter_eq_nil_iff]
  intro e he
  obtain ⟨c, -, rfl⟩ := List.mem_map.1 he
  simp [Event.isChar]

/-- What is being read.  `blanks` are kept until it is known whether the scalar goes on. -/
inductive Mode where
  | line (column : ℕ)
  | between
  | indicator (c : Char)
  | plain (blanks : List Char)
  | plainColon (blanks : List Char)
  | plainLine (column : ℕ)
  | single
  | singleQuote
  | double
  | escape
  | quoted
  | comment
  | header
  | blockLine (column : ℕ)
  | blockText
  deriving DecidableEq

/-- The state of the scanner: `depth` flow collections are open; on the line there have been only
    marks of block collections (`head`), and `column` is where the next thing stands, or where the
    first other thing stood; a scalar goes on over lines that are indented by `floor`. -/
structure Scan where
  mode : Mode
  head : Bool
  column : ℕ
  depth : ℕ
  floor : ℕ
  deriving DecidableEq

def isFlow (c : Char) : Bool := c == ',' || c == '[' || c == ']' || c == '{' || c == '}'

namespace Scan

/-- A mark is one only before a blank, or before a mark of a flow collection. -/
def ends (s : Scan) (c : Char) : Bool := isBlank c || (s.depth ≠ 0 && isFlow c)

/-- Count a column of the marks that a line begins with. -/
def advance (s : Scan) : Scan := if s.head then { s with column := s.column + 1 } else s

/-- A character between scalars and marks. -/
def begin (s : Scan) (c : Char) : Scan × List Event :=
  if c = '\n' then ({ s with mode := .line 0 }, [])
  else if isBlank c then ({ s.advance with mode := .between }, [])
  else if c = '#' then ({ s with mode := .comment }, [])
  else if c = '{' ∨ c = '[' then
    ({ s with mode := .between, head := false, depth := s.depth + 1 }, [.mark c])
  else if c = '}' ∨ c = ']' then ({ s with mode := .between, depth := s.depth - 1 }, [.mark c])
  else if c = ',' then ({ s with mode := .between }, [.mark c])
  else if c = '\'' then ({ s with mode := .single, head := false }, [.scalar .single])
  else if c = '"' then ({ s with mode := .double, head := false }, [.scalar .double])
  else if (c = '|' ∨ c = '>') ∧ s.depth = 0 then
    ({ s with mode := .header, head := false }, [.scalar .block])
  else if c = '-' ∨ c = '?' ∨ c = ':' then ({ s with mode := .indicator c }, [])
  else ({ s with mode := .plain [], head := false }, [.scalar .plain, .char c])

/-- After a mark of a block collection, what belongs to it is indented further. -/
def marked (s : Scan) (mark c : Char) : Scan × List Event :=
  let floor := if s.depth = 0 then s.column + 1 else s.floor
  let (s, events) := begin { s.advance with mode := .between, floor := floor } c
  (s, .mark mark :: events)

/-- A character in a plain scalar. -/
def plainChar (s : Scan) (blanks : List Char) (c : Char) : Scan × List Event :=
  if c = '\n' then ({ s with mode := .plainLine 0 }, [])
  else if isBlank c then ({ s with mode := .plain (blanks ++ [c]) }, [])
  else if c = '#' ∧ blanks ≠ [] then ({ s with mode := .comment }, [])
  else if c = ':' then ({ s with mode := .plainColon blanks }, [])
  else if s.depth ≠ 0 ∧ isFlow c then begin s c
  else ({ s with mode := .plain [] }, chars (blanks ++ [c]))

/-- The first character of a line that is no blank. -/
def startLine (s : Scan) (column : ℕ) (c : Char) : Scan × List Event :=
  if c = '#' then ({ s with mode := .comment }, [])
  else if s.depth ≠ 0 then begin s c
  else
    let (s, events) := begin { s with head := true, column := column } c
    (s, .line column :: events)

/-- A character after a quoted scalar. -/
def quotedChar (s : Scan) (c : Char) : Scan × List Event :=
  if c = ':' ∧ s.depth ≠ 0 then ({ s with mode := .between }, [.mark ':']) else begin s c

def step (s : Scan) (c : Char) : Scan × List Event :=
  match s.mode with
  | .line column =>
    if c = ' ' then ({ s with mode := .line (column + 1) }, [])
    else if c = '\n' then ({ s with mode := .line 0 }, [])
    else if isBlank c then (s, [])
    else s.startLine column c
  | .between => s.begin c
  | .indicator mark =>
    if s.ends c then s.marked mark c
    else
      let (s, events) := plainChar { s with mode := .plain [], head := false } [] c
      (s, .scalar .plain :: .char mark :: events)
  | .plain blanks => s.plainChar blanks c
  | .plainColon blanks =>
    if s.ends c then s.marked ':' c
    else
      let (s, events) := s.plainChar [] c
      (s, chars (blanks ++ [':']) ++ events)
  | .plainLine column =>
    if c = ' ' then ({ s with mode := .plainLine (column + 1) }, [])
    else if c = '\n' then ({ s with mode := .plainLine 0 }, [])
    else if s.depth ≠ 0 ∨ s.floor ≤ column then s.plainChar [' '] c
    else s.startLine column c
  | .single => if c = '\'' then ({ s with mode := .singleQuote }, []) else (s, [.char c])
  | .singleQuote =>
    if c = '\'' then ({ s with mode := .single }, [.char c]) else s.quotedChar c
  | .double =>
    if c = '"' then ({ s with mode := .quoted }, [])
    else if c = '\\' then ({ s with mode := .escape }, [.char c])
    else (s, [.char c])
  | .escape => ({ s with mode := .double }, [.char c])
  | .quoted => s.quotedChar c
  | .comment => if c = '\n' then ({ s with mode := .line 0 }, []) else (s, [])
  | .header => if c = '\n' then ({ s with mode := .blockLine 0 }, [.char c]) else (s, [.char c])
  | .blockLine column =>
    if c = ' ' then ({ s with mode := .blockLine (column + 1) }, [])
    else if c = '\n' then ({ s with mode := .blockLine 0 }, [.char c])
    else if s.floor ≤ column then
      ({ s with mode := .blockText }, chars (List.replicate column ' ' ++ [c]))
    else s.startLine column c
  | .blockText => if c = '\n' then ({ s with mode := .blockLine 0 }, [.char c]) else (s, [.char c])

end Scan

/-- The reader of marks and scalars. -/
def scanner : Reader Event where
  State := Scan
  start := ⟨.line 0, true, 0, 0, 1⟩
  step := Scan.step
  finish s := (s.step '\n').2

instance : DecidableEq scanner.State := inferInstanceAs (DecidableEq Scan)

end Yaml
