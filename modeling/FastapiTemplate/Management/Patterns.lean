/-
  What the patterns of the dependency updater have in common.
-/
import FastapiTemplate.Foundation.Text
import FastapiTemplate.Lib.Regex
import Mathlib.Data.List.Infix
import Mathlib.Data.List.Lex

namespace FastapiTemplate.Management

open Regex

/-- `\d` -/
def digit : Regex := char Text.isDecimal

/-- `\s*` -/
def spaces : Regex := star true (char Text.isSpace)

/-- `[A-Za-z0-9_.-]` -/
def isNameChar (c : Char) : Bool := c.isAlphanum || c == '_' || c == '.' || c == '-'

/-- `_VERSION_PREFIX_RE`: `(?P<release>\d+(?:\.\d+)*)` -/
def VERSION_PREFIX_RE : Regex :=
  group "release" (concat [plus digit, star true (concat [lit ['.'], plus digit])])

/-- The numbers of the release that a version starts with. -/
def releaseNumbers (version : List Char) : Option (List ℕ) :=
  (VERSION_PREFIX_RE.match? version).map fun m => ((m.group "release").splitOn '.').map Text.int

end FastapiTemplate.Management
