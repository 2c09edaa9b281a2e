/-
  `urllib.parse.urlsplit`: the scheme and the path of a URL, for texts that it does not reject.
-/
import Mathlib.Data.List.Basic

namespace Url

/-- The characters that are removed wherever they stand. -/
def isRemoved (c : Char) : Bool := c == '\t' || c == '\r' || c == '\n'

/-- The text that is taken apart: nothing removed is in it, no control or space in front of it. -/
def clean (url : List Char) : List Char :=
  (url.dropWhile fun c => c.toNat ≤ 0x20).filter fun c => !isRemoved c

/-- The characters of schemes. -/
def isSchemeChar (c : Char) : Bool := c.isAlphanum || c == '+' || c == '-' || c == '.'

/-- What follows the scheme, if there is one. -/
def afterScheme (url : List Char) : List Char :=
  let scheme := url.takeWhile (· ≠ ':')
  match url.dropWhile (· ≠ ':') with
  | [] => url
  | _ :: rest => if scheme.head?.any Char.isAlpha && scheme.all isSchemeChar then rest else url

/-- `urlsplit(url).scheme` -/
def scheme (url : List Char) : List Char :=
  let url := clean url
  let scheme := url.takeWhile (· ≠ ':')
  if url.contains ':' && scheme.head?.any Char.isAlpha &&
    scheme.all isSchemeChar then scheme.map Char.toLower
  else []

/-- The characters that end the network location. -/
def isDelimiter (c : Char) : Bool := c == '/' || c == '?' || c == '#'

/-- What follows the network location, if there is one. -/
def afterNetloc : List Char → List Char
  | '/' :: '/' :: rest => rest.dropWhile fun c => !isDelimiter c
  | url => url

/-- The characters that end the path. -/
def endsPath (c : Char) : Bool := c == '?' || c == '#'

/-- `urlsplit(url).path` -/
def path (url : List Char) : List Char :=
  (afterNetloc (afterScheme (clean url))).takeWhile fun c => !endsPath c

/-- The characters that `quote_plus` keeps. -/
def isUnreserved (c : Char) : Bool := c.isAlphanum || c == '_' || c == '.' || c == '-' || c == '~'

/-- A byte as `%XX`. -/
def quoteByte (b : UInt8) : List Char :=
  let digit (n : ℕ) : Char := "0123456789ABCDEF".toList.getD n '0'
  ['%', digit (b.toNat / 16), digit (b.toNat % 16)]

/-- `quote_plus(text)` -/
def quotePlus (text : List Char) : List Char :=
  text.flatMap fun c =>
    if isUnreserved c then [c] else if c =
      ' ' then ['+'] else (String.utf8EncodeChar c).flatMap quoteByte

end Url
