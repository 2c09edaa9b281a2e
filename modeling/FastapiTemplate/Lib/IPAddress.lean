/-
  IPv4 and IPv6 addresses: reading them (`ipaddress.ip_address`), and writing
  them in the canonical form (`str`), which is read as the same address
  (`parse_text`).
-/
import FastapiTemplate.Lib.Spans

namespace IPAddress

/-! ## IPv4 -/

/-- An IPv4 address: four octets. -/
structure IPv4Address where
  a : Fin 256
  b : Fin 256
  c : Fin 256
  d : Fin 256
  deriving DecidableEq

/-- A number in decimal digits. -/
def decimalText (n : ℕ) : List Char := Nat.toDigits 10 n

/-- `_parse_octet` -/
def parseOctet (s : List Char) : Option (Fin 256) :=
  if s = [] || !s.all Char.isDigit || 3 < s.length then none
  else if s ≠ ['0'] && s.head? = some '0' then none
  else
    let n := Nat.ofDigitChars 10 s 0
    if h : n < 256 then some ⟨n, h⟩ else none

/-- `IPv4Address(s)` -/
def parseIPv4 (s : List Char) : Option IPv4Address :=
  if '/' ∈ s then none
  else
    match s.splitOn '.' with
    | [a, b, c, d] => do return ⟨← parseOctet a, ← parseOctet b, ← parseOctet c, ← parseOctet d⟩
    | _ => none

/-- `str(address)` -/
def IPv4Address.text (x : IPv4Address) : List Char :=
  ['.'].intercalate [decimalText x.a, decimalText x.b, decimalText x.c, decimalText x.d]

/-! ## IPv6 -/

abbrev Hextet := Fin 65536

instance neZero_hextets : @NeZero ℕ Zero.ofOfNat0 65536 := ⟨Nat.succ_ne_zero 65535⟩

/-- What may stand after the `%` of an address. -/
def IsScopeId (s : List Char) : Prop := s ≠ [] ∧ '%' ∉ s ∧ '/' ∉ s

instance : DecidablePred IsScopeId :=
  fun s => inferInstanceAs (Decidable (s ≠ [] ∧ '%' ∉ s ∧ '/' ∉ s))

/-- An IPv6 address: eight hextets, and the identifier of a scope. -/
structure IPv6Address where
  hextets : List Hextet
  length : hextets.length = 8
  scopeId : Option (List Char)
  scope_ok : ∀ s ∈ scopeId, IsScopeId s

/-- A number in hexadecimal digits. -/
def hexText (n : ℕ) : List Char := Nat.toDigits 16 n

/-- The value of a hexadecimal digit. -/
def hexDigit (c : Char) : Option ℕ :=
  if c.isDigit then some (c.toNat - '0'.toNat)
  else if 'a' ≤ c && c ≤ 'f' then some (c.toNat - 'a'.toNat + 10)
  else if 'A' ≤ c && c ≤ 'F' then some (c.toNat - 'A'.toNat + 10)
  else none

/-- The value of hexadecimal digits after those with the value `n`. -/
def readHex (n : ℕ) : List Char → Option ℕ
  | [] => some n
  | c :: s => (hexDigit c).bind fun d => readHex (16 * n + d) s

/-- `_parse_hextet` -/
def parseHextet (s : List Char) : Option Hextet :=
  if s = [] || 4 < s.length then none
  else (readHex 0 s).bind fun n => if h : n < 65536 then some ⟨n, h⟩ else none

/-- The parts before and after `::`, and the number of hextets that it stands for. -/
def locateSkip (first : List Char) (middle : List (List Char)) (last : List Char) :
    Option (List (List Char) × ℕ × List (List Char)) :=
  match middle.dropWhile (· ≠ []) with
  | [] =>
    -- no `::`
    if middle.length + 2 ≠ 8 || first = [] || last = [] then none
    else some (first :: middle ++ [last], 0, [])
  | _ :: low =>
    let high := middle.takeWhile (· ≠ [])
    if low.any (· = []) then none
    else if first = [] && high ≠ [] || last = [] && low ≠ [] then none
    else
      let partsHi := if first = [] then [] else first :: high
      let partsLo := if last = [] then [] else low ++ [last]
      let skipped := 8 - (partsHi.length + partsLo.length)
      if skipped < 1 then none else some (partsHi, skipped, partsLo)

/-- The parts between the colons; an IPv4 address at the end becomes two of them. -/
def expandIPv4 (parts : List (List Char)) : Option (List (List Char)) :=
  match parts.getLast? with
  | none => none
  | some last =>
    if '.' ∈ last then
      (parseIPv4 last).map fun x =>
        parts.dropLast ++ [hexText (256 * x.a + x.b), hexText (256 * x.c + x.d)]
    else some parts

/-- `_ip_int_from_string`, as the hextets of the number. -/
def parseHextets (s : List Char) : Option (List Hextet) :=
  let parts := s.splitOn ':'
  if parts.length < 3 then none
  else do
    let parts ← expandIPv4 parts
    if 9 < parts.length then none
    else
      match parts with
      | [] => none
      | first :: rest => do
        let (partsHi, skipped, partsLo) ← locateSkip first rest.dropLast (rest.getLastD [])
        let high ← partsHi.mapM parseHextet
        let low ← partsLo.mapM parseHextet
        return high ++ List.replicate skipped 0 ++ low

/-- `_split_scope_id`: the address, and the identifier of the scope if there is one. -/
def splitScopeId (s : List Char) : Option (List Char × Option (List Char)) :=
  match s.dropWhile (· ≠ '%') with
  | [] => some (s, none)
  | _ :: scopeId =>
    if scopeId = [] || '%' ∈ scopeId then none else some (s.takeWhile (· ≠ '%'), some scopeId)

/-- `IPv6Address(s)` -/
def parseIPv6 (s : List Char) : Option IPv6Address :=
  if '/' ∈ s then none
  else do
    let (addr, scopeId) ← splitScopeId s
    let hextets ← parseHextets addr
    if h : hextets.length = 8 ∧ ∀ s ∈ scopeId, IsScopeId s then
      return ⟨hextets, h.1, scopeId, h.2⟩
    else none

/-- What the loop of `_compress_hextets` knows: how long the run of zeros at hand is, and where the
    longest run so far begins and how long it is. -/
structure ZeroRun where
  length : ℕ
  bestStart : ℕ
  bestLength : ℕ

/-- One round of the loop, for the hextet at an index. -/
def ZeroRun.next (run : ZeroRun) (index : ℕ) (hextet : Hextet) : ZeroRun :=
  if hextet = 0 then
    let length := run.length + 1
    if run.bestLength < length then ⟨length, index + 1 - length, length⟩
    else { run with length }
  else { run with length := 0 }

/-- The loop over the hextets from an index on. -/
def ZeroRun.scan : ZeroRun → ℕ → List Hextet → ZeroRun
  | run, _, [] => run
  | run, index, hextet :: hextets => (run.next index hextet).scan (index + 1) hextets

/-- `_compress_hextets` and the joining with colons. -/
def hextetsText (hextets : List Hextet) : List Char :=
  let run := ZeroRun.scan ⟨0, 0, 0⟩ 0 hextets
  let texts := hextets.map fun h : Hextet => hexText h
  if 1 < run.bestLength then
    let before := texts.take run.bestStart
    let after := texts.drop (run.bestStart + run.bestLength)
    [':'].intercalate ((if before = [] then [[]] else []) ++ before ++ [[]] ++ after ++
      if after = [] then [[]] else [])
  else [':'].intercalate texts

/-- `ipv4_mapped` -/
def ipv4Mapped : List Hextet → Option IPv4Address
  | [0, 0, 0, 0, 0, 65535, x, y] => some
      ⟨⟨x / 256, by omega⟩, ⟨x % 256, by omega⟩, ⟨y / 256, by omega⟩, ⟨y % 256, by omega⟩⟩
  | _ => none

/-- `str(address)` -/
def IPv6Address.text (x : IPv6Address) : List Char :=
  let address := match ipv4Mapped x.hextets with
    | none => hextetsText x.hextets
    | some y => hextetsText [0, 0, 0, 0, 0, 0, 0, 65535] ++ ':' :: y.text
  match x.scopeId with
  | none => address
  | some scopeId => address ++ '%' :: scopeId

/-! ## Both -/

/-- The addresses of either version. -/
inductive Address where
  | v4 (x : IPv4Address)
  | v6 (x : IPv6Address)

/-- `ip_address(s)`; `none` if it raises `ValueError`. -/
def parse (s : List Char) : Option Address :=
  (parseIPv4 s).map .v4 <|> (parseIPv6 s).map .v6

/-- `str(address)` -/
def Address.text : Address → List Char
  | v4 x => x.text
  | v6 x => x.text

end IPAddress
