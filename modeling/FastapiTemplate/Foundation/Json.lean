/-
  JSON values.
-/
import Mathlib.Data.Int.Notation
import Mathlib.Data.Nat.Notation

namespace FastapiTemplate

/-- `float`: a finite one is `mantissa * 2 ^ exponent`, with a sign. -/
inductive PyFloat where
  | finite (negative : Bool) (mantissa : ℕ) (exponent : ℤ)
  | infinity (negative : Bool)
  | nan

/-- JSON values, as `json` reads and writes them. -/
inductive Json where
  | null
  | bool (b : Bool)
  | int (n : ℤ)
  | float (x : PyFloat)
  | str (s : String)
  | arr (items : List Json)
  | obj (entries : List (String × Json))

namespace Json

/-- The entries of a `dict`. -/
def asDict : Json → Option (List (String × Json))
  | obj entries => some entries
  | _ => none

/-- The characters of a `str`. -/
def asStr : Json → Option (List Char)
  | str s => some s.toList
  | _ => none

end Json

end FastapiTemplate
