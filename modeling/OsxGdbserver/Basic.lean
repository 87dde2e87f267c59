import Mathlib.Tactic.Common
import Mathlib.Data.FinEnum
import Mathlib.Data.UInt

/-!
# Types shared by all parts of the server

An address, `CORE_ADDR` in the source, is a `long long`; it is an `Int` here. A sum of
addresses that leaves the range of `long long` is undefined in C and is taken exactly.
-/

abbrev Byte := UInt8

/-- The conversion of a `long long` to `int`. -/
def toInt (x : Int) : Int := x.bmod (2 ^ 32)

theorem toInt_of_range {x : Int} (lo : 0 ≤ x) (hi : x < 2 ^ 31) : toInt x = x :=
  Int.bmod_eq_of_le (by omega) (by omega)

/-- The bytes of a C string literal. -/
def ascii (s : String) : List Byte := s.toList.map Char.toUInt8
