import Mathlib.Data.Int.DivMod
import Mathlib.Data.Nat.Digits.Lemmas
import Mathlib.Tactic

/-! The integers in the lines of a model file (`from_l2.cpp`). A line is what stands before the
terminating null character; what is printed on an error is left out. -/

namespace Livingstone
namespace FromL2

def notAnInteger : ℤ := -2

def anyMode : ℤ := -1

def nul : Char := Char.ofNat 0

def strAtWordBoundary (c : Char) : Bool := c = ' ' ∨ c = '\n' ∨ c = '\t' ∨ c = nul

/-- A `size_t` returned as an `int`. -/
def toInt (retval : ℕ) : ℤ := (retval : ℤ).bmod (2 ^ 32)

/-- What is returned for the number read so far when its word ends. -/
def endOfWord (index0 index retval : ℕ) : ℤ := if index0 = index then notAnInteger else toInt retval

/-- The loop, over what is left of the line; `retval` is a `size_t`. -/
def readDigits (index0 : ℕ) : List Char → ℕ → ℕ → ℤ × ℕ
  | [], index, retval => (endOfWord index0 index retval, index)
  | c :: rest, index, retval =>
    if '0' ≤ c ∧ c ≤ '9' then
      readDigits index0 rest (index + 1) ((retval * 10 + (c.toNat - 48)) % 2 ^ 64)
    else if strAtWordBoundary c then (endOfWord index0 index retval, index)
    else (notAnInteger, index)

/-- `read_integer`: what it returns, and the new index. -/
def readInteger (line : List Char) (index : ℕ) (acceptStar : Bool) : ℤ × ℕ :=
  if acceptStar ∧ line.getD index nul = '*' then (anyMode, index + 1)
  else readDigits index (line.drop index) index 0

end FromL2
end Livingstone
