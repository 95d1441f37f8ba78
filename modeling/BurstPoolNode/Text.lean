import Mathlib.Data.Vector.Basic

/-!
# Text

What the C and C++ libraries do with strings here, in the C locale and with one
character for a byte: `std::stoull` (`stoull`), the conversion `%2hhx` of
`sscanf` (`scanHex2`), `std::to_string` (`toDecimal`), and strings as C passes
them, which end at the first NUL (`cString`).
-/

namespace BurstPoolNode

/-- The end of a C string. -/
def nul : Char := Char.ofNat 0

/-- The characters up to the first NUL. -/
def cString (s : String) : String := String.ofList (s.toList.takeWhile (· ≠ nul))

/-- `isspace`. -/
def isSpace (c : Char) : Bool := c = ' ' || (9 ≤ c.toNat && c.toNat ≤ 13)

/-- The value of a hexadecimal digit. -/
def hexDigit (c : Char) : Option ℕ :=
  if '0' ≤ c ∧ c ≤ '9' then some (c.toNat - '0'.toNat)
  else if 'a' ≤ c ∧ c ≤ 'f' then some (c.toNat - 'a'.toNat + 10)
  else if 'A' ≤ c ∧ c ≤ 'F' then some (c.toNat - 'A'.toNat + 10)
  else none

/-- The value of a sequence of decimal digits. -/
def digitsValue (ds : List Char) : ℕ := ds.foldl (fun n d => 10 * n + (d.toNat - '0'.toNat)) 0

/-- A sign, and what follows it. -/
def sign : List Char → Bool × List Char
  | '-' :: cs => (true, cs)
  | '+' :: cs => (false, cs)
  | cs => (false, cs)

/-- `std::stoull`: blanks, a sign, and the digits up to the first other character.
    Without a digit (`invalid_argument`), or above 64 bits (`out_of_range`), there is
    no number; a minus sign negates modulo 2 ^ 64. -/
def stoull (s : String) : Option UInt64 :=
  let (negative, cs) := sign (s.toList.dropWhile isSpace)
  let digits := cs.takeWhile Char.isDigit
  if digits.isEmpty then none
  else if UInt64.size ≤ digitsValue digits then none
  else if negative then some (-UInt64.ofNat (digitsValue digits))
  else some (UInt64.ofNat (digitsValue digits))

/-- `std::to_string`. -/
def toDecimal (n : UInt64) : String := toString n.toNat

/-- The conversion `%2hhx` of `sscanf`: after blanks, at most two characters that begin a
    number, that is one or two digits or a sign and a digit. Of `0x` no digit is left. -/
def scanHex2 (cs : List Char) : Option UInt8 :=
  match (cs.takeWhile (· ≠ nul)).dropWhile isSpace with
  | [] => none
  | [c] => (hexDigit c).map UInt8.ofNat
  | c :: c' :: _ =>
    match hexDigit c, hexDigit c' with
    | some d, some d' => some (UInt8.ofNat (16 * d + d'))
    | some d, none => if c = '0' ∧ (c' = 'x' ∨ c' = 'X') then none else some (UInt8.ofNat d)
    | none, some d' =>
      if c = '-' then some (-UInt8.ofNat d') else if c = '+' then some (UInt8.ofNat d') else none
    | none, none => none

end BurstPoolNode
