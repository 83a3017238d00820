import PolicyDialects.Text.Chars

/-!
# Decimal numerals

* `numeral` — the decimal digits of a natural number.
* `numeralValue` — the number that a run of digits spells, leading zeros
  allowed.
* `intNumeral`, `int64?` — signed numerals, and reading one into 64 bits.
* `padded` — a numeral with at least a given number of digits.
* `hexNumeral` — the hexadecimal digits of a natural number.
-/

namespace PolicyDialects.Text

/-- The decimal digits of `n`, without leading zeros. -/
def numeral (n : Nat) : List Char := Nat.toDigits 10 n

/-- The number spelled by decimal digits. -/
def numeralValue (digits : List Char) : Nat :=
  digits.foldl (fun n c => 10 * n + (c.toNat - '0'.toNat)) 0

/-- The decimal text of an integer. -/
def intNumeral (i : Int) : List Char :=
  match i with
  | .ofNat n => numeral n
  | .negSucc n => '-' :: numeral (n + 1)

/-- Splits off a leading minus sign. -/
def takeMinus : List Char → Bool × List Char
  | '-' :: cs => (true, cs)
  | cs => (false, cs)

/-- One or more digits and nothing else. -/
def isNumeral (cs : List Char) : Bool := !cs.isEmpty && cs.all isDigit

/-- The 64-bit integer spelled by an optional minus sign and digits, when it
is in range. -/
def int64? (cs : List Char) : Option Int64 :=
  let (negative, digits) := takeMinus cs
  let magnitude : Int := numeralValue digits
  let value := if negative then -magnitude else magnitude
  if isNumeral digits ∧ Int64.minValue.toInt ≤ value ∧ value ≤ Int64.maxValue.toInt then
    some (Int64.ofInt value)
  else none

/-- The numeral of `n` with zeros in front up to `width` digits. -/
def padded (width n : Nat) : List Char := (numeral n).leftpad width '0'

/-- The lower-case hexadecimal digits of `n`, without leading zeros. -/
def hexNumeral (n : Nat) : List Char := Nat.toDigits 16 n

end PolicyDialects.Text
