import PolicyDialects.Binary64.Basic
import PolicyDialects.Text.Numeral

/-!
# Decimal text of binary64 numbers

Reading accepts an optional sign and `inf`, `infinity`, `nan` in any case, or
digits with an optional point and an optional exponent. Printing chooses the
fewest significant digits that read back as the same number, and of those the
nearest to it.

* `ofText?` — reading, rounded to the nearest double.
* `expansion` — the exact decimal expansion, `shortest` — the digits and the
  power of ten that are printed.
* `text` — printing, positional for magnitudes in `[10⁻⁴, 10¹⁶)` and always
  with a digit after the point, in exponent form elsewhere.
* `readsBack_shortest`, `ofDecimal_shortest` — the printed digits denote the
  magnitude that they stand for.
-/

namespace PolicyDialects.Binary64

open Text

/-! ## Reading -/

/-- Splits an optional sign off the front; `true` stands for minus. -/
def takeSign : List Char → Bool × List Char
  | '-' :: cs => (true, cs)
  | '+' :: cs => (false, cs)
  | cs => (false, cs)

/-- The exponent part: nothing, or `e` with an optionally signed numeral. -/
def exponent? : List Char → Option Int
  | [] => some 0
  | e :: cs =>
    let (negative, digits) := takeSign cs
    if (e == 'e' || e == 'E') && isNumeral digits then
      some (if negative then -(numeralValue digits : Int) else numeralValue digits)
    else none

/-- The digits on both sides of an optional point, and what follows. -/
def mantissa (cs : List Char) : List Char × List Char × List Char :=
  let whole := cs.takeWhile isDigit
  match cs.dropWhile isDigit with
  | '.' :: rest => (whole, rest.takeWhile isDigit, rest.dropWhile isDigit)
  | rest => (whole, [], rest)

/-- The number spelled by a decimal text. -/
def ofText? (cs : List Char) : Option Binary64 :=
  let (negative, body) := takeSign cs
  let word := foldCase body
  if word = "inf".toList ∨ word = "infinity".toList then some (.infinite negative)
  else if word = "nan".toList then some .nan
  else
    let (whole, fraction, rest) := mantissa body
    if whole.isEmpty && fraction.isEmpty then none
    else
      (exponent? rest).map fun e =>
        ofDecimal negative (numeralValue (whole ++ fraction)) (e - fraction.length)

/-! ## The shortest digits -/

/-- The number of digits that always suffices. -/
def maxDigits : Nat := 17

/-- The two neighbours of `digits · 10 ^ exponent` that have `count`
significant digits, given as the number of trailing digits to cut off; the
nearer one is first, and the upper one when both are as near. -/
def neighbours (digits cut : Nat) : List Nat :=
  let unit := Nat.pow 10 cut
  let lower := digits / unit
  let rest := digits % unit
  if rest = 0 then [lower]
  else if 2 * rest < unit then [lower, lower + 1]
  else [lower + 1, lower]

/-- `digits · 10 ^ exponent` with the trailing zeros moved into the power. -/
def stripZeros (digits : Nat) (exponent : Int) : Nat × Int :=
  if h : digits ≠ 0 ∧ digits % 10 = 0 then stripZeros (digits / 10) (exponent + 1)
  else (digits, exponent)
termination_by digits
decreasing_by omega

/-- The exact decimal expansion of a magnitude. -/
def expansion (units : Nat) : Nat × Int := (units * Nat.pow 5 unitPlaces, -unitPlaces)

/-- Digits and powers of ten near a magnitude, with 1, 2, … digits. -/
def candidates (units : Nat) : List (Nat × Int) :=
  let digits := (expansion units).1
  let length := (numeral digits).length
  (List.range maxDigits).flatMap fun count =>
    let cut := length - (count + 1)
    (neighbours digits cut).map fun d => stripZeros d (cut - unitPlaces)

/-- Whether digits and a power of ten read back as a magnitude. -/
def readsBack (units : Nat) (c : Nat × Int) : Bool :=
  decide (ofDecimal false c.1 c.2 = ofUnits false units 1)

/-- The digits and power of ten printed for a magnitude: the first candidate
that reads back as it, or else its exact decimal expansion. -/
def shortest (units : Nat) : Nat × Int :=
  ((candidates units).find? (readsBack units)).getD (expansion units)

/-- A quotient does not change when both parts are multiplied. -/
theorem halfEven_mul_right (num den : Nat) {d : Nat} (h : 0 < d) :
    halfEven (num * d) (den * d) = halfEven num den := by
  have twice : 2 * (num % den * d) = 2 * (num % den) * d := (Nat.mul_assoc _ _ _).symm
  unfold halfEven
  simp only [Nat.mul_div_mul_right _ _ h, Nat.mul_mod_mul_right, twice,
    Nat.mul_lt_mul_right h]

/-- A number of units is the same quotient over any denominator. -/
theorem ofUnits_mul_right (negative : Bool) (units : Nat) {d : Nat} (h : 0 < d) :
    ofUnits negative (units * d) d = ofUnits negative units 1 := by
  have rounded : roundUnits (units * d) d = roundUnits units 1 := by
    unfold roundUnits
    dsimp only
    rw [Nat.mul_div_cancel _ h, Nat.div_one, Nat.mul_comm d, halfEven_mul_right _ _ h, Nat.one_mul]
  unfold ofUnits
  simp only [rounded]

/-- Fives and twos make tens. -/
theorem mul_pow_five_two (units k : Nat) :
    units * Nat.pow 5 k * Nat.pow 2 k = units * Nat.pow 10 k :=
  (Nat.mul_assoc _ _ _).trans (congrArg (units * ·) (Nat.mul_pow 5 2 k).symm)

/-- A positive multiple of a power of five has at least twice as many bits. -/
theorem two_mul_le_log2 {units : Nat} (h : units ≠ 0) (k : Nat) :
    2 * k ≤ (units * Nat.pow 5 k).log2 := by
  have fives : 0 < 5 ^ k := Nat.pow_pos (by omega)
  refine (Nat.le_log2 (Nat.mul_ne_zero h (Nat.pos_iff_ne_zero.1 fives))).2 ?_
  calc 2 ^ (2 * k) = 4 ^ k := Nat.pow_mul 2 2 k
    _ ≤ 5 ^ k := Nat.pow_le_pow_left (by omega) k
    _ ≤ units * 5 ^ k := Nat.le_mul_of_pos_left _ (Nat.pos_of_ne_zero h)

/-- Powers of a positive number are positive. -/
theorem pow_pos_of_pos {b : Nat} (h : 0 < b) (k : Nat) : 0 < Nat.pow b k := Nat.pow_pos h

/-- Digits that make whole units below the point denote them. -/
theorem ofDecimal_of_large {digits units : Nat} (large : 2 * unitPlaces ≤ digits.log2)
    (scaled : digits * Nat.pow 2 unitPlaces = units * Nat.pow 10 unitPlaces) :
    ofDecimal false digits (-unitPlaces) = ofUnits false units 1 := by
  have places : unitPlaces = 1074 := rfl
  have nonzero : digits ≠ 0 := by
    intro zero
    rw [zero, places] at large
    exact absurd large (by decide)
  have low : ¬(310 : Int) ≤ -unitPlaces := by clear scaled; omega
  have high : ¬3 * -(unitPlaces : Int) + digits.log2 + 1 < -1075 := by clear scaled; omega
  have below : ¬(0 : Int) ≤ -unitPlaces := by clear scaled; omega
  unfold ofDecimal
  rw [if_neg nonzero, if_neg low, if_neg high, if_neg below, scaled, Int.neg_neg,
    Int.toNat_natCast]
  have tens : 0 < Nat.pow 10 unitPlaces := pow_pos_of_pos (by omega) unitPlaces
  generalize Nat.pow 10 unitPlaces = d at tens ⊢
  exact ofUnits_mul_right false units tens

/-- The exact decimal expansion of a magnitude denotes it. -/
theorem ofDecimal_expansion (units : Nat) :
    ofDecimal false (expansion units).1 (expansion units).2 = ofUnits false units 1 := by
  unfold expansion
  dsimp only
  by_cases h : units = 0
  · rw [h, Nat.zero_mul]
    rfl
  · exact ofDecimal_of_large (two_mul_le_log2 h unitPlaces) (mul_pow_five_two units unitPlaces)

/-- The printed digits read back as the magnitude that they are chosen for. -/
theorem readsBack_shortest (units : Nat) : readsBack units (shortest units) = true := by
  unfold shortest
  cases found : (candidates units).find? (readsBack units) with
  | none => rw [Option.getD_none]; exact decide_eq_true (ofDecimal_expansion units)
  | some c => rw [Option.getD_some]; exact List.find?_some found

/-- The printed digits denote the magnitude that they are chosen for. -/
theorem ofDecimal_shortest (units : Nat) :
    ofDecimal false (shortest units).1 (shortest units).2 = ofUnits false units 1 := by
  have back := readsBack_shortest units
  unfold readsBack at back
  generalize shortest units = c at back ⊢
  exact of_decide_eq_true back

/-! ## Layout -/

/-- Digits as written when the decimal point stands after the first `point`
of them. -/
def positional (digits : List Char) (point : Int) : List Char :=
  if point ≤ 0 then
    '0' :: '.' :: (List.replicate (-point).toNat '0' ++ digits)
  else
    let n := point.toNat
    if digits.length ≤ n then
      digits ++ List.replicate (n - digits.length) '0' ++ ['.', '0']
    else digits.take n ++ '.' :: digits.drop n

/-- Digits with the point after the first one, and the power of ten. -/
def scientific (digits : List Char) (power : Int) : List Char :=
  let fraction := match digits.drop 1 with
    | [] => []
    | rest => '.' :: rest
  digits.take 1 ++ fraction ++ 'e' :: intNumeral power

/-- Positional notation from `10⁻⁴` up to below `10¹⁶`, else exponent form. -/
def layout (digits : Nat) (exponent : Int) : List Char :=
  let ds := numeral digits
  let point := exponent + ds.length
  if -3 ≤ point ∧ point ≤ 16 then positional ds point else scientific ds (point - 1)

/-- The layout of the digits and the power of ten chosen for a magnitude. -/
def layoutOf : Nat × Int → List Char
  | (digits, exponent) => layout digits exponent

/-- A text after a minus sign, or as it is. -/
def signed (negative : Bool) (cs : List Char) : List Char := if negative then '-' :: cs else cs

/-- The printed text of a number. -/
def chars : Binary64 → List Char
  | .nan => "NaN".toList
  | .infinite negative => signed negative "inf".toList
  | .finite negative units _ =>
    signed negative (if units = 0 then "0.0".toList else layoutOf (shortest units))

/-- `chars` as a string. -/
def text (x : Binary64) : String := String.ofList x.chars

end PolicyDialects.Binary64
