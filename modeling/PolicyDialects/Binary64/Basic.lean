/-!
# Binary64 numbers, exactly

A finite double is kept as a whole number of units of `2 ^ (-1074)`, the
smallest positive double, so that every operation here is exact arithmetic on
natural numbers.

* `Fits` — the magnitudes that a double can hold.
* `Binary64` — NaN, the infinities, and signed magnitudes that fit.
* `roundUnits` — rounding of a quotient to 53 significant bits, a half going
  to the even neighbour; `ofUnits` and `ofDecimal` build numbers through it.
* `roundUnits_of_fits`, `ofUnits_of_fits` — a magnitude that fits is not
  changed by rounding.
-/

namespace PolicyDialects

/-- The magnitude is a multiple of its last place for 53 significant bits and
lies below the largest power of two. -/
def Binary64.Fits (units : Nat) : Prop :=
  Nat.pow 2 (units.log2 - 52) ∣ units ∧ units.log2 < 2098

instance (units : Nat) : Decidable (Binary64.Fits units) :=
  inferInstanceAs (Decidable (_ ∧ _))

/-- A double. A finite one is its sign and its magnitude in units of
`2 ^ (-1074)`; zero keeps its sign. -/
inductive Binary64 where
  | nan
  | infinite (negative : Bool)
  | finite (negative : Bool) (units : Nat) (fits : Binary64.Fits units)
  deriving DecidableEq

namespace Binary64

instance : Inhabited Binary64 := ⟨.nan⟩

/-! ## Rounding -/

/-- `num / den` rounded to a whole number, a half going to the even one. -/
def halfEven (num den : Nat) : Nat :=
  let q := num / den
  let twice := 2 * (num % den)
  if twice < den then q
  else if den < twice then q + 1
  else if q % 2 = 0 then q else q + 1

/-- `num / den` units rounded to 53 significant bits. -/
def roundUnits (num den : Nat) : Nat :=
  let shift := (num / den).log2 - 52
  halfEven num (den * Nat.pow 2 shift) * Nat.pow 2 shift

/-- The double nearest to `num / den` units, infinite beyond the range. -/
def ofUnits (negative : Bool) (num den : Nat) : Binary64 :=
  let units := roundUnits num den
  if h : Fits units then .finite negative units h else .infinite negative

theorem halfEven_mul_left (n : Nat) {den : Nat} (h : 0 < den) : halfEven (den * n) den = n := by
  simp [halfEven, Nat.mul_div_cancel_left _ h, h]

/-- Rounding leaves a magnitude that fits as it is. -/
theorem roundUnits_of_fits {units : Nat} (h : Fits units) : roundUnits units 1 = units := by
  have key : ∀ p, 0 < p → p ∣ units → halfEven units p * p = units := by
    rintro p hp ⟨k, rfl⟩
    rw [halfEven_mul_left k hp, Nat.mul_comm]
  simpa [roundUnits] using key _ (Nat.two_pow_pos _) h.1

/-- A magnitude that fits is its own nearest double. -/
theorem ofUnits_of_fits (negative : Bool) {units : Nat} (h : Fits units) :
    ofUnits negative units 1 = .finite negative units h := by
  simp [ofUnits, roundUnits_of_fits h, h]

/-! ## Decimal notation -/

/-- The number of binary places, and so of decimal places, of a unit. -/
def unitPlaces : Nat := 1074

/-- The double nearest to `digits · 10 ^ exponent`. The two guards answer
without building the power when it would be far out of range. -/
def ofDecimal (negative : Bool) (digits : Nat) (exponent : Int) : Binary64 :=
  if digits = 0 then .finite negative 0 (by decide)
  else if 310 ≤ exponent then .infinite negative
  else if 3 * exponent + digits.log2 + 1 < -1075 then .finite negative 0 (by decide)
  else if 0 ≤ exponent then
    ofUnits negative (digits * Nat.pow 10 exponent.toNat * Nat.pow 2 unitPlaces) 1
  else ofUnits negative (digits * Nat.pow 2 unitPlaces) (Nat.pow 10 (-exponent).toNat)

/-! ## Sign -/

/-- The number with the opposite sign. -/
def neg : Binary64 → Binary64
  | .nan => .nan
  | .infinite s => .infinite !s
  | .finite s u h => .finite (!s) u h

instance : Neg Binary64 := ⟨neg⟩

/-- Neither NaN nor infinite. -/
def IsFinite : Binary64 → Prop
  | .finite _ _ _ => True
  | _ => False

instance : DecidablePred IsFinite
  | .nan => isFalse id
  | .infinite _ => isFalse id
  | .finite _ _ _ => isTrue trivial

end Binary64

end PolicyDialects
