import PolicyDialects.Binary64.Decimal
import PolicyDialects.Proofs.Text.Literals

/-!
# The decimal text of a double reads back

The printed text of a finite number has one shape in all its layouts: digits,
then a fraction or a power of ten or both. `Decimal` is that shape; its
reading does not depend on which layout was chosen.

Results:

* `exists_decimal_layout`: each layout of digits and a power of ten is a
  `Decimal` of the same value.
* `exists_decimal_of_finite`: the text of a finite number is an optional minus
  sign and a `Decimal` of that value.
* `ofText?_signed`: a signed `Decimal` reads as its value.
* `ofText?_chars`: the text of a finite number reads as that number.
-/

namespace PolicyDialects.Binary64

open Text

/-! ## The shape of a decimal text -/

/-- Digits, and after them a fraction or a power of ten or both. -/
structure Decimal where
  whole : List Char
  fraction : List Char
  power : Option Int
  whole_ne_nil : whole ≠ []
  isDigit_whole : ∀ c ∈ whole, isDigit c = true
  isDigit_fraction : ∀ c ∈ fraction, isDigit c = true
  marked : fraction ≠ [] ∨ power.isSome = true

namespace Decimal

/-- The point and the digits after it. -/
def fractionChars (d : Decimal) : List Char :=
  match d.fraction with
  | [] => []
  | cs => '.' :: cs

/-- The letter and the power of ten. -/
def powerChars (d : Decimal) : List Char :=
  match d.power with
  | none => []
  | some p => 'e' :: intNumeral p

/-- The text of the shape. -/
def chars (d : Decimal) : List Char := d.whole ++ (d.fractionChars ++ d.powerChars)

/-- The number that the text spells, with a sign before it. -/
def value (d : Decimal) (negative : Bool) : Binary64 :=
  ofDecimal negative (numeralValue (d.whole ++ d.fraction)) (d.power.getD 0 - d.fraction.length)

theorem stops_powerChars (d : Decimal) : Stops isDigit d.powerChars := by
  unfold powerChars
  split
  · exact stops_nil _
  · exact stops_cons (by decide) _

theorem stops_tail (d : Decimal) : Stops isDigit (d.fractionChars ++ d.powerChars) := by
  unfold fractionChars
  split
  · exact d.stops_powerChars
  · exact stops_cons (by decide) _

theorem takeWhile_chars (d : Decimal) : d.chars.takeWhile isDigit = d.whole :=
  takeWhile_append_stops d.isDigit_whole d.stops_tail

theorem dropWhile_chars (d : Decimal) :
    d.chars.dropWhile isDigit = d.fractionChars ++ d.powerChars :=
  dropWhile_append_stops d.isDigit_whole d.stops_tail

/-- The text starts with a digit. -/
theorem exists_chars_eq_cons (d : Decimal) : ∃ c cs, d.chars = c :: cs ∧ isDigit c = true := by
  obtain ⟨c, cs, h⟩ := List.exists_cons_of_ne_nil d.whole_ne_nil
  refine ⟨c, cs ++ (d.fractionChars ++ d.powerChars), by simp [chars, h], ?_⟩
  exact d.isDigit_whole c (by simp [h])

theorem powerChars_ne_nil {d : Decimal} (h : d.fraction = []) : d.powerChars ≠ [] := by
  rcases d.marked with hf | hp
  · exact absurd h hf
  · obtain ⟨p, hp⟩ := Option.isSome_iff_exists.mp hp
    simp [powerChars, hp]

end Decimal

/-! ## Reading the shape -/

theorem takeSign_digit {c : Char} (h : isDigit c = true) (cs : List Char) :
    takeSign (c :: cs) = (false, c :: cs) := by
  unfold takeSign
  split
  · rename_i heq
    exact absurd (List.cons.inj heq).1 (ne_of_isDigit h (by decide))
  · rename_i heq
    exact absurd (List.cons.inj heq).1 (ne_of_isDigit h (by decide))
  · rfl

theorem takeSign_intNumeral (p : Int) :
    takeSign (intNumeral p) = (decide (p < 0), numeral p.natAbs) := by
  cases p with
  | ofNat n =>
    obtain ⟨c, cs, h⟩ := List.exists_cons_of_ne_nil (numeral_ne_nil n)
    have hc : isDigit c = true := isDigit_of_mem_numeral (n := n) (by simp [h])
    have hnum : intNumeral (Int.ofNat n) = c :: cs := h
    rw [hnum, takeSign_digit hc]
    simp [h]
  | negSucc n =>
    have hneg : Int.negSucc n < 0 := Int.negSucc_lt_zero n
    simp [intNumeral, takeSign, hneg]

theorem exponent?_powerChars (d : Decimal) : exponent? d.powerChars = some (d.power.getD 0) := by
  unfold Decimal.powerChars
  split
  · rename_i h; rw [h]; rfl
  · rename_i p h
    unfold exponent?
    dsimp only
    rw [takeSign_intNumeral, h]
    simp only [isNumeral_numeral, numeralValue_numeral, Option.getD_some]
    rw [if_pos (by decide)]
    congr 1
    split_ifs with hp
    · have := of_decide_eq_true hp; omega
    · have : ¬p < 0 := fun hlt => hp (decide_eq_true hlt)
      omega

theorem mantissa_chars (d : Decimal) : mantissa d.chars = (d.whole, d.fraction, d.powerChars) := by
  unfold mantissa
  rw [d.takeWhile_chars, d.dropWhile_chars]
  cases hf : d.fraction with
  | nil =>
    have hpower := d.stops_powerChars
    simp only [Decimal.fractionChars, hf, List.nil_append]
    unfold Decimal.powerChars
    cases d.power <;> rfl
  | cons c cs =>
    have hcs : ∀ x ∈ c :: cs, isDigit x = true := by rw [← hf]; exact d.isDigit_fraction
    simp only [Decimal.fractionChars, hf, List.cons_append]
    rw [← List.cons_append, takeWhile_append_stops hcs d.stops_powerChars,
      dropWhile_append_stops hcs d.stops_powerChars]

/-- A text that starts with a digit is none of the words for special numbers. -/
theorem foldCase_ne_of_digit {c : Char} (h : isDigit c = true) (cs : List Char) {w : Char}
    (hw : isDigit w = false) (ws : List Char) : foldCase (c :: cs) ≠ w :: ws := by
  intro heq
  have hascii := toNat_lt_of_isDigit h
  have hlower : c.toLower = c := by
    revert h
    exact of_ascii hascii (by decide)
  have := (List.cons.inj heq).1
  rw [hlower] at this
  exact ne_of_isDigit h hw this

/-- A signed decimal text reads as its value. -/
theorem ofText?_signed (negative : Bool) (d : Decimal) :
    ofText? (signed negative d.chars) = some (d.value negative) := by
  obtain ⟨c, cs, hd, hc⟩ := d.exists_chars_eq_cons
  have hsign : takeSign (signed negative d.chars) = (negative, d.chars) := by
    cases negative with
    | true => rfl
    | false => rw [signed, hd]; exact takeSign_digit hc cs
  have hinf : foldCase d.chars ≠ "inf".toList := hd ▸ foldCase_ne_of_digit hc cs (by decide) _
  have hinfinity : foldCase d.chars ≠ "infinity".toList :=
    hd ▸ foldCase_ne_of_digit hc cs (by decide) _
  have hnan : foldCase d.chars ≠ "nan".toList := hd ▸ foldCase_ne_of_digit hc cs (by decide) _
  unfold ofText?
  simp only [hsign, mantissa_chars, hinf, hinfinity, hnan, or_self, if_false,
    exponent?_powerChars, Option.map_some]
  rw [if_neg (by simp [d.whole_ne_nil])]
  rfl

/-! ## Layouts have the shape -/

theorem isDigit_of_mem_zeros {k : Nat} {c : Char} (h : c ∈ List.replicate k '0') :
    isDigit c = true := by
  rw [List.eq_of_mem_replicate h]; decide

/-- A power of ten may be written out as zeros, the last of them behind the
point. -/
theorem ofDecimal_zeros (negative : Bool) (digits : Nat) {k : Nat} (hk : k < 300) :
    ofDecimal negative (digits * Nat.pow 10 (k + 1)) (-1) = ofDecimal negative digits k := by
  by_cases h : digits = 0
  · subst h; simp [ofDecimal]
  have hne : digits * Nat.pow 10 (k + 1) ≠ 0 :=
    Nat.mul_ne_zero h (Nat.ne_of_gt (Nat.pow_pos (by decide)))
  unfold ofDecimal
  rw [if_neg hne, if_neg (by omega), if_neg (by omega), if_neg (by omega), if_neg h,
    if_neg (by omega), if_neg (by omega), if_pos (by omega)]
  have hten : Nat.pow 10 (-(-1 : Int)).toNat = 10 := rfl
  have hscaled : digits * Nat.pow 10 (k + 1) * Nat.pow 2 unitPlaces =
      digits * Nat.pow 10 k * Nat.pow 2 unitPlaces * 10 := by
    have hsucc : Nat.pow 10 (k + 1) = Nat.pow 10 k * 10 := rfl
    rw [hsucc, ← Nat.mul_assoc, Nat.mul_right_comm]
  rw [hten, hscaled, Int.toNat_natCast]
  exact ofUnits_mul_right negative _ (by omega)

/-- The digits stand behind `0.` and zeros. -/
theorem exists_decimal_below {digits : Nat} {exponent : Int}
    (h : exponent + (numeral digits).length ≤ 0) :
    ∃ d : Decimal, d.chars = positional (numeral digits) (exponent + (numeral digits).length) ∧
      ∀ negative, d.value negative = ofDecimal negative digits exponent := by
  set zeros := List.replicate (-(exponent + (numeral digits).length)).toNat '0' with hz
  have hf : ∀ c ∈ zeros ++ numeral digits, isDigit c = true := by
    intro c hc
    rcases List.mem_append.mp hc with hc | hc
    · exact isDigit_of_mem_zeros hc
    · exact isDigit_of_mem_numeral hc
  have hne : zeros ++ numeral digits ≠ [] := by simp [numeral_ne_nil]
  refine ⟨⟨['0'], zeros ++ numeral digits, none, by simp, by decide, hf, .inl hne⟩, ?_, ?_⟩
  · obtain ⟨c, cs, hcs⟩ := List.exists_cons_of_ne_nil hne
    simp only [Decimal.chars, Decimal.fractionChars, Decimal.powerChars, positional, if_pos h,
      ← hz, hcs]
    simp
  · intro negative
    unfold Decimal.value
    congr 1
    · rw [← List.append_assoc]
      have := numeralValue_zeros_append ((-(exponent + (numeral digits).length)).toNat + 1)
        (numeral digits)
      rw [List.replicate_succ] at this
      simpa [hz, numeralValue_numeral] using this
    · have hl : zeros.length = (-(exponent + (numeral digits).length)).toNat := by simp [hz]
      simp only [Option.getD_none, List.length_append, hl]
      omega

/-- The digits and zeros stand before `.0`. -/
theorem exists_decimal_above {digits n : Nat} {exponent : Int}
    (hn : exponent + (numeral digits).length = n) (hbound : n < 300)
    (h : (numeral digits).length ≤ n) :
    ∃ d : Decimal, d.chars = numeral digits ++
        List.replicate (n - (numeral digits).length) '0' ++ ['.', '0'] ∧
      ∀ negative, d.value negative = ofDecimal negative digits exponent := by
  set k := n - (numeral digits).length with hk
  have hw : ∀ c ∈ numeral digits ++ List.replicate k '0', isDigit c = true := by
    intro c hc
    rcases List.mem_append.mp hc with hc | hc
    · exact isDigit_of_mem_numeral hc
    · exact isDigit_of_mem_zeros hc
  refine ⟨⟨numeral digits ++ List.replicate k '0', ['0'], none, by simp [numeral_ne_nil], hw,
    by decide, .inl (by simp)⟩, ?_, ?_⟩
  · simp [Decimal.chars, Decimal.fractionChars, Decimal.powerChars]
  · intro negative
    have he : exponent = k := by omega
    rw [he, ← ofDecimal_zeros negative digits (by omega : k < 300)]
    unfold Decimal.value
    congr 1
    have := numeralValue_append_zeros (numeral digits) (k + 1)
    rw [List.replicate_succ', ← List.append_assoc, numeralValue_numeral] at this
    exact this

/-- The point stands between two of the digits. -/
theorem exists_decimal_between {digits n : Nat} {exponent : Int}
    (hn : exponent + (numeral digits).length = n) (hpos : 0 < n)
    (h : n < (numeral digits).length) :
    ∃ d : Decimal, d.chars = (numeral digits).take n ++ '.' :: (numeral digits).drop n ∧
      ∀ negative, d.value negative = ofDecimal negative digits exponent := by
  have hw : (numeral digits).take n ≠ [] := by
    intro hnil
    have := congrArg List.length hnil
    rw [List.length_take, List.length_nil] at this
    omega
  have hf : (numeral digits).drop n ≠ [] := by
    intro hnil
    have := congrArg List.length hnil
    rw [List.length_drop, List.length_nil] at this
    omega
  refine ⟨⟨(numeral digits).take n, (numeral digits).drop n, none, hw,
    fun c hc => isDigit_of_mem_numeral (List.mem_of_mem_take hc),
    fun c hc => isDigit_of_mem_numeral (List.mem_of_mem_drop hc), .inl hf⟩, ?_, ?_⟩
  · obtain ⟨c, cs, hcs⟩ := List.exists_cons_of_ne_nil hf
    simp only [Decimal.chars, Decimal.fractionChars, Decimal.powerChars, hcs]
    simp
  · intro negative
    unfold Decimal.value
    simp only [List.take_append_drop, numeralValue_numeral, Option.getD_none, List.length_drop]
    congr 1
    omega

/-- The point stands behind the first digit, and a power of ten at the end. -/
theorem exists_decimal_scientific (digits : Nat) (exponent : Int) :
    ∃ d : Decimal, d.chars =
        scientific (numeral digits) (exponent + (numeral digits).length - 1) ∧
      ∀ negative, d.value negative = ofDecimal negative digits exponent := by
  have hlen : 0 < (numeral digits).length := List.length_pos_iff.mpr (numeral_ne_nil digits)
  have hw : (numeral digits).take 1 ≠ [] := by
    intro hnil
    have := congrArg List.length hnil
    rw [List.length_take, List.length_nil] at this
    omega
  refine ⟨⟨(numeral digits).take 1, (numeral digits).drop 1,
    some (exponent + (numeral digits).length - 1), hw,
    fun c hc => isDigit_of_mem_numeral (List.mem_of_mem_take hc),
    fun c hc => isDigit_of_mem_numeral (List.mem_of_mem_drop hc), .inr rfl⟩, ?_, ?_⟩
  · simp only [Decimal.chars, Decimal.fractionChars, Decimal.powerChars, scientific]
    cases (numeral digits).drop 1 <;> exact (List.append_assoc _ _ _).symm
  · intro negative
    unfold Decimal.value
    simp only [List.take_append_drop, numeralValue_numeral, Option.getD_some, List.length_drop]
    congr 1
    omega

/-- Every layout of digits and a power of ten is a decimal text of the same
value. -/
theorem exists_decimal_layout (digits : Nat) (exponent : Int) :
    ∃ d : Decimal, d.chars = layout digits exponent ∧
      ∀ negative, d.value negative = ofDecimal negative digits exponent := by
  unfold layout
  dsimp only
  split_ifs with hrange
  · by_cases hbelow : exponent + (numeral digits).length ≤ 0
    · exact exists_decimal_below hbelow
    · obtain ⟨n, hn⟩ := Int.eq_ofNat_of_zero_le (by omega : 0 ≤ exponent + (numeral digits).length)
      unfold positional
      rw [if_neg hbelow, hn]
      dsimp only [Int.toNat_natCast]
      split_ifs with hlen
      · exact exists_decimal_above hn (by omega) hlen
      · exact exists_decimal_between hn (by omega) (by omega)
  · exact exists_decimal_scientific digits exponent

/-! ## Finite numbers -/

theorem ofDecimal_zero (negative : Bool) (exponent : Int) :
    ofDecimal negative 0 exponent = .finite negative 0 (by decide) := if_pos rfl

/-- The sign of a quotient has no part in its rounding. -/
theorem ofUnits_negative {num den units : Nat} {h : Fits units} (negative : Bool)
    (heq : ofUnits false num den = .finite false units h) :
    ofUnits negative num den = .finite negative units h := by
  unfold ofUnits at heq ⊢
  dsimp only at heq ⊢
  split_ifs at heq ⊢ with hfits
  · cases heq; rfl

/-- The sign of a decimal number has no part in its rounding. -/
theorem ofDecimal_negative {digits units : Nat} {exponent : Int} {h : Fits units}
    (negative : Bool) (heq : ofDecimal false digits exponent = .finite false units h) :
    ofDecimal negative digits exponent = .finite negative units h := by
  unfold ofDecimal at heq ⊢
  split_ifs at heq ⊢
  · cases heq; rfl
  · cases heq; rfl
  · exact ofUnits_negative negative heq
  · exact ofUnits_negative negative heq

theorem chars_finite (negative : Bool) {units : Nat} (h : Fits units) :
    chars (.finite negative units h) =
      signed negative (if units = 0 then "0.0".toList else layoutOf (shortest units)) := rfl

/-- The text of a finite number is a decimal text of its value, perhaps after
a minus sign. -/
theorem exists_decimal_of_finite (negative : Bool) {units : Nat} (h : Fits units) :
    ∃ d : Decimal, chars (.finite negative units h) = signed negative d.chars ∧
      d.value negative = .finite negative units h := by
  by_cases hz : units = 0
  · subst hz
    exact ⟨⟨['0'], ['0'], none, by simp, by decide, by decide, .inl (by simp)⟩, rfl,
      ofDecimal_zero negative _⟩
  · -- the digits are kept opaque, or their definition would be evaluated
    have hs := ofDecimal_shortest units
    rw [chars_finite, if_neg hz]
    generalize shortest units = c at hs ⊢
    obtain ⟨digits, exponent⟩ := c
    obtain ⟨d, hd, hv⟩ := exists_decimal_layout digits exponent
    rw [ofUnits_of_fits false h] at hs
    exact ⟨d, by rw [hd]; rfl, (hv negative).trans (ofDecimal_negative negative hs)⟩

/-- The text of a finite number reads as that number. -/
theorem ofText?_chars {x : Binary64} (h : x.IsFinite) : ofText? x.chars = some x := by
  cases x with
  | nan => exact h.elim
  | infinite _ => exact h.elim
  | finite negative units fits =>
    obtain ⟨d, hd, hv⟩ := exists_decimal_of_finite negative fits
    rw [hd, ofText?_signed, hv]

end PolicyDialects.Binary64
